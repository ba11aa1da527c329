import VerilogLoops.Text.Location
import VerilogLoops.Text.Digit
import VerilogLoops.Text.Word
import VerilogLoops.Text.Trivia
import VerilogLoops.Grammar.Symbol
import VerilogLoops.Document.Data
import VerilogLoops.Document.Inspect
import VerilogLoops.Ast.Value
import VerilogLoops.Ast.Layout
import VerilogLoops.Ast.Build
import VerilogLoops.Ast.Encode
import VerilogLoops.Ast.Decode
import VerilogLoops.Json.Writer
import VerilogLoops.Json.Reader
import VerilogLoops.Parse
import VerilogLoops.Ast.Parts
import VerilogLoops.Ast.Types
import VerilogLoops.Yaml.Writer
import VerilogLoops.Yaml.Reader
import VerilogLoops.Proofs.Derivation
import VerilogLoops.Proofs.Token.Length
import VerilogLoops.Proofs.Progress
import VerilogLoops.Proofs.Matching
import VerilogLoops.Proofs.Token.Exclusive
import VerilogLoops.Proofs.Opening
import VerilogLoops.Proofs.Reading
import VerilogLoops.Proofs.Token.Text
import VerilogLoops.Proofs.Form
import VerilogLoops.Proofs.Ink
import VerilogLoops.Proofs.Polish
import VerilogLoops.Proofs.Piece
import VerilogLoops.Proofs.Making
import VerilogLoops.Proofs.Making.Names
import VerilogLoops.Proofs.Making.Expressions
import VerilogLoops.Proofs.Making.Statements
import VerilogLoops.Proofs.Making.Loops
import VerilogLoops.Proofs.Making.Operations
import VerilogLoops.Proofs.Building
import VerilogLoops.Proofs.Parsing
import VerilogLoops.Proofs.Leaves
import VerilogLoops.Proofs.Token.Trivia
import VerilogLoops.Proofs.Tiling
import VerilogLoops.Proofs.Layout
import VerilogLoops.Proofs.Statement.Dollar
import VerilogLoops.Proofs.Statement.Exchange
import VerilogLoops.Proofs.Statement.Simple
import VerilogLoops.Proofs.Statement.Return
import VerilogLoops.Proofs.Statement.Order
import VerilogLoops.Proofs.Statement.Accepted
import VerilogLoops.Proofs.Composition
import VerilogLoops.Proofs.Composition.Names
import VerilogLoops.Proofs.Composition.Expressions
import VerilogLoops.Proofs.Composition.Statements
import VerilogLoops.Proofs.Composition.Loops
import VerilogLoops.Proofs.Spread
import VerilogLoops.Proofs.Typing
import VerilogLoops.Proofs.Positions
import VerilogLoops.Proofs.Clear
import VerilogLoops.Proofs.Completeness.Declarations
import VerilogLoops.Proofs.Completeness.Phrases
import VerilogLoops.Proofs.Exclusion
import VerilogLoops.Proofs.Statement.Compound
import VerilogLoops.Proofs.Encoding
import VerilogLoops.Proofs.Json
import VerilogLoops.Proofs.Serialization
import VerilogLoops.Proofs.Agreement
import VerilogLoops.Proofs.Yaml.Escaping
import VerilogLoops.Proofs.Yaml.Scalar
import VerilogLoops.Proofs.Statement.Complete
import VerilogLoops.Proofs.Statement.Taken
import VerilogLoops.Proofs.Token.Cut
import VerilogLoops.Proofs.Transcript
import VerilogLoops.Proofs.Spans
import VerilogLoops.Proofs.Token.Gap
import VerilogLoops.Proofs.Token.Border
import VerilogLoops.Proofs.Neighbours
import VerilogLoops.Proofs.Inked
import VerilogLoops.Proofs.Extension
import VerilogLoops.Proofs.Continuation
import VerilogLoops.Proofs.Termination
import VerilogLoops.Proofs.Laying
import VerilogLoops.Proofs.Unplaced
import VerilogLoops.Proofs.Written
import VerilogLoops.Proofs.Bindings
import VerilogLoops.Proofs.Initializers
import VerilogLoops.Proofs.Respacing
import VerilogLoops.Proofs.Wording
import VerilogLoops.Proofs.Precedence
import VerilogLoops.Proofs.Foremost
import VerilogLoops.Proofs.Polished
import VerilogLoops.Proofs.Apart
import VerilogLoops.Proofs.Escaped
import VerilogLoops.Proofs.RoundTrip
import VerilogLoops.Proofs.Moving
import VerilogLoops.Proofs.Pieces
import VerilogLoops.Proofs.Grouping
import VerilogLoops.Proofs.Headers
import VerilogLoops.Proofs.Slots
import VerilogLoops.Proofs.Decoding
import VerilogLoops.Proofs.Acceptance
import VerilogLoops.Proofs.Rearrangement
import VerilogLoops.Proofs.NearestIf
import VerilogLoops.Proofs.Token.LineEnds
import VerilogLoops.Proofs.LineEnds
import VerilogLoops.Proofs.Operators
import VerilogLoops.Proofs.Keywords
import VerilogLoops.Proofs.Parts
import VerilogLoops.Proofs.Damaged
import VerilogLoops.Proofs.Dangling
import VerilogLoops.Proofs.Standalone
import VerilogLoops.Proofs.Prefixes
