import VerilogLoops.Ast.Build
import VerilogLoops.Grammar.Symbol
import VerilogLoops.Text.Location
import VerilogLoops.Text.Source
/-!
# Loop statements from source text

The ways into the library: a text that is nothing but one loop statement, a loop statement at the
start of a longer text, a loop statement in a file, and any symbol of the grammar on its own. All
of them give a syntax tree whose nodes know where they stand, or the place of the syntax error.
-/

namespace VerilogLoops

open VerilogLoops.Text VerilogLoops.Grammar VerilogLoops.Ast VerilogLoops.Document

/-- Why a text has no syntax tree. -/
inductive ParseError where
  /-- The text does not match, at this place at the furthest. -/
  | mismatch (location : Location)
  /-- The fuel of the matcher ran out. -/
  | exhausted
  /-- The parse tree lacks a part. -/
  | build (error : BuildError)
deriving DecidableEq, Repr

/-- What comes of parsing: what the text stands for, its parse tree and the text behind it. -/
structure Parsed where
  built : Built
  tree : ParseTree
  rest : List Char
deriving Repr

/-- The position of a place in a text of some origin. -/
def positionAt (origin : String) (location : Location) : Position :=
  ⟨.text origin, .int location.line, .int location.column⟩

/-- The parse tree of a text as a symbol, and the text behind it. The whole text has to match if
that is asked for. -/
def parseTree (symbol : Symbol) (whole : Bool) (text : List Char) :
    Except ParseError (ParseTree × Place) :=
  match if whole then symbol.parseWhole text else symbol.parse text with
  | .ok found => .ok found
  | .error (.furthest offset) => .error (.mismatch (Location.ofOffset text offset))
  | .error .exhausted => .error .exhausted

/-- What a parse tree stands for in a text of some origin. -/
def buildIn (origin : String) (text : List Char) (tree : ParseTree) : Except ParseError Built :=
  let table := LocationTable.of text
  match buildTree (fun offset => positionAt origin (table.locate offset)) tree with
  | .ok built => .ok built
  | .error e => .error (.build e)

/-- Parses a text as any symbol of the grammar. -/
def parseSymbol (symbol : Symbol) (whole : Bool) (origin text : String) :
    Except ParseError Parsed := do
  let (tree, after) ← parseTree symbol whole text.toList
  return ⟨← buildIn origin text.toList tree, tree, after.rest⟩

/-- Parses a text that is nothing but one loop statement. -/
def parse (origin text : String) : Except ParseError Value := do
  return (← parseSymbol (.phrase .loopUnit) false origin text).built.toValue

/-- Parses a loop statement at the start of a text, and gives the text behind it too. -/
def parsePrefix (origin text : String) : Except ParseError (Value × String) := do
  let parsed ← parseSymbol (.phrase .loop) false origin text
  return (parsed.built.toValue, String.ofList (text.toList.drop parsed.tree.stop))

/-- Why a file has no syntax tree. -/
inductive FileError where
  | notFound (name : String)
  /-- The octets are not UTF-8. -/
  | notText
  /-- The text has no syntax tree. -/
  | parse (origin : String) (error : ParseError)
deriving DecidableEq, Repr

/-- Parses a file in a directory that is nothing but one loop statement, given its contents if it
exists. The path of the file is the origin of every node. -/
def parseFile (directory name : String) (contents : Option ByteArray) : Except FileError Value :=
  match contents with
  | none => .error (.notFound name)
  | some octets =>
    match sourceText? octets with
    | none => .error .notText
    | some text =>
      let origin := pathIn directory name
      match parse origin text with
      | .ok v => .ok v
      | .error e => .error (.parse origin e)

end VerilogLoops
