import VerilogLoops.Grammar.Match
/-!
# Parsing a text

A text is parsed from its start as any symbol of the grammar, either leaving alone what stands
behind it or up to the end of the text. A text that does not match is reported with the furthest
offset at which matching failed. No offset inside the opening of the text is reported, that is, in
front of the end of its first blanks and line comments: nothing could have matched there.
-/

namespace VerilogLoops.Grammar

open VerilogLoops.Lexical VerilogLoops.Text

/-- A symbol of the grammar. -/
inductive Symbol where
  | token (t : Token)
  | phrase (p : Phrase)
deriving DecidableEq, Repr

/-- The name of a symbol in a parse tree. -/
def Symbol.name : Symbol → String
  | .token t => t.name
  | .phrase p => p.name

/-- The symbols that have a name. -/
def Symbol.all : List Symbol :=
  Token.all.map .token ++ Phrase.all.map .phrase

/-- The symbol of a name. -/
def Symbol.ofName? (name : String) : Option Symbol :=
  Symbol.all.find? (·.name = name)

/-- A symbol as a pattern. -/
def Symbol.pattern : Symbol → Pattern
  | .token t => .token t
  | .phrase p => .phrase p

/-- Why a text has no parse tree. -/
inductive Mismatch where
  /-- Matching failed, at this offset at the furthest. -/
  | furthest (offset : Nat)
  /-- The fuel ran out. -/
  | exhausted
deriving DecidableEq, Repr

/-- Fuel for a text: one unit for every phrase at every offset. -/
def fuelFor (text : List Char) : Nat :=
  Phrase.all.length * (text.length + 1)

/-- Matches a pattern at the start of a text. -/
def Pattern.run (pattern : Pattern) (text : List Char) : Option Outcome :=
  (pattern.matcher (Phrase.matcher (fuelFor text)) (.first text) (.empty text.length)).map (·.1)

/-- The mismatch of a text in which matching came to an offset. -/
def Mismatch.reaching (text : List Char) (reach : Nat) : Mismatch :=
  .furthest (max reach (openingLength text))

/-- The tree of a symbol at the start of a text and the place behind it. -/
def Symbol.parse (symbol : Symbol) (text : List Char) : Except Mismatch (ParseTree × Place) :=
  match symbol.pattern.run text with
  | some (.matched (tree :: _) after _) => .ok (tree, after)
  | some (.matched [] _ reach) => .error (.reaching text reach)
  | some (.failed reach) => .error (.reaching text reach)
  | none => .error .exhausted

/-- The tree of a text that is nothing but a symbol, and the end of the text. -/
def Symbol.parseWhole (symbol : Symbol) (text : List Char) : Except Mismatch (ParseTree × Place) :=
  match (Pattern.seq symbol.pattern (.token .endOfInput)).run text with
  | some (.matched trees after _) => .ok (.node .whole trees, after)
  | some (.failed reach) => .error (.reaching text reach)
  | none => .error .exhausted

end VerilogLoops.Grammar
