import VerilogLoops.Yaml.Character
/-!
# Scalars over several lines

Inside a scalar a line break is not kept as it is. The blanks on both sides of it are dropped. A
break on its own becomes a blank, and in a row of breaks the first one is dropped. What is written
as an escape is not touched by this, and an escaped line break is no break at all.
-/

namespace VerilogLoops.Yaml

/-- A piece of a scalar. -/
inductive Piece where
  /-- A character as it is written. -/
  | bare (c : Char)
  /-- A character by an escape. -/
  | escaped (c : Char)
  /-- An escaped line break. -/
  | joint
deriving DecidableEq, Repr

/-- The blanks or the breaks since the last other character. -/
inductive Pending where
  | blanks (cs : List Char)
  /-- The first break, unless it is escaped, and those behind it. -/
  | breaks (first : Option Char) (more : List Char)
deriving DecidableEq, Repr

/-- What blanks or breaks come to in the end. -/
def Pending.flush : Pending → List Char
  | .blanks cs => cs
  | .breaks none more => more
  | .breaks (some b) more =>
    if b ≠ '\n' then b :: more else if more.isEmpty then [' '] else more

/-- One blank more. At the head of a line it is dropped. -/
def Pending.addBlank (c : Char) : Pending → Pending
  | .blanks cs => .blanks (cs ++ [c])
  | p => p

/-- One break more. Blanks in front of it are dropped. -/
def Pending.addBreak (c : Char) : Pending → Pending
  | .blanks _ => .breaks (some c) []
  | .breaks first more => .breaks first (more ++ [c])

/-- The characters of a scalar, given what is pending in front of its pieces. -/
def foldPieces : Pending → List Piece → List Char
  | pending, [] => pending.flush
  | pending, .bare c :: rest =>
    if c = ' ' || c = '\t' then foldPieces (pending.addBlank c) rest
    else if isBreak c then foldPieces (pending.addBreak c) rest
    else pending.flush ++ c :: foldPieces (.blanks []) rest
  | pending, .escaped c :: rest => pending.flush ++ c :: foldPieces (.blanks []) rest
  | pending, .joint :: rest => pending.flush ++ foldPieces (.breaks none []) rest

/-- The characters of a scalar. -/
def folded (pieces : List Piece) : List Char :=
  foldPieces (.blanks []) pieces

end VerilogLoops.Yaml
