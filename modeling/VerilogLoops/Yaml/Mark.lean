import VerilogLoops.Yaml.Character
/-!
# Places in YAML texts

A node is remembered with the line and the column at which it starts. In a message the place is
shown with the part of the line around it and with a caret below.
-/

namespace VerilogLoops.Yaml

/-- A place by its line and column, both counted from zero. -/
structure Mark where
  line : Nat
  column : Nat
deriving DecidableEq, Repr

/-- A text in which every kind of line end is a line feed, except for the separators of lines and
paragraphs. -/
def unifyBreaks : List Char → List Char
  | [] => []
  | '\r' :: '\n' :: rest => '\n' :: unifyBreaks rest
  | c :: rest => (if c = '\r' || c = '\x85' then '\n' else c) :: unifyBreaks rest

/-- The line of a text with some number. -/
def lineAt : Nat → List Char → List Char
  | 0, cs => cs.takeWhile fun c => !isBreak c
  | _ + 1, [] => []
  | n + 1, c :: rest => if isBreak c then lineAt n rest else lineAt (n + 1) rest

/-- The most characters of a line that are shown on one side of a place. -/
def snippetReach : Nat := 36

/-- The number of characters that give way to dots where a line is cut. -/
def dotsWidth : Nat := 5

/-- The part of a line around a column, and the place in words in front of it. -/
def Mark.display (text : String) (mark : Mark) : String :=
  let line := lineAt mark.line (unifyBreaks text.toList)
  let isCutBefore := snippetReach < mark.column
  let isCutBehind := snippetReach < line.length - mark.column
  let start := if isCutBefore then mark.column - (snippetReach + 1) + dotsWidth else 0
  let stop := if isCutBehind then mark.column + (snippetReach + 1) - dotsWidth else line.length
  let front := if isCutBefore then " ... " else ""
  let back := if isCutBehind then " ... " else ""
  let caret := 4 + (mark.column - start) + front.length
  s!"  in \"<unicode string>\", line {mark.line + 1}, column {mark.column + 1}:\n    " ++ front
    ++ String.ofList ((line.take stop).drop start) ++ back ++ "\n"
    ++ String.ofList (List.replicate caret ' ') ++ "^"

end VerilogLoops.Yaml
