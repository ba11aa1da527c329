import VerilogLoops.Yaml.Character
/-!
# Block scalars

A scalar may stand on lines of its own behind a mark: a bar keeps its line breaks, an angle folds
them as in other scalars, unless the lines next to a break start with a blank. The first line with
text gives the indentation, or a digit behind the mark does. A plus sign behind the mark keeps all
breaks at the end, a minus sign none of them, and without a sign one is kept.
-/

namespace VerilogLoops.Yaml

/-- What is kept of the breaks at the end of a block scalar. -/
inductive Chomping where
  | one | none | all
deriving DecidableEq, Repr

/-- The sign for the end of a block scalar, if there is one, and the text behind it. -/
def chompingAt : List Char → Chomping × List Char
  | '+' :: rest => (.all, rest)
  | '-' :: rest => (.none, rest)
  | cs => (.one, cs)

/-- The digit for the indentation of a block scalar, if there is one, and the text behind it. -/
def indentationAt : List Char → Option Nat × List Char
  | c :: rest => if c.isDigit then (some (c.toNat - '0'.toNat), rest) else (none, c :: rest)
  | [] => (none, [])

/-- The text behind the rest of a line that holds nothing but blanks and a comment. -/
def behindLine? (cs : List Char) : Option (List Char) :=
  let rest := cs.dropWhile (· = ' ')
  let rest := if headIs (· = '#') rest then rest.dropWhile fun c => !isBreak c else rest
  if headIsOrEnd isBreak rest then some (rest.drop 1) else none

/-- The sign and the digit behind the mark of a block scalar, in any order, and the text from the
next line on. -/
def blockHeader? (cs : List Char) : Option (Chomping × Option Nat × List Char) := do
  let (early, rest) := chompingAt cs
  let (digit, rest) := indentationAt rest
  let (chomping, rest) := if early = .one then chompingAt rest else (early, rest)
  if digit = some 0 || !headIsOrEnd (fun c => c = ' ' || isBreak c) rest then none
  else return (chomping, digit, ← behindLine? rest)

/-- Breaks and the indentation of a line. -/
structure Gap where
  breaks : List Char
  /-- The column behind the indentation. -/
  column : Nat
  /-- The text from the head of the line on. -/
  line : List Char
  /-- The text behind the indentation. -/
  rest : List Char
deriving DecidableEq, Repr

/-- Breaks and the indentation of the line behind them, at most to a column. -/
def gapFrom (indent : Nat) (line : List Char) : Nat → List Char → Gap
  | column, [] => ⟨[], column, line, []⟩
  | column, c :: rest =>
    if c = ' ' && column < indent then gapFrom indent line (column + 1) rest
    else if isBreak c then
      let gap := gapFrom indent rest 0 rest
      { gap with breaks := c :: gap.breaks }
    else ⟨[], column, line, c :: rest⟩

/-- The largest column of the blanks in front of a text and on the empty lines above it. -/
def deepestColumn : Nat → List Char → Nat
  | column, [] => column
  | column, c :: rest =>
    if c = ' ' then deepestColumn (column + 1) rest
    else if isBreak c then max column (deepestColumn 0 rest)
    else column

/-- The lines behind a gap, the first of them behind some break, and the text behind the last one.
Every line takes a character, so fuel for every character is enough. -/
def blockLines (isFolded : Bool) (chomping : Chomping) (indent : Nat) :
    Nat → List Char → Gap → List Char × List Char
  | 0, _, gap => ([], gap.line)
  | fuel + 1, ending, gap =>
    if gap.column ≠ indent || gap.rest.isEmpty then
      ((if chomping = .none then [] else ending) ++ (if chomping = .all then gap.breaks else []),
        gap.line)
    else
      let line := gap.rest.takeWhile fun c => !isBreak c
      let behind := gap.rest.dropWhile fun c => !isBreak c
      let ending := behind.take 1
      let next := gapFrom indent (behind.drop 1) 0 (behind.drop 1)
      let isLast := next.column ≠ indent || next.rest.isEmpty
      let isIndented := headIs fun c => c = ' ' || c = '\t'
      let isJoined :=
        isFolded && ending = ['\n'] && !isIndented gap.rest && !isIndented next.rest
      let joint :=
        if isLast then []
        else if isJoined then if next.breaks.isEmpty then [' '] else []
        else ending
      let (text, after) := blockLines isFolded chomping indent fuel ending next
      (gap.breaks ++ line ++ joint ++ text, after)

/-- The block scalar behind its mark, indented at least so far, and the text behind it. -/
def blockScalar? (isFolded : Bool) (least : Nat) (cs : List Char) :
    Option (List Char × List Char) := do
  let (chomping, digit, rest) ← blockHeader? cs
  let least := max 1 least
  let indent := match digit with
    | some n => least + n - 1
    | none => max least (deepestColumn 0 rest)
  return blockLines isFolded chomping indent (rest.length + 1) [] (gapFrom indent rest 0 rest)

end VerilogLoops.Yaml
