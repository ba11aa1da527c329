import VerilogLoops.Text.Blank
/-!
# Trivia

What may stand between two tokens without meaning anything: blanks and comments. A line comment
runs from `//` to the end of its line, the line feed not included. A block comment runs from `/*`
to the next `*/`; it does not nest, and without its end it is no comment at all.
-/

namespace VerilogLoops.Text

/-- The length of a line comment at the head of a text. -/
def lineComment? : List Char → Option Nat
  | '/' :: '/' :: rest => some (2 + (rest.takeWhile (· ≠ '\n')).length)
  | _ => none

/-- The length of a text up to the first `*/`, which counts too. -/
def blockEnd? : List Char → Option Nat
  | '*' :: '/' :: _ => some 2
  | _ :: rest => (blockEnd? rest).map (· + 1)
  | [] => none

/-- The length of a block comment at the head of a text. -/
def blockComment? : List Char → Option Nat
  | '/' :: '*' :: rest => (blockEnd? rest).map (2 + ·)
  | _ => none

/-- The length of a comment of either kind at the head of a text. -/
def comment? (cs : List Char) : Option Nat :=
  (lineComment? cs).or (blockComment? cs)

/-- A comment is at least its opening mark. -/
theorem comment?_pos {cs : List Char} {n : Nat} (h : comment? cs = some n) : 0 < n := by
  unfold comment? lineComment? blockComment? at h
  split at h
  · simp at h
    omega
  · split at h
    · simp at h
      omega
    · simp at h

/-- A comment lies inside the text it is found in, which is therefore not empty. -/
theorem length_pos_of_comment? {cs : List Char} {n : Nat} (h : comment? cs = some n) :
    0 < cs.length := by
  cases cs with
  | nil => simp [comment?, lineComment?, blockComment?] at h
  | cons c r => simp

/-- The length of the blanks and comments at the head of a text, of which the first `inside`
characters are known to belong to a comment. Comments are those that `comment` finds. -/
def triviaFrom (comment : List Char → Option Nat) : Nat → List Char → Nat
  | _, [] => 0
  | inside + 1, _ :: rest => 1 + triviaFrom comment inside rest
  | 0, c :: rest =>
    if isBlank c then 1 + triviaFrom comment 0 rest
    else match comment (c :: rest) with
      | none => 0
      | some n => 1 + triviaFrom comment (n - 1) rest

/-- The length of the trivia at the head of a text: blanks and comments in any order. -/
def triviaLength (cs : List Char) : Nat :=
  triviaFrom comment? 0 cs

/-- The length of the opening of a text: the blanks and line comments in front of the first block
comment or token. -/
def openingLength (cs : List Char) : Nat :=
  triviaFrom lineComment? 0 cs

/-- Blanks and comments end inside the text. -/
theorem triviaFrom_le (comment : List Char → Option Nat) (cs : List Char) :
    ∀ inside, triviaFrom comment inside cs ≤ cs.length := by
  induction cs with
  | nil => simp [triviaFrom]
  | cons c rest ih =>
    intro inside
    cases inside with
    | succ n =>
      have := ih n
      simp only [triviaFrom, List.length_cons]
      omega
    | zero =>
      simp only [triviaFrom, List.length_cons]
      split
      · have := ih 0
        omega
      · split
        · omega
        · next n _ =>
          have := ih (n - 1)
          omega

/-- Trivia ends inside the text. -/
theorem triviaLength_le (cs : List Char) : triviaLength cs ≤ cs.length :=
  triviaFrom_le comment? cs 0

/-- The opening ends inside the text. -/
theorem openingLength_le (cs : List Char) : openingLength cs ≤ cs.length :=
  triviaFrom_le lineComment? cs 0

end VerilogLoops.Text
