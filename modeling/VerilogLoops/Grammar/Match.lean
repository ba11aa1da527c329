import VerilogLoops.Grammar.Rules
import VerilogLoops.Grammar.ParseTree
/-!
# Matching

A pattern is matched at a place in the text. The outcome is the trees of what was matched and the
place behind it, or a failure; both come with the furthest offset at which a token or a predicate
failed on the way, which is what a syntax error reports.

The same phrase is tried many times at the same offset, so every outcome of a phrase is noted in a
table and looked up before the phrase is matched again. Without the table the time would double
with every level of nesting.

Matching consumes fuel whenever a phrase is entered, and runs dry only if a phrase is entered again
at an offset where it is still open. `Symbol.parse` provides one unit for every phrase at every
offset.
-/

namespace VerilogLoops.Grammar

open VerilogLoops.Text VerilogLoops.Lexical

/-- A place in a text: an offset and the text from there on. -/
structure Place where
  offset : Nat
  rest : List Char
deriving DecidableEq, Repr

/-- The first place of a text. -/
def Place.first (text : List Char) : Place :=
  ⟨0, text⟩

/-- The place some characters further on, or the end of the text. -/
def Place.skip (place : Place) (n : Nat) : Place :=
  ⟨place.offset + (place.rest.take n).length, place.rest.drop n⟩

/-- What comes of matching. -/
inductive Outcome where
  /-- The trees of what was matched, the place behind it, and the furthest offset of a failure. -/
  | matched (trees : List ParseTree) (after : Place) (reach : Nat)
  /-- No match, and the furthest offset of a failure. -/
  | failed (reach : Nat)
deriving Repr

/-- The furthest offset of a failure on the way; zero if there was none. -/
def Outcome.reach : Outcome → Nat
  | .matched _ _ reach => reach
  | .failed reach => reach

/-- The outcome when failures up to an offset came before. -/
def Outcome.since (earlier : Nat) : Outcome → Outcome
  | .matched trees after reach => .matched trees after (max earlier reach)
  | .failed reach => .failed (max earlier reach)

/-- The outcome when some trees were matched in front of it. -/
def Outcome.behind (earlier : List ParseTree) : Outcome → Outcome
  | .matched trees after reach => .matched (earlier ++ trees) after reach
  | .failed reach => .failed reach

/-- The outcome with what was matched made the children of one node. -/
def Outcome.under (label : Label) : Outcome → Outcome
  | .matched trees after reach => .matched [.node label trees] after reach
  | .failed reach => .failed reach

/-- The outcomes of phrases noted so far, by the offset at which the phrase was tried. -/
structure Memo where
  rows : Array (List (Phrase × Outcome))

/-- A table without notes for a text of the given length. -/
def Memo.empty (length : Nat) : Memo :=
  ⟨Array.replicate (length + 1) []⟩

/-- The outcome noted for a phrase at an offset. -/
def Memo.find? (memo : Memo) (p : Phrase) (offset : Nat) : Option Outcome :=
  (memo.rows[offset]?).bind (·.lookup p)

/-- The table with one more note. -/
def Memo.insert (memo : Memo) (p : Phrase) (offset : Nat) (outcome : Outcome) : Memo :=
  ⟨memo.rows.modify offset ((p, outcome) :: ·)⟩

/-- A matcher: from a place and a table to an outcome and a table, unless the fuel runs out. -/
abbrev Matcher := Place → Memo → Option (Outcome × Memo)

/-- A token is matched behind the trivia in front of it. -/
def Outcome.ofToken (t : Token) (place : Place) : Outcome :=
  let here := place.skip (triviaLength place.rest)
  match t.length? here.rest with
  | some n =>
    -- nothing failed on the way
    .matched [.leaf t here.offset (String.ofList (here.rest.take n))] (here.skip n) 0
  | none => .failed here.offset

/-- As many matches in a row as possible. The bound counts the attempts. -/
def Matcher.many (body : Matcher) : Nat → Matcher
  | 0, _, _ => none
  | bound + 1, place, memo =>
    match body place memo with
    | none => none
    | some (.failed reach, memo) => some (.matched [] place reach, memo)
    | some (.matched trees after reach, memo) =>
      match many body bound after memo with
      | none => none
      | some (outcome, memo) => some ((outcome.behind trees).since reach, memo)

/-- As many separators with an item behind them as possible. The bound counts the attempts. -/
def Matcher.tail (separator : Token) (item : Matcher) : Nat → Matcher
  | 0, _, _ => none
  | bound + 1, place, memo =>
    match Outcome.ofToken separator place with
    | .failed reach => some (.matched [] place reach, memo)
    | .matched mark between reach =>
      match item between memo with
      | none => none
      -- the separator stays among the trees, though the match ends in front of it
      | some (.failed further, memo) => some (.matched mark place (max reach further), memo)
      | some (.matched trees after further, memo) =>
        match tail separator item bound after memo with
        | none => none
        | some (outcome, memo) =>
          some ((outcome.behind (mark ++ trees)).since (max reach further), memo)

/-- Matches a pattern, given how to match a phrase. An item of a repetition takes at least one
character, so there are no more items than characters, and one attempt that fails. -/
def Pattern.matcher (enter : Phrase → Matcher) : Pattern → Matcher
  | .token t, place, memo => some (Outcome.ofToken t place, memo)
  | .phrase p, place, memo => enter p place memo
  | .seq first second, place, memo =>
    match first.matcher enter place memo with
    | none => none
    | some (.failed reach, memo) => some (.failed reach, memo)
    | some (.matched trees after reach, memo) =>
      match second.matcher enter after memo with
      | none => none
      | some (outcome, memo) => some ((outcome.behind trees).since reach, memo)
  | .alt first second, place, memo =>
    match first.matcher enter place memo with
    | none => none
    | some (.matched trees after reach, memo) => some (.matched trees after reach, memo)
    | some (.failed reach, memo) =>
      match second.matcher enter place memo with
      | none => none
      | some (outcome, memo) => some (outcome.since reach, memo)
  | .opt body, place, memo =>
    match body.matcher enter place memo with
    | none => none
    | some (.matched trees after reach, memo) => some (.matched trees after reach, memo)
    | some (.failed reach, memo) => some (.matched [] place reach, memo)
  | .many body, place, memo =>
    Matcher.many (body.matcher enter) (place.rest.length + 1) place memo
  | .tail separator item, place, memo =>
    Matcher.tail separator (item.matcher enter) (place.rest.length + 1) place memo
  | .absent body, place, memo =>
    match body.matcher enter place memo with
    | none => none
    -- a predicate fails where it was asked
    | some (.matched _ _ reach, memo) => some (.failed (max reach place.offset), memo)
    | some (.failed reach, memo) => some (.matched [] place reach, memo)

/-- Matches a phrase, from the table if its outcome is noted there. -/
def Phrase.matcher : Nat → Phrase → Matcher
  | 0, _, _, _ => none
  | fuel + 1, p, place, memo =>
    match memo.find? p place.offset with
    | some outcome => some (outcome, memo)
    | none =>
      match p.body.matcher (Phrase.matcher fuel) place memo with
      | none => none
      | some (outcome, memo) =>
        some (outcome.under (.phrase p), memo.insert p place.offset (outcome.under (.phrase p)))

end VerilogLoops.Grammar
