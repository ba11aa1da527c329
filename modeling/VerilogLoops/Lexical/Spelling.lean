import VerilogLoops.Text.Word
/-!
# Spellings

Keywords, operators and punctuation are fixed texts. Which of several such texts stands at an
offset often depends on the character behind it: `|` is not the binary operator in front of `|` or
`=`, and `for` is no keyword in front of a letter. A *spelling* is a fixed text together with what
may not follow it, and a token made of spellings takes the first of them that fits.
-/

namespace VerilogLoops.Lexical

open VerilogLoops.Text

/-- What may not follow a spelling. -/
inductive Barrier where
  /-- Anything may follow: nothing is barred. -/
  | nothing
  /-- None of these characters may follow. -/
  | among (cs : List Char)
  /-- No letter or number of any script and no underscore may follow. -/
  | word
  /-- No character of an identifier may follow. -/
  | identifier
deriving DecidableEq, Repr

/-- The barrier stops at this character. -/
def Barrier.bars : Barrier → Char → Bool
  | .nothing, _ => false
  | .among cs, c => cs.contains c
  | .word, c => isWordCharacter c
  | .identifier, c => isIdentifierCharacter c

/-- A fixed text and what may not follow it. -/
structure Spelling where
  text : List Char
  barrier : Barrier
deriving DecidableEq, Repr

/-- The spelling stands at the head of the text. The end of the text is never barred. -/
def Spelling.fits (s : Spelling) (cs : List Char) : Bool :=
  s.text.isPrefixOf cs &&
    match cs.drop s.text.length with
    | [] => true
    | c :: _ => !s.barrier.bars c

/-- The length of the first of some spellings that stands at the head of a text. -/
def firstFit (spellings : List Spelling) (cs : List Char) : Option Nat :=
  (spellings.find? (·.fits cs)).map (·.text.length)

/-- A text that anything may follow. -/
def Spelling.plain (text : String) : Spelling :=
  ⟨text.toList, .nothing⟩

/-- A text that none of the given characters may follow. -/
def Spelling.notBefore (text barred : String) : Spelling :=
  ⟨text.toList, .among barred.toList⟩

/-- A text that no word character may follow. -/
def Spelling.keyword (text : String) : Spelling :=
  ⟨text.toList, .word⟩

/-- A text that no identifier character may follow. -/
def Spelling.wholeWord (text : String) : Spelling :=
  ⟨text.toList, .identifier⟩

/-- What fits is a prefix, so the length found does not run past the end. -/
theorem firstFit_le {spellings : List Spelling} {cs : List Char} {n : Nat}
    (h : firstFit spellings cs = some n) : n ≤ cs.length := by
  simp only [firstFit, Option.map_eq_some_iff] at h
  obtain ⟨s, hs, rfl⟩ := h
  have hf := List.find?_some hs
  simp only [Spelling.fits, Bool.and_eq_true] at hf
  exact (List.isPrefixOf_iff_prefix.1 hf.1).length_le

end VerilogLoops.Lexical
