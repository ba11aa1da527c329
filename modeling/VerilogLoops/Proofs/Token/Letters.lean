import VerilogLoops.Lexical.Token

/-!
# Spellings letter by letter

The spellings are written as strings, and to look into one its letters are decoded from their octets.
In a fact about the spellings of all tokens, or about the tokens of one text, the kernel would spend most
of its work on that. So the letters are decoded once.

> `Token.spelled`, and `Token.spelled_eq`: they are the spellings of the token.
-/

namespace VerilogLoops.Lexical

/-- The spellings of a token with their letters written out. It is the simplifier that writes them. -/
def Token.lettered (t : Token) : {spellings : List Spelling // t.spellings = spellings} := by
  cases t <;>
    exact ⟨_, by
      simp only [spellings, reservedWords, List.map, Spelling.plain, Spelling.notBefore,
        Spelling.keyword, Spelling.wholeWord, String.reduceToList]
      rfl⟩

/-- The spellings of a token, to be looked into. -/
def Token.spelled (t : Token) : List Spelling := t.lettered.1

theorem Token.spelled_eq (t : Token) : t.spelled = t.spellings := t.lettered.2.symm

/-- What is true of the letters of the reserved words is true of the words. -/
theorem all_reservedWords {p : List Char → Bool}
    (h : Token.reservedWord.spelled.all (p ·.text) = true)
    {word : String} (hw : word ∈ reservedWords) : p word.toList = true := by
  rw [Token.spelled_eq] at h
  exact List.all_eq_true.1 h _ (List.mem_map_of_mem hw)

end VerilogLoops.Lexical
