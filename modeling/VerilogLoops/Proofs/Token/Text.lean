import VerilogLoops.Proofs.Token.Exclusive

/-!
# The texts of tokens

What is known about the text of a leaf without the text around it: a token with spellings is one of
its words, a string stands in quotes, and the name of a system task begins with a dollar sign.
-/

namespace VerilogLoops.Lexical

open VerilogLoops.Text

/-- The token takes exactly this text off the head of some text. -/
def Token.Writes (t : Token) (text : String) : Prop :=
  ∃ rest, t.length? (text.toList ++ rest) = some text.toList.length

/-- The words of a token with spellings. -/
def Token.words (t : Token) : List String :=
  t.spellings.map fun s => String.ofList s.text

/-- The word of a token that has only one. -/
def Token.word? (t : Token) : Option String :=
  match t.spellings with
  | [s] => some (String.ofList s.text)
  | _ => none

/-- The form of the text of a token. -/
def Token.HasForm (t : Token) (text : String) : Prop :=
  match t with
  | .string => ∃ inner, text = "\"" ++ inner ++ "\""
  | .systemName => ∃ name, text = "$" ++ name
  | .endOfInput => text = ""
  | t =>
    match t.word? with
    | some word => text = word
    | none => t.isSpelled = true → text ∈ t.words

/-- The inside of a string ends in a quote. -/
theorem stringEnd?_quote {cs : List Char} {n : Nat} (h : stringEnd? cs = some n) :
    ∃ inner, cs.take n = inner ++ ['"'] := by
  fun_induction stringEnd? cs generalizing n with
  | case1 => cases h
  | case2 rest =>
    cases h
    exact ⟨[], rfl⟩
  | case3 => cases h
  | case4 => cases h
  | case5 c rest hc ih =>
    obtain ⟨m, hm, rfl⟩ := Option.map_eq_some_iff.1 h
    obtain ⟨inner, hinner⟩ := ih hm
    refine ⟨'\\' :: c :: inner, ?_⟩
    rw [Nat.add_comm, List.take_succ_cons, List.take_succ_cons, hinner]
    rfl
  | case6 => cases h
  | case7 c rest _ _ _ hc ih =>
    obtain ⟨m, hm, rfl⟩ := Option.map_eq_some_iff.1 h
    obtain ⟨inner, hinner⟩ := ih hm
    refine ⟨c :: inner, ?_⟩
    rw [Nat.add_comm, List.take_succ_cons, hinner]
    rfl

/-- The text of a token with spellings is one of its words. -/
theorem Token.Writes.mem_words {t : Token} {text : String} (h : t.Writes text) (hs : t.isSpelled = true) :
    text ∈ t.words := by
  obtain ⟨rest, h⟩ := h
  rw [Token.length?_of_isSpelled hs] at h
  obtain ⟨s, hs, hfit, hlen⟩ := firstFit_eq_some h
  obtain ⟨rest', heq, -⟩ := Spelling.fits_iff.1 hfit
  have htext := (List.append_inj heq hlen.symm).1
  exact List.mem_map.2 ⟨s, hs, by rw [← htext, String.ofList_toList]⟩

/-- A string is its quotes and what is between them. -/
theorem exists_of_string? {text : String} {rest : List Char}
    (h : string? (text.toList ++ rest) = some text.toList.length) :
    ∃ inner : String, text = "\"" ++ inner ++ "\"" := by
  unfold string? at h
  split at h
  · next more heq =>
    obtain ⟨m, hm, hlen⟩ := Option.map_eq_some_iff.1 h
    obtain ⟨inner, hinner⟩ := stringEnd?_quote hm
    have htake : text.toList = '"' :: (inner ++ ['"']) := by
      have := congrArg (List.take text.toList.length) heq
      rw [List.take_left, ← hlen, Nat.add_comm, List.take_succ_cons, hinner] at this
      exact this
    refine ⟨String.ofList inner, ?_⟩
    rw [← String.ofList_toList (s := text), htake]
    apply String.toList_injective
    simp [String.toList_append]
  · cases h

/-- The name of a system task begins with a dollar sign. -/
theorem exists_of_systemName? {text : String} {rest : List Char}
    (h : systemName? (text.toList ++ rest) = some text.toList.length) :
    ∃ name : String, text = "$" ++ name := by
  unfold systemName? at h
  split at h
  · next more heq =>
    cases hl : text.toList with
    | nil =>
      rw [hl] at h
      split at h
      · cases h
      · split at h <;> simp at h
    | cons c cs =>
      rw [hl, List.cons_append] at heq
      cases heq
      refine ⟨String.ofList cs, ?_⟩
      apply String.toList_injective
      simp [String.toList_append, hl]
  · cases h

/-- The text of a leaf has the form of its token. -/
theorem Token.Writes.hasForm {t : Token} {text : String} (h : t.Writes text) :
    t.HasForm text := by
  have ofSpelled : t.isSpelled = true → text ∈ t.words := h.mem_words
  obtain ⟨rest, h⟩ := h
  cases t with
  | string => exact exists_of_string? h
  | systemName => exact exists_of_systemName? h
  | endOfInput =>
    have hlen := (length?_endOfInput.1 h).2
    apply String.toList_injective
    rw [List.length_eq_zero_iff.1 hlen]
    rfl
  | _ =>
    simp only [Token.HasForm]
    split
    · next word hword =>
      unfold Token.word? at hword
      split at hword
      · next s hs =>
        cases hword
        have := ofSpelled (by simp [Token.isSpelled, hs])
        simpa [Token.words, hs] using this
      · cases hword
    · exact ofSpelled

end VerilogLoops.Lexical
