import VerilogLoops.Proofs.Token.Letters

/-!
# The length of a token

A token lies inside the text at whose head it is found, and every token but the end of the input has
at least one character. This is what makes matching come to an end.
-/

namespace VerilogLoops.Lexical

open VerilogLoops.Text

/-- The bounds of a token of a text: at least one character, and not past the end. -/
def Within (cs : List Char) (n : Nat) : Prop := 1 ≤ n ∧ n ≤ cs.length

theorem length_takeWhile_le (p : Char → Bool) (cs : List Char) :
    (cs.takeWhile p).length ≤ cs.length :=
  (List.takeWhile_sublist p).length_le

/-! ## Names and strings -/

theorem identifier?_within {cs : List Char} {n : Nat} (h : identifier? cs = some n) :
    Within cs n := by
  unfold identifier? at h
  split at h
  · next c rest =>
    have := length_takeWhile_le isIdentifierCharacter rest
    split at h <;> simp only [Option.some.injEq, reduceCtorEq] at h
    simp only [Within, List.length_cons]
    omega
  · cases h

theorem escapedIdentifier?_within {cs : List Char} {n : Nat}
    (h : escapedIdentifier? cs = some n) : Within cs n := by
  unfold escapedIdentifier? at h
  split at h
  · next rest =>
    have := length_takeWhile_le isGraphic rest
    split at h <;> simp only [Option.some.injEq, reduceCtorEq] at h
    simp only [Within, List.length_cons]
    omega
  · cases h

theorem systemName?_within {cs : List Char} {n : Nat} (h : systemName? cs = some n) :
    Within cs n := by
  unfold systemName? at h
  split at h
  · next rest =>
    have := length_takeWhile_le isIdentifierCharacter rest
    split at h
    · cases h
    · split at h <;> simp only [Option.some.injEq, reduceCtorEq] at h
      simp only [Within, List.length_cons]
      omega
  · cases h

theorem stringEnd?_le {cs : List Char} {n : Nat} (h : stringEnd? cs = some n) :
    n ≤ cs.length := by
  fun_induction stringEnd? cs generalizing n with
  | case1 => cases h
  | case2 rest => simp only [Option.some.injEq] at h; simp only [List.length_cons]; omega
  | case3 => cases h
  | case4 => cases h
  | case5 c rest hc ih =>
    obtain ⟨m, hm, rfl⟩ := Option.map_eq_some_iff.1 h
    have := ih hm
    simp only [List.length_cons]
    omega
  | case6 => cases h
  | case7 c rest _ _ _ hc ih =>
    obtain ⟨m, hm, rfl⟩ := Option.map_eq_some_iff.1 h
    have := ih hm
    simp only [List.length_cons]
    omega

theorem string?_within {cs : List Char} {n : Nat} (h : string? cs = some n) : Within cs n := by
  unfold string? at h
  split at h
  · obtain ⟨m, hm, rfl⟩ := Option.map_eq_some_iff.1 h
    have := stringEnd?_le hm
    simp only [Within, List.length_cons]
    omega
  · cases h

/-! ## Numbers -/

theorem runLength_le (p : Char → Bool) (cs : List Char) : runLength p cs ≤ cs.length :=
  length_takeWhile_le p cs

theorem decimal?_within {cs : List Char} {n : Nat} (h : decimal? cs = some n) : Within cs n := by
  unfold decimal? at h
  split at h
  · next c rest =>
    have := runLength_le (fun d => isDecimalDigit d || d = '_') rest
    split at h <;> simp only [Option.some.injEq, reduceCtorEq] at h
    simp only [Within, List.length_cons]
    omega
  · cases h

theorem base?_within {cs : List Char} {n : Nat} (h : base? cs = some n) : Within cs n := by
  unfold base? at h
  split at h
  · next c rest =>
    split at h
    · simp only [Option.some.injEq] at h
      simp only [Within, List.length_cons]
      omega
    · split at h
      · split at h
        · split at h <;> simp only [Option.some.injEq, reduceCtorEq] at h
          simp only [Within, List.length_cons]
          omega
        · cases h
      · cases h
  · cases h

theorem basedDigits?_within {cs : List Char} {n : Nat} (h : basedDigits? cs = some n) :
    Within cs n := by
  unfold basedDigits? at h
  split at h
  · next c rest =>
    have := runLength_le (fun d => isBasedDigit d || d = '_') rest
    split at h <;> simp only [Option.some.injEq, reduceCtorEq] at h
    simp only [Within, List.length_cons]
    omega
  · cases h

theorem basedNumber?_within {cs : List Char} {n : Nat} (h : basedNumber? cs = some n) :
    Within cs n := by
  simp only [basedNumber?, Option.bind_eq_bind, Option.bind_eq_some_iff, Option.pure_def,
    Option.some.injEq] at h
  obtain ⟨b, hb, d, hd, rfl⟩ := h
  have h1 := base?_within hb
  have h2 := basedDigits?_within hd
  simp only [Within, List.length_drop] at h1 h2 ⊢
  omega

theorem fraction?_within {cs : List Char} {n : Nat} (h : fraction? cs = some n) :
    Within cs n := by
  unfold fraction? at h
  split at h
  · obtain ⟨m, hm, rfl⟩ := Option.map_eq_some_iff.1 h
    have := decimal?_within hm
    simp only [Within, List.length_cons] at this ⊢
    omega
  · cases h

theorem exponent?_within {cs : List Char} {n : Nat} (h : exponent? cs = some n) :
    Within cs n := by
  unfold exponent? at h
  split at h
  · split at h
    · split at h <;>
      · obtain ⟨m, hm, rfl⟩ := Option.map_eq_some_iff.1 h
        have := decimal?_within hm
        simp only [Within, List.length_cons] at this ⊢
        omega
    · cases h
  · cases h

theorem scientificNumber?_within {cs : List Char} {n : Nat}
    (h : scientificNumber? cs = some n) : Within cs n := by
  simp only [scientificNumber?, Option.bind_eq_bind, Option.bind_eq_some_iff, Option.pure_def,
    Option.some.injEq] at h
  obtain ⟨w, hw, e, he, rfl⟩ := h
  have h1 := decimal?_within hw
  have h2 := exponent?_within he
  simp only [Within, List.length_drop] at h1 h2 ⊢
  omega

theorem fractionalNumber?_within {cs : List Char} {n : Nat}
    (h : fractionalNumber? cs = some n) : Within cs n := by
  simp only [fractionalNumber?, Option.bind_eq_bind, Option.bind_eq_some_iff, Option.pure_def,
    Option.some.injEq] at h
  obtain ⟨w, hw, f, hf, rfl⟩ := h
  have h1 := decimal?_within hw
  have h2 := fraction?_within hf
  simp only [Within, List.length_drop] at h1 h2 ⊢
  omega

theorem unbasedBit?_within {cs : List Char} {n : Nat} (h : unbasedBit? cs = some n) :
    Within cs n := by
  unfold unbasedBit? at h
  split at h
  · split at h <;> simp only [Option.some.injEq, reduceCtorEq] at h
    simp only [Within, List.length_cons]
    omega
  · cases h

theorem number?_within {cs : List Char} {n : Nat} (h : number? cs = some n) : Within cs n := by
  simp only [number?, Option.or_eq_some_iff] at h
  rcases h with h | ⟨-, h | ⟨-, h | ⟨-, h | ⟨-, h⟩⟩⟩⟩
  · exact basedNumber?_within h
  · exact scientificNumber?_within h
  · exact fractionalNumber?_within h
  · exact decimal?_within h
  · exact unbasedBit?_within h

/-! ## Comments -/

theorem lineComment?_within {cs : List Char} {n : Nat} (h : lineComment? cs = some n) :
    Within cs n := by
  unfold lineComment? at h
  split at h
  · next rest =>
    have := length_takeWhile_le (· ≠ '\n') rest
    simp only [Option.some.injEq] at h
    simp only [Within, List.length_cons]
    omega
  · cases h

theorem blockEnd?_le {cs : List Char} {n : Nat} (h : blockEnd? cs = some n) :
    n ≤ cs.length := by
  fun_induction blockEnd? cs generalizing n with
  | case1 rest => simp only [Option.some.injEq] at h; simp only [List.length_cons]; omega
  | case2 c rest _ ih =>
    obtain ⟨m, hm, rfl⟩ := Option.map_eq_some_iff.1 h
    have := ih hm
    simp only [List.length_cons]
    omega
  | case3 => cases h

theorem blockComment?_within {cs : List Char} {n : Nat} (h : blockComment? cs = some n) :
    Within cs n := by
  unfold blockComment? at h
  split at h
  · obtain ⟨m, hm, rfl⟩ := Option.map_eq_some_iff.1 h
    have := blockEnd?_le hm
    simp only [Within, List.length_cons]
    omega
  · cases h

/-! ## All tokens -/

/-- No token is spelled with the empty text. -/
theorem Token.text_ne_nil (t : Token) {s : Spelling} (h : s ∈ t.spellings) : s.text ≠ [] := by
  have key : ∀ t : Token, ∀ s ∈ t.spelled, s.text ≠ [] := by decide +kernel
  exact key t s (t.spelled_eq ▸ h)

theorem firstFit_within {t : Token} {cs : List Char} {n : Nat}
    (h : firstFit t.spellings cs = some n) : Within cs n := by
  refine ⟨?_, firstFit_le h⟩
  simp only [firstFit, Option.map_eq_some_iff] at h
  obtain ⟨s, hs, rfl⟩ := h
  have := t.text_ne_nil (List.mem_of_find?_eq_some hs)
  exact List.length_pos_iff.2 this

/-- Every token but the end of the input has at least one character and lies inside the text. -/
theorem Token.length?_within {t : Token} {cs : List Char} {n : Nat} (ht : t ≠ .endOfInput)
    (h : t.length? cs = some n) : Within cs n := by
  cases t with
  | lineComment => exact lineComment?_within h
  | blockComment => exact blockComment?_within h
  | identifier => exact identifier?_within h
  | escapedIdentifier => exact escapedIdentifier?_within h
  | systemName => exact systemName?_within h
  | number => exact number?_within h
  | string => exact string?_within h
  | endOfInput => exact absurd rfl ht
  | _ => exact firstFit_within h

/-- The end of the input is found where nothing is left. -/
theorem length?_endOfInput {cs : List Char} {n : Nat} :
    Token.length? .endOfInput cs = some n ↔ cs = [] ∧ n = 0 := by
  cases cs <;> simp [Token.length?, eq_comm]

/-- A token lies inside the text. -/
theorem Token.length?_le {t : Token} {cs : List Char} {n : Nat} (h : t.length? cs = some n) :
    n ≤ cs.length := by
  by_cases ht : t = .endOfInput
  · subst ht
    have := (length?_endOfInput.1 h).2
    omega
  · exact (Token.length?_within ht h).2

end VerilogLoops.Lexical
