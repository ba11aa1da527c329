import Mathlib.Data.List.TakeWhile
import VerilogLoops.Proofs.Token.Exclusive
import VerilogLoops.Proofs.Token.Trivia

/-!
# Tokens of a text that is cut

Which token stands at the head of a text may depend on what stands behind it, but only in one way:
more text may turn a token into a longer one or into none. So a token stays what it is when the text
is cut behind it.

> `Token.length?_take`: a token is found in a text that is cut behind it.

For names and strings this is plain. A number has five forms, and the text that is cut away must not
be what kept an earlier form from fitting; no form does, as what fits the beginning of a text is the
beginning of what fits the text.
-/

namespace VerilogLoops.Lexical

open VerilogLoops.Text

variable {cs : List Char} {m n : Nat}

/-! ## Names and strings -/

theorem identifier?_take (h : identifier? cs = some n) (hm : n ≤ m) :
    identifier? (cs.take m) = some n := by
  unfold identifier? at h
  split at h
  · next c rest =>
    split at h
    · next hc =>
      cases h
      obtain ⟨k, rfl⟩ : ∃ k, m = k + 1 := ⟨m - 1, by omega⟩
      rw [List.take_succ_cons, identifier?, if_pos hc, takeWhile_take (by omega)]
    · cases h
  · cases h

theorem escapedIdentifier?_take (h : escapedIdentifier? cs = some n) (hm : n ≤ m) :
    escapedIdentifier? (cs.take m) = some n := by
  unfold escapedIdentifier? at h
  split at h
  · next rest =>
    split at h
    · cases h
    · next name hname =>
      cases h
      obtain ⟨k, rfl⟩ : ∃ k, m = k + 1 := ⟨m - 1, by omega⟩
      rw [List.take_succ_cons, escapedIdentifier?, takeWhile_take (by omega)]
      split
      · next hnil => exact absurd hnil hname
      · rfl
  · cases h

theorem systemName?_take (h : systemName? cs = some n) (hm : n ≤ m) :
    systemName? (cs.take m) = some n := by
  unfold systemName? at h
  split at h
  · next rest =>
    split at h
    · cases h
    · next name hname =>
      split at h
      · cases h
      · next hscope =>
        cases h
        obtain ⟨k, rfl⟩ : ∃ k, m = k + 1 := ⟨m - 1, by omega⟩
        rw [List.take_succ_cons, systemName?, takeWhile_take (by omega)]
        split
        · next hnil => exact absurd hnil hname
        · rw [if_neg hscope]
  · cases h

theorem stringEnd?_take {cs : List Char} {m n : Nat} (h : stringEnd? cs = some n) (hm : n ≤ m) :
    stringEnd? (cs.take m) = some n := by
  fun_induction stringEnd? cs generalizing n m with
  | case1 => cases h
  | case2 rest =>
    cases h
    obtain ⟨k, rfl⟩ : ∃ k, m = k + 1 := ⟨m - 1, by omega⟩
    rfl
  | case3 => cases h
  | case4 => cases h
  | case5 c rest hc ih =>
    obtain ⟨l, hl, rfl⟩ := Option.map_eq_some_iff.1 h
    obtain ⟨k, rfl⟩ : ∃ k, m = k + 2 := ⟨m - 2, by omega⟩
    simp only [List.take_succ_cons, stringEnd?, if_neg hc, ih hl (show l ≤ k by omega),
      Option.map_some]
  | case6 => cases h
  | case7 c rest hquote hslash hescape hc ih =>
    obtain ⟨l, hl, rfl⟩ := Option.map_eq_some_iff.1 h
    obtain ⟨k, rfl⟩ : ∃ k, m = k + 1 := ⟨m - 1, by omega⟩
    have hplain : c ≠ '\\' := by
      rintro rfl
      cases rest with
      | nil => exact hslash rfl rfl
      | cons d rest => exact hescape d rest rfl rfl
    have := ih hl (show l ≤ k by omega)
    rw [List.take_succ_cons, stringEnd?.eq_def]
    split <;> simp_all

theorem string?_take (h : string? cs = some n) (hm : n ≤ m) : string? (cs.take m) = some n := by
  unfold string? at h
  split at h
  · next rest =>
    obtain ⟨l, hl, rfl⟩ := Option.map_eq_some_iff.1 h
    obtain ⟨k, rfl⟩ : ∃ k, m = k + 1 := ⟨m - 1, by omega⟩
    rw [List.take_succ_cons, string?, stringEnd?_take hl (by omega), Option.map_some]
  · cases h

/-! ## Numbers -/

theorem runLength_take (p : Char → Bool) (cs : List Char) (m : Nat) :
    runLength p (cs.take m) = min (runLength p cs) m := by
  unfold runLength
  rcases Nat.le_total (cs.takeWhile p).length m with h | h
  · rw [takeWhile_take h, Nat.min_eq_left h]
  · have hall : ∀ c ∈ cs.take m, p c = true := by
      intro c hc
      obtain ⟨rest, hrest⟩ := List.takeWhile_prefix p (l := cs)
      rw [← hrest, List.take_append_of_le_length h] at hc
      exact List.all_eq_true.1 List.all_takeWhile c (List.mem_of_mem_take hc)
    have hlen : m ≤ cs.length := Nat.le_trans h (length_takeWhile_le p cs)
    rw [List.takeWhile_eq_self_iff.2 hall, List.length_take, Nat.min_eq_left hlen,
      Nat.min_eq_right h]

/-- A decimal number at the head of a text is cut where the text is. -/
theorem decimal?_take (hm : 0 < m) : decimal? (cs.take m) = (decimal? cs).map (min · m) := by
  obtain ⟨k, rfl⟩ : ∃ k, m = k + 1 := ⟨m - 1, by omega⟩
  cases cs with
  | nil => rfl
  | cons c rest =>
    simp only [List.take_succ_cons, decimal?]
    split
    · rw [runLength_take, Option.map_some]
      congr 1
      omega
    · rfl

theorem basedDigits?_take (hm : 0 < m) :
    basedDigits? (cs.take m) = (basedDigits? cs).map (min · m) := by
  obtain ⟨k, rfl⟩ : ∃ k, m = k + 1 := ⟨m - 1, by omega⟩
  cases cs with
  | nil => rfl
  | cons c rest =>
    simp only [List.take_succ_cons, basedDigits?]
    split
    · rw [runLength_take, Option.map_some]
      congr 1
      omega
    · rfl

/-- A base is found in a text that is cut behind it. -/
theorem base?_take (h : base? cs = some n) (hm : n ≤ m) : base? (cs.take m) = some n := by
  unfold base? at h
  split at h
  · next c rest =>
    split at h
    · next hc =>
      cases h
      obtain ⟨k, rfl⟩ : ∃ k, m = k + 2 := ⟨m - 2, by omega⟩
      simp only [List.take_succ_cons, base?, if_pos hc]
    · next hc =>
      split at h
      · next hs =>
        split at h
        · next d rest =>
          split at h
          · next hd =>
            cases h
            obtain ⟨k, rfl⟩ : ∃ k, m = k + 3 := ⟨m - 3, by omega⟩
            simp only [List.take_succ_cons, base?, if_neg hc, if_pos hs, if_pos hd]
          · cases h
        · cases h
      · cases h
  · cases h

/-- A base stays what it is whatever stands behind it. -/
theorem base?_append (h : base? cs = some n) (rest : List Char) : base? (cs ++ rest) = some n := by
  unfold base? at h
  split at h
  · next c cs =>
    simp only [List.cons_append, base?]
    split at h
    · next hc => rw [if_pos hc, h]
    · next hc =>
      rw [if_neg hc]
      split at h
      · next hs =>
        rw [if_pos hs]
        split at h
        · next d cs =>
          split at h
          · next hd => simp only [List.cons_append, if_pos hd, h]
          · cases h
        · cases h
      · cases h
  · cases h

/-- A base of the beginning of a text is one of the text. -/
theorem base?_of_take (h : base? (cs.take m) = some n) : base? cs = some n := by
  have := base?_append h (cs.drop m)
  rwa [List.take_append_drop] at this

theorem getD_decimal?_take (hm : 0 < m) :
    (decimal? (cs.take m)).getD 0 = min ((decimal? cs).getD 0) m := by
  rw [decimal?_take hm]
  cases decimal? cs <;> simp

theorem pos_of_some {f : List Char → Option Nat} (hf : f [] = none) (h : f (cs.take m) = some n) :
    0 < m := by
  rcases Nat.eq_zero_or_pos m with rfl | hm
  · rw [List.take_zero, hf] at h
    cases h
  · exact hm

/-- The parts of a based number. -/
theorem basedNumber?_eq_some : basedNumber? cs = some n ↔ ∃ size head b gap d,
    size = (decimal? cs).getD 0 ∧ head = size + runLength isWhiteSpace (cs.drop size) ∧
    base? (cs.drop head) = some b ∧
    gap = head + b + runLength isWhiteSpace (cs.drop (head + b)) ∧
    basedDigits? (cs.drop gap) = some d ∧ n = gap + d := by
  simp only [basedNumber?, Option.bind_eq_bind, Option.bind_eq_some_iff, Option.pure_def,
    Option.some.injEq]
  constructor
  · rintro ⟨b, hb, d, hd, rfl⟩
    exact ⟨_, _, b, _, d, rfl, rfl, hb, rfl, hd, rfl⟩
  · rintro ⟨_, _, b, _, d, rfl, rfl, hb, rfl, hd, rfl⟩
    exact ⟨b, hb, d, hd, rfl⟩

theorem basedNumber?_take (h : basedNumber? cs = some n) (hm : n ≤ m) :
    basedNumber? (cs.take m) = some n := by
  obtain ⟨size, head, b, gap, d, hsize, hhead, hb, hgap, hd, rfl⟩ := basedNumber?_eq_some.1 h
  have hb' := (base?_within hb).1
  have hd' := (basedDigits?_within hd).1
  refine basedNumber?_eq_some.2 ⟨size, head, b, gap, d, ?_, ?_, ?_, ?_, ?_, rfl⟩
  · rw [getD_decimal?_take (by omega), ← hsize, Nat.min_eq_left (by omega)]
  · rw [List.drop_take, runLength_take]
    omega
  · rw [List.drop_take]
    exact base?_take hb (by omega)
  · rw [List.drop_take, runLength_take]
    omega
  · rw [List.drop_take, basedDigits?_take (by omega), hd, Option.map_some,
      Nat.min_eq_left (by omega)]

/-- A based number at the beginning of a text is the beginning of one. -/
theorem basedNumber?_take_none (h : basedNumber? cs = none) : basedNumber? (cs.take m) = none := by
  rw [Option.eq_none_iff_forall_ne_some] at h ⊢
  intro n hn
  have hm := pos_of_some (f := basedNumber?) rfl hn
  obtain ⟨size, head, b, gap, d, hsize, hhead, hb, hgap, hd, -⟩ := basedNumber?_eq_some.1 hn
  rw [getD_decimal?_take hm] at hsize
  rw [List.drop_take] at hhead hb hgap hd
  rw [runLength_take] at hhead hgap
  have hb' := base?_within hb
  have hd' := basedDigits?_within hd
  simp only [Within, List.length_take] at hb' hd'
  rw [basedDigits?_take (by omega)] at hd
  obtain ⟨d', hd, -⟩ := Option.map_eq_some_iff.1 hd
  -- nothing of the number but its digits is cut
  refine h (gap + d') (basedNumber?_eq_some.2
    ⟨size, head, b, gap, d', ?_, ?_, base?_of_take hb, ?_, hd, rfl⟩) <;> omega

theorem fraction?_take (h : fraction? cs = some n) (hm : n ≤ m) : fraction? (cs.take m) = some n := by
  unfold fraction? at h
  split at h
  · next rest =>
    obtain ⟨d, hd, rfl⟩ := Option.map_eq_some_iff.1 h
    have := (decimal?_within hd).1
    obtain ⟨k, rfl⟩ : ∃ k, m = k + 1 := ⟨m - 1, by omega⟩
    rw [List.take_succ_cons, fraction?, decimal?_take (by omega), hd, Option.map_some,
      Option.map_some, Nat.min_eq_left (by omega)]
  · cases h

/-- A fraction at the beginning of a text is the beginning of one. -/
theorem fraction?_of_take (h : fraction? (cs.take m) = some n) :
    ∃ l, fraction? cs = some l ∧ n = min l m := by
  obtain ⟨k, rfl⟩ : ∃ k, m = k + 1 := ⟨m - 1, by have := pos_of_some (f := fraction?) rfl h; omega⟩
  cases cs with
  | nil => cases h
  | cons c rest =>
    rw [List.take_succ_cons] at h
    unfold fraction? at h
    split at h
    · next digits heq =>
      cases heq
      obtain ⟨d, hd, rfl⟩ := Option.map_eq_some_iff.1 h
      rw [decimal?_take (pos_of_some (f := decimal?) rfl hd)] at hd
      obtain ⟨d', hrest, rfl⟩ := Option.map_eq_some_iff.1 hd
      exact ⟨1 + d', by rw [fraction?, hrest, Option.map_some], by omega⟩
    · cases h

/-- The length of a sign at the head of a text. -/
def signLength (cs : List Char) : Nat := if cs.head? = some '+' ∨ cs.head? = some '-' then 1 else 0

theorem signLength_take (hm : 0 < m) : signLength (cs.take m) = signLength cs := by
  obtain ⟨k, rfl⟩ : ∃ k, m = k + 1 := ⟨m - 1, by omega⟩
  cases cs <;> rfl

theorem exponent?_cons (c : Char) (rest : List Char) : exponent? (c :: rest) =
    if c = 'e' ∨ c = 'E' then
      (decimal? (rest.drop (signLength rest))).map (1 + signLength rest + ·) else none := by
  simp only [exponent?, Bool.or_eq_true, decide_eq_true_eq]
  split
  · split
    · rfl
    · rfl
    · next hplus hminus =>
      have hsign : signLength rest = 0 := by
        cases rest with
        | nil => rfl
        | cons d rest =>
          refine if_neg ?_
          simp only [List.head?_cons, Option.some.injEq, not_or]
          exact ⟨fun hd => hplus rest (by rw [hd]), fun hd => hminus rest (by rw [hd])⟩
      rw [hsign, List.drop_zero, Nat.add_zero]
  · rfl

theorem exponent?_take (h : exponent? cs = some n) (hm : n ≤ m) : exponent? (cs.take m) = some n := by
  cases cs with
  | nil => cases h
  | cons c rest =>
    rw [exponent?_cons] at h
    split at h
    · next hc =>
      obtain ⟨d, hd, rfl⟩ := Option.map_eq_some_iff.1 h
      have := (decimal?_within hd).1
      obtain ⟨k, rfl⟩ : ∃ k, m = k + 1 := ⟨m - 1, by omega⟩
      rw [List.take_succ_cons, exponent?_cons, if_pos hc, signLength_take (by omega), List.drop_take,
        decimal?_take (by omega), hd, Option.map_some, Option.map_some, Nat.min_eq_left (by omega)]
    · cases h

/-- An exponent at the beginning of a text is the beginning of one. -/
theorem exponent?_of_take (h : exponent? (cs.take m) = some n) : ∃ l, exponent? cs = some l := by
  obtain ⟨k, rfl⟩ : ∃ k, m = k + 1 := ⟨m - 1, by have := pos_of_some (f := exponent?) rfl h; omega⟩
  cases cs with
  | nil => cases h
  | cons c rest =>
    rw [List.take_succ_cons, exponent?_cons] at h
    split at h
    · next hc =>
      obtain ⟨d, hd, -⟩ := Option.map_eq_some_iff.1 h
      have hk : 0 < k := by
        rcases Nat.eq_zero_or_pos k with rfl | hk
        · cases hd
        · exact hk
      rw [signLength_take hk, List.drop_take] at hd
      rw [decimal?_take (pos_of_some (f := decimal?) rfl hd)] at hd
      obtain ⟨d', hd, -⟩ := Option.map_eq_some_iff.1 hd
      exact ⟨_, by rw [exponent?_cons, if_pos hc, hd, Option.map_some]⟩
    · cases h

/-- No fraction begins like an exponent. -/
theorem fraction?_of_exponent? (h : exponent? cs = some n) : fraction? cs = none := by
  cases cs with
  | nil => cases h
  | cons c rest =>
    rw [exponent?_cons] at h
    split at h
    · next hc => rcases hc with rfl | rfl <;> rfl
    · cases h

/-- The parts of a real number with an exponent. -/
theorem scientificNumber?_eq_some : scientificNumber? cs = some n ↔ ∃ w f e,
    decimal? cs = some w ∧ f = (fraction? (cs.drop w)).getD 0 ∧
    exponent? (cs.drop (w + f)) = some e ∧ n = w + f + e := by
  simp only [scientificNumber?, Option.bind_eq_bind, Option.bind_eq_some_iff, Option.pure_def,
    Option.some.injEq]
  constructor
  · rintro ⟨w, hw, e, he, rfl⟩
    exact ⟨w, _, e, hw, rfl, he, rfl⟩
  · rintro ⟨w, _, e, hw, rfl, he, rfl⟩
    exact ⟨w, hw, e, he, rfl⟩

theorem scientificNumber?_take (h : scientificNumber? cs = some n) (hm : n ≤ m) :
    scientificNumber? (cs.take m) = some n := by
  obtain ⟨w, f, e, hw, hf, he, rfl⟩ := scientificNumber?_eq_some.1 h
  have := (exponent?_within he).1
  refine scientificNumber?_eq_some.2 ⟨w, f, e, ?_, ?_, ?_, rfl⟩
  · rw [decimal?_take (by omega), hw, Option.map_some, Nat.min_eq_left (by omega)]
  · rw [List.drop_take]
    cases hfrac : fraction? (cs.drop w) with
    | none =>
      rw [hfrac] at hf
      cases hcut : fraction? ((cs.drop w).take (m - w)) with
      | none => exact hf
      | some l =>
        obtain ⟨l', hl, -⟩ := fraction?_of_take hcut
        rw [hfrac] at hl
        cases hl
    | some f' =>
      rw [hfrac, Option.getD_some] at hf
      rw [fraction?_take hfrac (by omega), hf, Option.getD_some]
  · rw [List.drop_take]
    exact exponent?_take he (by omega)

/-- A number with an exponent at the beginning of a text is the beginning of one. -/
theorem scientificNumber?_take_none (h : scientificNumber? cs = none) :
    scientificNumber? (cs.take m) = none := by
  rw [Option.eq_none_iff_forall_ne_some] at h ⊢
  intro n hn
  obtain ⟨w, f, e, hw, hf, he, -⟩ := scientificNumber?_eq_some.1 hn
  rw [List.drop_take] at hf he
  rw [decimal?_take (pos_of_some (f := decimal?) rfl hw)] at hw
  obtain ⟨w', hwhole, heq⟩ := Option.map_eq_some_iff.1 hw
  have hm := pos_of_some (f := exponent?) rfl he
  obtain ⟨e', he⟩ := exponent?_of_take he
  obtain rfl : w' = w := by omega
  refine h (w' + f + e') (scientificNumber?_eq_some.2 ⟨w', f, e', hwhole, ?_, he, rfl⟩)
  cases hcut : fraction? ((cs.drop w').take (m - w')) with
  | none =>
    -- the exponent stands where the fraction would
    rw [hcut, Option.getD_none] at hf
    subst hf
    exact (congrArg (Option.getD · 0) (fraction?_of_exponent? he)).symm
  | some l =>
    obtain ⟨l', hl, hmin⟩ := fraction?_of_take hcut
    rw [hcut, Option.getD_some] at hf
    rw [hl, Option.getD_some]
    omega

theorem fractionalNumber?_take (h : fractionalNumber? cs = some n) (hm : n ≤ m) :
    fractionalNumber? (cs.take m) = some n := by
  simp only [fractionalNumber?, Option.bind_eq_bind, Option.bind_eq_some_iff, Option.pure_def,
    Option.some.injEq] at h ⊢
  obtain ⟨w, hw, f, hf, rfl⟩ := h
  have := (fraction?_within hf).1
  refine ⟨w, ?_, f, ?_, rfl⟩
  · rw [decimal?_take (by omega), hw, Option.map_some, Nat.min_eq_left (by omega)]
  · rw [List.drop_take]
    exact fraction?_take hf (by omega)

theorem fractionalNumber?_take_none (h : fractionalNumber? cs = none) :
    fractionalNumber? (cs.take m) = none := by
  rw [Option.eq_none_iff_forall_ne_some] at h ⊢
  intro n hn
  simp only [fractionalNumber?, Option.bind_eq_bind, Option.bind_eq_some_iff, Option.pure_def,
    Option.some.injEq] at hn
  obtain ⟨w, hw, f, hf, -⟩ := hn
  rw [List.drop_take] at hf
  rw [decimal?_take (pos_of_some (f := decimal?) rfl hw)] at hw
  obtain ⟨w', hwhole, heq⟩ := Option.map_eq_some_iff.1 hw
  have hm := pos_of_some (f := fraction?) rfl hf
  obtain rfl : w' = w := by omega
  obtain ⟨f', hf, -⟩ := fraction?_of_take hf
  refine h (w' + f') ?_
  simp only [fractionalNumber?, hwhole, hf, Option.bind_eq_bind, Option.bind_some, Option.pure_def]

theorem unbasedBit?_take (h : unbasedBit? cs = some n) (hm : n ≤ m) :
    unbasedBit? (cs.take m) = some n := by
  unfold unbasedBit? at h
  split at h
  · next c rest =>
    split at h
    · next hc =>
      cases h
      obtain ⟨k, rfl⟩ : ∃ k, m = k + 2 := ⟨m - 2, by omega⟩
      simp only [List.take_succ_cons, unbasedBit?, if_pos hc]
    · cases h
  · cases h

theorem number?_take (h : number? cs = some n) (hm : n ≤ m) : number? (cs.take m) = some n := by
  have hpos := (number?_within h).1
  simp only [number?, Option.or_eq_some_iff] at h ⊢
  rcases h with h | ⟨hbased, h | ⟨hscientific, h | ⟨hfractional, h | ⟨hdecimal, h⟩⟩⟩⟩
  · exact Or.inl (basedNumber?_take h hm)
  · exact Or.inr ⟨basedNumber?_take_none hbased, Or.inl (scientificNumber?_take h hm)⟩
  · exact Or.inr ⟨basedNumber?_take_none hbased, Or.inr ⟨scientificNumber?_take_none hscientific,
      Or.inl (fractionalNumber?_take h hm)⟩⟩
  · refine Or.inr ⟨basedNumber?_take_none hbased, Or.inr ⟨scientificNumber?_take_none hscientific,
      Or.inr ⟨fractionalNumber?_take_none hfractional, Or.inl ?_⟩⟩⟩
    rw [decimal?_take (by omega), h, Option.map_some, Nat.min_eq_left hm]
  · refine Or.inr ⟨basedNumber?_take_none hbased, Or.inr ⟨scientificNumber?_take_none hscientific,
      Or.inr ⟨fractionalNumber?_take_none hfractional, Or.inr ⟨?_, unbasedBit?_take h hm⟩⟩⟩⟩
    rw [decimal?_take (by omega), hdecimal, Option.map_none]

/-! ## All tokens -/

/-- The first of some spellings that fits, and those in front of it. -/
theorem firstFit_eq_some_iff {spellings : List Spelling} : firstFit spellings cs = some n ↔
    ∃ (as : List Spelling) (s : Spelling) (bs : List Spelling),
      spellings = as ++ s :: bs ∧ s.fits cs = true ∧ s.text.length = n ∧
      ∀ t ∈ as, t.fits cs = false := by
  simp only [firstFit, Option.map_eq_some_iff, List.find?_eq_some_iff_append, Bool.not_eq_true']
  constructor
  · rintro ⟨s, ⟨hs, as, bs, heq, hno⟩, hlen⟩
    exact ⟨as, s, bs, heq, hs, hlen, hno⟩
  · rintro ⟨as, s, bs, heq, hs, hlen, hno⟩
    exact ⟨s, ⟨hs, as, bs, heq, hno⟩, hlen⟩

/-- If a spelling that fits stands behind spellings that are as long as it if they fit, then its
length is found. -/
theorem firstFit_of_fits {as bs : List Spelling} {s : Spelling} (hs : s.fits cs = true)
    (has : ∀ t ∈ as, t.fits cs = true → t.text.length = s.text.length) :
    firstFit (as ++ s :: bs) cs = some s.text.length := by
  rw [firstFit, List.find?_append]
  cases hfind : as.find? (·.fits cs) with
  | none => simp [hs]
  | some t =>
    have hfits : t.fits cs = true := List.find?_some (p := fun t : Spelling => t.fits cs) hfind
    have := has t (List.mem_of_find?_eq_some hfind) hfits
    simp [this]

theorem Spelling.fits_take {s : Spelling} (h : s.fits cs = true) (hm : s.text.length ≤ m) :
    s.fits (cs.take m) = true := by
  obtain ⟨rest, rfl, hbar⟩ := Spelling.fits_iff.1 h
  refine Spelling.fits_iff.2 ⟨rest.take (m - s.text.length), ?_, fun c hc => ?_⟩
  · rw [List.take_append, List.take_of_length_le hm]
  · refine hbar c ?_
    cases rest with
    | nil => simp at hc
    | cons d rest =>
      cases hk : m - s.text.length with
      | zero => simp [hk] at hc
      | succ k => simpa [hk] using hc

/-- A spelling that fits the beginning of a text fits the text, if the beginning goes on behind it or
it has no barrier. -/
theorem Spelling.fits_of_take {s : Spelling} (h : s.fits (cs.take m) = true)
    (hm : s.text.length < m ∨ s.barrier = .nothing) : s.fits cs = true := by
  obtain ⟨rest, hrest, hbar⟩ := Spelling.fits_iff.1 h
  refine Spelling.fits_iff.2 ⟨rest ++ cs.drop m, ?_, fun c hc => ?_⟩
  · rw [← List.append_assoc, ← hrest, List.take_append_drop]
  · rcases hm with hm | hb
    · cases rest with
      | cons d rest => exact hbar c (by simpa using hc)
      | nil =>
        have hlen := congrArg List.length hrest
        rw [List.append_nil, List.length_take] at hlen
        have hnil : cs.drop m = [] := by
          rw [List.drop_eq_nil_iff]
          omega
        rw [hnil] at hc
        cases hc
    · rw [hb]
      rfl

/-- If a later spelling is shorter than an earlier one, it bars how the earlier one goes on, or
nothing keeps the earlier one from fitting. -/
def Token.isGraded (t : Token) : Bool :=
  t.spelled.all fun s => t.spelled.all fun s' =>
    s.excludes s' || s'.barrier = .nothing || s'.text.length ≤ s.text.length

theorem Token.graded : ∀ t : Token, t.isGraded = true := by
  decide +kernel

theorem firstFit_take {t : Token} (h : firstFit t.spellings cs = some n) (hm : n ≤ m) :
    firstFit t.spellings (cs.take m) = some n := by
  obtain ⟨as, s, bs, heq, hs, rfl, hno⟩ := firstFit_eq_some_iff.1 h
  have hcut := Spelling.fits_take hs hm
  rw [heq]
  refine firstFit_of_fits hcut fun s' hs' hfits => ?_
  have hall := List.all_eq_true.1 (List.all_eq_true.1 t.graded s (by simp [Token.spelled_eq, heq])) s'
    (by simp [Token.spelled_eq, heq, hs'])
  simp only [Bool.or_eq_true, decide_eq_true_eq] at hall
  have hnot : ¬(s'.text.length < m ∨ s'.barrier = .nothing) := fun h => by
    have := Spelling.fits_of_take hfits h
    rw [hno s' hs'] at this
    cases this
  rcases hall with (hex | hb) | hle
  · rw [Spelling.not_fits_of_excludes hex hcut] at hfits
    cases hfits
  · exact absurd (Or.inr hb) hnot
  · have : ¬s'.text.length < m := fun h => hnot (Or.inl h)
    omega

theorem lineComment?_take (h : lineComment? cs = some n) (hm : n ≤ m) :
    lineComment? (cs.take m) = some n := by
  unfold lineComment? at h
  split at h
  · next rest =>
    cases h
    obtain ⟨k, rfl⟩ : ∃ k, m = k + 2 := ⟨m - 2, by omega⟩
    rw [List.take_succ_cons, List.take_succ_cons, lineComment?, takeWhile_take (by omega)]
  · cases h

theorem blockComment?_take (h : blockComment? cs = some n) (hm : n ≤ m) :
    blockComment? (cs.take m) = some n := by
  unfold blockComment? at h
  split at h
  · next rest =>
    obtain ⟨k, hk, rfl⟩ := Option.map_eq_some_iff.1 h
    obtain ⟨l, rfl⟩ : ∃ l, m = l + 2 := ⟨m - 2, by omega⟩
    rw [List.take_succ_cons, List.take_succ_cons, blockComment?, blockEnd?_take hk (by omega),
      Option.map_some]
  · cases h

/-- **A token stays what it is when the text is cut behind it.** -/
theorem Token.length?_take {t : Token} (h : t.length? cs = some n) (hm : n ≤ m) :
    t.length? (cs.take m) = some n := by
  cases t
  case lineComment => exact lineComment?_take h hm
  case blockComment => exact blockComment?_take h hm
  case identifier => exact identifier?_take h hm
  case escapedIdentifier => exact escapedIdentifier?_take h hm
  case systemName => exact systemName?_take h hm
  case number => exact number?_take h hm
  case string => exact string?_take h hm
  case endOfInput =>
    obtain ⟨rfl, rfl⟩ := length?_endOfInput.1 h
    rw [List.take_nil]
    exact h
  all_goals exact firstFit_take h hm

end VerilogLoops.Lexical
