import VerilogLoops.Proofs.Yaml.Scalar

/-!
# Whole numbers are read as numbers

A whole number in decimal digits is spelled like no truth value and no number with a point. Its
digits are read as the number.

> `isAtom_int`: a whole number with not too many digits is read where it is written.
-/

namespace VerilogLoops.Yaml

open VerilogLoops.Document VerilogLoops.Number VerilogLoops.Text

variable {c : Char} {cs ds rest : List Char} {n : Nat}

/-- What holds of the ten digits holds of every digit. -/
theorem of_isDigit {p : Char → Bool} (h : "0123456789".toList.all p = true)
    (hc : c.isDigit = true) : p c = true := by
  refine List.all_eq_true.1 h c ?_
  simp only [Char.isDigit, Bool.and_eq_true, decide_eq_true_eq] at hc
  obtain ⟨hlow, hhigh⟩ := hc
  have hlow : 48 ≤ c.toNat := hlow
  have hhigh : c.toNat ≤ 57 := hhigh
  rw [← Char.ofNat_toNat c]
  generalize c.toNat = k at hlow hhigh
  obtain rfl | rfl | rfl | rfl | rfl | rfl | rfl | rfl | rfl | rfl :
      k = 48 ∨ k = 49 ∨ k = 50 ∨ k = 51 ∨ k = 52 ∨ k = 53 ∨ k = 54 ∨ k = 55 ∨ k = 56 ∨ k = 57 := by
    omega
  all_goals decide

/-- Decimal digits with at least one among them. -/
structure IsNumeral (ds : List Char) : Prop where
  nonempty : ds ≠ []
  digits : ∀ c ∈ ds, c.isDigit = true

theorem isNumeral_toDigits (n : Nat) : IsNumeral (Nat.toDigits 10 n) :=
  ⟨Nat.toDigits_ne_nil, fun _ hc => Nat.isDigit_of_mem_toDigits (by decide) (by decide) hc⟩

namespace IsNumeral

variable (h : IsNumeral ds)

include h

/-- What holds of the ten digits holds of all digits of a numeral. -/
theorem all {p : Char → Bool} (hp : "0123456789".toList.all p = true) : ds.all p = true :=
  List.all_eq_true.2 fun c hc => of_isDigit hp (h.digits c hc)

theorem getLast? : ∃ c, ds.getLast? = some c ∧ c.isDigit = true := by
  obtain ⟨c, hc⟩ := Option.ne_none_iff_exists'.1 (mt List.getLast?_eq_none_iff.1 h.nonempty)
  exact ⟨c, hc, h.digits c (List.mem_of_getLast? hc)⟩

end IsNumeral

/-- A numeral, with or without a sign. -/
def signText (negative : Bool) (ds : List Char) : List Char :=
  (if negative then ['-'] else []) ++ ds

theorem toList_toString (i : Int) :
    (toString i).toList = signText (decide (i < 0)) (Nat.toDigits 10 i.natAbs) := by
  cases i with
  | ofNat n => simp [signText, toString, Int.repr, Nat.repr]
  | negSucc n => simp [signText, toString, Int.repr, Nat.repr]

variable {negative : Bool} (h : IsNumeral ds)

include h

/-- What holds of the ten digits and the sign holds of all characters of a numeral with a sign. -/
theorem all_signText {p : Char → Bool} (hp : "-0123456789".toList.all p = true) :
    (signText negative ds).all p = true := by
  have hds : ds.all p = true := h.all (Bool.and_eq_true_iff.1 hp).2
  have hsign : p '-' = true := (Bool.and_eq_true_iff.1 hp).1
  cases negative <;> simpa [signText, hsign] using hds

theorem unsigned_signText : unsigned (signText negative ds) = ds := by
  cases negative with
  | true => rfl
  | false =>
    obtain ⟨c, rest, rfl⟩ := List.exists_cons_of_ne_nil h.nonempty
    have hc : (c ≠ '-' ∧ c ≠ '+') :=
      of_decide_eq_true (of_isDigit (p := fun c => decide (c ≠ '-' ∧ c ≠ '+')) (by decide)
        (h.digits c List.mem_cons_self))
    simp [signText, unsigned, hc]

theorem getLast?_signText (negative : Bool) : ∃ c, (signText negative ds).getLast? = some c ∧ c.isDigit = true := by
  obtain ⟨c, hc, hdigit⟩ := h.getLast?
  exact ⟨c, by simp [signText, List.getLast?_append, hc], hdigit⟩

/-- A numeral may be written plain, and it has no blanks. -/
theorem isPlain_signText (negative : Bool) :
    IsPlain (signText negative ds) ∧ ' ' ∉ signText negative ds := by
  have hall : (signText negative ds).all
      (fun c => !isBreak c && !isGap c && !isMark c && c ≠ ':' && c ≠ ' ') = true :=
    all_signText h (by decide)
  have hfacts : ∀ c ∈ signText negative ds,
      (((isBreak c = false ∧ isGap c = false) ∧ isMark c = false) ∧ c ≠ ':') ∧ c ≠ ' ' := by
    simpa using hall
  refine ⟨{ gaps := ?_, neighbours := ?_, last := ?_, word := ?_ }, fun hmem => (hfacts _ hmem).2 rfl⟩
  · intro c hc
    obtain ⟨⟨⟨⟨hbreak, hgap⟩, -⟩, -⟩, hblank⟩ := hfacts c hc
    exact ⟨hbreak, by simpa [hblank] using hgap⟩
  · -- no two neighbours are a structure, for none of the characters is a gap or a colon
    generalize signText negative ds = cs at hfacts
    induction cs with
    | nil => rfl
    | cons c rest ih =>
      obtain ⟨⟨⟨⟨-, hgap⟩, -⟩, hcolon⟩, -⟩ := hfacts c List.mem_cons_self
      refine hasNeighbours_cons.2 ⟨?_, ih fun d hd => hfacts d (List.mem_cons_of_mem _ hd)⟩
      cases rest <;> simp [headIs, isStructure, hgap, hcolon]
  · obtain ⟨c, hlast, hdigit⟩ := getLast?_signText h negative
    rw [hlast]
    constructor <;> rintro ⟨⟩ <;> cases hdigit
  · obtain ⟨d, rest, rfl⟩ := List.exists_cons_of_ne_nil h.nonempty
    have hd : isGap d = false ∧ d ≠ '-' ∧ d ≠ '?' ∧ d ≠ ':' :=
      of_decide_eq_true (of_isDigit
        (p := fun d => decide (isGap d = false ∧ d ≠ '-' ∧ d ≠ '?' ∧ d ≠ ':')) (by decide)
        (h.digits d List.mem_cons_self))
    cases negative with
    | true =>
      exact ⟨'-', d :: rest, rfl, by decide, by decide, by decide, fun _ => ⟨d, rest, rfl, hd.1⟩⟩
    | false =>
      obtain ⟨⟨⟨⟨hbreak, -⟩, hmark⟩, -⟩, hblank⟩ := hfacts d List.mem_cons_self
      refine ⟨d, rest, rfl, hblank, hbreak, hmark, fun hc => ?_⟩
      rcases hc with hc | hc | hc
      · exact absurd hc hd.2.1
      · exact absurd hc hd.2.2.1
      · exact absurd hc hd.2.2.2

/-- A word that starts with neither a digit nor a sign is no numeral. -/
theorem isOneOf_signText {words : List String}
    (hwords : words.all (fun w => w.toList.head?.any fun c => !c.isDigit && c ≠ '-') = true) :
    isOneOf words (signText negative ds) = false := by
  refine List.any_eq_false.2 fun w hw => ?_
  have hhead : (signText negative ds).head?.any (fun c => c.isDigit || c = '-') = true := by
    obtain ⟨d, rest, rfl⟩ := List.exists_cons_of_ne_nil h.nonempty
    have hd := h.digits d List.mem_cons_self
    cases negative <;> simp [signText, hd]
  have hw := List.all_eq_true.1 hwords w hw
  intro heq
  rw [of_decide_eq_true heq] at hw
  cases hcs : signText negative ds with
  | nil =>
    rw [hcs] at hhead
    cases hhead
  | cons c cs =>
    rw [hcs] at hhead hw
    simp only [List.head?_cons, Option.any_some, Bool.or_eq_true, Bool.and_eq_true,
      Bool.not_eq_true', decide_eq_true_eq] at hhead hw
    rcases hhead with hdigit | hsign
    · rw [hw.1] at hdigit
      cases hdigit
    · exact hw.2 hsign

/-- A numeral without zeros in front. -/
theorem isInteger_signText (hzero : ds = ['0'] ∨ ds.head? ≠ some '0') :
    isInteger (signText negative ds) = true := by
  rw [isInteger, unsigned_signText h]
  rcases hzero with rfl | hzero
  · rfl
  · obtain ⟨d, rest, rfl⟩ := List.exists_cons_of_ne_nil h.nonempty
    have hd : d ≠ '0' := fun heq => hzero (by rw [heq]; rfl)
    have hfiller : rest.all isFiller = true :=
      (Bool.and_eq_true_iff.1 (h.all (p := isFiller) (by decide))).2
    have hnonzero : isNonzeroDigit d = true := by
      have := of_isDigit (p := fun d => d = '0' || isNonzeroDigit d) (by decide)
        (h.digits d List.mem_cons_self)
      simpa [hd] using this
    split
    · rfl
    · next heq => exact absurd (List.cons.inj heq).1 hd
    · next heq => exact absurd (List.cons.inj heq).1 hd
    · next heq => exact absurd (List.cons.inj heq).1 hd
    · next heq =>
      obtain ⟨rfl, rfl⟩ := List.cons.inj heq
      rw [hnonzero, hfiller]
      rfl
    · next heq => cases heq

/-- The spelling of a numeral is that of a whole number. -/
theorem ofPlain_signText (hzero : ds = ['0'] ∨ ds.head? ≠ some '0') :
    Tag.ofPlain (signText negative ds) = .integer := by
  have hlast : (signText negative ds).getLast? ≠ some '\n' := by
    obtain ⟨c, hc, hdigit⟩ := getLast?_signText h negative
    rw [hc]
    rintro ⟨⟩
    cases hdigit
  have hreal : isReal (signText negative ds) = false := by
    have hpoint : ds.all (fun c => decide (c ≠ '.')) = true := h.all (by decide)
    have hbody : ds.dropWhile (fun c => decide (c ≠ '.')) = [] := by
      have hdrop : (ds ++ []).dropWhile (fun c => decide (c ≠ '.')) = [] :=
        List.dropWhile_append_of_pos (List.all_eq_true.1 hpoint)
      rwa [List.append_nil] at hdrop
    unfold isReal
    rw [unsigned_signText h]
    dsimp only
    rw [hbody]
  rw [Tag.ofPlain_of_getLast? hlast, Tag.ofSpelling, isOneOf_signText h (by decide), hreal,
    isInteger_signText h hzero]
  rfl

/-- The digits of a numeral are all that is read of it. -/
theorem wholeIn_eq (hlength : ds.length ≤ digitLimit) : wholeIn 10 ds = .ok (decimalValue ds) := by
  -- every step that prepares a numeral leaves digits as they are
  have hblank : ∀ cs : List Char, (∀ c ∈ cs, c.isDigit = true) → cs.dropWhile isOuterBlank = cs := by
    intro cs hcs
    cases cs with
    | nil => rfl
    | cons c cs =>
      have hc := of_isDigit (p := fun c => !isOuterBlank c) (by decide) (hcs c List.mem_cons_self)
      rw [List.dropWhile_cons, if_neg (by simpa using hc)]
  have htrimmed : trimmed ds = ds := by
    rw [trimmed, hblank ds h.digits, hblank ds.reverse fun c hc => h.digits c (by simpa using hc),
      List.reverse_reverse]
  have hascii : ds.map toAsciiDigit = ds := by
    have := h.all (p := fun c => decide (toAsciiDigit c = c)) (by decide)
    rw [List.all_eq_true] at this
    calc ds.map toAsciiDigit
      _ = ds.map id := List.map_congr_left fun c hc => of_decide_eq_true (this c hc)
      _ = ds := List.map_id ds
  have hunsigned : unsigned (signText false ds) = ds := unsigned_signText h
  have hunsigned : unsigned ds = ds := hunsigned
  have hnegative : isNegative ds = false := by
    obtain ⟨c, rest, rfl⟩ := List.exists_cons_of_ne_nil h.nonempty
    have hc := of_isDigit (p := fun c => decide (c ≠ '-')) (by decide) (h.digits c List.mem_cons_self)
    simpa [isNegative] using hc
  have hmark : withoutMark 10 ds = ds := by
    unfold withoutMark
    split
    · rfl
    · rfl
  have htake : ds.takeWhile (isDigitIn 10) = ds := by
    have hdigits : ∀ c ∈ ds, isDigitIn 10 c = true := List.all_eq_true.1 (h.all (by decide))
    have htake : (ds ++ []).takeWhile (isDigitIn 10) = ds ++ [] :=
      List.takeWhile_append_of_pos hdigits
    rwa [List.append_nil] at htake
  have hsome : ds.isEmpty = false := by simpa using h.nonempty
  rw [wholeIn, integerOf, htrimmed, hascii, hunsigned]
  simp only [hmark, htake, hnegative, hsome]
  simp [Nat.not_lt.2 hlength, signed, decimalValue]

/-- Without colons there is only one part. -/
theorem segments_numeral : segments ':' ds = [ds] := by
  have hcolon : ds.all (fun c => decide (c ≠ ':')) = true := h.all (by decide)
  have key : ∀ cs : List Char, (∀ c ∈ cs, decide (c ≠ ':') = true) → segments ':' cs = [cs] := by
    intro cs hcs
    induction cs with
    | nil => rfl
    | cons c cs ih =>
      obtain ⟨hc, hcs⟩ := List.forall_mem_cons.1 hcs
      rw [segments, if_neg (by simpa using hc), ih hcs]
  exact key ds (List.all_eq_true.1 hcolon)

/-- A numeral without zeros in front has the value of its digits. -/
theorem unsignedInteger_numeral (hzero : ds = ['0'] ∨ ds.head? ≠ some '0')
    (hlength : ds.length ≤ digitLimit) : unsignedInteger ds = .ok (decimalValue ds) := by
  rcases hzero with rfl | hzero
  · rfl
  · have hne : ∀ rest, ds ≠ '0' :: rest := by
      rintro rest rfl
      exact hzero rfl
    unfold unsignedInteger
    split
    · exact absurd rfl (hne _)
    · exact absurd rfl (hne _)
    · exact absurd rfl (hne _)
    · exact absurd rfl (hne _)
    · rw [segments_numeral h]
      simp [wholeIn_eq h hlength, bind, Except.bind, pure, Except.pure]

/-- A numeral with or without a sign has the value of its digits with this sign. -/
theorem integerValue_signText (hzero : ds = ['0'] ∨ ds.head? ≠ some '0')
    (hlength : ds.length ≤ digitLimit) :
    integerValue (signText negative ds) = .ok (signed negative (decimalValue ds)) := by
  have hfilter : (signText negative ds).filter (· ≠ '_') = signText negative ds :=
    List.filter_eq_self.2 (List.all_eq_true.1 (all_signText h (by decide)))
  have hnegative : isNegative (signText negative ds) = negative := by
    cases negative with
    | true => rfl
    | false =>
      obtain ⟨c, rest, rfl⟩ := List.exists_cons_of_ne_nil h.nonempty
      have hc := of_isDigit (p := fun c => decide (c ≠ '-')) (by decide)
        (h.digits c List.mem_cons_self)
      simpa [isNegative, signText] using hc
  have hsome : ds.isEmpty = false := by simpa using h.nonempty
  unfold integerValue
  dsimp only
  rw [hfilter, unsigned_signText h, hsome, hnegative, unsignedInteger_numeral h hzero hlength]
  cases negative <;> rfl

omit h

/-- A whole number with not too many digits is read where it is written. -/
theorem isAtom_int {least : Nat} {i : Int} (hi : i.natAbs < 10 ^ digitLimit) :
    IsAtom least (toString i).toList (.int i) := by
  have h := isNumeral_toDigits i.natAbs
  have hzero : Nat.toDigits 10 i.natAbs = ['0'] ∨ (Nat.toDigits 10 i.natAbs).head? ≠ some '0' := by
    rcases Nat.eq_zero_or_pos i.natAbs with hz | hpos
    · rw [hz]
      exact .inl (by decide)
    · exact .inr (head?_toDigits_ne_zero hpos)
  have hlength : (Nat.toDigits 10 i.natAbs).length ≤ digitLimit :=
    (Nat.length_toDigits_le_iff (by decide) (by decide)).2 hi
  have hsigned : signed (decide (i < 0)) i.natAbs = i := by
    unfold signed
    split
    · next hneg =>
      have := of_decide_eq_true hneg
      omega
    · next hneg =>
      have : ¬i < 0 := fun h => hneg (decide_eq_true h)
      omega
  obtain ⟨hplain, hblank⟩ := isPlain_signText h (decide (i < 0))
  rw [← toList_toString] at hplain hblank
  refine isAtom_word hplain hblank fun mark => ?_
  rw [toList_toString, ofPlain_signText h hzero]
  show (scalarValue .integer _).mapError _ = _
  rw [scalarValue, integerValue_signText h hzero hlength, decimalValue_toDigits, hsigned]
  rfl

end VerilogLoops.Yaml
