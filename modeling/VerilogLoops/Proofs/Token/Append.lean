import VerilogLoops.Proofs.Token.Cut

/-!
# Tokens of a text that goes on

Cutting a text behind a token leaves the token as it is. The converse needs care: a text that goes on
may turn a token into a longer one. White space behind the text keeps all tokens as they are, with
one exception: behind a number the size of a based number may be meant, and white space may stand
between the size and the tick. So does another token behind it, if the two do not run together.

> `Token.length?_spaced`: a token of a text is one of the text with white space behind it;
> `Token.length?_joined`: a token is one in front of a token with which it does not run together.
-/

namespace VerilogLoops.Lexical

open VerilogLoops.Text

variable {cs rest : List Char} {m n : Nat} {c : Char} {p : Char → Bool}

/-- The text does not begin with a character of the class. -/
def Stops (p : Char → Bool) (cs : List Char) : Prop := ∀ c, cs.head? = some c → p c = false

theorem Stops.mono {q : Char → Bool} (h : Stops p rest) (hq : ∀ c, q c = true → p c = true) :
    Stops q rest := fun c hc => by
  cases hqc : q c with
  | false => rfl
  | true => rw [← h c hc, hq c hqc]

/-- A run of a class ends with the text if what stands behind is of another class. -/
theorem takeWhile_append (hr : Stops p rest) : (cs ++ rest).takeWhile p = cs.takeWhile p := by
  rw [List.takeWhile_append]
  split
  · next h =>
    rw [(List.takeWhile_prefix p).eq_of_length h]
    cases rest with
    | nil => simp
    | cons c rest => rw [List.takeWhile_cons_of_neg (by simp [hr c rfl]), List.append_nil]
  · rfl

/-! ## Names and strings -/

theorem identifier?_append (h : identifier? cs = some n) (hr : Stops isIdentifierCharacter rest) :
    identifier? (cs ++ rest) = some n := by
  unfold identifier? at h
  split at h
  · next c cs =>
    rw [List.cons_append, identifier?, takeWhile_append hr]
    exact h
  · cases h

theorem escapedIdentifier?_append (h : escapedIdentifier? cs = some n) (hr : Stops isGraphic rest) :
    escapedIdentifier? (cs ++ rest) = some n := by
  unfold escapedIdentifier? at h
  split at h
  · next cs =>
    rw [List.cons_append, escapedIdentifier?, takeWhile_append hr]
    exact h
  · cases h

theorem systemName?_append (h : systemName? cs = some n) (hr : Stops isIdentifierCharacter rest) :
    systemName? (cs ++ rest) = some n := by
  unfold systemName? at h
  split at h
  · next cs =>
    rw [List.cons_append, systemName?, takeWhile_append hr]
    exact h
  · cases h

theorem stringEnd?_append {cs : List Char} {n : Nat} (h : stringEnd? cs = some n)
    (rest : List Char) : stringEnd? (cs ++ rest) = some n := by
  fun_induction stringEnd? cs generalizing n with
  | case1 => cases h
  | case2 cs => exact h
  | case3 => cases h
  | case4 => cases h
  | case5 c cs hc ih =>
    obtain ⟨l, hl, rfl⟩ := Option.map_eq_some_iff.1 h
    simp only [List.cons_append, stringEnd?, if_neg hc, ih hl, Option.map_some]
  | case6 => cases h
  | case7 c cs hquote hslash hescape hc ih =>
    obtain ⟨l, hl, rfl⟩ := Option.map_eq_some_iff.1 h
    have hplain : c ≠ '\\' := by
      rintro rfl
      cases cs with
      | nil => exact hslash rfl rfl
      | cons d cs => exact hescape d cs rfl rfl
    have := ih hl
    rw [List.cons_append, stringEnd?.eq_def]
    split <;> simp_all

theorem string?_append (h : string? cs = some n) (rest : List Char) :
    string? (cs ++ rest) = some n := by
  unfold string? at h
  split at h
  · next cs =>
    obtain ⟨l, hl, rfl⟩ := Option.map_eq_some_iff.1 h
    rw [List.cons_append, string?, stringEnd?_append hl, Option.map_some]
  · cases h

/-! ## Numbers -/

/-- A number may go on with the character, in one of its forms. -/
def numberGoesOn (c : Char) : Bool := isDecimalDigit c || isBasedDigit c || c = '_' || c = '.'

theorem runLength_append (hr : Stops p rest) : runLength p (cs ++ rest) = runLength p cs := by
  rw [runLength, runLength, takeWhile_append hr]

section Numbers

variable (hr : Stops numberGoesOn rest)
include hr

theorem decimal?_append : decimal? (cs ++ rest) = decimal? cs := by
  have hrun : Stops (fun d => isDecimalDigit d || d = '_') rest :=
    hr.mono fun c hc => by simp only [Bool.or_eq_true] at hc; rcases hc with hc | hc <;> simp [numberGoesOn, hc]
  cases cs with
  | nil =>
    cases rest with
    | nil => rfl
    | cons c rest =>
      have hc := hrun c rfl
      simp only [Bool.or_eq_false_iff] at hc
      simp [decimal?, hc.1]
  | cons c cs => rw [List.cons_append, decimal?, decimal?, runLength_append hrun]

theorem basedDigits?_append : basedDigits? (cs ++ rest) = basedDigits? cs := by
  have hrun : Stops (fun d => isBasedDigit d || d = '_') rest :=
    hr.mono fun c hc => by simp only [Bool.or_eq_true] at hc; rcases hc with hc | hc <;> simp [numberGoesOn, hc]
  cases cs with
  | nil =>
    cases rest with
    | nil => rfl
    | cons c rest =>
      have hc := hrun c rfl
      simp only [Bool.or_eq_false_iff] at hc
      simp [basedDigits?, hc.1]
  | cons c cs => rw [List.cons_append, basedDigits?, basedDigits?, runLength_append hrun]

omit hr in
theorem fraction?_of_ne (hc : c ≠ '.') (cs : List Char) : fraction? (c :: cs) = none := by
  unfold fraction?
  split
  · next heq =>
    cases heq
    exact absurd rfl hc
  · rfl

theorem fraction?_append : fraction? (cs ++ rest) = fraction? cs := by
  cases cs with
  | nil =>
    cases rest with
    | nil => rfl
    | cons c rest =>
      refine fraction?_of_ne ?_ rest
      rintro rfl
      exact absurd (hr _ rfl) (by decide)
  | cons c cs =>
    rw [List.cons_append]
    by_cases hc : c = '.'
    · subst hc
      rw [fraction?, fraction?, decimal?_append hr]
    · rw [fraction?_of_ne hc, fraction?_of_ne hc]

omit hr in
theorem signLength_le (cs : List Char) : signLength cs ≤ cs.length := by
  cases cs with
  | nil => simp [signLength]
  | cons c cs =>
    unfold signLength
    split <;> simp

/-- The text does not begin with a sign. -/
def NoSign (cs : List Char) : Prop := signLength cs = 0

/-- An exponent is not changed, unless its sign comes only with what stands behind. -/
theorem exponent?_append (hs : cs.length ≠ 1 ∨ NoSign rest) :
    exponent? (cs ++ rest) = exponent? cs := by
  cases cs with
  | nil =>
    cases rest with
    | nil => rfl
    | cons c rest =>
      have hlower : c ≠ 'e' := by
        rintro rfl
        exact absurd (hr _ rfl) (by decide)
      have hupper : c ≠ 'E' := by
        rintro rfl
        exact absurd (hr _ rfl) (by decide)
      rw [List.nil_append, exponent?_cons, if_neg (by simp [hlower, hupper])]
      rfl
  | cons c cs =>
    have hsign : signLength (cs ++ rest) = signLength cs := by
      cases cs with
      | nil => exact hs.resolve_left (by simp)
      | cons d cs => rfl
    rw [List.cons_append, exponent?_cons, exponent?_cons, hsign,
      List.drop_append_of_le_length (signLength_le cs), decimal?_append hr]

theorem scientificNumber?_append (hs : ∀ w, decimal? cs = some w →
      (cs.drop (w + (fraction? (cs.drop w)).getD 0)).length ≠ 1 ∨ NoSign rest) :
    scientificNumber? (cs ++ rest) = scientificNumber? cs := by
  unfold scientificNumber?
  rw [decimal?_append hr]
  cases hw : decimal? cs with
  | none => rfl
  | some w =>
    have hle := (decimal?_within hw).2
    simp only [Option.bind_eq_bind, Option.bind_some, List.drop_append_of_le_length hle,
      fraction?_append hr]
    have hmantissa : w + (fraction? (cs.drop w)).getD 0 ≤ cs.length := by
      cases hf : fraction? (cs.drop w) with
      | none => simpa using hle
      | some f =>
        have := (fraction?_within hf).2
        rw [List.length_drop] at this
        rw [Option.getD_some]
        omega
    rw [List.drop_append_of_le_length hmantissa, exponent?_append hr (hs w hw)]

theorem fractionalNumber?_append : fractionalNumber? (cs ++ rest) = fractionalNumber? cs := by
  unfold fractionalNumber?
  rw [decimal?_append hr]
  cases hw : decimal? cs with
  | none => rfl
  | some w =>
    simp only [Option.bind_eq_bind, Option.bind_some,
      List.drop_append_of_le_length (decimal?_within hw).2, fraction?_append hr]

omit hr in
theorem unbasedBit?_append (h : unbasedBit? cs = some n) :
    unbasedBit? (cs ++ rest) = some n := by
  unfold unbasedBit? at h
  split at h
  · exact h
  · cases h

omit hr in
/-- A base begins with a tick. -/
theorem head?_of_base? (h : base? cs = some n) : cs.head? = some '\'' := by
  unfold base? at h
  split at h
  · rfl
  · cases h

omit hr in
/-- A run that ends inside a text ends there whatever stands behind the text. -/
theorem runLength_append_of_lt (h : runLength p cs < cs.length) (rest : List Char) :
    runLength p (cs ++ rest) = runLength p cs := by
  unfold runLength at h ⊢
  rw [List.takeWhile_append, if_neg (by omega)]

theorem basedNumber?_append (h : basedNumber? cs = some n) : basedNumber? (cs ++ rest) = some n := by
  obtain ⟨size, head, b, gap, d, hsize, hhead, hb, hgap, hd, rfl⟩ := basedNumber?_eq_some.1 h
  have hb' := base?_within hb
  have hd' := basedDigits?_within hd
  simp only [Within, List.length_drop] at hb' hd'
  refine basedNumber?_eq_some.2 ⟨size, head, b, gap, d, ?_, ?_, ?_, ?_, ?_, rfl⟩
  · rw [decimal?_append hr, hsize]
  · rw [List.drop_append_of_le_length (by omega),
      runLength_append_of_lt (by rw [List.length_drop]; omega), hhead]
  · rw [List.drop_append_of_le_length (by omega)]
    exact base?_append hb rest
  · rw [List.drop_append_of_le_length (by omega),
      runLength_append_of_lt (by rw [List.length_drop]; omega), hgap]
  · rw [List.drop_append_of_le_length (by omega), basedDigits?_append hr, hd]

/-- No tick stands behind the white space at the head of the text. -/
def NoTick (cs : List Char) : Prop := (cs.dropWhile isWhiteSpace).head? ≠ some '\''

omit hr in
theorem drop_takeWhile (p : Char → Bool) (cs : List Char) :
    cs.drop (cs.takeWhile p).length = cs.dropWhile p := by
  have h := congrArg (List.drop (cs.takeWhile p).length)
    (List.takeWhile_append_dropWhile (p := p) (l := cs))
  rw [List.drop_left] at h
  exact h.symm

omit hr in
theorem noTick_cons (hw : isWhiteSpace c = false) (hc : c ≠ '\'') (cs : List Char) :
    NoTick (c :: cs) := by
  simp [NoTick, hw, hc]

omit hr in
/-- Where the white space behind a size is not followed by a tick, there is no based number. -/
theorem basedNumber?_none (h : NoTick (cs.drop ((decimal? cs).getD 0))) : basedNumber? cs = none := by
  rw [Option.eq_none_iff_forall_ne_some]
  intro n hn
  obtain ⟨size, head, b, gap, d, rfl, rfl, hb, -⟩ := basedNumber?_eq_some.1 hn
  have htick := head?_of_base? hb
  rw [← List.drop_drop, runLength, drop_takeWhile] at htick
  exact h htick

omit hr in
/-- A fraction and an exponent begin with no white space and no tick. -/
theorem exists_cons_of_fraction? (h : fraction? cs = some n) :
    ∃ c more, cs = c :: more ∧ isWhiteSpace c = false ∧ c ≠ '\'' := by
  unfold fraction? at h
  split at h
  · exact ⟨_, _, rfl, by decide, by decide⟩
  · cases h

omit hr in
theorem exists_cons_of_exponent? (h : exponent? cs = some n) :
    ∃ c more, cs = c :: more ∧ isWhiteSpace c = false ∧ c ≠ '\'' := by
  cases cs with
  | nil => cases h
  | cons c cs =>
    rw [exponent?_cons] at h
    split at h
    · next hc =>
      refine ⟨c, cs, rfl, ?_⟩
      rcases hc with rfl | rfl <;> decide
    · cases h

omit hr in
theorem unbasedBit?_eq_some (h : unbasedBit? cs = some n) :
    ∃ c rest, cs = '\'' :: c :: rest ∧ c ∈ "01xXzZ".toList ∧ n = 2 := by
  unfold unbasedBit? at h
  split at h
  · next c rest =>
    split at h
    · next hc =>
      cases h
      exact ⟨c, rest, rfl, by simpa using hc, rfl⟩
    · cases h
  · cases h

omit hr in
/-- A single bit is no base. -/
theorem base?_bit (hc : c ∈ "01xXzZ".toList) (cs : List Char) : base? ('\'' :: c :: cs) = none := by
  have hno : (("01xXzZ".toList).all fun c =>
      !"bBoOdDhH".toList.contains c && !(c = 's' || c = 'S')) = true := by decide
  have hno := List.all_eq_true.1 hno c hc
  simp only [Bool.and_eq_true, Bool.not_eq_true'] at hno
  simp only [base?, hno.1, hno.2, Bool.false_eq_true, if_false]

/-- **A number stays what it is** if neither a digit nor a tick behind white space comes next. A sign
may come next only directly behind the number. -/
theorem number?_append (h : number? cs = some n) (hs : n = cs.length ∨ NoSign rest)
    (hn : NoTick (cs.drop n ++ rest)) : number? (cs ++ rest) = some n := by
  -- a number that begins with a decimal number which no tick follows
  have plain : ∀ {w}, decimal? cs = some w → (w = n ∨
      ∃ c more, cs.drop w = c :: more ∧ isWhiteSpace c = false ∧ c ≠ '\'') →
      basedNumber? (cs ++ rest) = none := by
    intro w hw hdrop
    refine basedNumber?_none ?_
    rw [decimal?_append hr, hw, Option.getD_some,
      List.drop_append_of_le_length (decimal?_within hw).2]
    rcases hdrop with rfl | ⟨c, more, heq, hwhite, hc⟩
    · exact hn
    · rw [heq]
      exact noTick_cons hwhite hc _
  -- a number without an exponent up to its end
  have unscaled : ∀ {w}, decimal? cs = some w → n = w + (fraction? (cs.drop w)).getD 0 →
      (∀ w', decimal? cs = some w' →
        (cs.drop (w' + (fraction? (cs.drop w')).getD 0)).length ≠ 1 ∨ NoSign rest) := by
    intro w hw hlen w' hw'
    cases hw.symm.trans hw'
    rcases hs with hs | hs
    · rw [← hlen, hs, List.drop_length]
      exact Or.inl (by simp)
    · exact Or.inr hs
  simp only [number?, Option.or_eq_some_iff] at h ⊢
  rw [fractionalNumber?_append hr, decimal?_append hr]
  rcases h with h | ⟨-, h | ⟨hscientific, h | ⟨hfractional, h | ⟨hdecimal, h⟩⟩⟩⟩
  · exact Or.inl (basedNumber?_append hr h)
  · obtain ⟨w, f, e, hw, hf, he, -⟩ := scientificNumber?_eq_some.1 h
    refine Or.inr ⟨plain hw (Or.inr ?_), Or.inl ?_⟩
    · cases hfrac : fraction? (cs.drop w) with
      | some f => exact exists_cons_of_fraction? hfrac
      | none =>
        rw [hfrac, Option.getD_none] at hf
        subst hf
        exact exists_cons_of_exponent? he
    · rw [scientificNumber?_append hr fun w' hw' => Or.inl ?_, h]
      cases hw.symm.trans hw'
      -- an exponent has a digit behind its letter
      rw [← hf]
      intro hone
      obtain ⟨c, hc⟩ := List.length_eq_one_iff.1 hone
      rw [hc, exponent?_cons] at he
      split at he <;> simp [decimal?] at he
  · simp only [fractionalNumber?, Option.bind_eq_bind, Option.bind_eq_some_iff] at h
    obtain ⟨w, hw, f, hf, hlen⟩ := h
    refine Or.inr ⟨plain hw (Or.inr (exists_cons_of_fraction? hf)), Or.inr ⟨?_, Or.inl ?_⟩⟩
    · rw [scientificNumber?_append hr (unscaled hw (by simpa [hf] using hlen.symm)), hscientific]
    · simp only [fractionalNumber?, Option.bind_eq_bind, hw, Option.bind_some, hf]
      exact hlen
  · have hfraction : fraction? (cs.drop n) = none := by
      exact Option.eq_none_iff_forall_ne_some.2 (by simpa [fractionalNumber?, h] using hfractional)
    refine Or.inr ⟨plain h (Or.inl rfl), Or.inr ⟨?_, Or.inr ⟨hfractional, Or.inl h⟩⟩⟩
    rw [scientificNumber?_append hr (unscaled h (by simp [hfraction])), hscientific]
  · refine Or.inr ⟨?_, Or.inr ⟨?_, Or.inr ⟨hfractional, Or.inr
      ⟨hdecimal, unbasedBit?_append h⟩⟩⟩⟩
    · obtain ⟨c, more, rfl, hc, -⟩ := unbasedBit?_eq_some h
      rw [Option.eq_none_iff_forall_ne_some]
      intro n hn
      obtain ⟨size, head, b, gap, d, rfl, rfl, hb, -⟩ := basedNumber?_eq_some.1 hn
      rw [decimal?_append hr, hdecimal] at hb
      exact absurd (hb.symm.trans (base?_bit hc (more ++ rest))) (by simp)
    · rw [scientificNumber?_append hr (by simp [hdecimal]), hscientific]

end Numbers

/-! ## White space behind a text -/

/-- The text begins with white space. -/
def BeginsWhite (cs : List Char) : Prop := ∃ c rest, cs = c :: rest ∧ isWhiteSpace c = true

/-- The characters of white space, one by one. -/
def whiteSpaceCharacters : List Char :=
  (whiteSpaceRanges.flatMap fun r => List.range' r.1 (r.2 + 1 - r.1)).map Char.ofNat

theorem mem_whiteSpaceCharacters (hc : isWhiteSpace c = true) : c ∈ whiteSpaceCharacters := by
  simp only [isWhiteSpace, inRanges, List.any_eq_true, Bool.and_eq_true, decide_eq_true_eq] at hc
  obtain ⟨r, hr, hlow, hhigh⟩ := hc
  refine List.mem_map.2 ⟨c.toNat, List.mem_flatMap.2 ⟨r, hr, ?_⟩, Char.ofNat_toNat c⟩
  exact List.mem_range'_1.2 ⟨hlow, by omega⟩

/-- White space has no part in any token, unless inside a number or a string. -/
theorem of_isWhiteSpace (hc : isWhiteSpace c = true)
    (hp : (whiteSpaceCharacters.all fun c => !p c) = true) : p c = false := by
  simpa using List.all_eq_true.1 hp c (mem_whiteSpaceCharacters hc)

theorem BeginsWhite.stops (h : BeginsWhite rest)
    (hp : (whiteSpaceCharacters.all fun c => !p c) = true) : Stops p rest := by
  obtain ⟨c, rest, rfl, hc⟩ := h
  rintro _ ⟨⟩
  exact of_isWhiteSpace hc hp

theorem BeginsWhite.noSign (h : BeginsWhite rest) : NoSign rest := by
  obtain ⟨c, rest, rfl, hc⟩ := h
  have hplus : c ≠ '+' := by simpa using of_isWhiteSpace (p := (· = '+')) hc (by decide)
  have hminus : c ≠ '-' := by simpa using of_isWhiteSpace (p := (· = '-')) hc (by decide)
  simp [NoSign, signLength, hplus, hminus]

/-- The spelling has no white space in it and bars none. -/
def Spelling.isInk (s : Spelling) : Bool :=
  !s.text.any isWhiteSpace &&
    match s.barrier with
    | .among cs => !cs.any isWhiteSpace
    | _ => true

theorem Token.isInk : ∀ t : Token, t.spellings.all Spelling.isInk = true := by
  simp only [← Token.spelled_eq]
  decide +kernel

/-- White space is never barred. -/
theorem Spelling.isInk.bars {s : Spelling} (h : s.isInk = true) (hc : isWhiteSpace c = true) :
    s.barrier.bars c = false := by
  simp only [Spelling.isInk, Bool.and_eq_true] at h
  cases hb : s.barrier with
  | nothing => rfl
  | among cs =>
    simp only [hb, Bool.not_eq_true', List.any_eq_false] at h
    simpa [Barrier.bars] using fun hmem => h.2 c hmem hc
  | word => exact of_isWhiteSpace hc (by decide +kernel)
  | identifier => exact of_isWhiteSpace hc (by decide)

/-- Whether a spelling fits does not depend on what stands behind white space. -/
theorem Spelling.fits_spaced {s : Spelling} (hs : s.isInk = true) (hr : BeginsWhite rest) :
    s.fits (cs ++ rest) = s.fits cs := by
  obtain ⟨c, rest, rfl, hc⟩ := hr
  have hbars := Spelling.isInk.bars hs hc
  rw [Bool.eq_iff_iff, Spelling.fits_iff, Spelling.fits_iff]
  constructor
  · rintro ⟨more, heq, hbar⟩
    rcases List.append_eq_append_iff.1 heq with ⟨bs, htext, hmore⟩ | ⟨bs, hcs, hmore⟩
    · cases bs with
      | nil => exact ⟨[], by simpa using htext.symm, by simp⟩
      | cons b bs =>
        -- the spelling would go on over the white space
        rw [List.cons_append, List.cons.injEq] at hmore
        have hmem : c ∈ s.text := by rw [htext, hmore.1]; simp
        have hplain : ∀ d ∈ s.text, isWhiteSpace d ≠ true := by
          simp only [Spelling.isInk, Bool.and_eq_true, Bool.not_eq_true', List.any_eq_false] at hs
          exact hs.1
        exact absurd hc (hplain c hmem)
    · refine ⟨bs, hcs, fun d hd => hbar d ?_⟩
      cases bs with
      | nil => cases hd
      | cons b bs => rwa [hmore]
  · rintro ⟨more, rfl, hbar⟩
    refine ⟨more ++ c :: rest, by simp, fun d hd => ?_⟩
    cases more with
    | nil =>
      cases hd
      exact hbars
    | cons b more => exact hbar d hd

theorem firstFit_spaced (t : Token) (hr : BeginsWhite rest) :
    firstFit t.spellings (cs ++ rest) = firstFit t.spellings cs := by
  have hfits : ∀ ss : List Spelling, ss.all Spelling.isInk = true →
      firstFit ss (cs ++ rest) = firstFit ss cs := by
    intro ss hss
    induction ss with
    | nil => rfl
    | cons s ss ih =>
      simp only [List.all_cons, Bool.and_eq_true] at hss
      simp only [firstFit, List.find?_cons, Spelling.fits_spaced hss.1 hr]
      split
      · rfl
      · exact ih hss.2
  exact hfits _ t.isInk

/-- **A token is found in front of white space, whatever stands behind**, unless it is a number and a
tick stands behind the white space. -/
theorem Token.length?_spaced {t : Token} (ht : (t.isSpelled || t.isFree) = true)
    (h : t.length? cs = some n) (hr : BeginsWhite rest)
    (hn : t = .number → NoTick (cs.drop n ++ rest)) : t.length? (cs ++ rest) = some n := by
  by_cases hs : t.isSpelled = true
  · rw [Token.length?_of_isSpelled hs] at h ⊢
    rwa [firstFit_spaced t hr]
  · rw [Bool.not_eq_true] at hs
    rw [hs, Bool.false_or] at ht
    unfold Token.isFree at ht
    split at ht
    · exact identifier?_append h (hr.stops (by decide))
    · exact escapedIdentifier?_append h (hr.stops (by decide))
    · exact systemName?_append h (hr.stops (by decide))
    · exact number?_append (hr.stops (by decide)) h (Or.inr hr.noSign) (hn rfl)
    · exact string?_append h rest
    · cases ht

/-! ## Another token behind a token -/

/-- The token may begin with the character. -/
def Token.mayBegin (u : Token) (c : Char) : Bool :=
  (u.spelled.any fun s => s.text.head? = some c) || (u.isFree && freeTokenAt c = some u)

/-- A token begins with a character with which it may begin. -/
theorem Token.mayBegin_of_length? {u : Token} (hu : (u.isSpelled || u.isFree) = true)
    (h : u.length? cs = some n) : ∃ c rest, cs = c :: rest ∧ u.mayBegin c = true := by
  by_cases hs : u.isSpelled = true
  · rw [Token.length?_of_isSpelled hs] at h
    obtain ⟨s, hmem, hfits, -⟩ := firstFit_eq_some h
    obtain ⟨rest, rfl, -⟩ := Spelling.fits_iff.1 hfits
    cases htext : s.text with
    | nil => exact absurd htext (Token.text_ne_nil u hmem)
    | cons c text =>
      refine ⟨c, text ++ rest, rfl, ?_⟩
      simp only [Token.mayBegin, Token.spelled_eq, Bool.or_eq_true, List.any_eq_true, decide_eq_true_eq]
      exact Or.inl ⟨s, hmem, by rw [htext]; rfl⟩
  · have hfree : u.isFree = true := by simpa [hs] using hu
    obtain ⟨c, rest, rfl, hc⟩ := freeTokenAt_of_length? hfree h
    exact ⟨c, rest, rfl, by simp [Token.mayBegin, hfree, hc]⟩

/-- No spelling of the token begins with a character of the class, and it has spellings. -/
def Token.beginsOutside (u : Token) (p : Char → Bool) : Bool :=
  !u.isFree && u.spelled.all fun s => s.text.head?.all fun c => !p c

theorem Token.beginsOutside.eq_false {u : Token} (h : u.beginsOutside p = true)
    (hc : u.mayBegin c = true) : p c = false := by
  simp only [Token.beginsOutside, Bool.and_eq_true, Bool.not_eq_true'] at h
  simp only [Token.mayBegin, h.1, Bool.false_and, Bool.or_false, List.any_eq_true,
    decide_eq_true_eq] at hc
  obtain ⟨s, hs, hhead⟩ := hc
  have := List.all_eq_true.1 h.2 s hs
  rw [hhead] at this
  simpa using this

/-- The characters behind which a number is at its end. -/
def numberEnds (c : Char) : Bool := !(numberGoesOn c || isWhiteSpace c || c = '\'')

/-- The barrier lets the token stand behind it. A dollar sign may make a keyword part of an
identifier. -/
def Barrier.admits (u : Token) : Barrier → Bool
  | .nothing => true
  | .among cs => cs.all fun c => !u.mayBegin c
  | .word => u.beginsOutside fun c => isWordCharacter c || c = '$'
  | .identifier => u.beginsOutside isIdentifierCharacter

/-- The second spelling does not go on, behind the first one, as the token begins. -/
def Spelling.partsFrom (u : Token) (s s' : Spelling) : Bool :=
  !s.text.isPrefixOf s'.text || (s'.text.drop s.text.length).head?.all fun c => !u.mayBegin c

/-- The second token may stand directly behind the first without running together with it. -/
def Token.joins (t u : Token) : Bool :=
  match t with
  | .identifier | .systemName => u.beginsOutside isIdentifierCharacter
  | .number => u.beginsOutside fun c => !numberEnds c
  | .string => true
  | _ => t.isSpelled &&
    t.spelled.all fun s => s.barrier.admits u && t.spelled.all fun s' => s.partsFrom u s'

theorem Barrier.admits.bars {u : Token} {b : Barrier} (h : b.admits u = true)
    (hc : u.mayBegin c = true) : b.bars c = false := by
  cases b with
  | nothing => rfl
  | among cs =>
    cases hmem : Barrier.bars (.among cs) c with
    | false => rfl
    | true =>
      have := List.all_eq_true.1 h c (by simpa [Barrier.bars] using hmem)
      simp [hc] at this
  | word => exact (Bool.or_eq_false_iff.1 (Token.beginsOutside.eq_false h hc)).1
  | identifier => exact Token.beginsOutside.eq_false h hc

/-- The first spelling that fits stays the first in front of a character that is barred behind none of the
spellings and with which none goes on. -/
theorem firstFit_apart {ss : List Spelling} (hbars : ∀ s ∈ ss, s.barrier.bars c = false)
    (hparts : ∀ s ∈ ss, ∀ s' ∈ ss, ∀ d more, s'.text = s.text ++ d :: more → d ≠ c)
    (hcs : firstFit ss cs = some cs.length) : firstFit ss (cs ++ c :: rest) = some cs.length := by
  obtain ⟨as, s, bs, hsplit, hfits, hlen, hbefore⟩ := firstFit_eq_some_iff.1 hcs
  obtain ⟨more, heq, -⟩ := Spelling.fits_iff.1 hfits
  have hmore : more = [] := by
    have := congrArg List.length heq
    rw [List.length_append] at this
    exact List.length_eq_zero_iff.1 (by omega)
  subst hmore
  rw [List.append_nil] at heq
  subst heq
  have hs : s ∈ ss := by rw [hsplit]; simp
  refine firstFit_eq_some_iff.2 ⟨as, s, bs, hsplit, ?_, rfl, fun s' hs' => ?_⟩
  · refine Spelling.fits_iff.2 ⟨c :: rest, rfl, ?_⟩
    rintro _ ⟨⟩
    exact hbars s hs
  · have hno := hbefore s' hs'
    rw [← Bool.not_eq_true] at hno ⊢
    intro hfit
    obtain ⟨more, heq, hbar⟩ := Spelling.fits_iff.1 hfit
    rcases List.append_eq_append_iff.1 heq with ⟨bs, htext, hmore⟩ | ⟨bs, htext, hmore⟩
    · cases bs with
      | nil =>
        refine hno (Spelling.fits_iff.2 ⟨[], by simpa using htext.symm, by simp⟩)
      | cons b bs =>
        -- the other spelling would go on with the character
        rw [List.cons_append, List.cons.injEq] at hmore
        exact hparts s hs s' (by rw [hsplit]; simp [hs']) b bs htext hmore.1.symm
    · refine hno (Spelling.fits_iff.2 ⟨bs, htext, fun d hd => hbar d ?_⟩)
      cases bs with
      | nil => cases hd
      | cons b bs => rwa [hmore]

/-- A spelled token stays what it is in front of a token that it joins. -/
theorem firstFit_joined {t u : Token}
    (h : (t.spellings.all fun s => s.barrier.admits u &&
      t.spellings.all fun s' => s.partsFrom u s') = true)
    (hcs : firstFit t.spellings cs = some cs.length) (hc : u.mayBegin c = true) :
    firstFit t.spellings (cs ++ c :: rest) = some cs.length := by
  have hall : ∀ s ∈ t.spellings, s.barrier.admits u = true ∧ ∀ s' ∈ t.spellings, s.partsFrom u s' = true := by
    intro s hs
    have hboth := List.all_eq_true.1 h s hs
    rw [Bool.and_eq_true] at hboth
    exact ⟨hboth.1, List.all_eq_true.1 hboth.2⟩
  refine firstFit_apart (fun s hs => Barrier.admits.bars (hall s hs).1 hc) (fun s hs s' hs' d more htext => ?_) hcs
  have hparts := (hall s hs).2 s' hs'
  have hpre : s.text.isPrefixOf (s.text ++ d :: more) = true := List.isPrefixOf_iff_prefix.2 (List.prefix_append _ _)
  rw [Spelling.partsFrom, htext, hpre, List.drop_left] at hparts
  rintro rfl
  simp [hc] at hparts

/-- **A token is found in front of another one with which it does not run together.** -/
theorem Token.length?_joined {t u : Token} (hj : t.joins u = true) (h : t.length? cs = some cs.length)
    (hc : u.mayBegin c = true) : t.length? (cs ++ c :: rest) = some cs.length := by
  have stops : ∀ {p : Char → Bool}, p c = false → Stops p (c :: rest) := by
    rintro p hp _ ⟨⟩
    exact hp
  unfold Token.joins at hj
  split at hj
  · exact identifier?_append h (stops (Token.beginsOutside.eq_false hj hc))
  · exact systemName?_append h (stops (Token.beginsOutside.eq_false hj hc))
  · have hend := Token.beginsOutside.eq_false hj hc
    simp only [numberEnds, Bool.not_not, Bool.or_eq_false_iff, decide_eq_false_iff_not] at hend
    refine number?_append (stops hend.1.1) h (Or.inl rfl) ?_
    rw [List.drop_length, List.nil_append]
    exact noTick_cons hend.1.2 hend.2 rest
  · exact string?_append h _
  · rw [Bool.and_eq_true, Token.spelled_eq] at hj
    rw [Token.length?_of_isSpelled hj.1] at h ⊢
    exact firstFit_joined hj.2 h hc

end VerilogLoops.Lexical
