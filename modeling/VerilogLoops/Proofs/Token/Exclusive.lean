import VerilogLoops.Proofs.Token.Length

/-!
# Tokens that exclude each other

Whether two tokens can stand at the head of one text can be seen from how they are spelled. Two
spellings exclude each other if neither begins the other, or if the shorter one bars the character
by which the longer one goes on: so `|` excludes `||`, and `for` excludes `foreach`. A token of free
text is known by its first character. The test is

> `Token.excludes t u`, and `Token.length?_of_excludes`: if it holds and `t` stands at the head of a
> text, then `u` does not.
-/

namespace VerilogLoops.Lexical

open VerilogLoops.Text

/-! ## Spellings -/

/-- The first spelling goes on as the second one but bars the next character. -/
def Spelling.barsRestOf (s t : Spelling) : Bool :=
  s.text.isPrefixOf t.text &&
    match t.text.drop s.text.length with
    | c :: _ => s.barrier.bars c
    | [] => false

/-- The spellings cannot stand at the head of the same text. -/
def Spelling.excludes (s t : Spelling) : Bool :=
  (!s.text.isPrefixOf t.text && !t.text.isPrefixOf s.text) || s.barsRestOf t || t.barsRestOf s

/-- A spelling stands where its text does and the next character is not barred. -/
theorem Spelling.fits_iff {s : Spelling} {cs : List Char} :
    s.fits cs = true ↔
      ∃ rest, cs = s.text ++ rest ∧ ∀ c, rest.head? = some c → s.barrier.bars c = false := by
  constructor
  · intro h
    simp only [fits, Bool.and_eq_true, List.isPrefixOf_iff_prefix] at h
    obtain ⟨⟨rest, rfl⟩, hbar⟩ := h
    refine ⟨rest, rfl, fun c hc => ?_⟩
    rw [List.drop_left] at hbar
    cases rest with
    | nil => cases hc
    | cons d rest =>
      cases hc
      simpa using hbar
  · rintro ⟨rest, rfl, hbar⟩
    simp only [fits, Bool.and_eq_true, List.isPrefixOf_iff_prefix, List.prefix_append, true_and,
      List.drop_left]
    cases rest with
    | nil => rfl
    | cons d rest => simpa using hbar d rfl

theorem Spelling.not_fits_of_barsRestOf {s t : Spelling} {cs : List Char}
    (h : s.barsRestOf t = true) (ht : t.fits cs = true) : s.fits cs = false := by
  simp only [barsRestOf, Bool.and_eq_true, List.isPrefixOf_iff_prefix] at h
  obtain ⟨⟨more, hmore⟩, hbar⟩ := h
  obtain ⟨rest, rfl, -⟩ := Spelling.fits_iff.1 ht
  rw [← hmore, List.drop_left] at hbar
  cases more with
  | nil => cases hbar
  | cons c more =>
    cases hs : s.fits (t.text ++ rest) with
    | false => rfl
    | true =>
      obtain ⟨rest', heq, hfree⟩ := Spelling.fits_iff.1 hs
      rw [← hmore, List.append_assoc] at heq
      have hrest := List.append_cancel_left heq
      have := hfree c (by rw [← hrest]; rfl)
      simp_all

/-- Spellings that exclude each other do not fit the same text. -/
theorem Spelling.not_fits_of_excludes {s t : Spelling} {cs : List Char}
    (h : s.excludes t = true) (hs : s.fits cs = true) : t.fits cs = false := by
  cases ht : t.fits cs with
  | false => rfl
  | true =>
    simp only [excludes, Bool.or_eq_true, Bool.and_eq_true, Bool.not_eq_true'] at h
    rcases h with (⟨hst, hts⟩ | h) | h
    · obtain ⟨rest, rfl, -⟩ := Spelling.fits_iff.1 hs
      obtain ⟨rest', heq, -⟩ := Spelling.fits_iff.1 ht
      -- two prefixes of one text are comparable
      rcases Nat.le_total s.text.length t.text.length with hle | hle
      · have := List.prefix_of_prefix_length_le ⟨rest, rfl⟩ ⟨rest', heq.symm⟩ hle
        rw [List.isPrefixOf_iff_prefix.2 this] at hst
        cases hst
      · have := List.prefix_of_prefix_length_le ⟨rest', heq.symm⟩ ⟨rest, rfl⟩ hle
        rw [List.isPrefixOf_iff_prefix.2 this] at hts
        cases hts
    · rw [Spelling.not_fits_of_barsRestOf h ht] at hs
      cases hs
    · rw [Spelling.not_fits_of_barsRestOf h hs] at ht
      cases ht

/-- What is found first among some spellings is one of them, and it fits. -/
theorem firstFit_eq_some {spellings : List Spelling} {cs : List Char} {n : Nat}
    (h : firstFit spellings cs = some n) :
    ∃ s ∈ spellings, s.fits cs = true ∧ s.text.length = n := by
  simp only [firstFit, Option.map_eq_some_iff] at h
  obtain ⟨s, hs, rfl⟩ := h
  exact ⟨s, List.mem_of_find?_eq_some hs, by simpa using List.find?_some hs, rfl⟩

theorem firstFit_eq_none {spellings : List Spelling} {cs : List Char}
    (h : ∀ s ∈ spellings, s.fits cs = false) : firstFit spellings cs = none := by
  simp only [firstFit, Option.map_eq_none_iff, List.find?_eq_none]
  intro s hs
  simp [h s hs]

/-! ## Tokens of free text -/

/-- The token of free text that begins with a character. -/
def freeTokenAt (c : Char) : Option Token :=
  if isIdentifierStart c then some .identifier
  else if isDecimalDigit c || isWhiteSpace c || c = '\'' then some .number
  else if c = '\\' then some .escapedIdentifier
  else if c = '$' then some .systemName
  else if c = '"' then some .string
  else none

/-- The tokens of free text that stand between trivia. -/
def Token.isFree : Token → Bool
  | .identifier | .escapedIdentifier | .systemName | .number | .string => true
  | _ => false

/-- The letters that begin an identifier are graphic characters of ASCII. -/
theorem range_of_isIdentifierStart {c : Char} (h : isIdentifierStart c = true) : 33 ≤ c.toNat ∧ c.toNat ≤ 126 := by
  have h : (decide ('A'.val ≤ c.val ∧ c.val ≤ 'Z'.val) || ('a'.val ≤ c.val && c.val ≤ 'z'.val) || c = '_')
      = true := h
  simp only [Bool.or_eq_true, Bool.and_eq_true, decide_eq_true_eq] at h
  rcases h with (h | h) | rfl
  · have hge : 65 ≤ c.toNat := UInt32.le_iff_toNat_le.1 h.1
    have hle : c.toNat ≤ 90 := UInt32.le_iff_toNat_le.1 h.2
    omega
  · have hge : 97 ≤ c.toNat := UInt32.le_iff_toNat_le.1 h.1
    have hle : c.toNat ≤ 122 := UInt32.le_iff_toNat_le.1 h.2
    omega
  · decide

/-- The letters that begin an identifier are no digits of any script, no white space and no tick. -/
theorem not_digit_of_isIdentifierStart {c : Char} (h : isIdentifierStart c = true) :
    (isDecimalDigit c || isWhiteSpace c || c = '\'') = false := by
  have hc : c.toNat < 128 := by
    have := (range_of_isIdentifierStart h).2
    omega
  -- what is left are the characters of ASCII
  have key : ∀ n : Fin 128, isIdentifierStart (Char.ofNat n) = true →
      (isDecimalDigit (Char.ofNat n) || isWhiteSpace (Char.ofNat n) || Char.ofNat n = '\'')
        = false := by decide
  have := key ⟨c.toNat, hc⟩
  simp only [Char.ofNat_toNat] at this
  exact this h

theorem opening_of_decimal? {cs : List Char} {n : Nat} (h : decimal? cs = some n) :
    ∃ c rest, cs = c :: rest ∧ isDecimalDigit c = true := by
  unfold decimal? at h
  split at h
  · next c rest =>
    split at h
    · next hc => exact ⟨c, rest, rfl, hc⟩
    · cases h
  · cases h

/-- A number begins with a digit, with white space or with a tick. -/
theorem opening_of_number? {cs : List Char} {n : Nat} (h : number? cs = some n) :
    ∃ c rest, cs = c :: rest ∧ (isDecimalDigit c || isWhiteSpace c || c = '\'') = true := by
  have ofDecimal : ∀ {m}, decimal? cs = some m →
      ∃ c rest, cs = c :: rest ∧ (isDecimalDigit c || isWhiteSpace c || c = '\'') = true := by
    intro m hm
    obtain ⟨c, rest, rfl, hc⟩ := opening_of_decimal? hm
    exact ⟨c, rest, rfl, by simp [hc]⟩
  simp only [number?, Option.or_eq_some_iff] at h
  rcases h with h | ⟨-, h | ⟨-, h | ⟨-, h | ⟨-, h⟩⟩⟩⟩
  · simp only [basedNumber?, Option.bind_eq_bind, Option.bind_eq_some_iff] at h
    obtain ⟨b, hb, -⟩ := h
    cases hd : decimal? cs with
    | some m => exact ofDecimal hd
    | none =>
      rw [hd] at hb
      cases cs with
      | nil => simp [base?] at hb
      | cons c rest =>
        refine ⟨c, rest, rfl, ?_⟩
        -- without a size, white space may stand in front of the tick
        by_cases hw : isWhiteSpace c = true
        · simp [hw]
        · simp only [Option.getD_none, runLength, List.drop_zero, List.takeWhile_cons, hw,
            Bool.false_eq_true, if_false, List.length_nil, Nat.add_zero] at hb
          unfold base? at hb
          split at hb
          · next heq =>
            cases heq
            simp
          · cases hb
  · simp only [scientificNumber?, Option.bind_eq_bind, Option.bind_eq_some_iff] at h
    obtain ⟨w, hw, -⟩ := h
    exact ofDecimal hw
  · simp only [fractionalNumber?, Option.bind_eq_bind, Option.bind_eq_some_iff] at h
    obtain ⟨w, hw, -⟩ := h
    exact ofDecimal hw
  · exact ofDecimal h
  · unfold unbasedBit? at h
    split at h
    · next c rest => exact ⟨'\'', c :: rest, rfl, by simp⟩
    · cases h

/-- A token of free text is known by its first character. -/
theorem freeTokenAt_of_length? {t : Token} {cs : List Char} {n : Nat} (ht : t.isFree = true)
    (h : t.length? cs = some n) : ∃ c rest, cs = c :: rest ∧ freeTokenAt c = some t := by
  cases t with
  | identifier =>
    simp only [Token.length?, identifier?] at h
    split at h
    · next c rest =>
      split at h
      · next hc => exact ⟨c, rest, rfl, by simp [freeTokenAt, hc]⟩
      · cases h
    · cases h
  | number =>
    obtain ⟨c, rest, rfl, hc⟩ := opening_of_number? h
    refine ⟨c, rest, rfl, ?_⟩
    -- letters are asked for first, and none of these begins an identifier
    cases hi : isIdentifierStart c with
    | true =>
      rw [not_digit_of_isIdentifierStart hi] at hc
      cases hc
    | false => simp only [freeTokenAt, hi, hc, Bool.false_eq_true, if_false, if_true]
  | escapedIdentifier =>
    simp only [Token.length?, escapedIdentifier?] at h
    split at h
    · exact ⟨'\\', _, rfl, by decide⟩
    · cases h
  | systemName =>
    simp only [Token.length?, systemName?] at h
    split at h
    · exact ⟨'$', _, rfl, by decide⟩
    · cases h
  | string =>
    simp only [Token.length?, string?] at h
    split at h
    · exact ⟨'"', _, rfl, by decide⟩
    · cases h
  | _ => cases ht

/-! ## Tokens -/

/-- The token has spellings. -/
def Token.isSpelled (t : Token) : Bool := t.spellings ≠ []

/-- The token of free text does not begin like any spelling of the other. -/
def Token.opensApart (t u : Token) : Bool :=
  t.isFree && u.isSpelled &&
    u.spelled.all fun s => s.text.head?.all fun c => freeTokenAt c ≠ some t

/-- The tokens cannot stand at the head of the same text. A scope such as `$unit` begins like the
name of a system task but is none. -/
def Token.excludes (t u : Token) : Bool :=
  (t ≠ u && (t = .endOfInput || u = .endOfInput || (t.isFree && u.isFree)))
    || t.opensApart u || u.opensApart t
    || (t = .systemName && (u = .unitScope || u = .rootScope))
    || (u = .systemName && (t = .unitScope || t = .rootScope))
    || (t.isSpelled && u.isSpelled &&
      t.spelled.all fun s => u.spelled.all fun s' => s.excludes s')

/-- A token with spellings is found by them. -/
theorem Token.length?_of_isSpelled {t : Token} (h : t.isSpelled = true) (cs : List Char) :
    t.length? cs = firstFit t.spellings cs := by
  cases t <;> first | rfl | cases h

theorem Token.length?_of_opensApart {t u : Token} {cs : List Char} {n : Nat}
    (h : t.opensApart u = true) (ht : t.length? cs = some n) : u.length? cs = none := by
  simp only [opensApart, spelled_eq, Bool.and_eq_true, List.all_eq_true] at h
  obtain ⟨⟨hfree, hspelled⟩, hall⟩ := h
  obtain ⟨c, rest, rfl, hc⟩ := freeTokenAt_of_length? hfree ht
  rw [Token.length?_of_isSpelled hspelled]
  refine firstFit_eq_none fun s hs => ?_
  cases hfit : s.fits (c :: rest) with
  | false => rfl
  | true =>
    obtain ⟨rest', heq, -⟩ := Spelling.fits_iff.1 hfit
    have hne := Token.text_ne_nil u hs
    cases htext : s.text with
    | nil => exact absurd htext hne
    | cons d more =>
      have := hall s hs
      rw [htext] at this heq
      cases heq
      simp [hc] at this

/-- A system name is no scope. -/
theorem length?_of_systemName {cs : List Char} {n : Nat}
    (h : Token.length? .systemName cs = some n) :
    Token.length? .unitScope cs = none ∧ Token.length? .rootScope cs = none := by
  simp only [Token.length?, systemName?] at h
  split at h
  · next rest =>
    have key : ∀ name ∈ scopeNames,
        (Spelling.wholeWord ("$" ++ name)).fits ('$' :: rest) = false := by
      intro name hname
      cases hfit : (Spelling.wholeWord ("$" ++ name)).fits ('$' :: rest) with
      | false => rfl
      | true =>
        obtain ⟨more, heq, hbar⟩ := Spelling.fits_iff.1 hfit
        have hrest : rest = name.toList ++ more := by
          simpa [Spelling.wholeWord, String.toList_append] using heq
        -- the name is spelled with identifier characters, and none follows it
        have hrun : rest.takeWhile isIdentifierCharacter = name.toList := by
          have hname' : ∀ c ∈ name.toList, isIdentifierCharacter c = true := by
            have hscopes : (scopeNames.all fun n => n.toList.all isIdentifierCharacter) = true := by
              decide
            exact List.all_eq_true.1 (List.all_eq_true.1 hscopes name hname)
          rw [hrest, List.takeWhile_append_of_pos hname']
          cases more with
          | nil => simp
          | cons c more =>
            have : isIdentifierCharacter c = false := hbar c rfl
            simp [this]
        rw [hrun] at h
        split at h
        · cases h
        · rw [if_pos (List.any_eq_true.2 ⟨name, hname, by simp⟩)] at h
          cases h
    exact ⟨firstFit_eq_none (by simpa [Token.spellings] using key "unit" (by decide)),
      firstFit_eq_none (by simpa [Token.spellings] using key "root" (by decide))⟩
  · cases h

/-- Of two tokens that exclude each other, only one stands at the head of a text. -/
theorem Token.length?_of_excludes {t u : Token} {cs : List Char} {n : Nat}
    (h : t.excludes u = true) (ht : t.length? cs = some n) : u.length? cs = none := by
  cases hu : u.length? cs with
  | none => rfl
  | some m =>
    simp only [excludes, Bool.or_eq_true] at h
    -- they exclude each other as the end of input or free text, by what they begin with, by the names
    -- that a system name must not have, or spelling by spelling
    rcases h with ((((h | h) | h) | h) | h) | h
    · simp only [Bool.and_eq_true, Bool.or_eq_true, decide_eq_true_eq] at h
      obtain ⟨hne, (rfl | rfl) | ⟨hft, hfu⟩⟩ := h
      · have := (length?_endOfInput.1 ht).1
        have hw := Token.length?_within (Ne.symm hne) hu
        rw [this, Within, List.length_nil] at hw
        omega
      · have := (length?_endOfInput.1 hu).1
        have hw := Token.length?_within hne ht
        rw [this, Within, List.length_nil] at hw
        omega
      · obtain ⟨c, rest, rfl, hc⟩ := freeTokenAt_of_length? hft ht
        obtain ⟨d, rest', heq, hd⟩ := freeTokenAt_of_length? hfu hu
        cases heq
        rw [hc] at hd
        cases hd
        exact absurd rfl hne
    · rw [Token.length?_of_opensApart h ht] at hu
      cases hu
    · rw [Token.length?_of_opensApart h hu] at ht
      cases ht
    · simp only [Bool.and_eq_true, Bool.or_eq_true, decide_eq_true_eq] at h
      obtain ⟨rfl, rfl | rfl⟩ := h
      · simp [(length?_of_systemName ht).1] at hu
      · simp [(length?_of_systemName ht).2] at hu
    · simp only [Bool.and_eq_true, Bool.or_eq_true, decide_eq_true_eq] at h
      obtain ⟨rfl, rfl | rfl⟩ := h
      · simp [(length?_of_systemName hu).1] at ht
      · simp [(length?_of_systemName hu).2] at ht
    · simp only [spelled_eq, Bool.and_eq_true, List.all_eq_true] at h
      obtain ⟨⟨hst, hsu⟩, hall⟩ := h
      rw [Token.length?_of_isSpelled hst] at ht
      rw [Token.length?_of_isSpelled hsu] at hu
      obtain ⟨s, hs, hfit, -⟩ := firstFit_eq_some ht
      obtain ⟨s', hs', hfit', -⟩ := firstFit_eq_some hu
      rw [Spelling.not_fits_of_excludes (hall s hs s' hs') hfit] at hfit'
      cases hfit'

end VerilogLoops.Lexical
