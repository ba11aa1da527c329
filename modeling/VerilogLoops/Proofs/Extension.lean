import VerilogLoops.Proofs.Token.Gap
import VerilogLoops.Proofs.Transcript

/-!
# Leaves of a text that goes on

Where leaves lie in a text, they lie in every text that goes on with white space. Three things could
go wrong, and the grammar rules out all of them: a tick behind the white space would make a number
longer, a star would make a slash the opening of a comment, and a line comment at the end of the text
would go on.

> `Lays.extend`: leaves that lie in a text lie in the text with white space and anything else behind;
> `Reads.extend`: a phrase that is read there is read in the longer text.
-/

namespace VerilogLoops.Grammar

open VerilogLoops.Text VerilogLoops.Lexical

variable {s a : Place} {t leaf : ParseTree} {k u : Token} {ls : List Leaf} {cs rest : List Char}

/-- The place in the text that goes on. -/
def Place.extend (rest : List Char) (s : Place) : Place := ⟨s.offset, s.rest ++ rest⟩

/-! ## The character behind a token -/

/-- A token begins with neither white space nor a tick, unless it is a number. -/
theorem mayBegin_ink {c : Char} (hk : k ≠ .number) (hc : k.mayBegin c = true) :
    isWhiteSpace c = false ∧ c ≠ '\'' := by
  have hspelled : ∀ k : Token, (k.spelled.all fun s => s.text.head?.all fun c =>
      !(isWhiteSpace c || c = '\'')) = true := by decide +kernel
  simp only [Token.mayBegin, Bool.or_eq_true, List.any_eq_true, decide_eq_true_eq,
    Bool.and_eq_true] at hc
  rcases hc with ⟨s, hs, hhead⟩ | ⟨-, hfree⟩
  · have := List.all_eq_true.1 (hspelled k) s hs
    rw [hhead] at this
    simpa using this
  · unfold freeTokenAt at hfree
    by_cases hstart : isIdentifierStart c = true
    · have := not_digit_of_isIdentifierStart hstart
      simp only [Bool.or_eq_false_iff, decide_eq_false_iff_not] at this
      exact ⟨this.1.2, this.2⟩
    · by_cases hnumber : (isDecimalDigit c || isWhiteSpace c || c = '\'') = true
      · rw [if_neg hstart, if_pos hnumber] at hfree
        exact absurd (Option.some.inj hfree).symm hk
      · simp only [Bool.or_eq_true, decide_eq_true_eq, not_or] at hnumber
        exact ⟨by simpa using hnumber.1.2, hnumber.2⟩

/-- A token that is found at a place begins with a character with which it may begin. -/
theorem mayBegin_of_tokenAt (hk : (k.isSpelled || k.isFree) = true)
    (h : tokenAt k s = some (leaf, a)) :
    ∃ c more, s.rest.drop (triviaLength s.rest) = c :: more ∧ k.mayBegin c = true := by
  obtain ⟨n, hn⟩ := stands_iff.1 (stands_of_tokenAt h)
  exact Token.mayBegin_of_length? hk hn

/-- No tick stands behind the white space in front of a token that is no number. -/
theorem noTick_of_tokenAt (hk : (k.isSpelled || k.isFree) = true) (hnumber : k ≠ .number)
    (h : tokenAt k s = some (leaf, a)) (rest : List Char) : NoTick (s.rest ++ rest) := by
  obtain ⟨c, more, hdrop, hc⟩ := mayBegin_of_tokenAt hk h
  obtain ⟨hwhite, htick⟩ := mayBegin_ink hnumber hc
  generalize s.rest = cs at hdrop
  -- blanks are white space, and a comment begins with neither white space nor a tick
  induction cs with
  | nil => cases hdrop
  | cons d cs ih =>
    by_cases hblank : isBlank d = true
    · rw [triviaLength_blank hblank, Nat.add_comm, List.drop_succ_cons] at hdrop
      have := ih hdrop
      rw [NoTick] at this ⊢
      rwa [List.cons_append, List.dropWhile_cons_of_pos (isWhiteSpace_of_isBlank hblank)]
    · rcases trivia_cases (d :: cs) with ⟨e, r, heq, he⟩ | ⟨n, hcomment⟩ | hbare
      · cases heq
        exact absurd he hblank
      · obtain ⟨r, heq⟩ := head_of_comment? hcomment
        cases heq
        exact noTick_cons (by decide) (by decide) _
      · rw [triviaLength_of_startsBare hbare, List.drop_zero] at hdrop
        cases hdrop
        exact noTick_cons hwhite htick _

/-- Directly behind a slash no star comes next, if a token follows that may stand behind a slash. -/
theorem head_ne_star (hk : (k.isSpelled || k.isFree) = true)
    (hmeets : k ∉ shunned .multiplicative) (h : tokenAt k s = some (leaf, a)) :
    s.rest.head? ≠ some '*' := by
  intro hstar
  obtain ⟨rest, hrest⟩ := List.head?_eq_some_iff.1 hstar
  have hbare : StartsBare s.rest := by
    rw [hrest]
    exact ⟨by rintro _ ⟨⟩; decide, rfl⟩
  obtain ⟨c, more, hdrop, hc⟩ := mayBegin_of_tokenAt hk h
  rw [triviaLength_of_startsBare hbare, List.drop_zero, hrest, List.cons.injEq] at hdrop
  rw [← hdrop.1] at hc
  have hshunned : ∀ k : Token, k ∉ shunned .multiplicative → k.mayBegin '*' = false := by
    decide +kernel
  rw [hshunned k hmeets] at hc
  cases hc

/-! ## Tokens and leaves of the longer text -/

/-- The tokens whose text begins with a slash. -/
theorem text_of_slash {text : List Char} (hk : (k.isSpelled || k.isFree) = true)
    (h : k.length? (text ++ cs) = some text.length) (hslash : text.head? = some '/') :
    (text = ['/'] ∧ k = .multiplicative) ∨ text = ['/', '='] := by
  have hspelled : ∀ k : Token, (k.spelled.all fun s => s.text.head? ≠ some '/' ||
      (s.text = ['/'] && k = .multiplicative) || s.text = ['/', '=']) = true := by
    decide +kernel
  by_cases hs : k.isSpelled = true
  · rw [Token.length?_of_isSpelled hs] at h
    obtain ⟨sp, hsp, hfits, hlen⟩ := firstFit_eq_some h
    obtain ⟨more, heq, -⟩ := Spelling.fits_iff.1 hfits
    have htext : text = sp.text := (List.append_inj heq hlen.symm).1
    have := List.all_eq_true.1 (hspelled k) sp (k.spelled_eq ▸ hsp)
    rw [← htext] at this
    simpa [hslash] using this
  · have hfree : k.isFree = true := by simpa [hs] using hk
    obtain ⟨c, more, heq, hc⟩ := freeTokenAt_of_length? hfree h
    obtain ⟨r, rfl⟩ := List.head?_eq_some_iff.1 hslash
    rw [List.cons_append, List.cons.injEq] at heq
    rw [← heq.1, show freeTokenAt '/' = none by decide] at hc
    cases hc

/-- Where a token is found no comment begins, and none does when the text goes on with white space. -/
theorem comment?_extend {text behind : List Char} (hk : (k.isSpelled || k.isFree) = true)
    (hlen : k.length? (text ++ behind) = some text.length) (hpos : 0 < text.length)
    (hbare : StartsBare (text ++ behind)) (hr : BeginsWhite rest)
    (hslash : k = .multiplicative → behind.head? ≠ some '*') :
    comment? (text ++ behind ++ rest) = none := by
  cases hcomment : comment? (text ++ behind ++ rest) with
  | none => rfl
  | some n =>
    exfalso
    obtain ⟨r, hr'⟩ := head_of_comment? hcomment
    have hhead : text.head? = some '/' := by
      cases text with
      | nil => simp at hpos
      | cons c text =>
        cases hr'
        rfl
    rcases text_of_slash hk hlen hhead with ⟨rfl, rfl⟩ | rfl
    · -- behind the slash comes what came before, or white space
      obtain ⟨w, more, rfl, hw⟩ := hr
      cases behind with
      | nil =>
        rcases comment?_eq_some hcomment with ⟨r, heq, -⟩ | ⟨r, _, heq, -⟩ <;> cases heq <;>
          exact absurd hw (by decide)
      | cons c r =>
        rcases comment?_eq_some hcomment with ⟨r', heq, -⟩ | ⟨r', _, heq, -⟩
        · cases heq
          exact absurd hbare.2 (by simp [comment?, lineComment?])
        · cases heq
          exact hslash rfl rfl
    · rcases comment?_eq_some hcomment with ⟨r, heq, -⟩ | ⟨r, _, heq, -⟩ <;> cases heq

/-- A token is found in the text that goes on, if it does not become part of a number or a comment. -/
theorem tokenAt_extend (hk : (k.isSpelled || k.isFree) = true) (h : tokenAt k s = some (leaf, a))
    (hr : BeginsWhite rest) (hnumber : k = .number → NoTick (a.rest ++ rest))
    (hslash : k = .multiplicative → a.rest.head? ≠ some '*') :
    tokenAt k (s.extend rest) = some (leaf, a.extend rest) := by
  obtain ⟨text, hdrop, hlen, rfl, hoff⟩ := tokenAt_iff.1 h
  have hpos : 0 < text.length := (Token.length?_within (by rintro rfl; cases hk) hlen).1
  have hlength := congrArg List.length hdrop
  rw [List.length_drop, List.length_append] at hlength
  have hcomment : comment? (text ++ a.rest ++ rest) = none :=
    comment?_extend hk hlen hpos (hdrop ▸ startsBare_drop s.rest) hr hslash
  have htrivia : triviaLength (s.extend rest).rest = triviaLength s.rest :=
    triviaLength_extend (by omega) (by rw [hdrop]; exact hcomment)
  have hdrop' : (s.extend rest).rest.drop (triviaLength (s.extend rest).rest) =
      text ++ (a.extend rest).rest := by
    rw [htrivia]
    show (s.rest ++ rest).drop _ = text ++ (a.rest ++ rest)
    rw [List.drop_append_of_le_length (by omega), hdrop, List.append_assoc]
  refine tokenAt_iff.2 ⟨text, hdrop', ?_, ?_, ?_⟩
  · show k.length? (text ++ (a.rest ++ rest)) = some text.length
    rw [← List.append_assoc]
    refine Token.length?_spaced hk hlen hr fun hn => ?_
    rw [List.drop_left]
    exact hnumber hn
  · rw [htrivia]
    rfl
  · rw [htrivia]
    exact hoff

/-- The last leaf does not run together with the white space behind the text. -/
def EndsApart (behind : List Char) (ls : List Leaf) : Prop :=
  ∀ l, ls.getLast? = some l → l.token ≠ .multiplicative ∧ (l.token = .number → NoTick behind)

/-- **Leaves that lie in a text lie in the text that goes on.** -/
theorem Lays.extend (h : Lays s ls a) (hls : ∀ l ∈ ls, (l.token.isSpelled || l.token.isFree) = true)
    (hmeets : ls.IsChain Leaf.Meets) (hr : BeginsWhite rest) (hend : EndsApart (a.rest ++ rest) ls) :
    Lays (s.extend rest) ls (a.extend rest) := by
  induction ls generalizing s with
  | nil =>
    cases h
    rfl
  | cons l ls ih =>
    obtain ⟨m, hm, hrest⟩ := h
    cases ls with
    | nil =>
      cases hrest
      obtain ⟨hslash, hnumber⟩ := hend l rfl
      exact ⟨_, tokenAt_extend (hls l (by simp)) hm hr hnumber fun h => absurd h hslash, rfl⟩
    | cons l' ls =>
      obtain ⟨hmeet, hchain⟩ := List.isChain_cons_cons.1 hmeets
      have hl' := hls l' (by simp)
      have hfirst := hrest
      obtain ⟨n, hn, -⟩ := hfirst
      refine ⟨_, tokenAt_extend (hls l (by simp)) hm hr ?_ ?_, ih hrest (fun k hk => hls k
        (List.mem_cons_of_mem _ hk)) hchain fun k hk => hend k (by simpa using hk)⟩
      · intro hnumber
        refine noTick_of_tokenAt hl' ?_ hn rest
        rintro heq
        rw [Leaf.Meets, hnumber, heq] at hmeet
        exact hmeet (by decide)
      · intro hslash
        rw [Leaf.Meets, hslash] at hmeet
        exact head_ne_star hl' hmeet hn

/-- **A phrase that is read in a text is read in the text that goes on.** Behind a number that ends the
phrase no tick may come. -/
theorem Reads.extend {p : Phrase} (h : Reads (.phrase p) s [t] a)
    (hp : p.isPlain = true ∧ .equals ∉ p.closers ∧ .multiplicative ∉ p.closers)
    (hr : BeginsWhite rest) (hnumber : .number ∈ p.closers → NoTick (a.rest ++ rest)) :
    Reads (.phrase p) (s.extend rest) [t] (a.extend rest) := by
  have hlays : Lays s t.leaves a := by simpa using Reads.lays h
  have htokens := tokens_of_fits h.fits (Phrase.isPlain_phrase hp.1)
  have hend : EndsApart (a.rest ++ rest) t.leaves := by
    intro l hl
    have hmem := last_mem_closers h.fits l hl
    exact ⟨fun hslash => hp.2.2 (hslash ▸ hmem), fun hn => hnumber (hn ▸ hmem)⟩
  obtain ⟨u, hu, hbare, hleaves⟩ := Fits.reads h.fits hp.2.1
    (hlays.extend (by simpa using htokens) (chain_leaves h.fits) hr hend) rfl
  rwa [eq_of_bare hbare hleaves] at hu

end VerilogLoops.Grammar
