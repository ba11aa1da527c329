import VerilogLoops.Proofs.Parsing
import VerilogLoops.Proofs.Token.Gap

/-!
# Matching comes to an end

A matcher that calls itself for the parts of a pattern can fail to end in two ways: it enters a phrase
where it has entered the phrase before and not left it yet, or a repetition takes nothing and goes on for
ever. Neither happens. What a matcher tries on its way through a pattern is the relation `Tries`, and the
activations that are open at a time are those of a `Nested` chain; along such a chain the text that is
left gets shorter, or it stays the same and the rank of the phrase falls.

That the chain is the one of the matcher itself is said with a matcher that keeps the list of the open
activations and gives up as soon as one of them would be entered again (`Phrase.guarded`): it does the
same as the matcher without the list.

> `parsing_terminates`: no phrase is entered where it is still open, every round of a repetition and of
> the search for comments advances, and the fuel for a text is never used up.
-/

namespace VerilogLoops.Grammar

open VerilogLoops.Text VerilogLoops.Lexical

/-! ## What is tried on the way through a pattern -/

/-- Matching a pattern at a place tries a part of it at a place. Phrases are parts that are not opened. -/
inductive Tries : Pattern → Place → Pattern → Place → Prop
  | here {x s} : Tries x s x s
  | first {x y s z b} (h : Tries x s z b) : Tries (.seq x y) s z b
  | second {x y s ts m z b} (hx : Takes x s ts m) (h : Tries y m z b) : Tries (.seq x y) s z b
  | altFirst {x y s z b} (h : Tries x s z b) : Tries (.alt x y) s z b
  | altSecond {x y s z b} (hx : Refuses x s) (h : Tries y s z b) : Tries (.alt x y) s z b
  | opt {x s z b} (h : Tries x s z b) : Tries (.opt x) s z b
  | item {x s z b} (h : Tries x s z b) : Tries (.many x) s z b
  | again {x s ts m z b} (hx : Takes x s ts m) (h : Tries (.many x) m z b) : Tries (.many x) s z b
  | tailItem {t x s mark m z b} (ht : tokenAt t s = some (mark, m)) (h : Tries x m z b) :
    Tries (.tail t x) s z b
  | tailAgain {t x s mark m ts n z b} (ht : tokenAt t s = some (mark, m)) (hx : Takes x m ts n)
    (h : Tries (.tail t x) n z b) : Tries (.tail t x) s z b
  | absent {x s z b} (h : Tries x s z b) : Tries (.absent x) s z b

/-- While a phrase is matched at a place, a phrase is entered at a place: by the pattern of the first one,
or by that of a phrase that was entered in between. -/
inductive Nested : Phrase → Place → Phrase → Place → Prop
  | entered {p s q a} (h : Tries p.body s (.phrase q) a) : Nested p s q a
  | deeper {p s q m r a} (h : Tries p.body s (.phrase q) m) (h' : Nested q m r a) : Nested p s r a

variable {x y z : Pattern} {p q r : Phrase} {t : Token} {s a b m n : Place} {ts : List ParseTree}
  {mark : ParseTree} {text : List Char} {enter enter' : Phrase → Matcher}

/-- What is tried lies ahead, its repetitions move on too, and as long as nothing is taken it enters first
what the whole pattern enters first. -/
theorem Tries.bounded (h : Tries x s z b) (hx : x.steady = true) :
    s.Ahead b ∧ z.steady = true ∧
      (s.rest.length ≤ b.rest.length → ∀ p ∈ z.enters, p ∈ x.enters) := by
  induction h with
  | here => exact ⟨Place.Ahead.refl _, hx, fun _ _ hp => hp⟩
  | first _ ih =>
    simp only [Pattern.steady, Bool.and_eq_true] at hx
    obtain ⟨ha, hz, hin⟩ := ih hx.1
    exact ⟨ha, hz, fun hle p hp => List.mem_append_left _ (hin hle p hp)⟩
  | @second x s ts m y z b htakes _ ih =>
    simp only [Pattern.steady, Bool.and_eq_true] at hx
    obtain ⟨ha, hz, hin⟩ := ih hx.2
    refine ⟨htakes.ahead.trans ha, hz, fun hle p hp => ?_⟩
    have h1 := htakes.ahead.le
    have h2 := ha.le
    -- the first pattern has taken nothing
    have hn : x.nullable = true := by
      cases hn : x.nullable with
      | true => rfl
      | false =>
        have := htakes.lt hn
        omega
    unfold Pattern.enters
    rw [if_pos hn]
    exact List.mem_append_right _ (hin (by omega) p hp)
  | altFirst _ ih =>
    simp only [Pattern.steady, Bool.and_eq_true] at hx
    obtain ⟨ha, hz, hin⟩ := ih hx.1
    exact ⟨ha, hz, fun hle p hp => List.mem_append_left _ (hin hle p hp)⟩
  | altSecond _ _ ih =>
    simp only [Pattern.steady, Bool.and_eq_true] at hx
    obtain ⟨ha, hz, hin⟩ := ih hx.2
    exact ⟨ha, hz, fun hle p hp => List.mem_append_right _ (hin hle p hp)⟩
  | opt _ ih | absent _ ih => exact ih hx
  | item _ ih =>
    simp only [Pattern.steady, Bool.and_eq_true] at hx
    exact ih hx.2
  | again htakes _ ih =>
    obtain ⟨ha, hz, hin⟩ := ih hx
    have h1 := htakes.ahead.le
    exact ⟨htakes.ahead.trans ha, hz, fun hle => hin (by omega)⟩
  | tailItem ht _ ih =>
    simp only [Pattern.steady, Bool.and_eq_true, decide_eq_true_eq] at hx
    obtain ⟨ha, hz, -⟩ := ih hx.2
    refine ⟨(tokenAt_ahead ht).trans ha, hz, fun hle => ?_⟩
    have h1 := tokenAt_lt hx.1 ht
    have h2 := ha.le
    omega
  | tailAgain ht htakes _ ih =>
    obtain ⟨ha, hz, -⟩ := ih hx
    simp only [Pattern.steady, Bool.and_eq_true, decide_eq_true_eq] at hx
    refine ⟨(tokenAt_ahead ht).trans (htakes.ahead.trans ha), hz, fun hle => ?_⟩
    have h1 := tokenAt_lt hx.1 ht
    have h2 := htakes.ahead.le
    have h3 := ha.le
    omega

/-! ## Open activations -/

/-- One activation is below another: it is further on, or at the same place and of a lower rank. -/
def Below (q : Phrase) (a : Place) (p : Phrase) (s : Place) : Prop :=
  a.rest.length < s.rest.length ∨ a.rest.length = s.rest.length ∧ q.rank < p.rank

/-- What a phrase enters is below it. -/
theorem Tries.isBelow (h : Tries p.body s (.phrase q) a) : s.Ahead a ∧ Below q a p s := by
  obtain ⟨ha, -, hin⟩ := h.bounded p.body_steady
  refine ⟨ha, ?_⟩
  have hle := ha.le
  by_cases hlt : a.rest.length < s.rest.length
  · exact .inl hlt
  · have hq : q ∈ p.body.enters := hin (by omega) q (by simp [Pattern.enters])
    exact .inr ⟨by omega, Phrase.rank_lt hq⟩

/-- What is open inside an activation is below it. -/
theorem Nested.isBelow (h : Nested p s q a) : s.Ahead a ∧ Below q a p s := by
  induction h with
  | entered h => exact h.isBelow
  | deeper h _ ih =>
    obtain ⟨ha, hbelow⟩ := h.isBelow
    obtain ⟨ha', hbelow'⟩ := ih
    refine ⟨ha.trans ha', ?_⟩
    unfold Below at hbelow hbelow' ⊢
    omega

/-- A phrase is entered again only further on in the text. -/
theorem Nested.offset_lt (h : Nested p s p a) : s.offset < a.offset := by
  obtain ⟨ha, hbelow⟩ := h.isBelow
  have hsum := ha.sum
  unfold Below at hbelow
  omega

/-! ## The matcher and its open activations -/

/-- Two ways to match phrases agree on all phrases that are tried on the way through a pattern. -/
def Agree (text : List Char) (enter enter' : Phrase → Matcher) (x : Pattern) (s : Place) : Prop :=
  ∀ p a memo, Tries x s (.phrase p) a → memo.Sound text → enter p a memo = enter' p a memo

/-- Matching a pattern is the same with both. -/
def Same (text : List Char) (enter enter' : Phrase → Matcher) (x : Pattern) : Prop :=
  ∀ s memo, s.In text → memo.Sound text → Agree text enter enter' x s →
    x.matcher enter s memo = x.matcher enter' s memo

theorem Same.many (hx : Same text enter enter' x) (hm : (x.matcher enter).Sound text x) :
    Same text enter enter' (.many x) := by
  have key : ∀ bound s memo, s.In text → memo.Sound text → Agree text enter enter' (.many x) s →
      Matcher.many (x.matcher enter) bound s memo = Matcher.many (x.matcher enter') bound s memo := by
    intro bound
    induction bound with
    | zero =>
      intro s memo _ _ _
      rfl
    | succ bound ih =>
      intro s memo hs hmemo hagree
      have hitem := hx s memo hs hmemo fun p a memo' h => hagree p a memo' (.item h)
      simp only [Matcher.many, ← hitem]
      cases ho : x.matcher enter s memo with
      | none => rfl
      | some found =>
        obtain ⟨o, memo₁⟩ := found
        obtain ⟨hd, hsound⟩ := hm _ _ _ _ hs hmemo ho
        cases o with
        | failed r => rfl
        | matched ts a r =>
          have htakes : Takes x s ts a := hd.verdict
          have hrest := ih a memo₁ (htakes.ahead.inText hs) hsound fun p b memo' h =>
            hagree p b memo' (.again htakes h)
          simp only [hrest]
  intro s memo
  exact key _ s memo

theorem Same.tail (hx : Same text enter enter' x) (hm : (x.matcher enter).Sound text x) :
    Same text enter enter' (.tail t x) := by
  have key : ∀ bound s memo, s.In text → memo.Sound text →
      Agree text enter enter' (.tail t x) s →
      Matcher.tail t (x.matcher enter) bound s memo
        = Matcher.tail t (x.matcher enter') bound s memo := by
    intro bound
    -- the memo changes from round to round, but it stays sound
    induction bound with
    | zero =>
      intro s memo _ _ _
      rfl
    | succ bound ih =>
      intro s memo hs hmemo hagree
      simp only [Matcher.tail, ofToken_eq]
      cases ht : tokenAt t s with
      | none => rfl
      | some found =>
        obtain ⟨mark, between⟩ := found
        have hb := (tokenAt_ahead ht).inText hs
        have hitem := hx between memo hb hmemo fun p a memo' h => hagree p a memo' (.tailItem ht h)
        simp only [← hitem]
        cases ho : x.matcher enter between memo with
        | none => rfl
        | some found =>
          obtain ⟨o, memo₁⟩ := found
          obtain ⟨hd, hsound⟩ := hm _ _ _ _ hb hmemo ho
          cases o with
          | failed r => rfl
          | matched ts a r =>
            have htakes : Takes x between ts a := hd.verdict
            have hrest := ih a memo₁ (htakes.ahead.inText hb) hsound fun p b memo' h =>
              hagree p b memo' (.tailAgain ht htakes h)
            simp only [hrest]
  intro s memo
  exact key _ s memo

/-- The matcher enters a phrase only where the phrase is tried: what else is done for phrases makes no
difference. -/
theorem Pattern.matcher_congr (henter : ∀ p, (enter p).Sound text (.phrase p)) (x : Pattern) :
    Same text enter enter' x := by
  have hsound := Pattern.matcher_sound henter
  induction x with
  | token t =>
    intro s memo _ _ _
    rfl
  | phrase p =>
    intro s memo _ hmemo hagree
    exact hagree p s memo .here hmemo
  | seq x y ihx ihy =>
    intro s memo hs hmemo hagree
    have hfirst := ihx s memo hs hmemo fun p a memo' h => hagree p a memo' (.first h)
    simp only [Pattern.matcher, ← hfirst]
    cases ho : x.matcher enter s memo with
    | none => rfl
    | some found =>
      obtain ⟨o, memo₁⟩ := found
      obtain ⟨hd, hmemo₁⟩ := hsound x _ _ _ _ hs hmemo ho
      cases o with
      | failed r => rfl
      | matched ts a r =>
        have htakes : Takes x s ts a := hd.verdict
        -- the second part is tried only where the first one ends: what it enters there the whole enters
        have hsecond := ihy a memo₁ (htakes.ahead.inText hs) hmemo₁ fun p b memo' h =>
          hagree p b memo' (.second htakes h)
        simp only [hsecond]
  | alt x y ihx ihy =>
    intro s memo hs hmemo hagree
    have hfirst := ihx s memo hs hmemo fun p a memo' h => hagree p a memo' (.altFirst h)
    simp only [Pattern.matcher, ← hfirst]
    cases ho : x.matcher enter s memo with
    | none => rfl
    | some found =>
      obtain ⟨o, memo₁⟩ := found
      obtain ⟨hd, hmemo₁⟩ := hsound x _ _ _ _ hs hmemo ho
      cases o with
      | matched ts a r => rfl
      | failed r =>
        have hrefuses : Refuses x s := hd.verdict
        have hsecond := ihy s memo₁ hs hmemo₁ fun p b memo' h =>
          hagree p b memo' (.altSecond hrefuses h)
        simp only [hsecond]
  | opt x ih =>
    intro s memo hs hmemo hagree
    have hbody := ih s memo hs hmemo fun p a memo' h => hagree p a memo' (.opt h)
    simp only [Pattern.matcher, hbody]
  -- the loops have an induction on their fuel
  | many x ih => exact Same.many ih (hsound x)
  | tail t x ih => exact Same.tail ih (hsound x)
  | absent x ih =>
    intro s memo hs hmemo hagree
    have hbody := ih s memo hs hmemo fun p a memo' h => hagree p a memo' (.absent h)
    simp only [Pattern.matcher, hbody]

/-- Matches a phrase as `Phrase.matcher` does, but keeps the list of the activations that are open, and
gives up if one of them is to be entered again. -/
def Phrase.guarded : Nat → List (Phrase × Nat) → Phrase → Matcher
  | 0, _, _, _, _ => none
  | fuel + 1, opened, p, place, memo =>
    if (p, place.offset) ∈ opened then none
    else
      match memo.find? p place.offset with
      | some outcome => some (outcome, memo)
      | none =>
        match p.body.matcher (Phrase.guarded fuel ((p, place.offset) :: opened)) place memo with
        | none => none
        | some (outcome, memo) =>
          some (outcome.under (.phrase p), memo.insert p place.offset (outcome.under (.phrase p)))

/-- Matching is never about to enter an activation that is open. -/
theorem Phrase.matcher_eq_guarded (fuel : Nat) :
    ∀ (opened : List (Phrase × Place)) (p : Phrase) (s : Place) (memo : Memo),
      s.In text → memo.Sound text →
      (∀ o ∈ opened, o.2.In text ∧ Below p s o.1 o.2) →
      Phrase.matcher fuel p s memo
        = Phrase.guarded fuel (opened.map fun o => (o.1, o.2.offset)) p s memo := by
  induction fuel with
  | zero =>
    intro opened p s memo _ _ _
    rfl
  | succ fuel ih =>
    intro opened p s memo hs hmemo hopened
    -- an activation that is open stands in front of this one or has a higher rank
    have hnot : (p, s.offset) ∉ opened.map fun o => (o.1, o.2.offset) := by
      intro hmem
      obtain ⟨⟨q, b⟩, hq, heq⟩ := List.mem_map.1 hmem
      obtain ⟨hb, hbelow⟩ : b.In text ∧ Below p s q b := hopened _ hq
      obtain ⟨rfl, hoffset⟩ : q = p ∧ b.offset = s.offset := Prod.mk.inj heq
      have hlen : s.rest.length = b.rest.length := by rw [hs.2, hb.2, hoffset]
      unfold Below at hbelow
      omega
    -- the body is matched the same way, with this activation open too
    have hbody := Pattern.matcher_congr (Phrase.matcher_sound text fuel) p.body s memo hs hmemo
      fun q a memo' htries hmemo' => by
        obtain ⟨ha, hbelow⟩ := htries.isBelow
        refine ih ((p, s) :: opened) q a memo' (ha.inText hs) hmemo' fun o ho => ?_
        rcases List.mem_cons.1 ho with rfl | ho
        · exact ⟨hs, hbelow⟩
        · obtain ⟨hin, habove⟩ := hopened o ho
          refine ⟨hin, ?_⟩
          unfold Below at hbelow habove ⊢
          omega
    unfold Phrase.matcher Phrase.guarded
    rw [if_neg hnot, hbody]
    rfl

/-- A pattern is matched to an outcome with the fuel for the text, and no open activation is entered on
the way. -/
theorem run_eq_guarded (hx : x.steady = true) (text : List Char) :
    ∃ o memo, x.matcher (Phrase.matcher (fuelFor text)) (.first text) (.empty text.length)
        = some (o, memo) ∧
      x.matcher (Phrase.guarded (fuelFor text) []) (.first text) (.empty text.length)
        = some (o, memo) := by
  have hempty := Memo.sound_empty text text.length
  obtain ⟨o, memo, ho, -⟩ := Pattern.exists_matcher x hx (Place.in_first text) hempty
  have hsame := Pattern.matcher_congr (Phrase.matcher_sound text (fuelFor text)) x (.first text) _
    (Place.in_first text) hempty fun p a memo' htries hmemo' =>
      Phrase.matcher_eq_guarded (fuelFor text) [] p a memo'
        ((htries.bounded hx).1.inText (Place.in_first text)) hmemo' fun o ho => by cases ho
  exact ⟨o, memo, ho, hsame ▸ ho⟩

end VerilogLoops.Grammar

namespace VerilogLoops

open VerilogLoops.Text VerilogLoops.Grammar VerilogLoops.Ast

/-- Parsing does not run out of fuel. -/
theorem parseSymbol_ne_exhausted (symbol : Symbol) (whole : Bool) (origin text : String) :
    parseSymbol symbol whole origin text ≠ .error .exhausted := by
  have htree : (∃ found, parseTree symbol whole text.toList = .ok found) ∨
      ∃ location, parseTree symbol whole text.toList = .error (.mismatch location) := by
    cases whole with
    | true =>
      rcases parseTree_whole symbol text.toList with ⟨ts, a, -, h⟩ | ⟨-, h⟩
      · exact .inl ⟨_, h⟩
      · exact .inr h
    | false =>
      rcases parseTree_prefix symbol text.toList with ⟨t, a, -, h⟩ | ⟨-, h⟩
      · exact .inl ⟨_, h⟩
      · exact .inr h
  unfold parseSymbol
  rcases htree with ⟨⟨tree, after⟩, htree⟩ | ⟨location, htree⟩
  · rw [htree]
    show (buildIn origin text.toList tree >>= fun built => pure _) ≠ _
    unfold buildIn
    cases hbuild : buildTree (fun offset =>
        positionAt origin ((LocationTable.of text.toList).locate offset)) tree with
    | ok built => simp [hbuild, bind, Except.bind, pure, Except.pure]
    | error e => simp [hbuild, bind, Except.bind]
  · rw [htree]
    intro h
    cases h

/-- **Matching comes to an end on every text.** While a phrase is matched, it is not entered again at the
same offset, and the matcher does the same as one that checks this on the way. Every phrase that is taken
has a character, so the first item of a list has one; every completed round of a repetition takes a
character, and so does every round of the search for blanks and comments. And matching any symbol of the
grammar, with one unit of fuel for every phrase at every offset of the text, finds an outcome. -/
theorem parsing_terminates (origin text : String) :
    (∀ p s a, Nested p s p a → s.offset < a.offset) ∧
    (∀ p s ts a, Takes (.phrase p) s ts a → s.offset < a.offset) ∧
    (∀ p s x b, Tries (Phrase.body p) s (.many x) b →
      ∀ ts m, Takes x b ts m → b.offset < m.offset) ∧
    (∀ p s t x b, Tries (Phrase.body p) s (.tail t x) b →
      ∀ mark m ts n, tokenAt t b = some (mark, m) → Takes x m ts n → b.offset < n.offset) ∧
    (∀ c cs, isBlank c = true → triviaLength (c :: cs) = 1 + triviaLength cs) ∧
    (∀ cs n, comment? cs = some n →
      0 < n ∧ n ≤ cs.length ∧ triviaLength cs = n + triviaLength (cs.drop n)) ∧
    (∀ symbol, ∀ x ∈ [Symbol.pattern symbol, .seq symbol.pattern (.token .endOfInput)],
      ∃ outcome memo,
        x.matcher (Phrase.matcher (fuelFor text.toList)) (.first text.toList)
          (.empty text.toList.length) = some (outcome, memo) ∧
        x.matcher (Phrase.guarded (fuelFor text.toList) []) (.first text.toList)
          (.empty text.toList.length) = some (outcome, memo)) ∧
    (∀ symbol whole, parseSymbol symbol whole origin text ≠ .error .exhausted) := by
  refine ⟨fun p s a h => h.offset_lt, fun p s ts a h => ?_, ?_, ?_, fun c cs hc => ?_, fun cs n hn => ?_, fun symbol x hx => ?_,
    fun symbol whole => parseSymbol_ne_exhausted symbol whole origin text⟩
  · have hlt := h.lt rfl
    have hsum := h.ahead.sum
    omega
  · intro p s x b h ts m htakes
    -- a repetition that is tried while a phrase is matched is part of the body of some phrase
    obtain ⟨-, hsteady, -⟩ := h.bounded p.body_steady
    simp only [Pattern.steady, Bool.and_eq_true, Bool.not_eq_true'] at hsteady
    have hlt := htakes.lt hsteady.1
    have hsum := htakes.ahead.sum
    omega
  · intro p s t x b h mark m ts n ht htakes
    obtain ⟨-, hsteady, -⟩ := h.bounded p.body_steady
    simp only [Pattern.steady, Bool.and_eq_true, decide_eq_true_eq] at hsteady
    have hlt := tokenAt_lt hsteady.1 ht
    have hle := htakes.ahead.le
    have hsum := ((tokenAt_ahead ht).trans htakes.ahead).sum
    omega
  · exact triviaLength_blank hc cs
  · exact ⟨comment?_pos hn, comment?_le hn, triviaLength_comment hn⟩
  · refine run_eq_guarded ?_ text.toList
    simp only [List.mem_cons, List.not_mem_nil, or_false] at hx
    rcases hx with rfl | rfl
    · exact symbol.pattern_steady
    · simp [Pattern.steady, symbol.pattern_steady]

end VerilogLoops
