import VerilogLoops.Grammar.Symbol
import VerilogLoops.Proofs.Progress
import VerilogLoops.Proofs.Reach

/-!
# The matcher finds the outcome

The matcher of `Match` keeps a table and counts fuel. A table is *sound* if every outcome noted in
it is the outcome of its phrase at its offset; matching with a sound table gives the outcome and a
sound table (`Phrase.matcher_sound`). And with one unit of fuel for every phrase at every offset it
never runs dry (`Phrase.matcher_ends`), because a phrase enters first only phrases of a lower
rank. Together:

> `comes_run`: running a pattern on a text gives its outcome at the first place;
> `Derives.exists`: every pattern has a verdict at every place.
-/

namespace VerilogLoops.Grammar

open VerilogLoops.Text VerilogLoops.Lexical

/-! ## Sound tables -/

/-- Every noted outcome is that of its phrase at its offset of the text. -/
def Memo.Sound (text : List Char) (memo : Memo) : Prop :=
  ∀ p offset o, memo.find? p offset = some o →
    Comes (.phrase p) ⟨offset, text.drop offset⟩ o

theorem Memo.find?_empty (n : Nat) (p : Phrase) (offset : Nat) :
    (Memo.empty n).find? p offset = none := by
  simp only [find?, empty, Array.getElem?_replicate]
  split <;> simp

theorem Memo.sound_empty (text : List Char) (n : Nat) : (Memo.empty n).Sound text := by
  intro p offset o h
  rw [Memo.find?_empty] at h
  cases h

/-- What is found after an insertion is what was inserted or was there before. -/
theorem Memo.find?_insert {memo : Memo} {p q : Phrase} {i j : Nat} {o o' : Outcome}
    (h : (memo.insert p i o).find? q j = some o') :
    (q = p ∧ j = i ∧ o' = o) ∨ memo.find? q j = some o' := by
  simp only [find?, insert, Array.getElem?_modify] at h
  by_cases hij : i = j
  · subst hij
    simp only [if_true] at h
    cases hrow : memo.rows[i]? with
    | none => rw [hrow] at h; cases h
    | some row =>
      rw [hrow] at h
      simp only [Option.map_some, Option.bind_some, List.lookup_cons] at h
      by_cases hqp : q = p
      · subst hqp
        simp only [BEq.rfl, Option.some.injEq] at h
        exact Or.inl ⟨rfl, rfl, h.symm⟩
      · have hne : (q == p) = false := by simpa using hqp
        rw [hne] at h
        exact Or.inr (by simpa [find?, hrow] using h)
  · rw [if_neg hij] at h
    exact Or.inr h

theorem Memo.Sound.insert {text : List Char} {memo : Memo} (hm : memo.Sound text) {p : Phrase}
    {s : Place} (hs : s.In text) {o : Outcome} (ho : Comes (.phrase p) s o) :
    (memo.insert p s.offset o).Sound text := by
  intro q j o' h
  rcases Memo.find?_insert h with ⟨rfl, rfl, rfl⟩ | h
  · rw [← hs.eq]; exact ho
  · exact hm q j o' h

/-! ## Matching is sound -/

/-- With a sound table the matcher gives the outcome of the pattern and a sound table. -/
def Matcher.Sound (text : List Char) (m : Matcher) (x : Pattern) : Prop :=
  ∀ s memo o memo', s.In text → memo.Sound text → m s memo = some (o, memo') →
    Comes x s o ∧ memo'.Sound text

theorem Matcher.many_sound {text : List Char} {m : Matcher} {x : Pattern}
    (hm : m.Sound text x) (bound : Nat) : (Matcher.many m bound).Sound text (.many x) := by
  induction bound with
  | zero => intro s memo o memo' _ _ h; cases h
  | succ bound ih =>
    intro s memo o memo' hs hmemo h
    simp only [Matcher.many] at h
    split at h
    · cases h
    · next hx =>
      obtain ⟨hd, hsound⟩ := hm _ _ _ _ hs hmemo hx
      cases h
      exact ⟨hd.manyStop, hsound⟩
    · next ts a reach memo₁ hx =>
      obtain ⟨hd, hsound⟩ := hm _ _ _ _ hs hmemo hx
      split at h
      · cases h
      · next o₂ memo₂ hr =>
        obtain ⟨hd₂, hsound₂⟩ := ih _ _ _ _ (Takes.ahead hd.verdict |>.inText hs) hsound hr
        cases h
        exact ⟨hd.manyStep hd₂, hsound₂⟩

theorem Matcher.tail_sound {text : List Char} {t : Token} {m : Matcher} {x : Pattern}
    (hm : m.Sound text x) (bound : Nat) : (Matcher.tail t m bound).Sound text (.tail t x) := by
  induction bound with
  | zero => intro s memo o memo' _ _ h; cases h
  | succ bound ih =>
    intro s memo o memo' hs hmemo h
    simp only [Matcher.tail, ofToken_eq] at h
    cases ht : tokenAt t s with
    | none =>
      rw [ht] at h
      cases h
      exact ⟨⟨.tailStop ht, .tailStop ht⟩, hmemo⟩
    | some found =>
      obtain ⟨mark, between⟩ := found
      rw [ht] at h
      have hb : between.In text := (tokenAt_ahead ht).inText hs
      dsimp only at h
      split at h
      · cases h
      · next hx =>
        obtain ⟨hd, hsound⟩ := hm _ _ _ _ hb hmemo hx
        cases h
        exact ⟨hd.tailDangling ht, hsound⟩
      · next hx =>
        obtain ⟨hd, hsound⟩ := hm _ _ _ _ hb hmemo hx
        split at h
        · cases h
        · next o₂ memo₂ hr =>
          obtain ⟨hd₂, hsound₂⟩ := ih _ _ _ _ (Takes.ahead hd.verdict |>.inText hb) hsound hr
          cases h
          exact ⟨hd.tailStep ht hd₂, hsound₂⟩

theorem Pattern.matcher_sound {text : List Char} {enter : Phrase → Matcher}
    (henter : ∀ p, (enter p).Sound text (.phrase p)) (x : Pattern) :
    Matcher.Sound text (x.matcher enter) x := by
  induction x with
  | token t =>
    intro s memo o memo' _ hmemo h
    cases h
    exact ⟨comes_token t s, hmemo⟩
  | phrase p => exact henter p
  | seq x y ihx ihy =>
    intro s memo o memo' hs hmemo h
    simp only [Pattern.matcher] at h
    split at h
    · cases h
    · next hx =>
      obtain ⟨hd, hsound⟩ := ihx _ _ _ _ hs hmemo hx
      cases h
      exact ⟨hd.noFirst, hsound⟩
    · next hx =>
      obtain ⟨hd, hsound⟩ := ihx _ _ _ _ hs hmemo hx
      split at h
      · cases h
      · next o₂ memo₂ hy =>
        -- the second part starts where the first one ends, which is in the text
        obtain ⟨hd₂, hsound₂⟩ := ihy _ _ _ _ (Takes.ahead hd.verdict |>.inText hs) hsound hy
        cases h
        exact ⟨hd.seq hd₂, hsound₂⟩
  | alt x y ihx ihy =>
    intro s memo o memo' hs hmemo h
    simp only [Pattern.matcher] at h
    split at h
    · cases h
    · next hx =>
      obtain ⟨hd, hsound⟩ := ihx _ _ _ _ hs hmemo hx
      cases h
      exact ⟨hd.altFirst, hsound⟩
    · next hx =>
      obtain ⟨hd, hsound⟩ := ihx _ _ _ _ hs hmemo hx
      split at h
      · cases h
      · next hy =>
        obtain ⟨hd₂, hsound₂⟩ := ihy _ _ _ _ hs hsound hy
        cases h
        exact ⟨hd.altSecond hd₂, hsound₂⟩
  | opt x ihx =>
    intro s memo o memo' hs hmemo h
    simp only [Pattern.matcher] at h
    split at h
    · cases h
    · next hx =>
      obtain ⟨hd, hsound⟩ := ihx _ _ _ _ hs hmemo hx
      cases h
      exact ⟨hd.opt, hsound⟩
    · next hx =>
      obtain ⟨hd, hsound⟩ := ihx _ _ _ _ hs hmemo hx
      cases h
      exact ⟨hd.optNone, hsound⟩
  | many x ihx =>
    intro s memo o memo' hs hmemo h
    -- repetitions loop by themselves, with fuel
    exact Matcher.many_sound ihx _ s memo o memo' hs hmemo h
  | tail t x ihx =>
    intro s memo o memo' hs hmemo h
    exact Matcher.tail_sound ihx _ s memo o memo' hs hmemo h
  | absent x ihx =>
    intro s memo o memo' hs hmemo h
    simp only [Pattern.matcher] at h
    split at h
    · cases h
    · next hx =>
      obtain ⟨hd, hsound⟩ := ihx _ _ _ _ hs hmemo hx
      cases h
      exact ⟨hd.present, hsound⟩
    · next hx =>
      obtain ⟨hd, hsound⟩ := ihx _ _ _ _ hs hmemo hx
      cases h
      exact ⟨hd.absent, hsound⟩

/-- Matching a phrase with a sound table gives its outcome. -/
theorem Phrase.matcher_sound (text : List Char) (fuel : Nat) :
    ∀ p, Matcher.Sound text (Phrase.matcher fuel p) (.phrase p) := by
  induction fuel with
  | zero => intro p s memo o memo' _ _ h; cases h
  | succ fuel ih =>
    intro p s memo o memo' hs hmemo h
    simp only [Phrase.matcher] at h
    split at h
    · next outcome hfind =>
      cases h
      have := hmemo _ _ _ hfind
      rw [← hs.eq] at this
      exact ⟨this, hmemo⟩
    · split at h
      · cases h
      · next outcome memo₁ hbody =>
        obtain ⟨hd, hsound⟩ := Pattern.matcher_sound ih p.body _ _ _ _ hs hmemo hbody
        cases h
        exact ⟨hd.phrase, hsound.insert hs hd.phrase⟩

/-! ## The fuel suffices -/

/-- The matcher comes to an outcome at this place, whatever is in the table. -/
def Matcher.Ends (text : List Char) (m : Matcher) (s : Place) : Prop :=
  ∀ memo : Memo, memo.Sound text → (m s memo).isSome = true

theorem Matcher.Ends.eq_some {text : List Char} {m : Matcher} {s : Place}
    (h : m.Ends text s) {memo : Memo} (hmemo : memo.Sound text) :
    ∃ o memo', m s memo = some (o, memo') := by
  obtain ⟨⟨o, memo'⟩, hx⟩ := Option.isSome_iff_exists.1 (h memo hmemo)
  exact ⟨o, memo', hx⟩

/-- A sound matcher that comes to an outcome comes to that of its pattern. -/
theorem Matcher.Ends.comes {text : List Char} {m : Matcher} {x : Pattern} {s : Place}
    (h : m.Ends text s) (hm : m.Sound text x) (hs : s.In text) {memo : Memo}
    (hmemo : memo.Sound text) :
    ∃ o memo', m s memo = some (o, memo') ∧ Comes x s o ∧ memo'.Sound text := by
  obtain ⟨o, memo', ho⟩ := h.eq_some hmemo
  exact ⟨o, memo', ho, hm _ _ _ _ hs hmemo ho⟩

/-- A repetition ends within a bound that exceeds the length of the rest, as each item takes a
character. -/
theorem Matcher.many_ends {text : List Char} {m : Matcher} {x : Pattern}
    (hm : m.Sound text x) (hx : x.nullable = false) (bound : Nat) :
    ∀ s : Place, s.In text → s.rest.length < bound →
      (∀ a, s.Ahead a → m.Ends text a) → (Matcher.many m bound).Ends text s := by
  induction bound with
  | zero => intro s _ h; omega
  | succ bound ih =>
    intro s hs hlt hends memo hmemo
    obtain ⟨o, memo₁, ho, hd, hsound⟩ := (hends s (Place.Ahead.refl s)).comes hm hs hmemo
    simp only [Matcher.many, ho]
    cases o with
    | failed => rfl
    | matched ts a r =>
      have ha := Takes.ahead hd.verdict
      have hlt' := Takes.lt hd.verdict hx
      obtain ⟨o₂, memo₂, h₂⟩ := (ih a (ha.inText hs) (by omega)
        fun b hb => hends b (ha.trans hb)).eq_some hsound
      simp [h₂]

theorem Matcher.tail_ends {text : List Char} {t : Token} {m : Matcher} {x : Pattern}
    (hm : m.Sound text x) (ht : t ≠ .endOfInput) (bound : Nat) :
    ∀ s : Place, s.In text → s.rest.length < bound →
      (∀ a, s.Ahead a → a.rest.length < s.rest.length → m.Ends text a) →
        (Matcher.tail t m bound).Ends text s := by
  induction bound with
  | zero => intro s _ h; omega
  | succ bound ih =>
    intro s hs hlt hends memo hmemo
    simp only [Matcher.tail, ofToken_eq]
    cases htok : tokenAt t s with
    | none => rfl
    | some found =>
      obtain ⟨mark, between⟩ := found
      have hb := tokenAt_ahead htok
      have hblt := tokenAt_lt ht htok
      obtain ⟨o, memo₁, ho, hd, hsound⟩ :=
        (hends between hb hblt).comes hm (hb.inText hs) hmemo
      simp only [ho]
      cases o with
      | failed => rfl
      | matched ts a r =>
        have ha := Takes.ahead hd.verdict
        have hle := ha.le
        obtain ⟨o₂, memo₂, h₂⟩ := (ih a (ha.inText (hb.inText hs)) (by omega)
          fun c hc hclt => hends c (hb.trans (ha.trans hc)) (by omega)).eq_some hsound
        simp [h₂]

/-- Matching a pattern comes to an outcome, if every phrase does that it enters first, and every
phrase at a place further on. -/
theorem Pattern.matcher_ends {text : List Char} {enter : Phrase → Matcher}
    (henter : ∀ p, (enter p).Sound text (.phrase p)) (x : Pattern) :
    ∀ s : Place, s.In text → x.steady = true →
      x.Entered (fun p a => (enter p).Ends text a) s →
        Matcher.Ends text (x.matcher enter) s := by
  have hm := Pattern.matcher_sound henter
  induction x with
  | token t => intro s _ _ _ memo _; rfl
  | phrase p => intro s _ _ hin; exact hin.here p (by simp [Pattern.enters])
  | seq x y ihx ihy =>
    intro s hs hst hin memo hmemo
    simp only [Pattern.steady, Bool.and_eq_true] at hst
    have hinx : x.Entered (fun p a => (enter p).Ends text a) s :=
      hin.mono fun p hp => by simp [Pattern.enters, hp]
    obtain ⟨o, memo₁, ho, hd, hsound⟩ := (ihx s hs hst.1 hinx).comes (hm x) hs hmemo
    simp only [Pattern.matcher, ho]
    cases o with
    | failed => rfl
    | matched ts a r =>
      have ha := Takes.ahead hd.verdict
      -- the first part may have taken nothing: then the phrases entered first of both are at the same place
      have hiny := hin.behind ha (Takes.lt hd.verdict)
      obtain ⟨o₂, memo₂, h₂⟩ := (ihy a (ha.inText hs) hst.2 hiny).eq_some hsound
      simp [h₂]
  | alt x y ihx ihy =>
    intro s hs hst hin memo hmemo
    simp only [Pattern.steady, Bool.and_eq_true] at hst
    have hinx : x.Entered (fun p a => (enter p).Ends text a) s :=
      hin.mono fun p hp => by simp [Pattern.enters, hp]
    have hiny : y.Entered (fun p a => (enter p).Ends text a) s :=
      hin.mono fun p hp => by simp [Pattern.enters, hp]
    obtain ⟨o, memo₁, ho, -, hsound⟩ := (ihx s hs hst.1 hinx).comes (hm x) hs hmemo
    simp only [Pattern.matcher, ho]
    cases o with
    | matched ts a r => rfl
    | failed =>
      obtain ⟨o₂, memo₂, h₂⟩ := (ihy s hs hst.2 hiny).eq_some hsound
      simp [h₂]
  | opt x ihx | absent x ihx =>
    intro s hs hst hin memo hmemo
    obtain ⟨o, memo₁, ho⟩ := (ihx s hs hst (hin.mono fun _ hp => hp)).eq_some hmemo
    simp only [Pattern.matcher, ho]
    cases o <;> rfl
  | many x ihx =>
    intro s hs hst hin
    simp only [Pattern.steady, Bool.and_eq_true, Bool.not_eq_true'] at hst
    have hinx : x.Entered (fun p a => (enter p).Ends text a) s := hin.mono fun _ hp => hp
    -- a steady item is not empty, so that every round goes on
    exact Matcher.many_ends (hm x) hst.1 _ s hs (Nat.lt_succ_self _)
      fun a ha => ihx a (ha.inText hs) hst.2 (hinx.ahead ha)
  | tail t x ihx =>
    intro s hs hst hin
    simp only [Pattern.steady, Bool.and_eq_true, decide_eq_true_eq] at hst
    exact Matcher.tail_ends (hm x) hst.1 _ s hs (Nat.lt_succ_self _)
      fun a ha hlt => ihx a (ha.inText hs) hst.2 (hin.further ha hlt)

/-- One unit of fuel for every phrase at every offset is enough: the rank of the phrase counts the
entries at the first offset, and all phrases the entries at each later one. -/
theorem Phrase.matcher_ends (text : List Char) (fuel : Nat) :
    ∀ (p : Phrase) (s : Place), s.In text →
      p.rank + Phrase.all.length * s.rest.length < fuel → (Phrase.matcher fuel p).Ends text s := by
  induction fuel with
  | zero => intro p s _ h; omega
  | succ fuel ih =>
    intro p s hs hfuel memo hmemo
    simp only [Phrase.matcher]
    split
    · rfl
    · have hbody : Matcher.Ends text (p.body.matcher (Phrase.matcher fuel)) s := by
        refine Pattern.matcher_ends (Phrase.matcher_sound text fuel) p.body s hs p.body_steady
          ⟨fun q hq => ih q s hs ?_, fun q a ha hlt => ih q a (ha.inText hs) ?_⟩
        · have := Phrase.rank_lt hq
          omega
        · have hq := q.rank_lt_all
          have hmul := Nat.mul_le_mul_left Phrase.all.length (Nat.succ_le_of_lt hlt)
          rw [Nat.mul_succ] at hmul
          omega
      obtain ⟨o, memo₁, ho⟩ := hbody.eq_some hmemo
      simp [ho]

/-! ## Running a pattern -/

/-- Matching a pattern at a place of a text with the fuel for that text gives its outcome. -/
theorem Pattern.exists_matcher {text : List Char} (x : Pattern) (hx : x.steady = true) {s : Place}
    (hs : s.In text) {memo : Memo} (hmemo : memo.Sound text) :
    ∃ o memo', x.matcher (Phrase.matcher (fuelFor text)) s memo = some (o, memo') ∧
      Comes x s o := by
  have hlen : s.rest.length ≤ text.length := by
    rw [hs.2, List.length_drop]
    omega
  have hends : ∀ p a, a.In text → a.rest.length ≤ text.length →
      (Phrase.matcher (fuelFor text) p).Ends text a := by
    intro p a ha hle
    refine Phrase.matcher_ends text _ p a ha ?_
    have hp := p.rank_lt_all
    have hmul := Nat.mul_le_mul_left Phrase.all.length hle
    rw [fuelFor, Nat.mul_succ]
    omega
  have hsound := Phrase.matcher_sound text (fuelFor text)
  obtain ⟨o, memo', ho, hd, -⟩ := (Pattern.matcher_ends hsound x s hs hx
    ⟨fun p _ => hends p s hs hlen, fun p a ha hlt => hends p a (ha.inText hs) (by omega)⟩).comes
      (Pattern.matcher_sound hsound x) hs hmemo
  exact ⟨o, memo', ho, hd⟩

/-- Running a pattern on a text gives its outcome at the first place. -/
theorem comes_run (x : Pattern) (hx : x.steady = true) (text : List Char) :
    ∃ o, x.run text = some o ∧ Comes x (.first text) o := by
  obtain ⟨o, memo', ho, hd⟩ := Pattern.exists_matcher x hx (Place.in_first text)
    (Memo.sound_empty text text.length)
  exact ⟨o, by simp [Pattern.run, ho], hd⟩

/-- Every pattern whose repetitions move on has a verdict at every place. -/
theorem Derives.exists (x : Pattern) (hx : x.steady = true) (s : Place) :
    ∃ r, Derives x s r := by
  -- any text will do of which the place is one
  have hs : s.In (List.replicate s.offset ' ' ++ s.rest) := by
    simp [Place.In]
  obtain ⟨o, -, -, hd⟩ := Pattern.exists_matcher x hx hs (Memo.sound_empty _ 0)
  exact ⟨_, hd.verdict⟩

/-- What is not refused is taken. -/
theorem exists_takes_of_not_refuses {x : Pattern} (hx : x.steady = true) {s : Place}
    (h : ¬Refuses x s) : ∃ ts a, Takes x s ts a := by
  obtain ⟨r, hr⟩ := Derives.exists x hx s
  cases r with
  | none => exact absurd hr h
  | some found => exact ⟨found.1, found.2, hr⟩

/-- What is not taken is refused. -/
theorem refuses_of_not_takes {x : Pattern} (hx : x.steady = true) {s : Place}
    (h : ∀ ts a, ¬Takes x s ts a) : Refuses x s := by
  obtain ⟨r, hr⟩ := Derives.exists x hx s
  cases r with
  | none => exact hr
  | some found => exact absurd hr (h found.1 found.2)

end VerilogLoops.Grammar
