import VerilogLoops.Proofs.Written

/-!
# Texts in another place

What a pattern makes of a text depends on the text alone, not on the place where it stands, and trivia in
front of the text does not count. So a pattern that takes the end of one text takes it at the end of every
other text. The trees differ in nothing but their offsets.

> `Derives.moved`: a verdict at a place is one, up to offsets, wherever the same text stands.
-/

namespace VerilogLoops.Grammar

open VerilogLoops.Text VerilogLoops.Lexical

variable {x : Pattern} {s a b : Place} {k : Token} {leaf : ParseTree} {ts us : List ParseTree}
  {r : Option (List ParseTree × Place)} {g : List Char}

/-! ## The same text -/

/-- The same text stands at both places, behind trivia. -/
def SameText (s b : Place) : Prop :=
  b.rest.drop (triviaLength b.rest) = s.rest.drop (triviaLength s.rest)

theorem SameText.symm (h : SameText s b) : SameText b s := Eq.symm h

theorem sameText_of_rest (h : b.rest = s.rest) : SameText s b := by
  rw [SameText, h]

/-- A gap in front of a text does not count. -/
theorem sameText_of_gap (hg : IsGap g) (h : b.rest = g ++ s.rest) : SameText s b := by
  rw [SameText, h, triviaLength_gap hg, ← List.drop_drop, List.drop_left]

/-- If the one text is trivia, so is the other. -/
theorem SameText.isTrivia (h : SameText s b) (hs : IsTrivia s.rest) : IsTrivia b.rest := by
  rw [SameText, hs, List.drop_length] at h
  exact Nat.le_antisymm (triviaLength_le _) (List.drop_eq_nil_iff.1 h)

/-! ## The same verdict -/

/-- A token stands wherever the same text stands. -/
theorem tokenAt_moved (h : tokenAt k s = some (leaf, a)) (hs : SameText s b) :
    ∃ leaf' c, tokenAt k b = some (leaf', c) ∧ leaf'.bare = leaf.bare ∧ c.rest = a.rest := by
  obtain ⟨text, hdrop, hlen, rfl, -⟩ := tokenAt_iff.1 h
  exact ⟨_, ⟨b.offset + triviaLength b.rest + text.length, a.rest⟩,
    tokenAt_iff.2 ⟨text, hs.trans hdrop, hlen, rfl, rfl⟩, rfl, rfl⟩

theorem tokenAt_moved_none (h : tokenAt k s = none) (hs : SameText s b) : tokenAt k b = none := by
  cases hb : tokenAt k b with
  | none => rfl
  | some found =>
    obtain ⟨leaf, a⟩ := found
    obtain ⟨_, _, hfound, -⟩ := tokenAt_moved hb hs.symm
    rw [h] at hfound
    cases hfound

/-- The verdicts differ in nothing but offsets and trivia. -/
inductive Alike : Option (List ParseTree × Place) → Option (List ParseTree × Place) → Prop
  | taken {ts us a c} (hts : bareAll us = bareAll ts) (ha : SameText a c) : Alike (some (ts, a)) (some (us, c))
  | refused : Alike none none

/-- **A verdict at a place is one wherever the same text stands.** -/
theorem Derives.moved (h : Derives x s r) (hs : SameText s b) : ∃ r', Derives x b r' ∧ Alike r r' := by
  induction h generalizing b with
  | token h =>
    obtain ⟨leaf, c, hleaf, hbare, hc⟩ := tokenAt_moved h hs
    exact ⟨_, .token hleaf, .taken (by rw [bareAll, bareAll, hbare]; rfl) (sameText_of_rest hc)⟩
  | noToken h => exact ⟨_, .noToken (tokenAt_moved_none h hs), .refused⟩
  | phrase _ ih =>
    obtain ⟨_, hbody, ⟨hts, ha⟩⟩ := ih hs
    exact ⟨_, .phrase hbody, .taken (by simp [bareAll, ParseTree.bare, hts]) ha⟩
  | noPhrase _ ih =>
    obtain ⟨_, hbody, ⟨⟩⟩ := ih hs
    exact ⟨_, .noPhrase hbody, .refused⟩
  | seq _ _ ihx ihy =>
    obtain ⟨_, hx, ⟨hts, hm⟩⟩ := ihx hs
    obtain ⟨_, hy, ⟨hus, ha⟩⟩ := ihy hm
    exact ⟨_, .seq hx hy, .taken (by rw [bareAll_append, hts, hus, bareAll_append]) ha⟩
  | noFirst _ ihx =>
    obtain ⟨_, hx, ⟨⟩⟩ := ihx hs
    exact ⟨_, .noFirst hx, .refused⟩
  | noSecond _ _ ihx ihy =>
    obtain ⟨_, hx, ⟨-, hm⟩⟩ := ihx hs
    obtain ⟨_, hy, ⟨⟩⟩ := ihy hm
    exact ⟨_, .noSecond hx hy, .refused⟩
  | altFirst _ ihx =>
    obtain ⟨_, hx, ⟨hts, ha⟩⟩ := ihx hs
    exact ⟨_, .altFirst hx, .taken hts ha⟩
  | altSecond _ _ ihx ihy =>
    obtain ⟨_, hx, ⟨⟩⟩ := ihx hs
    obtain ⟨_, hy, hr⟩ := ihy hs
    exact ⟨_, .altSecond hx hy, hr⟩
  | opt _ ihx =>
    obtain ⟨_, hx, ⟨hts, ha⟩⟩ := ihx hs
    exact ⟨_, .opt hx, .taken hts ha⟩
  | optNone _ ihx =>
    obtain ⟨_, hx, ⟨⟩⟩ := ihx hs
    exact ⟨_, .optNone hx, .taken rfl hs⟩
  | manyStop _ ihx =>
    obtain ⟨_, hx, ⟨⟩⟩ := ihx hs
    exact ⟨_, .manyStop hx, .taken rfl hs⟩
  | manyStep _ _ ihx ihr =>
    obtain ⟨_, hx, ⟨hts, hm⟩⟩ := ihx hs
    obtain ⟨_, hr, ⟨hus, ha⟩⟩ := ihr hm
    exact ⟨_, .manyStep hx hr, .taken (by rw [bareAll_append, hts, hus, bareAll_append]) ha⟩
  | tailStop h => exact ⟨_, .tailStop (tokenAt_moved_none h hs), .taken rfl hs⟩
  | tailDangling h _ ihx =>
    -- the mark is given back, so what follows is the text behind the items before
    obtain ⟨_, _, hmark, hbare, hm⟩ := tokenAt_moved h hs
    obtain ⟨_, hx, ⟨⟩⟩ := ihx (sameText_of_rest hm)
    exact ⟨_, .tailDangling hmark hx, .taken (by rw [bareAll, bareAll, hbare]; rfl) hs⟩
  | tailStep h _ _ ihx ihr =>
    obtain ⟨_, _, hmark, hbare, hm⟩ := tokenAt_moved h hs
    obtain ⟨_, hx, ⟨hts, hn⟩⟩ := ihx (sameText_of_rest hm)
    obtain ⟨_, hr, ⟨hus, ha⟩⟩ := ihr hn
    exact ⟨_, .tailStep hmark hx hr, .taken (by simp [bareAll, hbare, hts, hus]) ha⟩
  | absent _ ihx =>
    obtain ⟨_, hx, ⟨⟩⟩ := ihx hs
    exact ⟨_, .absent hx, .taken rfl hs⟩
  | present _ ihx =>
    obtain ⟨_, hx, ⟨-, -⟩⟩ := ihx hs
    exact ⟨_, .present hx, .refused⟩

/-- What a pattern takes it takes wherever the same text stands. -/
theorem Takes.moved (h : Takes x s ts a) (hs : SameText s b) :
    ∃ us c, Takes x b us c ∧ bareAll us = bareAll ts ∧ SameText a c := by
  obtain ⟨_, hb, ⟨hts, ha⟩⟩ := Derives.moved h hs
  exact ⟨_, _, hb, hts, ha⟩

/-! ## Tidy trees -/

theorem withoutLastComma_bare (ts : List ParseTree) :
    withoutLastComma (bareAll ts) = bareAll (withoutLastComma ts) := by
  fun_induction withoutLastComma ts with
  | case1 => rfl
  | case2 => rfl
  | case3 t rest hne ih =>
    rw [bareAll, withoutLastComma, ih, bareAll]
    intro start text ht hrest
    obtain ⟨place, rfl⟩ := bare_eq_leaf ht
    exact hne place text rfl (bareAll_eq_nil hrest)

theorem tidied_bare (label : Label) (ts : List ParseTree) :
    label.tidied (bareAll ts) = bareAll (label.tidied ts) := by
  unfold Label.tidied
  split
  · exact withoutLastComma_bare ts
  · rfl

mutual

/-- A tree is tidied in the same way whatever its offsets are. -/
theorem tidy_bare : ∀ t : ParseTree, t.bare.tidy = t.tidy.bare
  | .leaf .. => rfl
  | .node label ts => by
    rw [ParseTree.bare, ParseTree.tidy, tidyAll_bare, tidied_bare, ParseTree.tidy, ParseTree.bare]

theorem tidyAll_bare : ∀ ts : List ParseTree, tidyAll (bareAll ts) = bareAll (tidyAll ts)
  | [] => rfl
  | t :: ts => by rw [bareAll, tidyAll, tidy_bare, tidyAll_bare, tidyAll, bareAll]

end

end VerilogLoops.Grammar
