import VerilogLoops.Grammar.Match

/-!
# Derivations: what a pattern means, without tables and fuel

The matcher keeps a table of outcomes and counts fuel. Neither belongs to the meaning of a pattern,
so the meaning is given on its own, as a relation between a pattern, a place and a verdict:

> `Derives pattern place (some (trees, after))`: the pattern takes the text from `place` to `after`
> and `trees` is what it makes of it; `Derives pattern place none`: the pattern does not match.

The rules are those of a parsing expression grammar: a choice takes its second alternative only where
the first one fails, and a repetition goes on as long as it can. There is at most one verdict
(`Derives.unique`). That there is always one, and that the matcher finds it, is shown in
`Matching`.
-/

namespace VerilogLoops.Grammar

open VerilogLoops.Text VerilogLoops.Lexical

/-! ## Places -/

theorem Place.skip_rest (s : Place) (n : Nat) : (s.skip n).rest = s.rest.drop n := rfl

theorem Place.skip_offset {s : Place} {n : Nat} (h : n ≤ s.rest.length) :
    (s.skip n).offset = s.offset + n := by
  simp [Place.skip, List.length_take, Nat.min_eq_left h]

theorem Place.skip_zero (s : Place) : s.skip 0 = s := by
  simp [Place.skip]

theorem Place.skip_skip (s : Place) (m n : Nat) : (s.skip m).skip n = s.skip (m + n) := by
  simp only [Place.skip, List.drop_drop, List.length_take, List.length_drop, Place.mk.injEq,
    and_true]
  omega

/-- The place lies in the text: its rest is the text from its offset on. -/
def Place.In (text : List Char) (s : Place) : Prop :=
  s.offset ≤ text.length ∧ s.rest = text.drop s.offset

theorem Place.in_first (text : List Char) : (Place.first text).In text := by
  simp [Place.In, Place.first]

theorem Place.In.eq {text : List Char} {s : Place} (h : s.In text) :
    s = ⟨s.offset, text.drop s.offset⟩ := by
  cases s
  simp_all [Place.In]

theorem Place.In.skip {text : List Char} {s : Place} (h : s.In text) (n : Nat) :
    (s.skip n).In text := by
  obtain ⟨hle, hrest⟩ := h
  simp only [Place.In, Place.skip, hrest, List.length_take, List.length_drop, List.drop_drop]
  refine ⟨by omega, ?_⟩
  rcases Nat.le_total n (text.length - s.offset) with hn | hn
  · rw [Nat.min_eq_left hn]
  · rw [Nat.min_eq_right hn, List.drop_of_length_le (by omega), List.drop_of_length_le (by omega)]

/-! ## Tokens -/

/-- The leaf of a token and the place behind it, if the token stands at a place behind trivia. -/
def tokenAt (t : Token) (s : Place) : Option (ParseTree × Place) :=
  let here := s.skip (triviaLength s.rest)
  (t.length? here.rest).map fun n =>
    (.leaf t here.offset (String.ofList (here.rest.take n)), here.skip n)

/-- The token stands at the place, behind trivia. -/
def Stands (t : Token) (s : Place) : Prop := (tokenAt t s).isSome = true

theorem stands_of_tokenAt {t : Token} {s a : Place} {leaf : ParseTree}
    (h : tokenAt t s = some (leaf, a)) : Stands t s := by
  rw [Stands, h]; rfl

theorem not_stands_iff {t : Token} {s : Place} : ¬Stands t s ↔ tokenAt t s = none := by
  simp [Stands]

theorem tokenAt_of_not_stands {t : Token} {s : Place} (h : ¬Stands t s) : tokenAt t s = none :=
  not_stands_iff.1 h

theorem exists_of_stands {t : Token} {s : Place} (h : Stands t s) :
    ∃ leaf a, tokenAt t s = some (leaf, a) := by
  obtain ⟨⟨leaf, a⟩, hx⟩ := Option.isSome_iff_exists.1 h
  exact ⟨leaf, a, hx⟩

/-- The outcome of a token is what stands at the place. -/
theorem ofToken_eq (t : Token) (s : Place) : Outcome.ofToken t s =
    match tokenAt t s with
    | some (leaf, after) => .matched [leaf] after 0
    | none => .failed (s.skip (triviaLength s.rest)).offset := by
  unfold Outcome.ofToken tokenAt
  cases h : t.length? (s.skip (triviaLength s.rest)).rest <;> simp [h]

/-! ## Derivations -/

/-- The verdict of a pattern at a place: the trees of what it takes and the place behind, or
nothing if it does not match. -/
inductive Derives : Pattern → Place → Option (List ParseTree × Place) → Prop
  | token {t s leaf a} (h : tokenAt t s = some (leaf, a)) :
    Derives (.token t) s (some ([leaf], a))
  | noToken {t s} (h : tokenAt t s = none) : Derives (.token t) s none
  | phrase {p s ts a} (h : Derives p.body s (some (ts, a))) :
    Derives (.phrase p) s (some ([.node (.phrase p) ts], a))
  | noPhrase {p s} (h : Derives p.body s none) : Derives (.phrase p) s none
  | seq {x y s ts m us a} (hx : Derives x s (some (ts, m))) (hy : Derives y m (some (us, a))) :
    Derives (.seq x y) s (some (ts ++ us, a))
  | noFirst {x y s} (hx : Derives x s none) : Derives (.seq x y) s none
  | noSecond {x y s ts m} (hx : Derives x s (some (ts, m))) (hy : Derives y m none) :
    Derives (.seq x y) s none
  | altFirst {x y s ts a} (hx : Derives x s (some (ts, a))) : Derives (.alt x y) s (some (ts, a))
  | altSecond {x y s r} (hx : Derives x s none) (hy : Derives y s r) : Derives (.alt x y) s r
  | opt {x s ts a} (hx : Derives x s (some (ts, a))) : Derives (.opt x) s (some (ts, a))
  | optNone {x s} (hx : Derives x s none) : Derives (.opt x) s (some ([], s))
  | manyStop {x s} (hx : Derives x s none) : Derives (.many x) s (some ([], s))
  | manyStep {x s ts m us a} (hx : Derives x s (some (ts, m)))
    (hr : Derives (.many x) m (some (us, a))) : Derives (.many x) s (some (ts ++ us, a))
  | tailStop {t x s} (h : tokenAt t s = none) : Derives (.tail t x) s (some ([], s))
  /-- The separator without an item is given back, but its leaf stays. -/
  | tailDangling {t x s mark m} (h : tokenAt t s = some (mark, m)) (hx : Derives x m none) :
    Derives (.tail t x) s (some ([mark], s))
  | tailStep {t x s mark m ts n us a} (h : tokenAt t s = some (mark, m))
    (hx : Derives x m (some (ts, n))) (hr : Derives (.tail t x) n (some (us, a))) :
    Derives (.tail t x) s (some (mark :: ts ++ us, a))
  | absent {x s} (hx : Derives x s none) : Derives (.absent x) s (some ([], s))
  | present {x s ts a} (hx : Derives x s (some (ts, a))) : Derives (.absent x) s none

/-- The pattern takes the text from one place to another and makes these trees of it. -/
abbrev Takes (x : Pattern) (s : Place) (ts : List ParseTree) (a : Place) : Prop :=
  Derives x s (some (ts, a))

/-- The pattern does not match at the place. -/
abbrev Refuses (x : Pattern) (s : Place) : Prop := Derives x s none

/-- A pattern has at most one verdict at a place. -/
theorem Derives.unique {x : Pattern} {s : Place} {r r' : Option (List ParseTree × Place)}
    (h : Derives x s r) (h' : Derives x s r') : r = r' := by
  -- one case for each rule of the first derivation; the verdict on the first part leaves the second
  -- derivation one rule to end with
  induction h generalizing r' with
  | token h => cases h' <;> simp_all
  | noToken h => cases h' <;> simp_all
  | phrase _ ih =>
    cases h' with
    | phrase h' => cases ih h'; rfl
    | noPhrase h' => cases ih h'
  | noPhrase _ ih =>
    cases h' with
    | phrase h' => cases ih h'
    | noPhrase _ => rfl
  | seq _ _ ihx ihy =>
    cases h' with
    | seq hx' hy' => cases ihx hx'; cases ihy hy'; rfl
    | noFirst hx' => cases ihx hx'
    | noSecond hx' hy' => cases ihx hx'; cases ihy hy'
  | noFirst _ ihx =>
    cases h' with
    | seq hx' _ => cases ihx hx'
    | noFirst _ => rfl
    | noSecond hx' _ => cases ihx hx'
  | noSecond _ _ ihx ihy =>
    cases h' with
    | seq hx' hy' => cases ihx hx'; cases ihy hy'
    | noFirst _ => rfl
    | noSecond _ _ => rfl
  | altFirst _ ihx =>
    cases h' with
    | altFirst hx' => exact ihx hx'
    | altSecond hx' _ => cases ihx hx'
  | altSecond _ _ ihx ihy =>
    cases h' with
    | altFirst hx' => cases ihx hx'
    | altSecond _ hy' => exact ihy hy'
  | opt _ ihx =>
    cases h' with
    | opt hx' => exact ihx hx'
    | optNone hx' => cases ihx hx'
  | optNone _ ihx =>
    cases h' with
    | opt hx' => cases ihx hx'
    | optNone _ => rfl
  | manyStop _ ihx =>
    cases h' with
    | manyStop _ => rfl
    | manyStep hx' _ => cases ihx hx'
  | manyStep _ _ ihx ihr =>
    cases h' with
    | manyStop hx' => cases ihx hx'
    | manyStep hx' hr' => cases ihx hx'; cases ihr hr'; rfl
  | tailStop h => cases h' <;> simp_all
  -- a separator without an item
  | tailDangling h _ ihx =>
    cases h' with
    | tailStop h' => simp_all
    | tailDangling h' _ => simp_all
    | tailStep h' hx' _ =>
      rw [h] at h'
      cases h'
      cases ihx hx'
  | tailStep h _ _ ihx ihr =>
    cases h' with
    | tailStop h' => simp_all
    | tailDangling h' hx' =>
      rw [h] at h'
      cases h'
      cases ihx hx'
    | tailStep h' hx' hr' =>
      rw [h] at h'
      cases h'
      cases ihx hx'
      cases ihr hr'
      rfl
  | absent _ ihx =>
    cases h' with
    | absent _ => rfl
    | present hx' => cases ihx hx'
  | present _ ihx =>
    cases h' with
    | absent hx' => cases ihx hx'
    | present _ => rfl

/-- What a pattern takes at a place is unique. -/
theorem Takes.unique {x : Pattern} {s a a' : Place} {ts ts' : List ParseTree}
    (h : Takes x s ts a) (h' : Takes x s ts' a') : ts = ts' ∧ a = a' := by
  have := Derives.unique h h'
  simp_all

/-- A pattern does not both take something and fail. -/
theorem Refuses.not_takes {x : Pattern} {s a : Place} {ts : List ParseTree}
    (h : Refuses x s) : ¬Takes x s ts a := fun h' => by
  have := Derives.unique h h'
  simp_all

/-! ## Induction on what is taken -/

/-- Induction on what a pattern takes, without the attempts that failed. -/
@[elab_as_elim]
theorem Takes.induct {motive : ∀ x s ts a, Takes x s ts a → Prop}
    (token : ∀ {t s leaf a} (h : tokenAt t s = some (leaf, a)), motive _ _ _ _ (.token h))
    (phrase : ∀ {p : Phrase} {s ts a} (h : Takes p.body s ts a), motive _ _ _ _ h → motive _ _ _ _ (.phrase h))
    (seq : ∀ {x y s ts m us a} (hx : Takes x s ts m) (hy : Takes y m us a),
      motive _ _ _ _ hx → motive _ _ _ _ hy → motive _ _ _ _ (.seq hx hy))
    (altFirst : ∀ {x y s ts a} (hx : Takes x s ts a),
      motive _ _ _ _ hx → motive (.alt x y) _ _ _ (.altFirst hx))
    (altSecond : ∀ {x y s ts a} (hx : Refuses x s) (hy : Takes y s ts a),
      motive _ _ _ _ hy → motive (.alt x y) _ _ _ (.altSecond hx hy))
    (opt : ∀ {x s ts a} (hx : Takes x s ts a), motive _ _ _ _ hx → motive _ _ _ _ (.opt hx))
    (optNone : ∀ {x s} (hx : Refuses x s), motive _ _ _ _ (.optNone hx))
    (manyStop : ∀ {x s} (hx : Refuses x s), motive _ _ _ _ (.manyStop hx))
    (manyStep : ∀ {x s ts m us a} (hx : Takes x s ts m) (hr : Takes (.many x) m us a),
      motive _ _ _ _ hx → motive _ _ _ _ hr → motive _ _ _ _ (.manyStep hx hr))
    (tailStop : ∀ {t x s} (h : tokenAt t s = none), motive (.tail t x) _ _ _ (.tailStop h))
    (tailDangling : ∀ {t x s mark m} (h : tokenAt t s = some (mark, m)) (hx : Refuses x m),
      motive _ _ _ _ (.tailDangling h hx))
    (tailStep : ∀ {t x s mark m ts n us a} (h : tokenAt t s = some (mark, m))
      (hx : Takes x m ts n) (hr : Takes (.tail t x) n us a),
      motive _ _ _ _ hx → motive _ _ _ _ hr → motive _ _ _ _ (.tailStep h hx hr))
    (absent : ∀ {x s} (hx : Refuses x s), motive _ _ _ _ (.absent hx))
    {x : Pattern} {s : Place} {ts : List ParseTree} {a : Place} (h : Takes x s ts a) :
    motive x s ts a h := by
  -- over every derivation, for its verdict cannot be an index of the induction
  have key : ∀ {x s r}, Derives x s r → ∀ ts a (h : Takes x s ts a), r = some (ts, a) →
      motive x s ts a h := by
    intro x s r hr
    induction hr with
    | token h => rintro _ _ _ ⟨⟩; exact token h
    | phrase h ih => rintro _ _ _ ⟨⟩; exact phrase h (ih _ _ h rfl)
    | seq hx hy ihx ihy => rintro _ _ _ ⟨⟩; exact seq hx hy (ihx _ _ hx rfl) (ihy _ _ hy rfl)
    | altFirst hx ih => rintro _ _ _ ⟨⟩; exact altFirst hx (ih _ _ hx rfl)
    | altSecond hx hy _ ih => rintro _ _ _ rfl; exact altSecond hx hy (ih _ _ hy rfl)
    | opt hx ih => rintro _ _ _ ⟨⟩; exact opt hx (ih _ _ hx rfl)
    | optNone hx => rintro _ _ _ ⟨⟩; exact optNone hx
    | manyStop hx => rintro _ _ _ ⟨⟩; exact manyStop hx
    | manyStep hx hr ihx ihr => rintro _ _ _ ⟨⟩; exact manyStep hx hr (ihx _ _ hx rfl) (ihr _ _ hr rfl)
    | tailStop h => rintro _ _ _ ⟨⟩; exact tailStop h
    | tailDangling h hx => rintro _ _ _ ⟨⟩; exact tailDangling h hx
    | tailStep h hx hr ihx ihr =>
      rintro _ _ _ ⟨⟩; exact tailStep h hx hr (ihx _ _ hx rfl) (ihr _ _ hr rfl)
    | absent hx => rintro _ _ _ ⟨⟩; exact absent hx
    -- refusals take nothing
    | noToken | noPhrase | noFirst | noSecond | present => rintro _ _ _ ⟨⟩
  exact key h _ _ h rfl

/-! ## What each operator takes -/

section Inversion

variable {x y : Pattern} {s a : Place} {ts : List ParseTree}

theorem takes_token {t : Token} :
    Takes (.token t) s ts a ↔ ∃ leaf, ts = [leaf] ∧ tokenAt t s = some (leaf, a) := by
  constructor
  · intro h
    cases h with
    | token h => exact ⟨_, rfl, h⟩
  · rintro ⟨leaf, rfl, h⟩
    exact .token h

theorem takes_phrase {p : Phrase} :
    Takes (.phrase p) s ts a ↔ ∃ us, ts = [.node (.phrase p) us] ∧ Takes p.body s us a := by
  constructor
  · intro h
    cases h with
    | phrase h => exact ⟨_, rfl, h⟩
  · rintro ⟨us, rfl, h⟩
    exact .phrase h

theorem takes_seq :
    Takes (.seq x y) s ts a ↔
      ∃ us m vs, ts = us ++ vs ∧ Takes x s us m ∧ Takes y m vs a := by
  constructor
  · intro h
    cases h with
    | seq hx hy => exact ⟨_, _, _, rfl, hx, hy⟩
  · rintro ⟨us, m, vs, rfl, hx, hy⟩
    exact .seq hx hy

theorem takes_alt :
    Takes (.alt x y) s ts a ↔ Takes x s ts a ∨ (Refuses x s ∧ Takes y s ts a) := by
  constructor
  · intro h
    cases h with
    | altFirst hx => exact Or.inl hx
    | altSecond hx hy => exact Or.inr ⟨hx, hy⟩
  · rintro (hx | ⟨hx, hy⟩)
    · exact .altFirst hx
    · exact .altSecond hx hy

theorem takes_opt :
    Takes (.opt x) s ts a ↔ Takes x s ts a ∨ (Refuses x s ∧ ts = [] ∧ a = s) := by
  constructor
  · intro h
    cases h with
    | opt hx => exact Or.inl hx
    | optNone hx => exact Or.inr ⟨hx, rfl, rfl⟩
  · rintro (hx | ⟨hx, rfl, rfl⟩)
    · exact .opt hx
    · exact .optNone hx

end Inversion

end VerilogLoops.Grammar
