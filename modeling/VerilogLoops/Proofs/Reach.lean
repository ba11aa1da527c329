import VerilogLoops.Proofs.Derivation

/-!
# How far matching comes

A syntax error is reported at the furthest offset at which a token or a predicate failed. Like the
verdict of a pattern, this offset depends on the pattern and the place alone: `Reaches` adds it to
the derivations, and `Reaches.unique` says that there is only one. An outcome of the matcher is a
verdict with this offset (`Comes`), and there is one lemma for every way in which the matcher puts
outcomes together.
-/

namespace VerilogLoops.Grammar

open VerilogLoops.Text VerilogLoops.Lexical

/-- The furthest offset of a failure on the way through a pattern, zero if there is none. -/
inductive Reaches : Pattern → Place → Nat → Prop
  | token {t s leaf a} (h : tokenAt t s = some (leaf, a)) : Reaches (.token t) s 0
  | noToken {t s} (h : tokenAt t s = none) :
    Reaches (.token t) s (s.skip (triviaLength s.rest)).offset
  | phrase {p s n} (h : Reaches p.body s n) : Reaches (.phrase p) s n
  | seq {x y s ts m n k} (hx : Takes x s ts m) (h : Reaches x s n) (h' : Reaches y m k) :
    Reaches (.seq x y) s (max n k)
  | noFirst {x y s n} (hx : Refuses x s) (h : Reaches x s n) : Reaches (.seq x y) s n
  | altFirst {x y s ts a n} (hx : Takes x s ts a) (h : Reaches x s n) : Reaches (.alt x y) s n
  | altSecond {x y s n k} (hx : Refuses x s) (h : Reaches x s n) (h' : Reaches y s k) :
    Reaches (.alt x y) s (max n k)
  | opt {x s n} (h : Reaches x s n) : Reaches (.opt x) s n
  | manyStop {x s n} (hx : Refuses x s) (h : Reaches x s n) : Reaches (.many x) s n
  | manyStep {x s ts m n k} (hx : Takes x s ts m) (h : Reaches x s n)
    (h' : Reaches (.many x) m k) : Reaches (.many x) s (max n k)
  | tailStop {t x s} (h : tokenAt t s = none) :
    Reaches (.tail t x) s (s.skip (triviaLength s.rest)).offset
  | tailDangling {t x s mark m n} (h : tokenAt t s = some (mark, m)) (hx : Refuses x m)
    (h' : Reaches x m n) : Reaches (.tail t x) s n
  | tailStep {t x s mark m ts a n k} (h : tokenAt t s = some (mark, m)) (hx : Takes x m ts a)
    (h' : Reaches x m n) (hr : Reaches (.tail t x) a k) : Reaches (.tail t x) s (max n k)
  | absent {x s n} (hx : Refuses x s) (h : Reaches x s n) : Reaches (.absent x) s n
  | present {x s ts a n} (hx : Takes x s ts a) (h : Reaches x s n) :
    Reaches (.absent x) s (max n s.offset)

/-- There is only one furthest offset. -/
theorem Reaches.unique {x : Pattern} {s : Place} {n k : Nat} (h : Reaches x s n)
    (h' : Reaches x s k) : n = k := by
  -- what a part takes is unique, so both derivations try the second part at the same place
  induction h generalizing k with
  | token h => cases h' <;> simp_all
  | noToken h => cases h' <;> simp_all
  | phrase _ ih =>
    cases h' with
    | phrase h' => exact ih h'
  | seq hx _ _ ihx ihy =>
    cases h' with
    | seq hx' h₁ h₂ =>
      obtain ⟨-, rfl⟩ := hx.unique hx'
      rw [ihx h₁, ihy h₂]
    | noFirst hx' _ => exact absurd hx hx'.not_takes
  | noFirst hx _ ih =>
    cases h' with
    | seq hx' _ _ => exact absurd hx' hx.not_takes
    | noFirst _ h' => exact ih h'
  | altFirst hx _ ih =>
    cases h' with
    | altFirst _ h' => exact ih h'
    | altSecond hx' _ _ => exact absurd hx hx'.not_takes
  | altSecond hx _ _ ihx ihy =>
    cases h' with
    | altFirst hx' _ => exact absurd hx' hx.not_takes
    | altSecond _ h₁ h₂ => rw [ihx h₁, ihy h₂]
  | opt _ ih =>
    cases h' with
    | opt h' => exact ih h'
  | manyStop hx _ ih =>
    cases h' with
    | manyStop _ h' => exact ih h'
    | manyStep hx' _ _ => exact absurd hx' hx.not_takes
  | manyStep hx _ _ ihx ihr =>
    cases h' with
    | manyStop hx' _ => exact absurd hx hx'.not_takes
    | manyStep hx' h₁ h₂ =>
      obtain ⟨-, rfl⟩ := hx.unique hx'
      rw [ihx h₁, ihr h₂]
  | tailStop h => cases h' <;> simp_all
  | tailDangling h hx _ ih =>
    cases h' with
    | tailStop h' => simp_all
    | tailDangling h' _ hr =>
      rw [h] at h'
      cases h'
      exact ih hr
    | tailStep h' hx' _ _ =>
      rw [h] at h'
      cases h'
      exact absurd hx' hx.not_takes
  | tailStep h hx _ _ ihx ihr =>
    cases h' with
    | tailStop h' => simp_all
    | tailDangling h' hx' _ =>
      rw [h] at h'
      cases h'
      exact absurd hx hx'.not_takes
    | tailStep h' hx' h₁ h₂ =>
      rw [h] at h'
      cases h'
      obtain ⟨-, rfl⟩ := hx.unique hx'
      rw [ihx h₁, ihr h₂]
  | absent hx _ ih =>
    cases h' with
    | absent _ h' => exact ih h'
    | present hx' _ => exact absurd hx' hx.not_takes
  | present hx _ ih =>
    cases h' with
    | absent hx' _ => exact absurd hx hx'.not_takes
    | present _ h' => rw [ih h']

/-! ## Outcomes -/

/-- An outcome without the offset of the furthest failure. -/
def Outcome.verdict : Outcome → Option (List ParseTree × Place)
  | .matched ts a _ => some (ts, a)
  | .failed _ => none

/-- The outcome is the verdict of the pattern at the place, with the furthest offset of a failure. -/
structure Comes (x : Pattern) (s : Place) (o : Outcome) : Prop where
  verdict : Derives x s o.verdict
  reach : Reaches x s o.reach

/-- A pattern comes to one outcome only. -/
theorem Comes.unique {x : Pattern} {s : Place} {o o' : Outcome} (h : Comes x s o) (h' : Comes x s o') :
    o = o' := by
  have hverdict := h.verdict.unique h'.verdict
  have hreach := h.reach.unique h'.reach
  cases o <;> cases o' <;> simp_all [Outcome.verdict, Outcome.reach]

section Comes

variable {x y : Pattern} {s a m : Place} {ts us : List ParseTree} {n k : Nat} {o : Outcome}

theorem comes_token (t : Token) (s : Place) : Comes (.token t) s (Outcome.ofToken t s) := by
  rw [ofToken_eq]
  cases h : tokenAt t s with
  | none => exact ⟨.noToken h, .noToken h⟩
  | some x => exact ⟨.token h, .token h⟩

theorem Comes.phrase {p : Phrase} (h : Comes p.body s o) :
    Comes (.phrase p) s (o.under (.phrase p)) := by
  cases o with
  | matched ts a n => exact ⟨.phrase h.verdict, .phrase h.reach⟩
  | failed n => exact ⟨.noPhrase h.verdict, .phrase h.reach⟩

theorem Comes.seq (hx : Comes x s (.matched ts m n)) (hy : Comes y m o) :
    Comes (.seq x y) s ((o.behind ts).since n) := by
  cases o with
  | matched us a k => exact ⟨.seq hx.verdict hy.verdict, .seq hx.verdict hx.reach hy.reach⟩
  | failed k => exact ⟨.noSecond hx.verdict hy.verdict, .seq hx.verdict hx.reach hy.reach⟩

theorem Comes.noFirst (hx : Comes x s (.failed n)) : Comes (.seq x y) s (.failed n) :=
  ⟨.noFirst hx.verdict, .noFirst hx.verdict hx.reach⟩

theorem Comes.altFirst (hx : Comes x s (.matched ts a n)) :
    Comes (.alt x y) s (.matched ts a n) :=
  ⟨.altFirst hx.verdict, .altFirst hx.verdict hx.reach⟩

theorem Comes.altSecond (hx : Comes x s (.failed n)) (hy : Comes y s o) :
    Comes (.alt x y) s (o.since n) := by
  cases o with
  | matched us a k => exact ⟨.altSecond hx.verdict hy.verdict, .altSecond hx.verdict hx.reach hy.reach⟩
  | failed k => exact ⟨.altSecond hx.verdict hy.verdict, .altSecond hx.verdict hx.reach hy.reach⟩

theorem Comes.opt (hx : Comes x s (.matched ts a n)) : Comes (.opt x) s (.matched ts a n) :=
  ⟨.opt hx.verdict, .opt hx.reach⟩

theorem Comes.optNone (hx : Comes x s (.failed n)) : Comes (.opt x) s (.matched [] s n) :=
  ⟨.optNone hx.verdict, .opt hx.reach⟩

theorem Comes.manyStop (hx : Comes x s (.failed n)) : Comes (.many x) s (.matched [] s n) :=
  ⟨.manyStop hx.verdict, .manyStop hx.verdict hx.reach⟩

/-- A repetition always matches, so the outcome of the rest is a match. -/
theorem Comes.manyStep (hx : Comes x s (.matched ts m n)) (hr : Comes (.many x) m o) :
    Comes (.many x) s ((o.behind ts).since n) := by
  cases o with
  | failed => cases hr.verdict
  | matched us a k =>
    exact ⟨.manyStep hx.verdict hr.verdict, .manyStep hx.verdict hx.reach hr.reach⟩

theorem Comes.tailDangling {t : Token} {mark : ParseTree} (h : tokenAt t s = some (mark, m))
    (hx : Comes x m (.failed n)) : Comes (.tail t x) s (.matched [mark] s (max 0 n)) := by
  rw [Nat.zero_max]
  exact ⟨.tailDangling h hx.verdict, .tailDangling h hx.verdict hx.reach⟩

theorem Comes.tailStep {t : Token} {mark : ParseTree} (h : tokenAt t s = some (mark, m))
    (hx : Comes x m (.matched ts a n)) (hr : Comes (.tail t x) a o) :
    Comes (.tail t x) s ((o.behind ([mark] ++ ts)).since (max 0 n)) := by
  rw [Nat.zero_max]
  cases o with
  | failed => cases hr.verdict
  | matched us b k =>
    exact ⟨.tailStep h hx.verdict hr.verdict, .tailStep h hx.verdict hx.reach hr.reach⟩

theorem Comes.absent (hx : Comes x s (.failed n)) : Comes (.absent x) s (.matched [] s n) :=
  ⟨.absent hx.verdict, .absent hx.verdict hx.reach⟩

theorem Comes.present (hx : Comes x s (.matched ts a n)) :
    Comes (.absent x) s (.failed (max n s.offset)) :=
  ⟨.present hx.verdict, .present hx.verdict hx.reach⟩

end Comes

end VerilogLoops.Grammar
