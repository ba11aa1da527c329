import VerilogLoops.Proofs.Completeness.Declarations

/-!
# Phrases below the statements are read in one way

What was shown for one phrase after the other, each from the phrases of lower rank and from all
phrases further on, is put together: every clear reading of a phrase is taken, at every place
(`ready`). Statements are another matter, since their end is not told by the next lexeme.
-/

namespace VerilogLoops.Grammar

open VerilogLoops.Text VerilogLoops.Lexical

variable {s a : Place} {ts : List ParseTree}

/-- A phrase takes its readings if all phrases of lower rank do. -/
theorem completeAt_of_ready {p : Phrase} (hr : Ready p.rank s) : p.CompleteAt s := by
  cases hlexeme : (Pattern.phrase p).isLexeme with
  | true =>
    intro ts a h _ _
    obtain ⟨t, rfl, ht⟩ := (shape_lexeme hlexeme).1 h
    exact accepts_lexeme hlexeme ht
  | false =>
  by_cases hnone : p.follow = some []
  · intro ts a _ _ hb
    rw [hnone, behind_some] at hb
    obtain ⟨f, hf, -⟩ := hb
    cases hf
  cases hsettles : p.body.settles p.rank p.follow with
  | true =>
    intro ts a h hc hb
    obtain ⟨us, rfl, hus⟩ := (shape_phrase hlexeme).1 h
    simp only [allClear_cons, isClear_node, allClear_nil, Bool.and_true, Bool.and_eq_true] at hc
    refine .phrase ?_ (hr.accepts hus _ hsettles hc.2 hb)
    rintro rfl
    exact hnone rfl
  | false =>
    -- one lexeme decides everywhere but in these phrases
    have key : ∀ p : Phrase, (Pattern.phrase p).isLexeme = false → p.follow ≠ some [] →
        p.body.settles p.rank p.follow = false →
          p ∈ [Phrase.arrayName, .routineName, .forInit, .forInitDeclarations, .forStepItem,
            .namedType, .packedDimension, .variableReference, .expression, .unary, .primary] := by
      decide +kernel
    have hmem := key p hlexeme hnone hsettles
    simp only [List.mem_cons, List.not_mem_nil, or_false] at hmem
    rcases hmem with rfl | rfl | rfl | rfl | rfl | rfl | rfl | rfl | rfl | rfl | rfl
    · exact completeAt_scopedName (Or.inl rfl) hr
    · exact completeAt_scopedName (Or.inr rfl) hr
    · exact completeAt_forInit hr
    · exact completeAt_forInitDeclarations hr
    · exact completeAt_forStepItem hr
    · exact completeAt_namedType hr
    · exact completeAt_packedDimension hr
    · exact completeAt_variableReference hr
    · exact completeAt_expression hr
    · exact completeAt_unary hr
    · exact completeAt_primary hr

/-- All phrases take their readings everywhere, further on first and those of lower rank first. -/
theorem ready (n : Nat) (s : Place) : Ready n s := by
  have main : ∀ (k n : Nat) (s : Place), s.rest.length < k → Ready n s := by
    intro k
    induction k with
    | zero => intro n s h; omega
    | succ k ih =>
      intro n s hk
      have later : ∀ (q : Phrase) (b : Place), b.rest.length < s.rest.length → q.CompleteAt b :=
        fun q b hb => (ih (q.rank + 1) b (by omega)).here q (Nat.lt_succ_self _)
      induction n with
      | zero => exact ⟨fun q hq => by omega, later⟩
      | succ n ihn =>
        refine ⟨fun q hq => ?_, later⟩
        rcases Nat.lt_succ_iff_lt_or_eq.1 hq with hq | rfl
        · exact ihn.here q hq
        · exact completeAt_of_ready ihn
  exact main _ n s (Nat.lt_succ_self _)

/-- Every pattern that decides by the next lexeme takes its clear readings. -/
theorem Reads.taken {x : Pattern} (h : Reads x s ts a) (fs : Option (List Pattern))
    (hx : (x.decides fs && x.steady) = true) (hc : allClear ts = true) (hb : Behind fs a) :
    Accepts x s ts a := by
  simp only [Bool.and_eq_true] at hx
  have hin : x.Entered Phrase.CompleteAt s :=
    ⟨fun q _ => (ready (q.rank + 1) s).here q (Nat.lt_succ_self _),
      fun q b _ hlt => (ready 0 s).later q b hlt⟩
  exact h.accepts fs hx.1 hx.2 hin hc hb

end VerilogLoops.Grammar
