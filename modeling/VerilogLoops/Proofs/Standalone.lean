import VerilogLoops.Proofs.Agreement
import VerilogLoops.Proofs.Dangling
import VerilogLoops.Proofs.Statement.Taken
import VerilogLoops.Proofs.Token.Gap
import VerilogLoops.Proofs.Transcript

/-!
# Phrases on their own

What stands behind a phrase has no part in its tree, but for separators that dangle. An attempt that
failed because of it might succeed once it is gone, such as that of a block which then finds its `end`;
but the tree that was taken is a reading of the text without it, and at the end of a text every phrase
is read in one way.

> `accepts_at_end`: a clear and ordered reading of a phrase is taken if the text ends behind it;
> `takes_alone`, `takes_shed`: what a phrase takes is taken of the text that is cut behind it, but for what dangles.
-/

namespace VerilogLoops.Grammar

open VerilogLoops.Text VerilogLoops.Lexical

variable {p : Phrase} {s a : Place} {t leaf : ParseTree} {ts : List ParseTree} {k : Token}

/-! ## At the end of a text -/

/-- No comment stands behind trivia, which would go on to its end. -/
theorem not_stands_comment (hk : k = .lineComment ∨ k = .blockComment) : ¬Stands k s := by
  intro h
  obtain ⟨leaf, b, hleaf⟩ := exists_of_stands h
  obtain ⟨text, hrest, hlen, -⟩ := tokenAt_iff.1 hleaf
  have hbare := (startsBare_drop s.rest).2
  rw [hrest, comment?, Option.or_eq_none_iff] at hbare
  rcases hk with rfl | rfl
  · exact absurd (hlen.symm.trans hbare.1) (by simp)
  · exact absurd (hlen.symm.trans hbare.2) (by simp)

theorem not_reads_comment : ¬Reads (.phrase .comment) s ts a := by
  intro h
  obtain ⟨f, hf, hm⟩ := Reads.opener h rfl
  simp only [Pattern.openers, Phrase.openers, List.mem_cons, List.not_mem_nil, or_false] at hf
  rcases hf with rfl | rfl
  · exact not_stands_comment (.inl rfl) (matches_token.1 hm)
  · exact not_stands_comment (.inr rfl) (matches_token.1 hm)

/-- The loop of a text that is nothing but a loop is accepted in front of the end. -/
theorem accepts_loopUnit (h : Reads (.phrase .loopUnit) s [t] a) (hc : t.isClear = true) (ho : Ordered t) :
    Accepts (.phrase .loopUnit) s [t] a := by
  obtain ⟨us, heq, hus⟩ := (shape_phrase rfl).1 h
  cases heq
  obtain ⟨ls, m, _, rfl, hloop, hend⟩ := shape_seq.1 hus
  obtain ⟨mark, rfl, hmark⟩ := shape_token.1 hend
  obtain ⟨ws, rfl, -⟩ := (shape_phrase rfl).1 hloop
  refine .phrase (by simp) (.seq ?_ (accepts_lexeme rfl hmark))
  refine accepts_loop hloop ?_ (ho.child (by simp))
    (closed_of_endOfInput (matches_token.1 (Takes.matches hmark)))
  simp only [isClear_node, allClear_append, allClear_cons, allClear_nil, Bool.and_true,
    Bool.and_eq_true] at hc ⊢
  exact hc.2.1

/-- The phrases of which the next lexeme does not tell where they end. -/
def Phrase.isUndecided : Phrase → Bool
  | .forDeclaration | .classHandle | .qualifier | .comment | .loopUnit | .loop | .foreverLoop
  | .repeatLoop | .whileLoop | .forLoop | .doWhileLoop | .foreachLoop | .statementOrNull | .statement
  | .statementItem | .block | .conditional => true
  | _ => false

/-- **At the end of a text every phrase is read in one way.** A clear reading is taken, for a statement
also if it is ordered. -/
theorem accepts_at_end (h : Reads (.phrase p) s [t] a) (hc : t.isClear = true)
    (ho : p.danglers = [] → Ordered t) (hend : Stands .endOfInput a) : Accepts (.phrase p) s [t] a := by
  have hct : allClear [t] = true := by simpa using hc
  have hclosed : Closed t a := closed_of_endOfInput hend
  have hs := acceptedBehind s
  cases hp : p.isUndecided with
  | false =>
    -- one lexeme tells where these end, and the end of input is among those that may follow
    have key : ∀ p : Phrase, p.isUndecided = false →
        (Pattern.phrase p).decides (some [.token .endOfInput]) = true := by decide +kernel
    exact h.taken (some [.token .endOfInput]) (by simp [key p hp, Pattern.steady]) hct
      (behind_some.2 ⟨_, List.mem_singleton_self _, matches_token.2 hend⟩)
  | true =>
    -- for these more than the next lexeme counts: a name behind a point, an item behind a comma, an `else`
    cases p with
    | forDeclaration =>
      exact accepts_declaration (ready _ s) h hct (.inl (behind_some.2
        ⟨.token .endOfInput, by simp [headerFollow], matches_token.2 hend⟩))
    | classHandle =>
      refine accepts_classHandle h fun _ _ _ => .noFirst (.noToken (tokenAt_of_not_stands ?_))
      exact not_stands_of_excludes (by decide) hend
    | qualifier =>
      exact accepts_qualifier (ready 2 s) h hct fun _ _ _ => not_stands_of_excludes (by decide) hend
    | comment => exact absurd h not_reads_comment
    | loopUnit => exact accepts_loopUnit h hc (ho rfl)
    | loop => exact accepted_loop hs t a h hc (ho rfl) hclosed
    | foreverLoop | repeatLoop | whileLoop | forLoop | foreachLoop =>
      exact accepted_headedLoop (by simp) hs t a h hc (ho rfl) hclosed
    | doWhileLoop => exact accepted_doWhileLoop hs t a h hc (ho rfl) hclosed
    | statementOrNull => exact accepted_statementOrNull hs t a h hc (ho rfl) hclosed
    | statement => exact accepted_statement hs t a h hc (ho rfl) hclosed
    | statementItem => exact accepted_statementItem hs t a h hc (ho rfl) hclosed
    | block => exact accepted_block hs t a h hc (ho rfl) hclosed
    | conditional => exact accepted_conditional hs t a h hc (ho rfl) hclosed
    | _ => cases hp

/-! ## The text behind is cut off -/

theorem stands_endOfInput_cut (a : Place) : Stands .endOfInput (a.cut a.rest.length) := by
  rw [stands_endOfInput]
  show IsTrivia (a.rest.take (a.rest.length - a.rest.length))
  rw [Nat.sub_self, List.take_zero]
  rfl

/-- A clear reading is taken of the text that is cut behind it. -/
theorem Reads.taken_alone (h : Reads (.phrase p) s [t] a) (hc : t.isClear = true)
    (ho : p.danglers = [] → Ordered t) :
    ∃ u, Takes (.phrase p) (s.cut a.rest.length) [u] (a.cut a.rest.length) ∧ u.tidy = t := by
  have hend := stands_endOfInput_cut a
  have haccepts : Accepts (.phrase p) (s.cut a.rest.length) [t] (a.cut a.rest.length) := by
    -- only the assignment sign looks at what follows it, so its reading is not cut as the others are
    by_cases hsign : p = .assignSign
    · subst hsign
      obtain ⟨_, heq, hlexeme⟩ := shape_assignSign.1 h
      cases heq
      obtain ⟨leaf, heq, hleaf, -⟩ := takes_assignSign.1 hlexeme
      refine accepts_lexeme rfl (takes_assignSign.2
        ⟨leaf, heq, tokenAt_cut hleaf (Nat.le_refl _), not_stands_of_excludes (by decide) hend⟩)
    · have key : ∀ p : Phrase, p ≠ .assignSign → .equals ∉ p.closers := by decide +kernel
      exact accepts_at_end (h.cut (key p hsign)) hc ho hend
  obtain ⟨us, hus, htidy⟩ := haccepts
  obtain ⟨vs, rfl, -⟩ := takes_phrase.1 hus
  exact ⟨_, hus, by simpa [tidyAll] using htidy⟩

/-- A phrase in which nothing dangles is taken of the text that is cut behind it. -/
theorem takes_alone (hp : p.danglers = []) (h : Takes (.phrase p) s [t] a) :
    ∃ u, Takes (.phrase p) (s.cut a.rest.length) [u] (a.cut a.rest.length) ∧ u.tidy = t.tidy :=
  Reads.taken_alone (h.reads_phrase hp) (by simpa [tidyAll] using allClear_tidyAll _ h.allClear)
    fun _ => ordered_of_takes h _ (by simp [tidyAll])

/-- **What a phrase takes is taken of the text that is cut behind it, but for what dangles.** -/
theorem takes_shed (hp : p.danglers ≠ []) (h : Takes (.phrase p) s [t] a) :
    Reads (.phrase p) s [t.shed] a ∧
      ∃ u, Takes (.phrase p) (s.cut a.rest.length) [u] (a.cut a.rest.length) ∧ u.tidy = t.shed := by
  have hreads : Reads (.phrase p) s [t.shed] a := (h.sheds rfl).1
  exact ⟨hreads, hreads.taken_alone (by simpa [shedAll] using allClear_shedAll _ h.allClear)
    fun hnil => absurd hnil hp⟩

end VerilogLoops.Grammar
