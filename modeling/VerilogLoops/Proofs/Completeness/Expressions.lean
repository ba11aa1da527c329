import VerilogLoops.Proofs.Completeness.Names
import VerilogLoops.Proofs.Polish

/-!
# Expressions are read in one way

Three choices in an expression are not told by its first lexeme. A conditional expression begins as
its condition does; an increment may end with its operator; and a call begins with a name. Each of
them is told by what stands behind the common part.
-/

namespace VerilogLoops.Grammar

open VerilogLoops.Text VerilogLoops.Lexical

/-! ## Wrapping -/

section Wrapping

variable {σ : Type} {lexeme : Pattern → σ → ParseTree → σ → Prop} {s a : σ} {t : ParseTree}

/-- A single operand of a level. -/
theorem shape_chain {level : Level} (h : Shape lexeme (.phrase level.operand) s [t] a) :
    Shape lexeme (.phrase (.chain level)) s [.node (.phrase (.chain level)) [t]] a :=
  .phrase rfl (show Shape lexeme _ s ([t] ++ []) a from .seq h .last)

/-- A single operand of the tightest level. -/
theorem shape_power (h : Shape lexeme (.phrase .unary) s [t] a) :
    Shape lexeme (.phrase (.chain .power)) s [.node (.phrase (.chain .power)) [t]] a :=
  shape_chain h

/-- A unary expression as the only operand of all levels. -/
theorem shape_raised_all (h : Shape lexeme (.phrase .unary) s [t] a) :
    Shape lexeme (.phrase (.chain .logicalOr)) s [raised Level.all t] a :=
  shape_chain (shape_chain (shape_chain (shape_chain (shape_chain (shape_chain (shape_chain
    (shape_chain (shape_chain (shape_chain (shape_power h))))))))))

/-- A unary expression as an expression. -/
theorem shape_settled_unary (h : Shape lexeme (.phrase .unary) s [t] a) :
    Shape lexeme (.phrase .expression) s [expressionOf (raised Level.all t)] a :=
  .phrase rfl (.second (shape_raised_all h))

end Wrapping

variable {s m n a : Place} {ts us vs : List ParseTree}

theorem isClear_raised (levels : List Level) (t : ParseTree) :
    (raised levels t).isClear = t.isClear := by
  induction levels with
  | nil => rfl
  | cons level levels ih =>
    have : (raised (level :: levels) t).isClear =
        (Label.admits (.phrase (.chain level)) [raised levels t] &&
          ((raised levels t).isClear && true)) := rfl
    rw [this, admits_of_ne (by simp), ih]
    simp

/-- A choice is told by the next lexeme if the openers are apart. -/
theorem accepts_alt {x y : Pattern} (h : Reads (.alt x y) s ts a)
    (hx : Reads x s ts a → Accepts x s ts a) (hy : Reads y s ts a → Accepts y s ts a)
    (hst : x.steady = true) (hn : (!x.nullable && !y.nullable) = true)
    (hap : apart y.openers x.openers = true) : Accepts (.alt x y) s ts a := by
  simp only [Bool.and_eq_true, Bool.not_eq_true'] at hn
  rcases shape_alt.1 h with h | h
  · exact (hx h).first
  · exact .second (refuses_of_apart hst hn.1 hap (behind_some.2 (Reads.opener h hn.2))) (hy h)

/-! ## Lvalues -/

/-- The part of a name with a scope that is the name alone. -/
theorem reads_scopedName {p : Phrase} (hp : p = .arrayName ∨ p = .routineName)
    (hq : Reads (.opt (.phrase .qualifier)) s us m) (hn : Reads (.phrase .hierarchicalName) m vs n) :
    Reads (.phrase p) s [.node (.phrase p) (us ++ vs)] n := by
  rcases hp with rfl | rfl <;> exact .phrase rfl (.seq hq hn)

/-- A name with a scope is a variable. -/
theorem lvalue_of_scopedName {p : Phrase} (hp : p = .arrayName ∨ p = .routineName)
    (h : Reads (.phrase p) s ts a) (hc : allClear ts = true) :
    ∃ us, Reads (.phrase .lvalue) s us a ∧ allClear us = true := by
  obtain ⟨us, rfl, hus⟩ := (shape_phrase (by rcases hp with rfl | rfl <;> rfl)).1 h
  have hbody : p.body = .seq (.opt (.phrase .qualifier)) (.phrase .hierarchicalName) := by
    rcases hp with rfl | rfl <;> rfl
  rw [hbody, shape_seq] at hus
  obtain ⟨qs, m, vs, rfl, hq, hn⟩ := hus
  have hadmits : Label.admits (.phrase p) (qs ++ vs) =
      Label.admits (.phrase .variableReference) (qs ++ vs) := by
    rcases hp with rfl | rfl <;> rfl
  refine ⟨[.node (.phrase .lvalue) [.node (.phrase .variableReference) (qs ++ vs)]],
    .phrase rfl (.second (.phrase rfl ?_)), ?_⟩
  · have := Shape.seq hq (Shape.seq hn (Shape.stop (x := .phrase .select)))
    rwa [List.append_nil] at this
  · simpa [hadmits, admits_of_ne] using hc

/-- A variable begins with its name. -/
theorem scopedName_of_reference (h : Reads (.phrase .variableReference) s ts a)
    (hc : allClear ts = true) : ∃ us b, Reads (.phrase .routineName) s us b ∧
      allClear us = true ∧ (b = a ∨ Stands .openBracket b) := by
  obtain ⟨us, rfl, hus⟩ := (shape_phrase rfl).1 h
  rw [Phrase.body, Pattern.row, Pattern.row, Pattern.row, shape_seq] at hus
  obtain ⟨qs, m, _, rfl, hq, hrest⟩ := hus
  obtain ⟨ns, n, vs, rfl, hn, hsel⟩ := shape_seq.1 hrest
  refine ⟨_, n, reads_scopedName (Or.inr rfl) hq hn, ?_, ?_⟩
  · have hglued : superGlued (qs ++ (ns ++ vs)) = superGlued (qs ++ ns) := by
      obtain ⟨ws, rfl, -⟩ := (shape_phrase rfl).1 hn
      rcases shape_opt.1 hq with ⟨rfl, -⟩ | hq
      · cases vs <;> rfl
      · obtain ⟨ws', rfl, -⟩ := (shape_phrase rfl).1 hq
        rfl
    simp only [allClear_cons, isClear_node, allClear_append, allClear_nil, Bool.and_eq_true,
      Label.admits, hglued] at hc ⊢
    exact ⟨⟨hc.1.1, hc.1.2.1, hc.1.2.2.1⟩, trivial⟩
  · rcases Reads.opened hsel with rfl | ⟨f, hf, hm⟩
    · exact Or.inl rfl
    · simp only [Pattern.openers, Phrase.openers, List.mem_singleton] at hf
      subst hf
      exact Or.inr (matches_token.1 hm)

/-- A primary expression with one child, as an expression. -/
def asExpression (t : ParseTree) : ParseTree :=
  expressionOf (raised Level.all (.node (.phrase .unary) [.node (.phrase .primary) [t]]))

theorem isClear_asExpression (t : ParseTree) : (asExpression t).isClear = t.isClear := by
  simp [asExpression, expressionOf, admits_of_ne, isClear_raised]

/-- The first phrase can be read as the second, at all places further on than some length. -/
def Converts (k : Nat) (p q : Phrase) : Prop :=
  ∀ s ts a, s.rest.length < k → Reads (.phrase p) s ts a → allClear ts = true →
    ∃ t, Reads (.phrase q) s [t] a ∧ t.isClear = true

/-- The items of a repetition are converted one by one. -/
theorem Converts.tail {k : Nat} {p q : Phrase} {t : Token} (hpq : Converts k p q)
    (h : Reads (.tail t (.phrase p)) s ts a) (hk : s.rest.length < k + 1) (ht : t ≠ .endOfInput)
    (hc : allClear ts = true) :
    ∃ us, Reads (.tail t (.phrase q)) s us a ∧ allClear us = true := by
  generalize hx : Pattern.tail t (.phrase p) = x at h
  induction h with
  | last =>
    cases hx
    exact ⟨[], .last, rfl⟩
  | @next t x s mark m us n vs a hm hitem hr _ ih =>
    cases hx
    simp only [List.cons_append, allClear_cons, allClear_append, Bool.and_eq_true] at hc
    have hlt : m.rest.length < s.rest.length := Takes.lt hm (by simp [Pattern.nullable, ht])
    have hle := (Reads.ahead hitem).le
    obtain ⟨u, hu, hcu⟩ := hpq m us n (by omega) hitem hc.2.1
    obtain ⟨ws, hws, hcws⟩ := ih (by omega) hc.2.2 rfl
    exact ⟨mark :: [u] ++ ws, .next hm hu hws, by simp [hc.1, hcu, hcws]⟩
  | lexeme hl => rw [← hx] at hl; cases hl
  | _ => cases hx

/-- A concatenation of lvalues is one of expressions, if the lvalues in it are expressions. -/
theorem concatenation_of_lvalues {k : Nat} (hk : Converts k .lvalue .expression) :
    Converts (k + 1) .lvalueConcatenation .concatenation := by
  intro s ts a hlt h hc
  obtain ⟨us, rfl, hus⟩ := (shape_phrase rfl).1 h
  simp only [Phrase.body, Pattern.row, Pattern.separated, shape_seq, shape_token] at hus
  obtain ⟨_, b, _, rfl, ⟨l, rfl, hl⟩, _, c, _, rfl, ⟨fs, d, rs, rfl, hfirst, hrest⟩, r, rfl,
    hr⟩ := hus
  simp only [List.cons_append, List.nil_append, allClear_cons, isClear_node, allClear_append,
    allClear_nil, Bool.and_eq_true] at hc
  obtain ⟨⟨-, hcl, ⟨hcf, hcr⟩, hcr', -⟩, -⟩ := hc
  have hb : b.rest.length < s.rest.length := Takes.lt hl rfl
  have hle := (Reads.ahead hfirst).le
  obtain ⟨u, hu, hcu⟩ := hk b fs d (by omega) hfirst hcf
  obtain ⟨vs, hvs, hcvs⟩ := hk.tail hrest (by omega) (by simp) hcr
  refine ⟨.node (.phrase .concatenation) ([l] ++ (([u] ++ vs) ++ [r])),
    .phrase rfl (.seq (.lexeme rfl hl) (.seq (.seq hu hvs) (.lexeme rfl hr))), ?_⟩
  simp [admits_of_ne, hcl, hcu, hcvs, hcr']

/-- A primary expression is an expression. -/
theorem reads_asExpression {q : Phrase} {t : ParseTree}
    (hq : Reads (.phrase q) s [t] a → Reads Phrase.primary.body s [t] a)
    (h : Reads (.phrase q) s [t] a) : Reads (.phrase .expression) s [asExpression t] a :=
  shape_settled_unary (.phrase rfl (.second (.second (.phrase rfl (hq h)))))

/-- An lvalue is an expression. -/
theorem expression_of_lvalue (k : Nat) : Converts k .lvalue .expression := by
  induction k with
  | zero => intro s _ _ h; omega
  | succ k ih =>
    intro s ts a hlt h hc
    obtain ⟨us, rfl, hus⟩ := (shape_phrase rfl).1 h
    simp only [allClear_cons, isClear_node, allClear_nil, Bool.and_true, Bool.and_eq_true] at hc
    rw [Phrase.body, Pattern.oneOf, Pattern.oneOf, shape_alt] at hus
    rcases hus with hus | hus
    · obtain ⟨t, ht, hct⟩ := concatenation_of_lvalues ih s us a hlt hus hc.2
      exact ⟨asExpression t, reads_asExpression
        (fun h => .second (.second (.second (.first h)))) ht, by rw [isClear_asExpression, hct]⟩
    · obtain ⟨ws, rfl, -⟩ := (shape_phrase rfl).1 hus
      refine ⟨asExpression _, reads_asExpression (fun h => .second (.second (.second
        (.second (.second (.second h)))))) hus, ?_⟩
      rw [isClear_asExpression]
      simpa using hc.2

/-! ## Increments -/

theorem Accepts.exists_takes {x : Pattern} (h : Accepts x s ts a) : ∃ us, Takes x s us a := by
  obtain ⟨us, h, -⟩ := h
  exact ⟨us, h⟩

/-- No increment is taken where an lvalue is taken that no operator of an increment follows. -/
theorem refuses_step_of_lvalue {b : Place} (hl : Takes (.phrase .lvalue) s us b)
    (hb : ¬Stands .stepOperator b) (hs : ¬Stands .stepOperator s) :
    Refuses (.phrase .stepExpression) s :=
  .noPhrase (.altSecond (.noFirst (.noToken (tokenAt_of_not_stands hs)))
    (.noSecond hl (.noToken (tokenAt_of_not_stands hb))))

/-- No increment is taken where a name is read that no operator of an increment follows. -/
theorem refuses_step_of_name {b : Place} (hr : Ready Phrase.stepExpression.rank s)
    (hn : Reads (.phrase .routineName) s us b) (hc : allClear us = true)
    (hb : Behind (some referenceFollow) b) (hno : ¬Stands .stepOperator b) :
    Refuses (.phrase .stepExpression) s := by
  obtain ⟨ls, hls, hcls⟩ := lvalue_of_scopedName (Or.inr rfl) hn hc
  obtain ⟨vs, hvs⟩ := (hr.accepts hls (some referenceFollow) (by decide) hcls hb).exists_takes
  exact refuses_step_of_lvalue hvs hno (not_stands_of_behind (g := nameOpeners) (by decide)
    (behind_some.2 (Reads.opener hn rfl)))

/-- No increment is taken where a variable is read that none of its operators follows. -/
theorem refuses_step_of_reference (hr : Ready Phrase.stepExpression.rank s)
    (h : Reads (.phrase .variableReference) s ts a) (hc : allClear ts = true)
    (hb : Behind (some referenceFollow) a) (hno : ¬Stands .stepOperator a) :
    Refuses (.phrase .stepExpression) s := by
  obtain ⟨us, rfl, -⟩ := (shape_phrase rfl).1 h
  have hl : Reads (.phrase .lvalue) s
      [.node (.phrase .lvalue) [.node (.phrase .variableReference) us]] a :=
    .phrase rfl (.second h)
  obtain ⟨vs, hvs⟩ := (hr.accepts hl (some referenceFollow) (by decide)
    (by simpa [admits_of_ne] using hc) hb).exists_takes
  exact refuses_step_of_lvalue hvs hno (not_stands_of_behind (g := nameOpeners) (by decide)
    (behind_some.2 (Reads.opener h rfl)))

/-- No increment is taken where a concatenation is read that none of its operators follows. -/
theorem refuses_step_of_concatenation (hr : Ready Phrase.stepExpression.rank s)
    (h : Reads (.phrase .concatenation) s ts a) (hc : allClear ts = true)
    (hno : ¬Stands .stepOperator a) : Refuses (.phrase .stepExpression) s := by
  have hbrace : Matches (.token .openBrace) s := by
    obtain ⟨f, hf, hm⟩ := Reads.opener h rfl
    cases List.mem_singleton.1 hf
    exact hm
  have hs : ¬Stands .stepOperator s := not_stands_of_matches (by decide) hbrace
  refine .noPhrase (.altSecond (.noFirst (.noToken (tokenAt_of_not_stands hs))) ?_)
  refine refuses_of_not_takes rfl fun us b hstep => ?_
  obtain ⟨ls, c, ops, rfl, hl, hop⟩ := takes_seq.1 hstep
  obtain ⟨ws, rfl, hbody⟩ := takes_phrase.1 hl
  rcases takes_alt.1 hbody with hlc | ⟨-, href⟩
  · -- a concatenation of lvalues is one of expressions and ends at the same brace
    obtain ⟨t, ht, hct⟩ := concatenation_of_lvalues (expression_of_lvalue s.rest.length) s _ c
      (Nat.lt_succ_self _) (hlc.reads_phrase rfl) (allClear_tidyAll _ hlc.allClear)
    obtain ⟨xs, hxs⟩ := (hr.accepts ht none (by decide) (by simp [hct])
      (by simp)).exists_takes
    obtain ⟨ys, hys⟩ := (hr.accepts h none (by decide) hc (by simp)).exists_takes
    obtain ⟨-, rfl⟩ := hxs.unique hys
    exact hno (matches_token.1 hop.matches)
  · have : Refuses (.phrase .variableReference) s :=
      refuses_of_excludes rfl rfl (by decide) hbrace
    exact this.not_takes href

/-! ## Operations -/

/-- A primary expression takes its readings. -/
theorem completeAt_primary (hr : Ready Phrase.primary.rank s) : Phrase.primary.CompleteAt s := by
  intro ts a h hc hb
  obtain ⟨us, rfl, hus⟩ := (shape_phrase rfl).1 h
  simp only [allClear_cons, isClear_node, allClear_nil, Bool.and_true, Bool.and_eq_true] at hc
  refine Accepts.phrase (by simp) ?_
  have easy : ∀ {x : Pattern}, x.settles Phrase.primary.rank (some operandFollow) = true →
      Reads x s us a → Accepts x s us a := fun hx h => hr.accepts h _ hx hc.2 hb
  refine accepts_alt hus (easy (by decide)) (fun hus => ?_) rfl rfl (by decide)
  refine accepts_alt hus (easy (by decide)) (fun hus => ?_) rfl rfl (by decide)
  refine accepts_alt hus (easy (by decide)) (fun hus => ?_) rfl rfl (by decide)
  refine accepts_alt hus (easy (by decide)) (fun hus => ?_) rfl rfl (by decide)
  refine accepts_alt hus (easy (by decide)) (fun hus => ?_) rfl rfl (by decide)
  rcases shape_alt.1 hus with hus | hus
  · exact (easy (by decide) hus).first
  · -- a call is given up where its parenthesis is missing
    obtain ⟨ns, b, hn, hcn, hend⟩ := scopedName_of_reference hus hc.2
    have hfollow : Behind (some nameFollow) b := by
      rcases hend with rfl | hopen
      · exact hb.mono (by simp +contextual [nameFollow, referenceFollow])
      · exact behind_some.2 ⟨.token .openBracket, by decide, matches_token.2 hopen⟩
    have hparen : ¬Stands .openParen b := by
      rcases hend with rfl | hopen
      · exact not_stands_of_behind (by decide) hb
      · exact not_stands_of_excludes (by decide) hopen
    obtain ⟨vs, hvs⟩ := (hr.accepts hn (some nameFollow) (by decide) hcn
      hfollow).exists_takes
    refine .second (.noPhrase (.noSecond hvs (.noFirst (.noToken ?_)))) (easy (by decide) hus)
    exact tokenAt_of_not_stands hparen

/-- No increment is taken where a primary expression is read that none of its operators follows. -/
theorem refuses_step_of_primary (hr : Ready Phrase.stepExpression.rank s)
    (h : Reads (.phrase .primary) s ts a) (hc : allClear ts = true)
    (hb : Behind (some operandFollow) a) : Refuses (.phrase .stepExpression) s := by
  have hno : ¬Stands .stepOperator a := not_stands_of_behind (by decide) hb
  have hfollow : Behind (some referenceFollow) a := hb.mono (by simp +contextual [referenceFollow])
  have apart : ∀ {x : Pattern} {us : List ParseTree}, Reads x s us a → x.nullable = false →
      apart x.openers (Pattern.phrase .stepExpression).openers = true →
        Refuses (.phrase .stepExpression) s := fun h hn hap =>
    refuses_of_apart rfl rfl hap (behind_some.2 (Reads.opener h hn))
  obtain ⟨us, rfl, hus⟩ := (shape_phrase rfl).1 h
  simp only [allClear_cons, isClear_node, allClear_nil, Bool.and_true, Bool.and_eq_true] at hc
  simp only [Phrase.body, Pattern.oneOf, shape_alt] at hus
  rcases hus with hus | hus | hus | hus | hus | hus | hus
  · exact apart hus rfl (by decide)
  · exact apart hus rfl (by decide)
  · exact apart hus rfl (by decide)
  · exact refuses_step_of_concatenation hr hus hc.2 hno
  · exact apart hus rfl (by decide)
  · obtain ⟨ws, rfl, hcall⟩ := (shape_phrase rfl).1 hus
    obtain ⟨ns, b, rest, rfl, hn, hargs⟩ := shape_seq.1 hcall
    simp only [allClear_cons, isClear_node, allClear_append, allClear_nil, Bool.and_eq_true] at hc
    have hparen : Matches (.token .openParen) b := by
      obtain ⟨f, hf, hm⟩ := Reads.opener hargs rfl
      cases List.mem_singleton.1 hf
      exact hm
    exact refuses_step_of_name hr hn hc.2.1.2.1 (behind_some.2 ⟨_, by decide, hparen⟩)
      (not_stands_of_matches (by decide) hparen)
  · exact refuses_step_of_reference hr hus hc.2 hfollow hno

/-- A unary expression takes its readings. -/
theorem completeAt_unary (hr : Ready Phrase.unary.rank s) : Phrase.unary.CompleteAt s := by
  intro ts a h hc hb
  obtain ⟨us, rfl, hus⟩ := (shape_phrase rfl).1 h
  simp only [allClear_cons, isClear_node, allClear_nil, Bool.and_true, Bool.and_eq_true] at hc
  have easy : ∀ {x : Pattern}, x.settles Phrase.unary.rank (some operandFollow) = true →
      Reads x s us a → Accepts x s us a := fun hx h => hr.accepts h _ hx hc.2 hb
  have hlow : Ready Phrase.stepExpression.rank s :=
    ⟨fun q hq => hr.here q (Nat.lt_trans hq (by decide)), hr.later⟩
  refine Accepts.phrase (by simp) ?_
  rcases shape_alt.1 hus with hus | hus
  · exact (easy (by decide) hus).first
  · refine .second ?_ (accepts_alt hus (easy (by decide)) (easy (by decide)) rfl rfl (by decide))
    rcases shape_alt.1 hus with hus | hus
    · exact refuses_of_apart rfl rfl (by decide) (behind_some.2 (Reads.opener hus rfl))
    · exact refuses_step_of_primary hlow hus hc.2 hb

/-- An expression takes its readings: it is conditional exactly if a question mark follows its
condition. -/
theorem completeAt_expression (hr : Ready Phrase.expression.rank s) :
    Phrase.expression.CompleteAt s := by
  intro ts a h hc hb
  obtain ⟨us, rfl, hus⟩ := (shape_phrase rfl).1 h
  simp only [allClear_cons, isClear_node, allClear_nil, Bool.and_true, Bool.and_eq_true] at hc
  have easy : ∀ {x : Pattern}, x.settles Phrase.expression.rank (some expressionFollow) = true →
      Reads x s us a → Accepts x s us a := fun hx h => hr.accepts h _ hx hc.2 hb
  refine Accepts.phrase (by simp) ?_
  rcases shape_alt.1 hus with hus | hus
  · exact (easy (by decide) hus).first
  · have hchain := easy (by decide) hus
    obtain ⟨vs, hvs⟩ := hchain.exists_takes
    refine .second (.noPhrase (.noSecond hvs (.noFirst (.noToken ?_)))) hchain
    exact tokenAt_of_not_stands (not_stands_of_behind (by decide) hb)

/-! ## Steps and calls -/

/-- No assignment is taken where an lvalue is taken that no operator of an assignment follows. -/
theorem refuses_assignment_of_lvalue {b : Place} (hl : Takes (.phrase .lvalue) s us b)
    (hb : ¬Stands .assignmentOperator b) : Refuses (.phrase .operatorAssignment) s :=
  .noPhrase (.noSecond hl (.noFirst (.noToken (tokenAt_of_not_stands hb))))

/-- No assignment is taken where an increment is read. -/
theorem refuses_assignment_of_step (hr : Ready Phrase.stepExpression.rank s)
    (h : Reads (.phrase .stepExpression) s ts a) (hc : allClear ts = true) :
    Refuses (.phrase .operatorAssignment) s := by
  obtain ⟨us, rfl, hus⟩ := (shape_phrase rfl).1 h
  simp only [allClear_cons, isClear_node, allClear_nil, Bool.and_true, Bool.and_eq_true] at hc
  simp only [Phrase.body, Pattern.row, Pattern.oneOf, shape_alt] at hus
  rcases hus with hus | hus
  · exact refuses_of_apart rfl rfl (by decide) (behind_some.2 (Reads.opener hus rfl))
  · obtain ⟨ls, b, _, rfl, hl, hop⟩ := shape_seq.1 hus
    obtain ⟨op, rfl, hmark⟩ := shape_token.1 hop
    have hstep : Matches (.token .stepOperator) b := Takes.matches hmark
    simp only [allClear_append, Bool.and_eq_true] at hc
    obtain ⟨vs, hvs⟩ := (hr.accepts hl (some referenceFollow) (by decide) hc.2.1
      (behind_some.2 ⟨_, by decide, hstep⟩)).exists_takes
    exact refuses_assignment_of_lvalue hvs (not_stands_of_matches (by decide) hstep)

/-- What may follow a call that is no operand. -/
def callEnds : List Pattern :=
  [.token .comma, .token .closeParen, .token .semicolon, .token .endOfInput]

/-- Neither an assignment nor an increment is taken where a call is read that ends a statement or an
item. -/
theorem refuses_of_call (hr : Ready Phrase.stepExpression.rank s)
    (h : Reads (.phrase .call) s ts a) (hc : allClear ts = true) (hb : Behind (some callEnds) a) :
    Refuses (.phrase .operatorAssignment) s ∧ Refuses (.phrase .stepExpression) s := by
  obtain ⟨us, rfl, hus⟩ := (shape_phrase rfl).1 h
  simp only [allClear_cons, isClear_node, allClear_nil, Bool.and_true, Bool.and_eq_true] at hc
  rcases shape_alt.1 hus with hus | hus
  · have hopen := behind_some.2 (Reads.opener hus rfl)
    exact ⟨refuses_of_apart rfl rfl (by decide) hopen, refuses_of_apart rfl rfl (by decide) hopen⟩
  · obtain ⟨ws, rfl, hws⟩ := (shape_phrase rfl).1 hus
    obtain ⟨ns, b, rest, rfl, hn, hargs⟩ := shape_seq.1 hws
    simp only [allClear_cons, isClear_node, allClear_append, allClear_nil, Bool.and_eq_true] at hc
    have hnext : Behind (some (.token .openParen :: callEnds)) b := Reads.behind_front hargs hb
    have hcn := hc.2.1.2.1
    refine ⟨?_, refuses_step_of_name hr hn hcn (hnext.mono (by decide))
      (not_stands_of_behind (by decide) hnext)⟩
    obtain ⟨ls, hls, hcls⟩ := lvalue_of_scopedName (Or.inr rfl) hn hcn
    obtain ⟨vs, hvs⟩ := (hr.accepts hls (some referenceFollow) (by decide) hcls
      (hnext.mono (by decide))).exists_takes
    exact refuses_assignment_of_lvalue hvs (not_stands_of_behind (by decide) hnext)

/-- A step of a for loop takes its readings. -/
theorem completeAt_forStepItem (hr : Ready Phrase.forStepItem.rank s) :
    Phrase.forStepItem.CompleteAt s := by
  intro ts a h hc hb
  obtain ⟨us, rfl, hus⟩ := (shape_phrase rfl).1 h
  simp only [allClear_cons, isClear_node, allClear_nil, Bool.and_true, Bool.and_eq_true] at hc
  have hlow : Ready Phrase.stepExpression.rank s :=
    ⟨fun q hq => hr.here q (Nat.lt_trans hq (by decide)), hr.later⟩
  have easy : ∀ {x : Pattern}, x.settles Phrase.forStepItem.rank
      (some [.token .comma, .token .closeParen, .token .endOfInput]) = true → Reads x s us a →
        Accepts x s us a := fun hx h => hr.accepts h _ hx hc.2 hb
  refine Accepts.phrase (by simp) ?_
  simp only [Phrase.body, Pattern.oneOf, shape_alt] at hus
  rcases hus with hus | hus | hus
  · exact (easy (by decide) hus).first
  · exact .second (refuses_assignment_of_step hlow hus hc.2) (easy (by decide) hus).first
  · obtain ⟨hassign, hstep⟩ := refuses_of_call hlow hus hc.2 (hb.mono (by decide))
    exact .second hassign (.second hstep (easy (by decide) hus))

end VerilogLoops.Grammar
