import VerilogLoops.Proofs.Statement.Simple

/-!
# Simple statements glued to `return`

Behind `return` stands an expression. The text behind the keyword may be an expression and the whole
a simple statement that begins with an identifier, namely if the simple statement detaches from
`return` and is no assignment.
-/

namespace VerilogLoops.Grammar

open VerilogLoops.Text VerilogLoops.Lexical

variable {word : String} {p : Phrase} {s b c a e m n : Place} {t : ParseTree} {z : List Char}
  {ts us vs es : List ParseTree} {fs : List Pattern}

/-! ## The first operand of an expression -/

/-- What may follow an operand of an expression if these may follow the expression. -/
def operatorsOr (fs : List Pattern) : List Pattern :=
  Pattern.token .question :: (Level.all.map fun l => Pattern.token l.operator) ++ fs

/-- Whatever is read as the phrase begins with an operand, and these may follow the operand. -/
def BeginsWithOperand (fs : List Pattern) (s : Place) (q : Phrase) : Prop :=
  ∀ ts a, Reads (.phrase q) s ts a → allClear ts = true → Behind (some (operatorsOr fs)) a →
    ∃ us n, Reads (.phrase .unary) s us n ∧ allClear us = true ∧ Behind (some (operatorsOr fs)) n

theorem beginsWithOperand_chain (level : Level)
    (h : BeginsWithOperand fs s level.operand) : BeginsWithOperand fs s (.chain level) := by
  intro ts a hreads hc hb
  obtain ⟨us, rfl, hus⟩ := (shape_phrase rfl).1 hreads
  obtain ⟨vs, n, ws, rfl, hfirst, hrest⟩ := shape_seq.1 hus
  simp only [allClear_cons, isClear_node, allClear_append, allClear_nil, Bool.and_eq_true] at hc
  refine h vs n hfirst hc.1.2.1 ((Reads.behind_front hrest hb).mono fun g hg => ?_)
  rcases List.mem_append.1 hg with hg | hg
  · cases List.mem_singleton.1 hg
    exact List.mem_append_left _ (List.mem_cons_of_mem _ (List.mem_map.2 ⟨level, level.mem_all, rfl⟩))
  · exact hg

/-- The first operand of operands that are joined by the loosest operators. -/
theorem beginsWithOperand_logicalOr : BeginsWithOperand fs s (.chain .logicalOr) := by
  have unary : BeginsWithOperand fs s .unary := fun ts a h hc hb => ⟨ts, a, h, hc, hb⟩
  have power := beginsWithOperand_chain .power unary
  have multiplicative := beginsWithOperand_chain .multiplicative power
  have additive := beginsWithOperand_chain .additive multiplicative
  have shift := beginsWithOperand_chain .shift additive
  have relational := beginsWithOperand_chain .relational shift
  have equality := beginsWithOperand_chain .equality relational
  have binaryAnd := beginsWithOperand_chain .binaryAnd equality
  have binaryXor := beginsWithOperand_chain .binaryXor binaryAnd
  have binaryOr := beginsWithOperand_chain .binaryOr binaryXor
  have logicalAnd := beginsWithOperand_chain .logicalAnd binaryOr
  exact beginsWithOperand_chain .logicalOr logicalAnd

/-- The first operand of an expression. -/
theorem expression_operand (h : Reads (.phrase .expression) s ts a) (hc : allClear ts = true)
    (hb : Behind (some fs) a) : ∃ us n, Reads (.phrase .unary) s us n ∧ allClear us = true ∧
      Behind (some (operatorsOr fs)) n := by
  obtain ⟨us, rfl, hus⟩ := (shape_phrase rfl).1 h
  simp only [allClear_cons, isClear_node, allClear_nil, Bool.and_true, Bool.and_eq_true] at hc
  rcases shape_alt.1 hus with hus | hus
  · obtain ⟨vs, rfl, hvs⟩ := (shape_phrase rfl).1 hus
    obtain ⟨xs, m, ys, rfl, hx, hy⟩ := shape_seq.1 hvs
    simp only [allClear_cons, isClear_node, allClear_append, allClear_nil, Bool.and_eq_true] at hc
    refine beginsWithOperand_logicalOr xs m hx hc.2.1.2.1 ?_
    obtain ⟨f, hf, hm⟩ := Reads.opener hy rfl
    cases List.mem_singleton.1 hf
    exact behind_some.2 ⟨_, List.mem_cons_self, hm⟩
  · exact beginsWithOperand_logicalOr us a hus hc.2
      (hb.mono fun g hg => List.mem_append_right _ hg)

/-! ## Operands that begin with a name -/

/-- An operand that begins as a name does is an increment, a call or a variable. -/
theorem operand_of_name (h : Reads (.phrase .unary) s us n) (hc : allClear us = true)
    (hs : Behind (some nameOpeners) s) :
    ∃ q ∈ [Phrase.stepExpression, .appliedCall, .variableReference], ∃ vs,
      Reads (.phrase q) s vs n ∧ allClear vs = true := by
  obtain ⟨vs, rfl, hvs⟩ := (shape_phrase rfl).1 h
  simp only [allClear_cons, isClear_node, allClear_nil, Bool.and_true, Bool.and_eq_true] at hc
  simp only [Phrase.body, Pattern.oneOf, shape_alt] at hvs
  rcases hvs with hvs | hvs | hvs
  · exact ⟨_, by simp, vs, hvs, hc.2⟩
  · exact absurd hvs (not_reads_of_apart rfl (by decide) hs)
  · obtain ⟨ws, rfl, hws⟩ := (shape_phrase rfl).1 hvs
    simp only [allClear_cons, isClear_node, allClear_nil, Bool.and_true, Bool.and_eq_true] at hc
    simp only [Phrase.body, Pattern.oneOf, shape_alt] at hws
    rcases hws with hws | hws | hws | hws | hws | hws | hws
    · exact absurd hws (not_reads_of_apart rfl (by decide) hs)
    · exact absurd hws (not_reads_of_apart rfl (by decide) hs)
    · exact absurd hws (not_reads_of_apart rfl (by decide) hs)
    · exact absurd hws (not_reads_of_apart rfl (by decide) hs)
    · exact absurd hws (not_reads_of_apart rfl (by decide) hs)
    · exact ⟨_, by simp, ws, hws, hc.2.2⟩
    · exact ⟨_, by simp, ws, hws, hc.2.2⟩

/-- An operand that begins with the name of a system task is a call of it. -/
theorem operand_of_systemName (h : Reads (.phrase .unary) b us n)
    (hs : LexemeAt (.token .systemName) b t c) : ∃ as,
      Reads (.opt (.row (.token .openParen) [.opt (.phrase .arguments), .token .closeParen])) c as n := by
  have hm : Matches (.token .systemName) b := ⟨_, _, hs⟩
  obtain ⟨vs, rfl, hvs⟩ := (shape_phrase rfl).1 h
  simp only [Phrase.body, Pattern.oneOf, shape_alt] at hvs
  rcases hvs with hvs | hvs | hvs
  · exact absurd hvs (not_reads_of_matches rfl (by decide) hm)
  · exact absurd hvs (not_reads_of_matches rfl (by decide) hm)
  · obtain ⟨ws, rfl, hws⟩ := (shape_phrase rfl).1 hvs
    simp only [Phrase.body, Pattern.oneOf, shape_alt] at hws
    rcases hws with hws | hws | hws | hws | hws | hws | hws
    · exact absurd hws (not_reads_of_matches rfl (by decide) hm)
    · exact absurd hws (not_reads_of_matches rfl (by decide) hm)
    · exact absurd hws (not_reads_of_matches rfl (by decide) hm)
    · exact absurd hws (not_reads_of_matches rfl (by decide) hm)
    · obtain ⟨xs, rfl, hxs⟩ := (shape_phrase rfl).1 hws
      obtain ⟨ns, d, as, rfl, hname, ha⟩ := shape_seq.1 hxs
      obtain ⟨l, rfl, hl⟩ := shape_token.1 hname
      obtain ⟨-, rfl⟩ := Takes.unique hs hl
      exact ⟨as, ha⟩
    · exact absurd hws (not_reads_of_matches rfl (by decide) hm)
    · exact absurd hws (not_reads_of_matches rfl (by decide) hm)

/-- An operand that begins as a name does begins with a name. -/
theorem name_of_operand {q : Phrase}
    (hq : q ∈ [Phrase.stepExpression, .appliedCall, .variableReference])
    (h : Reads (.phrase q) s vs n) (hs : Behind (some nameOpeners) s) :
    ∃ qs m ns d, Reads (.opt (.phrase .qualifier)) s qs m ∧
      Reads (.phrase .hierarchicalName) m ns d := by
  simp only [List.mem_cons, List.not_mem_nil, or_false] at hq
  rcases hq with rfl | rfl | rfl
  · obtain ⟨us, rfl, hus⟩ := (shape_phrase rfl).1 h
    rcases shape_alt.1 hus with hus | hus
    · exact absurd hus (not_reads_of_apart rfl (by decide) hs)
    · obtain ⟨ls, d, os, rfl, hl, -⟩ := shape_seq.1 hus
      obtain ⟨qs, m, ns, e, -, hq, hn, -⟩ := lvalue_name hl hs
      exact ⟨qs, m, ns, e, hq, hn⟩
  · obtain ⟨us, rfl, hus⟩ := (shape_phrase rfl).1 h
    obtain ⟨xs, d, as, rfl, hname, -⟩ := shape_seq.1 hus
    obtain ⟨ys, rfl, hys⟩ := (shape_phrase rfl).1 hname
    obtain ⟨qs, m, ns, rfl, hq, hn⟩ := shape_seq.1 hys
    exact ⟨qs, m, ns, d, hq, hn⟩
  · obtain ⟨us, rfl, hus⟩ := (shape_phrase rfl).1 h
    obtain ⟨qs, m, _, rfl, hq, hrest⟩ := shape_seq.1 hus
    obtain ⟨ns, d, ss, rfl, hn, -⟩ := shape_seq.1 hrest
    exact ⟨qs, m, ns, d, hq, hn⟩

/-- What stands behind the first token of an expression at a glued place. -/
theorem returned_cases (hz : GluedAt word s b c t z) (h : Reads (.phrase .expression) b es e)
    (hc : allClear es = true) (hb : Behind (some fs) e) :
    (IsTaskName z ∧ Behind (some (.token .openParen :: operatorsOr fs)) c) ∨
    ((z = "unit".toList ∧ Stands .scope c ∨ z = "root".toList ∧ Stands .period c) ∧
      ∃ q ∈ [Phrase.stepExpression, .appliedCall, .variableReference], ∃ vs n,
        Reads (.phrase q) b vs n ∧ allClear vs = true ∧ Behind (some (operatorsOr fs)) n) := by
  obtain ⟨us, n, hu, hcu, hn⟩ := expression_operand h hc hb
  obtain ⟨f, hf, -, l, d, rest, hl, -, -⟩ := Glued.opener hz.glued hu rfl (by decide)
  obtain ⟨rfl, hkind⟩ := hz.cases hf hl
  rcases hkind with ⟨rfl, hname⟩ | ⟨rfl, rfl⟩ | ⟨rfl, rfl⟩
  · obtain ⟨as, ha⟩ := operand_of_systemName hu hl
    exact Or.inl ⟨hname, Reads.behind_front ha hn⟩
  · have hopen : Behind (some nameOpeners) b := behind_some.2 ⟨_, by decide, _, _, hl⟩
    obtain ⟨q, hq, vs, hvs, hcv⟩ := operand_of_name hu hcu hopen
    refine Or.inr ⟨Or.inl ⟨rfl, ?_⟩, q, hq, vs, n, hvs, hcv, hn⟩
    obtain ⟨qs, m, ns, e', hqs, hns⟩ := name_of_operand hq hvs hopen
    rcases name_cases (by simp) hl hqs hns with ⟨-, mark, -, hmark⟩ | ⟨hne, -⟩ | ⟨hid, -⟩
    · exact matches_token.1 (Takes.matches hmark)
    · exact absurd rfl hne
    · cases hid
  · have hopen : Behind (some nameOpeners) b := behind_some.2 ⟨_, by decide, _, _, hl⟩
    obtain ⟨q, hq, vs, hvs, hcv⟩ := operand_of_name hu hcu hopen
    refine Or.inr ⟨Or.inr ⟨rfl, ?_⟩, q, hq, vs, n, hvs, hcv, hn⟩
    obtain ⟨qs, m, ns, e', hqs, hns⟩ := name_of_operand hq hvs hopen
    rcases name_cases (by simp) hl hqs hns with ⟨hne, -⟩ | ⟨-, -, mark, e'', rest, -, hmark, -⟩ |
      ⟨hid, -⟩
    · exact absurd rfl hne
    · exact matches_token.1 (Takes.matches hmark)
    · cases hid

/-! ## Returned expressions and simple statements -/

/-- No label is read where an expression is returned. -/
theorem not_stands_colon_of_returned (hz : GluedAt word s b c t z)
    (h : Reads (.phrase .expression) b es e) (hc : allClear es = true)
    (he : Stands .semicolon e) : ¬Stands .colon c := by
  have hb : Behind (some [.token .semicolon]) e := behind_some.2 ⟨_, by simp, matches_token.2 he⟩
  rcases returned_cases hz h hc hb with ⟨-, hnext⟩ | ⟨⟨-, hscope⟩ | ⟨-, hpoint⟩, -⟩
  · exact not_stands_of_behind (by decide) hnext
  · exact not_stands_of_excludes (by decide) hscope
  · exact not_stands_of_excludes (by decide) hpoint

/-- No assignment is taken where an operand is read that an operator or a semicolon follows. -/
theorem refuses_assignment_of_operand {q : Phrase}
    (hq : q ∈ [Phrase.stepExpression, .appliedCall, .variableReference])
    (h : Reads (.phrase q) s vs n) (hc : allClear vs = true)
    (hn : Behind (some (operatorsOr [.token .semicolon])) n) :
    Refuses (.phrase .operatorAssignment) s := by
  simp only [List.mem_cons, List.not_mem_nil, or_false] at hq
  rcases hq with rfl | rfl | rfl
  · exact refuses_assignment_of_step (ready _ s) h hc
  · obtain ⟨us, rfl, hus⟩ := (shape_phrase rfl).1 h
    obtain ⟨xs, d, as, rfl, hname, ha⟩ := shape_seq.1 hus
    simp only [allClear_cons, isClear_node, allClear_append, allClear_nil, Bool.and_eq_true] at hc
    obtain ⟨f, hf, hm⟩ := Reads.opener ha rfl
    cases List.mem_singleton.1 hf
    obtain ⟨ls, hls, hcl⟩ := lvalue_of_scopedName (Or.inr rfl) hname hc.1.2.1
    obtain ⟨ws, hws⟩ := (hls.taken (some referenceFollow) (by decide) hcl
      (behind_some.2 ⟨_, by decide, hm⟩)).exists_takes
    exact refuses_assignment_of_lvalue hws (not_stands_of_matches (by decide) hm)
  · obtain ⟨us, rfl, -⟩ := (shape_phrase rfl).1 h
    have hl : Reads (.phrase .lvalue) s
        [.node (.phrase .lvalue) [.node (.phrase .variableReference) us]] n :=
      .phrase rfl (.second h)
    obtain ⟨ws, hws⟩ := (hl.taken (some referenceFollow) (by decide)
      (by simpa [admits_of_ne] using hc) (hn.mono (by decide))).exists_takes
    exact refuses_assignment_of_lvalue hws (not_stands_of_behind (by decide) hn)

/-- The scope or path behind the keyword is read as a name that begins with the identifier. -/
theorem exchanges_of_glued (hz : GluedAt word s b c t z)
    (ht : LexemeAt (.phrase .identifier) s t c)
    (hnext : z = "unit".toList ∧ Stands .scope c ∨ z = "root".toList ∧ Stands .period c) :
    Exchanges b s ∧ Exchanges s b := by
  have hct : t.isClear = true := by
    obtain ⟨start, rfl⟩ := hz.tree
    rfl
  rcases hnext with ⟨rfl, hscope⟩ | ⟨rfl, hpoint⟩
  · obtain ⟨leaf, hleaf⟩ := hz.exists_scope (k := .unitScope) "unit" rfl
    obtain ⟨start, text, rfl⟩ := tokenAt_eq_leaf hleaf
    exact ⟨exchanges_scope (Or.inr rfl) (Or.inl rfl) (.token hleaf) ht hct hscope,
      exchanges_scope (Or.inl rfl) (Or.inr rfl) ht (.token hleaf) rfl hscope⟩
  · obtain ⟨leaf, hleaf⟩ := hz.exists_scope (k := .rootScope) "root" rfl
    obtain ⟨start, text, rfl⟩ := tokenAt_eq_leaf hleaf
    exact ⟨exchanges_root (Or.inr rfl) (Or.inl rfl) (.token hleaf) ht hct hpoint,
      exchanges_root (Or.inl rfl) (Or.inr rfl) ht (.token hleaf) rfl hpoint⟩

/-- An operand is read with the other first token. -/
theorem Exchanges.operand (hx : Exchanges s b) {q : Phrase}
    (hq : q ∈ [Phrase.stepExpression, .appliedCall, .variableReference])
    (h : Reads (.phrase q) s vs n) (hc : allClear vs = true) (hn : Behind (some referenceFollow) n) :
    ∃ us, Reads (.phrase q) b us n ∧ allClear us = true := by
  simp only [List.mem_cons, List.not_mem_nil, or_false] at hq
  rcases hq with rfl | rfl | rfl
  · exact hx.stepExpression h hc
  · exact hx.appliedCall h hc
  · exact hx.variableReference h hc hn

/-- Where an expression is returned and a simple statement is read, the simple statement detaches
from the keyword and is no assignment. -/
theorem detaches_of_returned (hp : p.isSimple = true) (hz : GluedAt word s b c t z)
    (ht : LexemeAt (.phrase .identifier) s t c) (h : Reads (.phrase p) s ts a)
    (hc : allClear ts = true) (he : Reads (.phrase .expression) b es e) (hce : allClear es = true)
    (hend : Stands .semicolon e) : Detaches word (leavesOf ts) ∧ p ≠ .assignmentStatement := by
  have hb : Behind (some [.token .semicolon]) e :=
    behind_some.2 ⟨_, by simp, matches_token.2 hend⟩
  -- the operand is either the name of a system task, or it goes on behind the scope
  rcases returned_cases hz he hce hb with ⟨hname, hnext⟩ | ⟨hscope, q, hq, vs, n, hvs, hcv, hn⟩
  · obtain ⟨l, rest, hleaves, hstands, hmem⟩ := second_leaf hp h ht
    have key : ∀ k ∈ Token.scope :: .period :: p.nameEnds,
        (k ∈ [Token.openParen, .semicolon] ∧ p = .callStatement) ∨
          ((.token .openParen :: operatorsOr [.token .semicolon]).all fun f =>
            lexemeExcludes f (.token k)) = true := by
      rcases isSimple_cases hp with rfl | rfl | rfl <;> decide
    -- the lexeme behind the name is one that a call allows, or the operand excludes it
    rcases key _ hmem with ⟨hk, hcall⟩ | hex
    · refine ⟨detaches_of_stands hp h hz ht (k := l.token) ?_ hstands, by simp [hcall]⟩
      rw [dollarFollow, if_neg, if_neg, if_neg hname.1]
      · exact hk
      · exact fun h => hname.2 "root" (by decide) h.symm
      · exact fun h => hname.2 "unit" (by decide) h.symm
    · exact absurd hstands (not_stands_of_behind hex hnext)
  · refine ⟨?_, ?_⟩
    · rcases hscope with ⟨rfl, hscope⟩ | ⟨rfl, hpoint⟩
      · exact detaches_of_stands hp h hz ht (by decide) hscope
      · exact detaches_of_stands hp h hz ht (by decide) hpoint
    · -- an assignment would be taken where the operand is read
      rintro rfl
      obtain ⟨us, hus, hcu⟩ := (exchanges_of_glued hz ht hscope).1.operand hq hvs hcv
        (hn.mono (by decide))
      obtain ⟨ws, rfl, hws⟩ := (shape_phrase rfl).1 h
      obtain ⟨xs, d, ys, rfl, hx, hy⟩ := shape_seq.1 hws
      simp only [allClear_cons, isClear_node, allClear_append, allClear_nil, Bool.and_eq_true] at hc
      obtain ⟨f, hf, hm⟩ := Reads.opener hy rfl
      cases List.mem_singleton.1 hf
      obtain ⟨zs, hzs⟩ := (Reads.taken hx _ (by decide) hc.1.2.1 (behind_some.2
        ⟨.token .semicolon, (by decide : _ ∈ [Pattern.token .comma, .token .closeParen,
          .token .semicolon]), hm⟩)).exists_takes
      exact (refuses_assignment_of_operand hq hus hcu hn).not_takes hzs

/-- A call or an increment that detaches from a keyword is an expression behind it. -/
theorem returned_of_detaches (hp : p = .stepStatement ∨ p = .callStatement)
    (hz : GluedAt word s b c t z) (ht : LexemeAt (.phrase .identifier) s t c)
    (h : Reads (.phrase p) s ts a) (hc : allClear ts = true) (hd : Detaches word (leavesOf ts)) :
    ∃ es e ms, Reads (.phrase .expression) b es e ∧ allClear es = true ∧
      Reads (.token .semicolon) e ms a := by
  obtain ⟨us, hus, hcu⟩ := detach (by rcases hp with rfl | rfl <;> rfl) hz ht h hc hd
  have expression : ∀ {t : ParseTree} {d : Place}, Reads (.phrase .unary) b [t] d →
      t.isClear = true → ∃ es, Reads (.phrase .expression) b es d ∧ allClear es = true :=
    fun h hc => ⟨_, shape_settled_unary h, by simp [expressionOf, admits_of_ne, isClear_raised, hc]⟩
  -- an increment is an operand as it is, a call in one of three forms
  rcases hp with rfl | rfl
  all_goals
    obtain ⟨vs, rfl, hvs⟩ := (shape_phrase rfl).1 hus
    obtain ⟨xs, d, ms, rfl, hx, hm⟩ := shape_seq.1 hvs
    simp only [allClear_cons, isClear_node, allClear_append, allClear_nil, Bool.and_eq_true] at hcu
  · obtain ⟨es, hes, hce⟩ := expression (t := .node (.phrase .unary) xs)
      (.phrase rfl (.first hx)) (by simp [admits_of_ne, hcu.1.2.1])
    exact ⟨es, d, ms, hes, hce, hm⟩
  · obtain ⟨ys, rfl, hys⟩ := (shape_phrase rfl).1 hx
    simp only [allClear_cons, isClear_node, allClear_nil, Bool.and_true, Bool.and_eq_true] at hcu
    have primary : ∀ {zs : List ParseTree}, Reads Phrase.primary.body b zs d →
        allClear zs = true → ∃ es, Reads (.phrase .expression) b es d ∧ allClear es = true := by
      intro zs hzs hcz
      exact expression (t := .node (.phrase .unary) [.node (.phrase .primary) zs])
        (.phrase rfl (.second (.second (.phrase rfl hzs)))) (by simp [admits_of_ne, hcz])
    rcases shape_alt.1 hys with hys | hys
    · obtain ⟨es, hes, hce⟩ := primary
        (.second (.second (.second (.second (.first hys))))) hcu.1.2.1.2
      exact ⟨es, d, ms, hes, hce, hm⟩
    · obtain ⟨zs, rfl, hzs⟩ := (shape_phrase rfl).1 hys
      obtain ⟨ns, e, as, rfl, hname, ha⟩ := shape_seq.1 hzs
      simp only [allClear_cons, isClear_node, allClear_append, allClear_nil, Bool.and_eq_true] at hcu
      obtain ⟨hcn, hca⟩ := hcu.1.2.1.2.1.2
      rcases shape_opt.1 ha with ⟨rfl, rfl⟩ | ha
      · -- a call without parentheses is a variable
        obtain ⟨ws, rfl, hws⟩ := (shape_phrase rfl).1 hname
        obtain ⟨qs, m, ns, rfl, hq, hn⟩ := shape_seq.1 hws
        simp only [allClear_cons, isClear_node, allClear_append, allClear_nil,
          Bool.and_eq_true] at hcn
        have hread : Reads (.phrase .variableReference) b
            [.node (.phrase .variableReference) (qs ++ (ns ++ []))] d :=
          .phrase rfl (.seq hq (.seq hn .stop))
        have hadmits : Label.admits (.phrase .variableReference) (qs ++ ns) = true := hcn.1.1
        obtain ⟨es, hes, hce⟩ := primary
          (.second (.second (.second (.second (.second (.second hread))))))
          (by simp [hadmits, hcn.1.2.1, hcn.1.2.2])
        exact ⟨es, d, ms, hes, hce, hm⟩
      · have hread : Reads (.phrase .appliedCall) b [.node (.phrase .appliedCall) (ns ++ as)] d :=
          .phrase rfl (.seq hname ha)
        obtain ⟨es, hes, hce⟩ := primary
          (.second (.second (.second (.second (.second (.first hread))))))
          (by simp [admits_of_ne, hcn, hca])
        exact ⟨es, d, ms, hes, hce, hm⟩

end VerilogLoops.Grammar
