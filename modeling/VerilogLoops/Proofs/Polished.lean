import VerilogLoops.Proofs.Foremost

/-!
# What polished trees mean

Polishing takes parentheses away and puts others where an operation needs them as an operand. The tree fits
the same phrase as before and means the same. An operation becomes a unit in between: a unary expression or a
whole expression, whatever level it was on.

> `means_polish`: a polished tree means what the tree means.
-/

namespace VerilogLoops.Ast

open VerilogLoops.Lexical VerilogLoops.Grammar

variable {x : Pattern} {k : Token} {p q : Phrase} {t u : ParseTree} {ts us : List ParseTree} {v w : Value}
  {vs ws : List Value} {level : Level}

/-! ## Units -/

/-- A polished operation: a unary expression or a whole expression that means the value. -/
inductive IsUnit (v : Value) : ParseTree → Prop
  | unary {cs} (h : Means (.phrase .unary) [.node (.phrase .unary) cs] [v]) : IsUnit v (.node (.phrase .unary) cs)
  | whole {cs} (h : Means (.phrase .expression) [.node (.phrase .expression) cs] [v]) :
    IsUnit v (.node (.phrase .expression) cs)

theorem IsUnit.isA (h : IsUnit v u) : v.isA .expression = true := by
  cases h with
  | unary h | whole h =>
    obtain ⟨w, hw, hisA⟩ := h.single rfl
    cases hw
    exact hisA

/-- A primary expression is a unit. -/
theorem isUnit_primary (h : Means (.phrase .primary) [t] [v]) : IsUnit v (.node (.phrase .unary) [t]) := by
  have hbody : Means Phrase.unary.body [t] [v] := means_alt.2 (.inr (means_alt.2 (.inr h)))
  exact .unary (hbody.phrase (b := .one v) rfl rfl rfl)

/-- A chain of the loosest level is a unit, if it is put in an expression. -/
theorem isUnit_chain (h : Means (.phrase (.chain .logicalOr)) [t] [v]) : IsUnit v (expressionOf t) := by
  obtain ⟨w, hw, hisA⟩ := h.single rfl
  cases hw
  exact .whole (means_expression h hisA)

/-- In the place of an expression a unit is an expression. -/
theorem IsUnit.settled (h : IsUnit v u) : Means (.phrase .expression) [u.settled] [v] := by
  cases h with
  | unary h =>
    obtain ⟨w, hw, hisA⟩ := h.single rfl
    cases hw
    exact means_expression (means_raised h) hisA
  | whole h => exact h

/-- In the place of an operand a unit is a unary expression, a whole expression in parentheses. -/
theorem IsUnit.asOperand (h : IsUnit v u) : Means (.phrase .unary) [u.asOperand] [v] := by
  have hisA := h.isA
  cases h with
  | unary h => exact h
  | @whole cs h =>
    have hopen : Means (.token .openParen) [.leaf .openParen 0 "("] [.text "("] :=
      means_token.2 ⟨0, "(", rfl, ⟨[], rfl⟩, rfl⟩
    have hclose : Means (.token .closeParen) [.leaf .closeParen 0 ")"] [.text ")"] :=
      means_token.2 ⟨0, ")", rfl, ⟨[], rfl⟩, rfl⟩
    have hb : assemble .parenthesized .unknown [.text "(", v, .text ")"] = .ok (.one v) := by
      simp [assemble, theMember, hisA]
    have hparen := Means.phrase (p := .parenthesized) (hopen.seq (h.seq hclose)) rfl rfl hb
    have hprimary : Means Phrase.primary.body _ [v] := means_alt.2 (.inr (means_alt.2 (.inr (means_alt.2 (.inl hparen)))))
    have hb' : assemble .primary .unknown [v] = .ok (.one v) := by
      simp [assemble, theMember, hisA]
    have hunit := isUnit_primary (hprimary.phrase rfl rfl hb')
    cases hunit with
    | unary h => exact h

/-- A unit is handed on as it is. -/
theorem IsUnit.reformed (h : IsUnit v u) :
    reformed (.phrase .unary) [u] = u ∧ reformed (.phrase .primary) [u] = u := by
  cases h <;> exact ⟨rfl, rfl⟩

/-! ## Operators between units -/

/-- The meaning of separated phrases, one separator and phrase at a time. -/
theorem means_tail (hq : (Pattern.phrase q).isLexeme = false) : Means (.tail k (.phrase q)) ts vs ↔
    (ts = [] ∧ vs = []) ∨ ∃ m c rest ms ws vs', ts = m :: c :: rest ∧ vs = ms ++ (ws ++ vs') ∧
      Means (.token k) [m] ms ∧ Means (.phrase q) [c] ws ∧ Means (.tail k (.phrase q)) rest vs' := by
  constructor
  · intro h
    rcases shape_tail.1 h.fits with ⟨rfl, -⟩ | ⟨m, _, us, _, rest, rfl, hm, hus, hrest⟩
    · have hbuilt := h.built
      cases hbuilt
      exact .inl ⟨rfl, rfl⟩
    · obtain ⟨cs, rfl, -⟩ := (shape_phrase hq).1 hus
      have hfits : Fits (.seq (.token k) (.seq (.phrase q) (.tail k (.phrase q))))
          ([m] ++ ([ParseTree.node (.phrase q) cs] ++ rest)) :=
        Fits.seq (.lexeme rfl hm) (Fits.seq hus hrest)
      obtain ⟨_, _, ms, _, heq, rfl, htoken, htail⟩ := means_seq.1 ⟨hfits, h.clear, h.built⟩
      obtain ⟨_, _, ws, vs', rfl, rfl, hphrase, hmore⟩ := means_seq.1 htail
      obtain ⟨start, text, rfl, -⟩ := means_token.1 htoken
      obtain ⟨us, _, _, rfl, -⟩ := (means_phrase hq).1 hphrase
      cases heq
      exact .inr ⟨_, _, rest, ms, ws, vs', rfl, rfl, htoken, hphrase, hmore⟩
  · rintro (⟨rfl, rfl⟩ | ⟨m, c, rest, ms, ws, vs', rfl, rfl, hm, hc, hrest⟩)
    · exact means_nil .last
    · refine (hm.seq (hc.seq hrest)).imp fun _ => ?_
      obtain ⟨_, heq, hmark⟩ := (shape_lexeme rfl).1 hm.fits
      cases heq
      have hnext : Fits (.tail k (.phrase q)) (m :: [c] ++ rest) := .next hmark hc.fits hrest.fits
      exact hnext

/-- Two units with an operator between them are a unit. -/
theorem isUnit_binary {op : ParseTree} {sign : String} (h : IsUnit v t) (h' : IsUnit w u)
    (hop : Means (.token level.operator) [op] [.text sign]) :
    IsUnit (.node .binaryOp .unknown [.text sign, v, w]) (binary level t op u) := by
  have hlexeme : (Pattern.phrase level.operand).isLexeme = false := by
    cases level <;> rfl
  have hleft := means_tighter h.asOperand level
  have hright := means_tighter h'.asOperand level
  have htail : Means (.tail level.operator (.phrase level.operand))
      [op, raised level.tighterOnes u.asOperand] [.text sign, w] :=
    (means_tail hlexeme).2 (.inr ⟨_, _, [], _, _, [], rfl, rfl, hop, hright, means_nil .last⟩)
  have hchain := Means.phrase (p := .chain level) (hleft.seq htail) rfl rfl
    (b := .one (.node .binaryOp .unknown [.text sign, v, w])) rfl
  exact isUnit_chain (means_looser hchain)

/-! ## Polishing keeps the meaning -/

/-- The polished tree means what the tree means, an operation as a unit. -/
structure Keeps (t : ParseTree) : Prop where
  node : ∀ p vs, p.isOperation = false → Means (.phrase p) [t] vs → Means (.phrase p) [t.polish] vs
  operation : ∀ p v, p.isOperation = true → Means (.phrase p) [t] [v] → IsUnit v t.polish

/-- In the place of a child a polished tree means what the tree means. -/
theorem Keeps.settled (h : Keeps t) (ht : ∀ q, t.symbol = .phrase q → q.isOperation = true → q = .expression)
    (hmeans : Means t.symbol [t] vs) : Means t.symbol [t.polish.settled] vs := by
  cases t with
  | leaf k start text => exact hmeans
  | node label cs =>
    cases label with
    | whole =>
      obtain ⟨start, text, heq, -⟩ := means_token.1 hmeans
      cases heq
    | phrase q =>
      rw [symbol_node] at hmeans ⊢
      cases hq : q.isOperation with
      | false =>
        have hpolish := h.node q vs hq hmeans
        rwa [settled_polish_node hq, ← polish_node hq]
      | true =>
        cases ht q rfl hq
        obtain ⟨v, rfl, -⟩ := hmeans.single rfl
        exact (h.operation .expression v rfl hmeans).settled

/-- Operands with operators of a level between them, joined from the left, are a unit. -/
theorem isUnit_joinedTrees (hkeeps : ∀ t ∈ ts, Keeps t)
    (h : Means (.tail level.operator (.phrase level.operand)) ts vs) (hu : IsUnit v u)
    (hjoin : joinOperands .unknown v vs = .ok w) : IsUnit w (joinedTrees level u (polishAll ts)) := by
  have hlexeme : (Pattern.phrase level.operand).isLexeme = false := by
    cases level <;> rfl
  induction hlength : ts.length using Nat.strongRecOn generalizing ts vs v u with
  | ind n ih =>
    rcases (means_tail hlexeme).1 h with ⟨rfl, rfl⟩ | ⟨m, c, rest, ms, ws, vs', rfl, rfl, hm, hc, hrest⟩
    · cases hjoin
      exact hu
    · have hop : level.operand.isOperation = true := by
        cases level <;> rfl
      have hplain : isPlain level.operand = true := by
        cases level <;> rfl
      obtain ⟨right, rfl, -⟩ := hc.single hplain
      obtain ⟨start, text, heq, -, rfl⟩ := means_token.1 hm
      cases heq
      rw [buildLeaf_operator] at hm hjoin
      have hright := (hkeeps c (by simp)).operation _ right hop hc
      -- what is joined so far is the left operand of what follows
      have hboth := isUnit_binary hu hright hm
      have hless : rest.length < n := by
        simp only [← hlength, List.length_cons]
        omega
      have hrestkeeps : ∀ t ∈ rest, Keeps t := fun t ht => hkeeps t (by simp [ht])
      have hunit := ih rest.length hless hrestkeeps hrest hboth hjoin rfl
      exact hunit

/-! ## Operations -/

section Operations

variable {cs : List ParseTree} {b : Built}

/-- A phrase with an operation for its only child hands it on. -/
theorem handed (hp : p = .expression ∨ p = .primary) (hq : q.isOperation = true) (hkeeps : ∀ t ∈ cs, Keeps t)
    (h : Means (.phrase q) cs vs) (hb : assemble p .unknown vs = .ok b) (hv : [v] = b.values) :
    ∃ us, cs = [.node (.phrase q) us] ∧ IsUnit v (ParseTree.node (.phrase q) us).polish := by
  have hlexeme : (Pattern.phrase q).isLexeme = false := by
    cases q <;> first | rfl | cases hq
  have hplain : isPlain q = true := by
    cases q <;> first | rfl | cases hq
  obtain ⟨us, _, _, rfl, -⟩ := (means_phrase hlexeme).1 h
  obtain ⟨w, rfl, hw⟩ := h.single hplain
  have hunit := (hkeeps _ (List.mem_singleton_self _)).operation q w hq h
  have hisA := hunit.isA
  refine ⟨us, rfl, ?_⟩
  have hone : assemble p .unknown [w] = .ok (.one w) := by
    rcases hp with rfl | rfl <;> simp [assemble, theMember, hisA]
  rw [hone] at hb
  cases hb
  cases hv
  exact hunit

theorem keeps_expression (hkeeps : ∀ t ∈ cs, Keeps t)
    (h : Means (.phrase .expression) [.node (.phrase .expression) cs] [v]) :
    IsUnit v (ParseTree.node (.phrase .expression) cs).polish := by
  obtain ⟨_, vs, b, heq, hbody, -, hb, hv⟩ := (means_phrase rfl).1 h
  cases heq
  rcases means_alt.1 hbody with hq | hq
  · obtain ⟨us, rfl, hunit⟩ := handed (.inl rfl) rfl hkeeps hq hb hv
    exact hunit
  · obtain ⟨us, rfl, hunit⟩ := handed (.inl rfl) rfl hkeeps hq hb hv
    exact hunit

theorem keeps_parenthesized (hkeeps : ∀ t ∈ cs, Keeps t)
    (h : Means (.phrase .parenthesized) [.node (.phrase .parenthesized) cs] [v]) :
    IsUnit v (ParseTree.node (.phrase .parenthesized) cs).polish := by
  obtain ⟨_, vs, b, heq, hbody, -, hb, hv⟩ := (means_phrase rfl).1 h
  cases heq
  obtain ⟨_, _, _, _, rfl, rfl, hopen, hinner⟩ := means_seq.1 hbody
  obtain ⟨_, _, _, _, rfl, rfl, hexpr, hclose⟩ := means_seq.1 hinner
  obtain ⟨start, text, rfl, -, rfl⟩ := means_token.1 hopen
  obtain ⟨start', text', rfl, -, rfl⟩ := means_token.1 hclose
  obtain ⟨us, _, _, rfl, -⟩ := (means_phrase rfl).1 hexpr
  obtain ⟨w, rfl, hw⟩ := hexpr.single rfl
  have hunit := (hkeeps (.node (.phrase .expression) us) (by simp)).operation _ w rfl hexpr
  have hone : assemble .parenthesized .unknown [.text text, w, .text text'] = .ok (.one w) := by
    simp [assemble, theMember, hunit.isA]
  have hsame := hone.symm.trans hb
  cases hsame
  cases hv
  exact hunit

theorem keeps_conditional (hkeeps : ∀ t ∈ cs, Keeps t)
    (h : Means (.phrase .conditionalExpression) [.node (.phrase .conditionalExpression) cs] [v]) :
    IsUnit v (ParseTree.node (.phrase .conditionalExpression) cs).polish := by
  obtain ⟨_, vs, b, heq, hbody, -, hb, hv⟩ := (means_phrase rfl).1 h
  cases heq
  obtain ⟨_, _, _, _, rfl, rfl, hcond, h₁⟩ := means_seq.1 hbody
  obtain ⟨_, _, _, _, rfl, rfl, hquestion, h₂⟩ := means_seq.1 h₁
  obtain ⟨_, _, _, _, rfl, rfl, hyes, h₃⟩ := means_seq.1 h₂
  obtain ⟨_, _, _, _, rfl, rfl, hcolon, hno⟩ := means_seq.1 h₃
  obtain ⟨cs, _, _, rfl, -⟩ := (means_phrase rfl).1 hcond
  obtain ⟨ys, _, _, rfl, -⟩ := (means_phrase rfl).1 hyes
  obtain ⟨ns, _, _, rfl, -⟩ := (means_phrase rfl).1 hno
  obtain ⟨start, text, rfl, -, rfl⟩ := means_token.1 hquestion
  obtain ⟨start', text', rfl, -, rfl⟩ := means_token.1 hcolon
  obtain ⟨c, rfl, -⟩ := hcond.single rfl
  obtain ⟨y, rfl, -⟩ := hyes.single rfl
  obtain ⟨n, rfl, -⟩ := hno.single rfl
  have hc := (hkeeps (.node (.phrase (.chain .logicalOr)) cs) (by simp)).operation _ c rfl hcond
  have hy := (hkeeps (.node (.phrase .expression) ys) (by simp)).operation _ y rfl hyes
  have hn := (hkeeps (.node (.phrase .expression) ns) (by simp)).operation _ n rfl hno
  have hone : assemble .conditionalExpression .unknown [c, .text text, y, .text text', n]
      = .ok (.one (.node .conditionalOp .unknown [c, y, n])) := by
    simp [assemble, hc.isA, hy.isA, hn.isA]
  have hsame := hone.symm.trans hb
  cases hsame
  cases hv
  -- only the condition needs parentheses; the other two are expressions anyway
  have hwhole := (means_raised hc.asOperand).seq (hquestion.seq (hy.settled.seq (hcolon.seq hn.settled)))
  have hmeans := Means.phrase (p := .conditionalExpression) hwhole rfl rfl hone
  have hbody' : Means Phrase.expression.body _ [.node .conditionalOp .unknown [c, y, n]] := means_alt.2 (.inl hmeans)
  exact .whole (hbody'.phrase (b := .one (.node .conditionalOp .unknown [c, y, n])) rfl rfl rfl)

theorem keeps_chain (hkeeps : ∀ t ∈ cs, Keeps t)
    (h : Means (.phrase (.chain level)) [.node (.phrase (.chain level)) cs] [v]) :
    IsUnit v (ParseTree.node (.phrase (.chain level)) cs).polish := by
  have hlexeme : (Pattern.phrase level.operand).isLexeme = false := by
    cases level <;> rfl
  have hplain : isPlain level.operand = true := by
    cases level <;> rfl
  have hop : level.operand.isOperation = true := by
    cases level <;> rfl
  obtain ⟨_, vs, b, heq, hbody, -, hb, hv⟩ := (means_phrase rfl).1 h
  cases heq
  obtain ⟨_, ts, _, ws, rfl, rfl, hfirst, htail⟩ := means_seq.1 hbody
  obtain ⟨us, _, _, rfl, -⟩ := (means_phrase hlexeme).1 hfirst
  obtain ⟨w, rfl, -⟩ := hfirst.single hplain
  have hunit := (hkeeps (.node (.phrase level.operand) us) (by simp)).operation _ w hop hfirst
  obtain ⟨u, hjoin, hone⟩ := bind_eq_ok.1 hb
  cases hone
  cases hv
  exact isUnit_joinedTrees (fun t ht => hkeeps t (List.mem_append_right _ ht)) htail hunit hjoin

theorem keeps_unary (hkeeps : ∀ t ∈ cs, Keeps t)
    (h : Means (.phrase .unary) [.node (.phrase .unary) cs] [v]) :
    IsUnit v (ParseTree.node (.phrase .unary) cs).polish := by
  obtain ⟨_, vs, b, heq, hbody, -, hb, hv⟩ := (means_phrase rfl).1 h
  cases heq
  -- a step, an operator with its operand, or a primary expression
  rcases means_alt.1 hbody with hstep | hbody
  · obtain ⟨us, _, _, rfl, -⟩ := (means_phrase rfl).1 hstep
    have hstep' := (hkeeps _ (List.mem_singleton_self _)).node .stepExpression vs rfl hstep
    rw [ParseTree.polish, polishAll, polishAll]
    rw [polish_node rfl] at hstep' ⊢
    have hbody' : Means Phrase.unary.body _ vs := means_alt.2 (.inl hstep')
    have hunit := hbody'.phrase rfl rfl hb
    rw [← hv] at hunit
    exact .unary hunit
  · rcases means_alt.1 hbody with hsigned | hprimary
    · obtain ⟨_, _, _, _, rfl, rfl, hop, hoperand⟩ := means_seq.1 hsigned
      obtain ⟨start, text, rfl, -, rfl⟩ := means_token.1 hop
      obtain ⟨us, _, _, rfl, -⟩ := (means_phrase rfl).1 hoperand
      obtain ⟨w, rfl, -⟩ := hoperand.single rfl
      have hunit := (hkeeps (.node (.phrase .unary) us) (by simp)).operation _ w rfl hoperand
      have hbody' : Means Phrase.unary.body _ _ := means_alt.2 (.inr (means_alt.2 (.inl (hop.seq hunit.asOperand))))
      have hwhole := hbody'.phrase rfl rfl hb
      rw [← hv] at hwhole
      exact .unary hwhole
    · obtain ⟨us, _, _, rfl, -⟩ := (means_phrase rfl).1 hprimary
      obtain ⟨w, rfl, -⟩ := hprimary.single rfl
      have hunit := (hkeeps _ (List.mem_singleton_self _)).operation .primary w rfl hprimary
      cases hb
      cases hv
      rw [ParseTree.polish, polishAll, polishAll, hunit.reformed.1]
      exact hunit

/-- A primary expression that is no operation in parentheses. -/
theorem keeps_atom (hq : q.isOperation = false) (hlexeme : (Pattern.phrase q).isLexeme = false)
    (hkeeps : ∀ t ∈ cs, Keeps t)
    (halt : ∀ ts, Means (.phrase q) ts vs → Means Phrase.primary.body ts vs)
    (h : Means (.phrase q) cs vs) (hb : assemble .primary .unknown vs = .ok b) (hv : [v] = b.values) :
    IsUnit v (ParseTree.node (.phrase .primary) cs).polish := by
  obtain ⟨us, _, _, rfl, -⟩ := (means_phrase hlexeme).1 h
  have hatom := (hkeeps _ (List.mem_singleton_self _)).node q vs hq h
  have hprimary := (halt _ hatom).phrase (p := .primary) rfl rfl hb
  rw [← hv] at hprimary
  have hunit := isUnit_primary hprimary
  have hsame : reformed (.phrase .primary) [(ParseTree.node (.phrase q) us).polish]
      = .node (.phrase .unary) [.node (.phrase .primary) [(ParseTree.node (.phrase q) us).polish]] := by
    rw [polish_node hq]
    cases q <;> first | rfl | cases hq
  rw [ParseTree.polish, polishAll, polishAll, hsame]
  exact hunit

/-- A primary expression that is a literal. -/
theorem keeps_literal (h : Means (.token k) cs vs)
    (hbody : Means Phrase.primary.body cs vs) (hb : assemble .primary .unknown vs = .ok b) (hv : [v] = b.values) :
    IsUnit v (ParseTree.node (.phrase .primary) cs).polish := by
  have hprimary := hbody.phrase rfl rfl hb
  rw [← hv] at hprimary
  have hunit := isUnit_primary hprimary
  obtain ⟨start, text, rfl, -⟩ := means_token.1 h
  exact hunit

theorem keeps_primary (hkeeps : ∀ t ∈ cs, Keeps t)
    (h : Means (.phrase .primary) [.node (.phrase .primary) cs] [v]) :
    IsUnit v (ParseTree.node (.phrase .primary) cs).polish := by
  obtain ⟨_, vs, b, heq, hbody, -, hb, hv⟩ := (means_phrase rfl).1 h
  cases heq
  have halt := hbody
  simp only [Phrase.body, Pattern.oneOf, means_alt] at halt
  rcases halt with hnumber | hstring | hparen | hconcat | hsystem | hcall | hvariable
  · exact keeps_literal hnumber hbody hb hv
  · exact keeps_literal hstring hbody hb hv
  · -- parentheses are dropped, for what is in them is a unit
    obtain ⟨us, rfl, hunit⟩ := handed (.inr rfl) rfl hkeeps hparen hb hv
    rw [ParseTree.polish, polishAll, polishAll, hunit.reformed.2]
    exact hunit
  · refine keeps_atom rfl rfl hkeeps (fun ts ht => ?_) hconcat hb hv
    simp only [Phrase.body, Pattern.oneOf, means_alt]
    exact .inr (.inr (.inr (.inl ht)))
  · refine keeps_atom rfl rfl hkeeps (fun ts ht => ?_) hsystem hb hv
    simp only [Phrase.body, Pattern.oneOf, means_alt]
    exact .inr (.inr (.inr (.inr (.inl ht))))
  · refine keeps_atom rfl rfl hkeeps (fun ts ht => ?_) hcall hb hv
    simp only [Phrase.body, Pattern.oneOf, means_alt]
    exact .inr (.inr (.inr (.inr (.inr (.inl ht)))))
  · refine keeps_atom rfl rfl hkeeps (fun ts ht => ?_) hvariable hb hv
    simp only [Phrase.body, Pattern.oneOf, means_alt]
    exact .inr (.inr (.inr (.inr (.inr (.inr ht)))))

/-- A phrase that is no operation keeps its meaning if its children do. -/
theorem keeps_node (hp : p.isOperation = false) (hlexeme : (Pattern.phrase p).isLexeme = false)
    (hkeeps : ∀ t ∈ cs, Keeps t) (h : Means (.phrase p) [.node (.phrase p) cs] vs) :
    Means (.phrase p) [(ParseTree.node (.phrase p) cs).polish] vs := by
  obtain ⟨_, ws, b, heq, hbody, hadmits, hb, rfl⟩ := (means_phrase hlexeme).1 h
  cases heq
  have hsettled : ∀ t ∈ cs, ∀ ws, Means t.symbol [t] ws → Means t.symbol [t.polish.settled] ws :=
    fun t ht ws hws => (hkeeps t ht).settled (fun q hq ho =>
      calls_body hp (mem_calls_of_fits hbody.fits t ht q hq) ho) hws
  have hfits : ∀ t ∈ cs, Fits t.symbol [t.polish.settled] := by
    intro t ht
    obtain ⟨ws, hws⟩ := hbody.mem ht
    exact (hsettled t ht ws hws).fits
  rw [polish_node hp]
  exact (hbody.map hsettled).phrase hlexeme (admits_polished hbody.fits hfits hadmits) hb

/-- An operation keeps its meaning if its children do. -/
theorem keeps_operation (hp : p.isOperation = true) (hkeeps : ∀ t ∈ cs, Keeps t)
    (h : Means (.phrase p) [.node (.phrase p) cs] [v]) : IsUnit v (ParseTree.node (.phrase p) cs).polish := by
  cases p with
  | expression => exact keeps_expression hkeeps h
  | conditionalExpression => exact keeps_conditional hkeeps h
  | chain level => exact keeps_chain hkeeps h
  | unary => exact keeps_unary hkeeps h
  | primary => exact keeps_primary hkeeps h
  | parenthesized => exact keeps_parenthesized hkeeps h
  | _ => cases hp

end Operations

/-! ## Trees -/

/-- A lexeme is its own polished tree. -/
theorem keeps_lexeme {s a : Unit} (hx : x.isLexeme = true) (h : LexemeForm x s t a) : Keeps t := by
  have hsymbol := LexemeForm.symbol h
  have hpolish : t.polish = t := by
    obtain ⟨_, _, _, -, rfl, -⟩ | ⟨_, _, _, -, rfl, -⟩ | ⟨_, -, rfl⟩ := h.cases <;> rfl
  refine ⟨fun p vs hp hmeans => ?_, fun p v hp hmeans => ?_⟩
  · rwa [hpolish]
  · have hlexeme : (Pattern.phrase p).isLexeme = false := by
      cases p <;> first | rfl | cases hp
    rw [← symbol_of_fits hmeans.fits, hsymbol, hx] at hlexeme
    cases hlexeme

/-- **The trees that fit a pattern keep their meaning when they are polished.** -/
theorem keeps_of_fits {s a : Unit} (h : Shape LexemeForm x s ts a) : ∀ t ∈ ts, Keeps t := by
  refine h.forall_mem keeps_lexeme fun p cs _ _ hp _ ih => ?_
  refine ⟨fun q vs hq hmeans => ?_, fun q v hq hmeans => ?_⟩
  · cases symbol_of_fits hmeans.fits
    exact keeps_node hq hp ih hmeans
  · cases symbol_of_fits hmeans.fits
    exact keeps_operation hq ih hmeans

/-- **A polished tree means what the tree means.** -/
theorem means_polish (hp : p.isOperation = false) (h : Means (.phrase p) [t] vs) : Means (.phrase p) [t.polish] vs :=
  (keeps_of_fits h.fits t (List.mem_singleton_self t)).node p vs hp h

end VerilogLoops.Ast
