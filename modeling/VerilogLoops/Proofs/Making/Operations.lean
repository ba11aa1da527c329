import VerilogLoops.Proofs.Making

/-!
# What operations make

An operation is rendered with other parentheses than it has in the source, namely with those of its
polished tree. `Suits v u` relates the value of an operation to its polished tree: the value is
rendered as the ink of the tree, and it is put in parentheses as an operand exactly if the tree is.
-/

namespace VerilogLoops.Ast

open VerilogLoops.Lexical VerilogLoops.Grammar

attribute [local simp] Phrase.gap Phrase.spaced Phrase.leads Phrase.spacedAfter Value.render
  writeFields Kind.layout renderParts Part.render Part.render.fieldAt Thunk.get String.append_assoc

/-- The value is a binary or a conditional operation. -/
def Value.isCompound (v : Value) : Bool := v.isA (.only .binaryOp) || v.isA (.only .conditionalOp)

/-- The value begins or may begin with an operator. -/
def Value.isStacked (v : Value) : Bool :=
  v.isA (.only .unaryOp) || v.isA (.only .incOrDecExpression)

/-- The tree is a unary expression or a whole expression, as the value is simple or compound. -/
inductive SameForm (v : Value) : ParseTree → Prop
  | unit {children} (hv : v.isCompound = false)
    (hs : v.isStacked = (ParseTree.node (.phrase .unary) children).isStacked) :
    SameForm v (.node (.phrase .unary) children)
  | whole {children} (hv : v.isCompound = true) (hs : v.isStacked = false) :
    SameForm v (.node (.phrase .expression) children)

/-- The polished tree of an operation suits its value. -/
structure Suits (v : Value) (u : ParseTree) : Prop where
  isA : v.isA .expression = true
  renders : v.render = .ok u.ink
  form : SameForm v u

/-! ## Operands -/

theorem Suits.operandText {v : Value} {u : ParseTree} (h : Suits v u)
    (items : Thunk (Except RenderError (List Written))) :
    Part.render.operandText ⟨⟨v, .mk fun _ => v.render⟩, items⟩ = .ok u.asOperand.ink := by
  have hr := h.renders
  unfold Part.render.operandText
  cases h.form with
  | unit hv hs =>
    simp only [Value.isCompound] at hv
    simp [hv, hr, ParseTree.asOperand]
  | whole hv hs =>
    simp only [Value.isCompound] at hv
    simp [hv, hr, ink_asOperand_expression]

theorem Suits.isStacked {v : Value} {u : ParseTree} (h : Suits v u) :
    v.isStacked = u.asOperand.isStacked := by
  cases h.form with
  | unit hv hs => exact hs
  | whole hv hs => exact hs

theorem Suits.symbol_raised {v : Value} {u : ParseTree} (h : Suits v u) (level : Level) :
    (raised level.tighterOnes u.asOperand).symbol = .phrase level.operand := by
  have hu : u.asOperand.symbol = .phrase .unary := by
    cases h.form <;> rfl
  cases level with
  | power => exact hu
  | _ => rfl

theorem symbol_settled {v : Value} {u : ParseTree} (h : Suits v u) :
    u.settled.symbol = .phrase .expression := by
  cases h.form <;> rfl

/-! ## Operations -/

/-- A value that is no operation suits a unary expression that holds a primary one. -/
theorem suits_primary {v : Value} {t : ParseTree} {f : Family} (hv : v.isA f = true)
    (he : f.within .expression = true)
    (hf : f.apart (.only .binaryOp) = true ∧ f.apart (.only .conditionalOp) = true ∧
      f.apart (.only .unaryOp) = true ∧ f.apart (.only .incOrDecExpression) = true)
    (hr : v.render = .ok t.ink) :
    Suits v (.node (.phrase .unary) [.node (.phrase .primary) [t]]) := by
  refine ⟨isA_eq_true hv he, ?_, .unit ?_ ?_⟩
  · rw [ink_singleton, ink_singleton]
    exact hr
  · simp [Value.isCompound, isA_eq_false hv hf.1, isA_eq_false hv hf.2.1]
  · simp [Value.isStacked, isA_eq_false hv hf.2.2.1, isA_eq_false hv hf.2.2.2,
      ParseTree.isStacked]

/-- An increment or decrement suits a unary expression that holds it. -/
theorem suits_step {v : Value} {children : List ParseTree}
    (hv : v.isA (.only .incOrDecExpression) = true)
    (hr : v.render = .ok (ParseTree.node (.phrase .stepExpression) children).ink) :
    Suits v (.node (.phrase .unary) [.node (.phrase .stepExpression) children]) := by
  refine ⟨isA_eq_true hv (by decide), ?_, .unit ?_ ?_⟩
  · rw [ink_singleton]
    exact hr
  · have hb : v.isA (.only .binaryOp) = false := isA_eq_false hv rfl
    have hc : v.isA (.only .conditionalOp) = false := isA_eq_false hv rfl
    simp [Value.isCompound, hb, hc]
  · simp [Value.isStacked, hv, ParseTree.isStacked]

/-- An operator and its operand. -/
theorem suits_unary {v : Value} {u : ParseTree} (h : Suits v u) (t : Token) (start : Nat)
    (op : String) (pos : Position) :
    Suits (.node .unaryOp pos [.text op, v])
      (.node (.phrase .unary) [.leaf t start op, u.asOperand]) := by
  refine ⟨rfl, ?_, .unit rfl rfl⟩
  have hs := h.isStacked
  simp only [Value.isStacked] at hs
  rw [ParseTree.ink]
  simp only [Value.render, writeFields, Kind.layout, renderParts, Part.render,
    Part.render.fieldAt, List.getD_cons_zero, List.getD_cons_succ, h.operandText, hs, Thunk.get,
    startsClashing, ink_leaf, ok_bind]
  simp only [pure_eq_ok, ok_bind, String.append_empty]
  rfl

/-- Two operands with an operator between them. -/
theorem suits_binary {v v' : Value} {u u' : ParseTree} (h : Suits v u) (h' : Suits v' u')
    (level : Level) (start : Nat) (op : String) (pos : Position) :
    Suits (.node .binaryOp pos [.text op, v, v'])
      (binary level u (.leaf level.operator start op) u') := by
  refine ⟨rfl, ?_, .whole rfl rfl⟩
  rw [binary, ink_expressionOf, ink_raised, ink_node (by simp)]
  simp [inks, h.symbol_raised level, h'.symbol_raised level, h.operandText, h'.operandText,
    -Phrase.spacedAfter]

/-- A condition and two expressions. -/
theorem suits_conditional {c a b : Value} {uc ua ub : ParseTree} (hc : Suits c uc)
    (ha : Suits a ua) (hb : Suits b ub) (start stop : Nat) (pos : Position) :
    Suits (.node .conditionalOp pos [c, a, b])
      (expressionOf (.node (.phrase .conditionalExpression)
        [raised Level.all uc.asOperand, .leaf .question start "?", ua.settled,
          .leaf .colon stop ":", ub.settled])) := by
  refine ⟨rfl, ?_, .whole rfl rfl⟩
  rw [ink_expressionOf, ink_node (by simp)]
  simp [inks, hc.operandText, ha.renders, hb.renders, symbol_settled ha, symbol_settled hb]
  exact String.toList_injective (by simp)

/-! ## From the children of an operation to the operation -/

/-- The tree is made as promised, an operation as a value that suits its polished tree. -/
structure IsPolished (locate : Nat → Position) (t : ParseTree) : Prop where
  isMade : IsMade Makes locate t
  suits : ∀ q, t.symbol = .phrase q → q.isOperation = true →
    ∃ v, buildTree locate t = .ok (.one v) ∧ Suits v t.polish

section Steps

variable {locate : Nat → Position} {children : List ParseTree}

/-- An operation is polished if its value suits its polished tree. -/
theorem isPolished_of_suits {q : Phrase} (hq : q.isOperation = true) {vs : List Value}
    (hall : buildAll locate children = .ok vs)
    (h : ∀ pos, ∃ v, assemble q pos vs = .ok (.one v) ∧
      Suits v (ParseTree.node (.phrase q) children).polish) :
    IsPolished locate (.node (.phrase q) children) := by
  obtain ⟨v, hv, hs⟩ := h (locate (ParseTree.node (.phrase q) children).start)
  have hb := (buildTree_phrase hall).trans hv
  refine ⟨⟨⟨_, hb⟩, fun p hp => ?_⟩, fun _ _ _ => ⟨v, hb, hs⟩⟩
  cases hp
  rw [valuesFrom, hb]
  have : ∃ u, [v] = [u] ∧ u.isA .expression = true ∧ ∃ s, u.render = .ok s ∧
      s = (ParseTree.node (.phrase q) children).polish.ink :=
    ⟨v, rfl, hs.isA, _, hs.renders, rfl⟩
  cases q <;> first | exact this | cases hq

/-- A phrase that hands the value of its only child on. -/
theorem isPolished_pass {q : Phrase} {t : ParseTree} {v : Value}
    (hq : q = .expression ∨ q = .unary ∨ q = .primary) (hv : v.isA .expression = true)
    (hb : buildTree locate t = .ok (.one v))
    (hs : Suits v (ParseTree.node (.phrase q) [t]).polish) :
    IsPolished locate (.node (.phrase q) [t]) := by
  have hall : buildAll locate [t] = .ok [v] := buildAll_cons.2 ⟨_, [], hb, rfl, rfl⟩
  refine isPolished_of_suits (by rcases hq with rfl | rfl | rfl <;> rfl) hall
    fun pos => ⟨v, ?_, hs⟩
  rcases hq with rfl | rfl | rfl <;> simp [assemble, theMember, hv]

theorem isPolished_expression (hf : Fits Phrase.expression.body children)
    (h : ∀ t ∈ children, IsPolished locate t) :
    IsPolished locate (.node (.phrase .expression) children) := by
  simp only [Phrase.body, Pattern.oneOf, shape_alt, shape_phrase (p := .conditionalExpression) rfl,
    shape_phrase (p := .chain .logicalOr) rfl] at hf
  rcases hf with ⟨cs, rfl, -⟩ | ⟨cs, rfl, -⟩ <;>
  · obtain ⟨v, hb, hs⟩ := (h _ List.mem_cons_self).suits _ rfl rfl
    exact isPolished_pass (Or.inl rfl) hs.isA hb hs

theorem isPolished_parenthesized (hf : Fits Phrase.parenthesized.body children)
    (h : ∀ t ∈ children, IsPolished locate t) :
    IsPolished locate (.node (.phrase .parenthesized) children) := by
  simp only [Phrase.body, Pattern.row, shape_seq, shape_token,
    shape_phrase (p := .expression) rfl] at hf
  obtain ⟨_, _, _, rfl, ⟨l, rfl, ⟨start, text, rfl, -⟩⟩, _, _, _, rfl, ⟨cs, rfl, -⟩,
    ⟨r, rfl, ⟨start', text', rfl, -⟩⟩⟩ := hf
  obtain ⟨v, hb, hs⟩ := (h (.node (.phrase .expression) cs) (by simp)).suits _ rfl rfl
  have hall : buildAll locate [.leaf .openParen start text, .node (.phrase .expression) cs,
      .leaf .closeParen start' text'] = .ok [.text text, v, .text text'] :=
    buildAll_cons.2 ⟨_, _, rfl, buildAll_cons.2 ⟨_, _, hb, rfl, rfl⟩, rfl⟩
  have hv := hs.isA
  exact isPolished_of_suits rfl hall fun _ => ⟨v, by simp [assemble, theMember, hv], hs⟩

theorem isPolished_conditional (hf : Fits Phrase.conditionalExpression.body children)
    (h : ∀ t ∈ children, IsPolished locate t) :
    IsPolished locate (.node (.phrase .conditionalExpression) children) := by
  simp only [Phrase.body, Pattern.row, shape_seq, shape_token,
    shape_phrase (p := .expression) rfl, shape_phrase (p := .chain .logicalOr) rfl] at hf
  obtain ⟨_, _, _, rfl, ⟨ccs, rfl, -⟩, _, _, _, rfl, ⟨q, rfl, ⟨start, text, rfl, ht⟩⟩, _, _, _,
    rfl, ⟨acs, rfl, -⟩, _, _, _, rfl, ⟨r, rfl, ⟨start', text', rfl, ht'⟩⟩, ⟨bcs, rfl, -⟩⟩ := hf
  simp only [List.cons_append, List.nil_append] at h ⊢
  obtain ⟨c, hbc, hc⟩ := (h (.node (.phrase (.chain .logicalOr)) ccs) (by simp)).suits _ rfl rfl
  obtain ⟨a, hba, ha⟩ := (h (.node (.phrase .expression) acs) (by simp)).suits _ rfl rfl
  obtain ⟨b, hbb, hb⟩ := (h (.node (.phrase .expression) bcs) (by simp)).suits _ rfl rfl
  have htext : text = "?" := ht.hasForm
  have htext' : text' = ":" := ht'.hasForm
  subst htext htext'
  have hall : buildAll locate [.node (.phrase (.chain .logicalOr)) ccs,
      .leaf .question start "?", .node (.phrase .expression) acs, .leaf .colon start' ":",
        .node (.phrase .expression) bcs] = .ok [c, .text "?", a, .text ":", b] :=
    buildAll_cons.2 ⟨_, _, hbc, buildAll_cons.2 ⟨_, _, rfl, buildAll_cons.2 ⟨_, _, hba,
      buildAll_cons.2 ⟨_, _, rfl, buildAll_cons.2 ⟨_, _, hbb, rfl, rfl⟩, rfl⟩, rfl⟩, rfl⟩, rfl⟩
  have hvc := hc.isA
  have hva := ha.isA
  have hvb := hb.isA
  exact isPolished_of_suits rfl hall fun pos => ⟨.node .conditionalOp pos [c, a, b],
    by simp [assemble, hvc, hva, hvb], suits_conditional hc ha hb start start' pos⟩

theorem buildLeaf_operator (level : Level) (pos : Position) (text : String) :
    buildLeaf level.operator pos text = .one (.text text) := by
  cases level <;> rfl

/-- Operands with operators between them are joined as their trees are. -/
theorem joinOperands_suits {level : Level} {s a : Unit} {ts : List ParseTree}
    (hf : Shape LexemeForm (.tail level.operator (.phrase level.operand)) s ts a)
    (h : ∀ t ∈ ts, IsPolished locate t) :
    ∃ vs, buildAll locate ts = .ok vs ∧ ∀ pos left u, Suits left u →
      ∃ v, joinOperands pos left vs = .ok v ∧ Suits v (joinedTrees level u (polishAll ts)) := by
  -- induction on the operands from the left, for any operation joined so far
  generalize hx : Pattern.tail level.operator (.phrase level.operand) = x at hf
  induction hf with
  | last => exact ⟨[], rfl, fun pos left u hu => ⟨left, rfl, hu⟩⟩
  | @next t x s mark m us n ws a hmark hitem _ _ ih =>
    cases hx
    have hop : level.operand.isOperation = true := by cases level <;> rfl
    obtain ⟨start, text, rfl, -⟩ := hmark
    obtain ⟨cs, rfl, -⟩ := (shape_phrase (by cases level <;> rfl)).1 hitem
    obtain ⟨vs, hvs, hjoin⟩ := ih (fun t ht => h t (by simp [ht])) rfl
    obtain ⟨v, hb, hs⟩ := (h (.node (.phrase level.operand) cs) (by simp)).suits _ rfl hop
    refine ⟨.text text :: v :: vs, ?_, fun pos left u hu => ?_⟩
    · exact buildAll_cons.2 ⟨_, _, rfl, buildAll_cons.2 ⟨_, _, hb, hvs, rfl⟩, by
        rw [buildLeaf_operator]
        rfl⟩
    · exact hjoin pos _ _ (suits_binary hu hs level start text pos)
  | lexeme hl => rw [← hx] at hl; cases hl
  | _ => cases hx

theorem isPolished_chain {level : Level} (hf : Fits (Phrase.chain level).body children)
    (h : ∀ t ∈ children, IsPolished locate t) :
    IsPolished locate (.node (.phrase (.chain level)) children) := by
  simp only [Phrase.body, Pattern.separated, shape_seq] at hf
  obtain ⟨_, _, ts, rfl, hfirst, htail⟩ := hf
  obtain ⟨cs, rfl, -⟩ := (shape_phrase (by cases level <;> rfl)).1 hfirst
  obtain ⟨v, hb, hs⟩ := (h (.node (.phrase level.operand) cs) (by simp)).suits _ rfl
    (by cases level <;> rfl)
  obtain ⟨vs, hvs, hjoin⟩ := joinOperands_suits htail fun t ht => h t (by simp [ht])
  refine isPolished_of_suits rfl (buildAll_cons.2 ⟨_, _, hb, hvs, rfl⟩) fun pos => ?_
  obtain ⟨u, hu, hsuits⟩ := hjoin pos v _ hs
  exact ⟨u, by simp [assemble, hu, Built.values], hsuits⟩

/-- A node of a phrase with a single value. -/
theorem IsMade.single {p : Phrase} {cs : List ParseTree} (hp : isPlain p = true)
    (h : IsMade Makes locate (.node (.phrase p) cs)) :
    ∃ b v, buildTree locate (.node (.phrase p) cs) = .ok b ∧ b.values = [v] ∧
      v.isA (familyOf p) = true ∧ v.render = .ok (ParseTree.node (.phrase p) cs).polish.ink := by
  obtain ⟨⟨b, hb⟩, hm⟩ := h
  obtain ⟨v, hv, hisA, hr⟩ := (hm p rfl).plain hp
  rw [valuesFrom, hb] at hv
  exact ⟨b, v, hb, hv, hisA, hr⟩

/-- A polished operation is handed on as it is. -/
theorem Suits.reformed {v : Value} {u : ParseTree} (h : Suits v u) :
    reformed (.phrase .unary) [u] = u ∧ reformed (.phrase .primary) [u] = u := by
  cases h.form <;> exact ⟨rfl, rfl⟩

theorem isPolished_unary (hf : Fits Phrase.unary.body children)
    (h : ∀ t ∈ children, IsPolished locate t) :
    IsPolished locate (.node (.phrase .unary) children) := by
  simp only [Phrase.body, Pattern.row, Pattern.oneOf, shape_alt, shape_seq, shape_token,
    shape_phrase (p := .stepExpression) rfl, shape_phrase (p := .primary) rfl] at hf
  rcases hf with ⟨cs, rfl, -⟩ | ⟨_, _, _, rfl, ⟨_, rfl, ⟨start, op, rfl, -⟩⟩, hu⟩ | ⟨cs, rfl, -⟩
  · obtain ⟨b, v, hb, hv, hisA, hr⟩ :=
      IsMade.single rfl (h (.node (.phrase .stepExpression) cs) (by simp)).isMade
    rw [polish_node rfl] at hr
    have hall : buildAll locate [.node (.phrase .stepExpression) cs] = .ok [v] :=
      buildAll_cons.2 ⟨b, [], hb, rfl, by simp [hv]⟩
    refine isPolished_of_suits rfl hall fun pos => ⟨v, by simp [assemble], ?_⟩
    rw [ParseTree.polish, polishAll, polishAll, polish_node rfl]
    exact suits_step hisA hr
  · obtain ⟨cs, rfl, -⟩ := (shape_phrase rfl).1 hu
    obtain ⟨v, hb, hs⟩ := (h (.node (.phrase .unary) cs) (by simp)).suits _ rfl rfl
    have hall : buildAll locate [.leaf .unaryOperator start op, .node (.phrase .unary) cs] =
        .ok [.text op, v] :=
      buildAll_cons.2 ⟨_, _, rfl, buildAll_cons.2 ⟨_, _, hb, rfl, rfl⟩, rfl⟩
    exact isPolished_of_suits rfl hall fun pos => ⟨.node .unaryOp pos [.text op, v], by simp [assemble, childAt],
        suits_unary hs _ start op pos⟩
  · obtain ⟨v, hb, hs⟩ := (h _ List.mem_cons_self).suits _ rfl rfl
    refine isPolished_pass (by simp) hs.isA hb ?_
    rw [ParseTree.polish, polishAll, polishAll, hs.reformed.1]
    exact hs

/-- A primary expression that is no operation in parentheses. -/
theorem isPolished_atom {q : Phrase} {cs : List ParseTree}
    (hq : q = .concatenation ∨ q = .systemCall ∨ q = .appliedCall ∨ q = .variableReference)
    (h : IsPolished locate (.node (.phrase q) cs)) :
    IsPolished locate (.node (.phrase .primary) [.node (.phrase q) cs]) := by
  obtain ⟨b, v, hb, hv, hisA, hr⟩ :=
    h.isMade.single (by rcases hq with rfl | rfl | rfl | rfl <;> rfl)
  have he : v.isA .expression = true := by
    rcases hq with rfl | rfl | rfl | rfl <;> exact isA_eq_true hisA (by decide)
  have hall : buildAll locate [.node (.phrase q) cs] = .ok [v] :=
    buildAll_cons.2 ⟨b, [], hb, rfl, by simp [hv]⟩
  refine isPolished_of_suits rfl hall fun pos => ⟨v, by simp [assemble, theMember, he], ?_⟩
  rcases hq with rfl | rfl | rfl | rfl <;>
  · rw [polish_node rfl] at hr
    rw [ParseTree.polish, polishAll, polishAll, polish_node rfl]
    exact suits_primary hisA (by decide) (by decide) hr

theorem isPolished_primary (hf : Fits Phrase.primary.body children)
    (h : ∀ t ∈ children, IsPolished locate t) :
    IsPolished locate (.node (.phrase .primary) children) := by
  simp only [Phrase.body, Pattern.oneOf, shape_alt, shape_token,
    shape_phrase (p := .parenthesized) rfl, shape_phrase (p := .concatenation) rfl,
    shape_phrase (p := .systemCall) rfl, shape_phrase (p := .appliedCall) rfl,
    shape_phrase (p := .variableReference) rfl] at hf
  rcases hf with ⟨_, rfl, start, text, rfl, -⟩ | ⟨_, rfl, start, text, rfl, ht⟩ | ⟨cs, rfl, -⟩ |
    ⟨cs, rfl, -⟩ | ⟨cs, rfl, -⟩ | ⟨cs, rfl, -⟩ | ⟨cs, rfl, -⟩
  · have hr : (Value.node .numberLiteral (locate start) [.text text]).render =
        .ok (ParseTree.leaf .number start text).ink := by simp
    exact isPolished_pass (by simp) rfl rfl
      (suits_primary (f := .only .numberLiteral) rfl (by decide) (by decide) hr)
  · obtain ⟨inner, rfl⟩ := ht.hasForm
    have hinner : String.ofList (("\"" ++ inner ++ "\"").toList.drop 1).dropLast = inner := by
      simp
    have hr : (Value.node .stringLiteral (locate start) [.text inner]).render =
        .ok (ParseTree.leaf .string start ("\"" ++ inner ++ "\"")).ink := by simp
    refine isPolished_pass (v := .node .stringLiteral (locate start) [.text inner]) (by simp) rfl ?_
      (suits_primary (f := .only .stringLiteral) rfl (by decide) (by decide) hr)
    rw [buildTree, buildLeaf, hinner]
  · obtain ⟨v, hb, hs⟩ := (h _ List.mem_cons_self).suits _ rfl rfl
    refine isPolished_pass (by simp) hs.isA hb ?_
    -- polishing drops the parentheses and sets its own where they are needed
    rw [ParseTree.polish, polishAll, polishAll, hs.reformed.2]
    exact hs
  · exact isPolished_atom (by simp) (h _ List.mem_cons_self)
  · exact isPolished_atom (by simp) (h _ List.mem_cons_self)
  · exact isPolished_atom (by simp) (h _ List.mem_cons_self)
  · exact isPolished_atom (by simp) (h _ List.mem_cons_self)

end Steps

end VerilogLoops.Ast
