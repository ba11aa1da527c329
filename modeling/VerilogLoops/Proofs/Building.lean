import VerilogLoops.Proofs.Making.Names
import VerilogLoops.Proofs.Making.Expressions
import VerilogLoops.Proofs.Making.Loops
import VerilogLoops.Proofs.Making.Operations
import VerilogLoops.Parse

/-!
# Building never fails

> *If a text matches, what it matches is built.*
-/

namespace VerilogLoops.Ast

open VerilogLoops.Lexical VerilogLoops.Grammar

/-- Every phrase but the operations assembles. -/
theorem assembles : ∀ p : Phrase, p.isOperation = false → Assembles p
  -- one lemma for each phrase; near-identical ones share theirs
  | .comment, _ => assembles_comment
  | .loopUnit, _ => assembles_loopUnit
  | .assignSign, _ => assembles_assignSign
  | .identifier, _ => assembles_identifier
  | .variableName, _ | .indexName, _ => assembles_rename (by simp)
  | .hierarchicalName, _ => assembles_hierarchicalName
  | .packageScope, _ => assembles_packageScope
  | .classHandle, _ => assembles_classHandle
  | .qualifier, _ => assembles_qualifier
  | .arrayName, _ | .routineName, _ => assembles_scopedName (by simp)
  | .loop, _ => assembles_loop
  | .foreverLoop, _ => assembles_foreverLoop
  | .repeatLoop, _ => assembles_headed (Or.inl ⟨rfl, rfl⟩)
  | .whileLoop, _ => assembles_headed (Or.inr ⟨rfl, rfl⟩)
  | .forLoop, _ => assembles_forLoop
  | .doWhileLoop, _ => assembles_doWhileLoop
  | .foreachLoop, _ => assembles_foreachLoop
  | .forInit, _ => assembles_forInit
  | .forInitAssignments, _ => assembles_forInitAssignments
  | .forInitDeclarations, _ => assembles_forInitDeclarations
  | .forDeclaration, _ => assembles_forDeclaration
  | .forBinding, _ => assembles_forBinding
  | .forStep, _ => assembles_forStep
  | .forStepItem, _ => assembles_forStepItem
  | .loopVariables, _ => assembles_loopVariables
  | .statementOrNull, _ => assembles_statementOrNull
  | .nullStatement, _ => assembles_nullStatement
  | .statement, _ => assembles_statement
  | .statementLabel, _ => assembles_statementLabel
  | .statementItem, _ => assembles_statementItem
  | .block, _ => assembles_block
  | .conditional, _ => assembles_conditional
  | .jump, _ => assembles_jump
  | .assignmentStatement, _ => assembles_closed (Or.inl ⟨rfl, rfl⟩)
  | .stepStatement, _ => assembles_closed (Or.inr (Or.inl ⟨rfl, rfl⟩))
  | .callStatement, _ => assembles_closed (Or.inr (Or.inr ⟨rfl, rfl⟩))
  | .attribute, _ => assembles_attribute
  | .attributeEntry, _ => assembles_attributeEntry
  | .dataType, _ => assembles_dataType
  | .integerVectorType, _ => assembles_integerVectorType
  | .integerAtomType, _ => assembles_integerAtomType
  | .nonIntegerType, _ | .simpleType, _ => assembles_builtinType (by simp)
  | .namedType, _ => assembles_namedType
  | .packedDimension, _ => assembles_packedDimension
  | .variableAssignments, _ => assembles_variableAssignments
  | .variableAssignment, _ => assembles_variableAssignment
  | .operatorAssignment, _ => assembles_operatorAssignment
  | .stepExpression, _ => assembles_stepExpression
  | .lvalue, _ => assembles_lvalue
  | .lvalueConcatenation, _ => assembles_concatenation (Or.inr ⟨rfl, rfl⟩)
  | .variableReference, _ => assembles_variableReference
  | .select, _ => assembles_select
  | .call, _ => assembles_call
  | .systemCall, _ => assembles_systemCall
  | .routineCall, _ | .appliedCall, _ => assembles_routineCall (by simp)
  | .arguments, _ => assembles_arguments
  | .argument, _ => assembles_argument
  | .namedArgument, _ => assembles_namedArgument
  | .concatenation, _ => assembles_concatenation (Or.inl ⟨rfl, rfl⟩)

/-! ## From the form of a tree to its values -/

variable {locate : Nat → Position}

/-- In the place of a child, a polished tree is a match of what the tree is a match of. -/
theorem IsPolished.symbol_settled {t : ParseTree} (h : IsPolished locate t)
    (ht : ∀ q, t.symbol = .phrase q → q.isOperation = true → q = .expression) :
    t.polish.settled.symbol = t.symbol := by
  cases t with
  | leaf t start text => rfl
  | node label children =>
    cases label with
    | whole => rfl
    | phrase p =>
      cases hp : p.isOperation with
      | false =>
        rw [polish_node hp]
        cases p <;> first | rfl | cases hp
      | true =>
        cases ht p rfl hp
        obtain ⟨v, -, hs⟩ := h.suits .expression rfl rfl
        exact Ast.symbol_settled hs

/-- A node of a phrase that is no operation is polished if its children are. -/
theorem isPolished_node {p : Phrase} {children : List ParseTree} (hp : p.isOperation = false)
    (hforms : Forms Makes p.body (children.map (pieceOf locate)))
    (hcalls : ∀ t ∈ children, ∀ q, t.symbol = .phrase q → q ∈ p.body.calls)
    (hchildren : ∀ t ∈ children, IsPolished locate t) :
    IsPolished locate (.node (.phrase p) children) := by
  obtain ⟨b, hb, hmakes⟩ :=
    assembles p hp (locate (ParseTree.node (.phrase p) children).start) _ hforms
  have hbuild : buildTree locate (.node (.phrase p) children) = .ok b := by
    rw [buildTree_phrase (buildAll_of_isMade fun t ht => (hchildren t ht).isMade)]
    exact hb
  refine ⟨⟨⟨b, hbuild⟩, fun q hq => ?_⟩, fun q hq ho => ?_⟩
  · cases hq
    have hu : p ≠ .unary := by
      rintro rfl
      cases hp
    have hlines : inks (children.map fun t => t.polish.settled) =
        linesOf (children.map (pieceOf locate)) := by
      rw [inks_eq_map, linesOf, List.map_map, List.map_map]
      refine List.map_congr_left fun t ht => ?_
      have hsymbol := (hchildren t ht).symbol_settled fun q hq =>
        calls_body hp (hcalls t ht q hq)
      simp [pieceOf, hsymbol]
    rw [valuesFrom, hbuild, polish_node hp, ink_node hu, hlines]
    exact hmakes
  · cases hq
    rw [hp] at ho
    cases ho

/-- A leaf is polished. -/
theorem isPolished_leaf (t : Token) (start : Nat) (text : String) :
    IsPolished locate (.leaf t start text) :=
  ⟨⟨⟨_, rfl⟩, fun _ hq => by cases hq⟩, fun _ hq => by cases hq⟩

/-- A lexeme is polished. -/
theorem isPolished_lexeme {x : Pattern} {t : ParseTree} (h : LexemeForm x () t ()) :
    IsPolished locate t := by
  obtain ⟨_, _, _, -, rfl, -⟩ | ⟨t, start, text, -, rfl, hw, ht⟩ | ⟨start, -, rfl⟩ := h.cases
  · exact isPolished_leaf _ _ _
  · refine isPolished_node rfl ?_ (by simp) (by simpa using isPolished_leaf t start text)
    refine ⟨[], _, rfl, rfl, ?_⟩
    rcases ht with ⟨rfl, -⟩ | rfl
    · exact Or.inl ⟨text, locate start, rfl, hw.hasForm⟩
    · exact Or.inr ⟨text, locate start, rfl, hw.hasForm⟩
  · refine isPolished_node rfl ?_ (by simp) (by simpa using isPolished_leaf _ start _)
    exact ⟨_, [], rfl, rfl, rfl⟩

/-- An operation is polished if its children are. -/
theorem isPolished_operation {p : Phrase} (hp : p.isOperation = true) {children : List ParseTree}
    (hf : Fits p.body children) (h : ∀ t ∈ children, IsPolished locate t) :
    IsPolished locate (.node (.phrase p) children) := by
  cases p with
  | expression => exact isPolished_expression hf h
  | conditionalExpression => exact isPolished_conditional hf h
  | chain level => exact isPolished_chain hf h
  | unary => exact isPolished_unary hf h
  | primary => exact isPolished_primary hf h
  | parenthesized => exact isPolished_parenthesized hf h
  | _ => cases hp

/-- Trees that fit a pattern are polished. -/
theorem isPolished_of_fits {x : Pattern} {s a : Unit} {ts : List ParseTree}
    (h : Shape LexemeForm x s ts a) : ∀ t ∈ ts, IsPolished locate t := by
  refine h.forall_mem (fun _ h => isPolished_lexeme h) fun p ts _ _ _ hbody ih => ?_
  cases hp : p.isOperation with
  | true => exact isPolished_operation hp hbody ih
  | false =>
    exact isPolished_node hp (forms_of_fits hbody fun t ht => (ih t ht).isMade) (mem_calls_of_fits hbody) ih

variable (locate) in
/-- Trees that fit a pattern are built. -/
theorem exists_buildAll {x : Pattern} {ts : List ParseTree} (h : Fits x ts) :
    ∃ vs, buildAll locate ts = .ok vs :=
  ⟨_, buildAll_of_isMade fun t ht => (isPolished_of_fits h t ht).isMade⟩

/-- A tree that fits a plain phrase is built as one node of its family, which is rendered as the ink of the polished
tree. -/
theorem built_of_fits {p : Phrase} {t : ParseTree} {b : Built} (h : Fits (.phrase p) [t]) (hp : isPlain p = true)
    (hb : buildTree locate t = .ok b) :
    ∃ v, b.values = [v] ∧ v.isA (familyOf p) = true ∧ v.render = .ok t.polish.ink := by
  have hpolished : IsPolished locate t := isPolished_of_fits h t (List.mem_singleton_self t)
  obtain ⟨v, hv, hfamily, hrender⟩ := (hpolished.isMade.2 p (symbol_of_fits h)).plain hp
  rw [valuesFrom, hb] at hv
  exact ⟨v, hv, hfamily, hrender⟩

/-! ## Tidying changes nothing -/

theorem buildAll_append_leaf {ts : List ParseTree} {vs : List Value} (start : Nat) (text : String)
    (h : buildAll locate ts = .ok vs) :
    buildAll locate (ts ++ [ParseTree.leaf .comma start text]) = .ok (vs ++ [Value.text text]) :=
  buildAll_append.2 ⟨vs, [.text text], h, rfl, rfl⟩

/-- A declaration is the same with a further comma behind it. -/
theorem assemble_forDeclaration {pos : Position} {vs : List Value} {b : Built}
    (h : assemble .forDeclaration pos vs = .ok b) (text : String) :
    vs ≠ [] ∧ assemble .forDeclaration pos (vs ++ [Value.text text]) = .ok b := by
  cases vs with
  | nil => cases h
  | cons v vs =>
    refine ⟨List.cons_ne_nil _ _, ?_⟩
    rw [← h]
    simp [assemble, theMember, childAt]

/-- The offset of the first of some trees. -/
def headStart (ts : List ParseTree) : Nat := (ParseTree.node .whole ts).start

theorem start_node (label : Label) (children : List ParseTree) :
    (ParseTree.node label children).start = headStart children := by
  cases children <;> rfl

/-- A node whose children are tidied makes the same if it makes anything. -/
theorem buildTree_tidied {label : Label} {children : List ParseTree} {b : Built}
    (h : buildTree locate (.node label (label.tidied children)) = .ok b) :
    buildTree locate (.node label children) = .ok b ∧
      headStart (label.tidied children) = headStart children := by
  by_cases hl : label = .phrase .forDeclaration
  · subst hl
    simp only [Label.tidied] at h ⊢
    rcases withoutLastComma_cases children with hsame | ⟨start, text, hsplit⟩
    · rw [hsame] at h ⊢
      exact ⟨h, rfl⟩
    · simp only [buildTree, bind_eq_ok] at h ⊢
      obtain ⟨vs, hvs, hb⟩ := h
      obtain ⟨hne, hb'⟩ := assemble_forDeclaration hb text
      have hstart : headStart (withoutLastComma children) = headStart children := by
        cases hc : withoutLastComma children with
        | nil =>
          rw [hc] at hvs
          cases hvs
          exact absurd rfl hne
        | cons t rest => rw [hsplit, hc]; rfl
      rw [start_node, hstart] at hb'
      refine ⟨⟨vs ++ [Value.text text], ?_, by rw [start_node]; exact hb'⟩, hstart⟩
      rw [hsplit]
      exact buildAll_append_leaf start text hvs
  · have hid : label.tidied children = children := by
      cases label with
      | phrase p => exact tidied_of_ne (fun hp => hl (by rw [hp])) children
      | whole => rfl
    rw [hid] at h ⊢
    exact ⟨h, rfl⟩

mutual

/-- If the tidy tree is built, the tree itself makes the same. -/
theorem buildTree_of_tidy : ∀ (t : ParseTree) {b : Built}, buildTree locate t.tidy = .ok b →
    buildTree locate t = .ok b ∧ t.tidy.start = t.start
  | .leaf t start text, b, h => ⟨h, rfl⟩
  | .node label children, b, h => by
    rw [ParseTree.tidy] at h ⊢
    obtain ⟨hb, hstart⟩ := buildTree_tidied h
    rw [buildTree, bind_eq_ok] at hb
    obtain ⟨vs, hvs, hb⟩ := hb
    obtain ⟨hvs', hstart'⟩ := buildAll_of_tidy children hvs
    rw [start_node, hstart'] at hb
    rw [start_node, start_node, hstart, hstart']
    refine ⟨?_, rfl⟩
    rw [buildTree, hvs', ok_bind, start_node]
    exact hb

/-- If the tidy trees are built, the trees themselves make the same. -/
theorem buildAll_of_tidy : ∀ (ts : List ParseTree) {vs : List Value},
    buildAll locate (tidyAll ts) = .ok vs →
      buildAll locate ts = .ok vs ∧ headStart (tidyAll ts) = headStart ts
  | [], vs, h => ⟨h, rfl⟩
  | t :: rest, vs, h => by
    obtain ⟨b, us, hb, hus, rfl⟩ := buildAll_cons.1 h
    obtain ⟨hb', hstart⟩ := buildTree_of_tidy t hb
    exact ⟨buildAll_cons.2 ⟨b, us, hb', (buildAll_of_tidy rest hus).1, rfl⟩, hstart⟩

end

/-! ## What matches is built -/

variable (locate) in
/-- What is taken of a phrase is built, and the tidy tree makes the same. -/
theorem exists_buildTree {p : Phrase} (hp : p.danglers = []) {s a : Place} {t : ParseTree}
    (h : Takes (.phrase p) s [t] a) :
    ∃ b, buildTree locate t = .ok b ∧ buildTree locate t.tidy = .ok b := by
  obtain ⟨vs, hvs⟩ := exists_buildAll locate (h.reads_phrase hp).fits
  obtain ⟨b, us, hb, -⟩ := buildAll_cons.1 hvs
  exact ⟨b, (buildTree_of_tidy t hb).1, hb⟩

theorem mem_membersOf_of_theMember {q : Phrase} {f : Family} {vs : List Value} {v : Value}
    (h : theMember q f vs = .ok v) : v ∈ membersOf f vs := by
  unfold theMember at h
  split at h
  · next hv =>
    cases h
    rw [hv]
    exact List.mem_cons_self
  · split at h <;> cases h

theorem theMember_isA {q : Phrase} {f : Family} {vs : List Value} {v : Value}
    (h : theMember q f vs = .ok v) : v.isA f = true :=
  (List.mem_filter.1 (mem_membersOf_of_theMember h)).2

theorem theMember_mem {q : Phrase} {f : Family} {vs : List Value} {v : Value}
    (h : theMember q f vs = .ok v) : v ∈ vs :=
  (List.mem_filter.1 (mem_membersOf_of_theMember h)).1

/-- A loop statement is built as a node of a loop. -/
theorem exists_buildTree_loop {p : Phrase} (hp : p = .loop ∨ p = .loopUnit) {s a : Place}
    {t : ParseTree} (h : Takes (.phrase p) s [t] a) :
    ∃ v, buildTree locate t = .ok (.one v) ∧ v.isA .loop = true := by
  obtain ⟨b, hb, -⟩ := exists_buildTree locate (by rcases hp with rfl | rfl <;> rfl) h
  obtain ⟨us, heq, -⟩ := takes_phrase.1 h
  cases heq
  rw [buildTree, bind_eq_ok] at hb
  obtain ⟨vs, hvs, hb'⟩ := hb
  have hone : ∃ v, theMember p .loop vs = .ok v ∧ b = .one v := by
    rcases hp with rfl | rfl <;>
    · simp only [assemble, bind_eq_ok, pure_eq_ok, Except.ok.injEq] at hb'
      obtain ⟨v, hv, rfl⟩ := hb'
      exact ⟨v, hv, rfl⟩
  obtain ⟨v, hv, rfl⟩ := hone
  refine ⟨v, ?_, theMember_isA hv⟩
  rw [buildTree, hvs, ok_bind]
  exact hb'

end VerilogLoops.Ast
