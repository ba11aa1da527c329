import VerilogLoops.Proofs.Form
import VerilogLoops.Proofs.Ink

/-!
# Polished trees: the parse trees of canonical text

The parentheses of the source do not survive: the syntax tree has none, and the canonical text has
those that the operations need. So the canonical text belongs to another parse tree than the source
does. *Polishing* a tree makes this other tree. It takes parentheses away, keeps every operation as
a unit, and puts parentheses around a unit that becomes an operand.

Polishing goes from the leaves up. A polished operation is one of two things: a unary expression,
which stands anywhere as it is, or a whole expression, which is in need of parentheses as an
operand.
-/

namespace VerilogLoops.Grammar

open VerilogLoops.Lexical

/-- The phrases in which parentheses come and go. -/
def Phrase.isOperation : Phrase → Bool
  | .expression | .conditionalExpression | .chain _ | .unary | .primary | .parenthesized => true
  | _ => false

/-! ## Levels -/

/-- The levels in front of a level, the loosest first. -/
def Level.looser (level : Level) : List Level := Level.all.takeWhile (· ≠ level)

/-- The levels behind a level, the tightest last. -/
def Level.tighterOnes (level : Level) : List Level := (Level.all.dropWhile (· ≠ level)).tail

/-- A tree as the only operand of some levels. -/
def raised (levels : List Level) (t : ParseTree) : ParseTree :=
  levels.foldr (fun level u => .node (.phrase (.chain level)) [u]) t

/-! ## Polishing -/

/-- An expression with this child. -/
def expressionOf (t : ParseTree) : ParseTree := .node (.phrase .expression) [t]

/-- A tree in the place of an expression. -/
def ParseTree.settled : ParseTree → ParseTree
  | .node (.phrase .unary) children =>
    expressionOf (raised Level.all (.node (.phrase .unary) children))
  | t => t

/-- A tree in the place of an operand. -/
def ParseTree.asOperand : ParseTree → ParseTree
  | .node (.phrase .expression) children =>
    .node (.phrase .unary) [.node (.phrase .primary) [.node (.phrase .parenthesized)
      [.leaf .openParen 0 "(", .node (.phrase .expression) children, .leaf .closeParen 0 ")"]]]
  | t => t

/-- Two operands with an operator of a level between them. -/
def binary (level : Level) (left op right : ParseTree) : ParseTree :=
  expressionOf (raised level.looser (.node (.phrase (.chain level))
    [raised level.tighterOnes left.asOperand, op, raised level.tighterOnes right.asOperand]))

/-- Operands with operators of a level between them, from the left. -/
def joinedTrees (level : Level) (left : ParseTree) : List ParseTree → ParseTree
  | op :: right :: rest => joinedTrees level (binary level left op right) rest
  | _ => left

/-- A node whose children are polished. -/
def reformed : Label → List ParseTree → ParseTree
  | .phrase .expression, [t] => t
  | .phrase .conditionalExpression, [condition, question, yes, colon, no] =>
    expressionOf (.node (.phrase .conditionalExpression)
      [raised Level.all condition.asOperand, question, yes.settled, colon, no.settled])
  | .phrase (.chain level), first :: rest => joinedTrees level first rest
  | .phrase .unary, [op, operand] => .node (.phrase .unary) [op, operand.asOperand]
  | .phrase .unary, [.node (.phrase .stepExpression) children] =>
    .node (.phrase .unary) [.node (.phrase .stepExpression) children]
  | .phrase .unary, [t] => t
  | .phrase .primary, [.node (.phrase .unary) children] => .node (.phrase .unary) children
  | .phrase .primary, [.node (.phrase .expression) children] =>
    .node (.phrase .expression) children
  | .phrase .primary, [t] => .node (.phrase .unary) [.node (.phrase .primary) [t]]
  | .phrase .parenthesized, [_, t, _] => t
  | label, children => .node label (children.map ParseTree.settled)

mutual

/-- The tree with the parentheses of canonical text. -/
def ParseTree.polish : ParseTree → ParseTree
  | .leaf t start text => .leaf t start text
  | .node label children => reformed label (polishAll children)

/-- The trees with the parentheses of canonical text. -/
def polishAll : List ParseTree → List ParseTree
  | [] => []
  | t :: rest => t.polish :: polishAll rest

end

theorem polishAll_eq_map (ts : List ParseTree) : polishAll ts = ts.map ParseTree.polish := by
  induction ts with
  | nil => rfl
  | cons t rest ih => rw [polishAll, ih, List.map_cons]

/-- A phrase that is no operation stays what it is. -/
theorem polish_node {p : Phrase} (hp : p.isOperation = false) (children : List ParseTree) :
    (ParseTree.node (.phrase p) children).polish =
      .node (.phrase p) (children.map fun t => t.polish.settled) := by
  have : reformed (.phrase p) (polishAll children) =
      .node (.phrase p) ((polishAll children).map ParseTree.settled) := by
    cases p <;> first | rfl | cases hp
  rw [ParseTree.polish, this, polishAll_eq_map, List.map_map]
  rfl

/-! ## The ink of polished trees -/

theorem ink_singleton {p : Phrase} (t : ParseTree) :
    (ParseTree.node (.phrase p) [t]).ink = t.ink := by
  by_cases hp : p = .unary
  · subst hp
    rfl
  · rw [ink_node hp]
    rfl

@[simp] theorem ink_raised (levels : List Level) (t : ParseTree) :
    (raised levels t).ink = t.ink := by
  induction levels with
  | nil => rfl
  | cons level levels ih => exact (ink_singleton _).trans ih

@[simp] theorem ink_expressionOf (t : ParseTree) : (expressionOf t).ink = t.ink :=
  ink_singleton t

@[simp] theorem ink_settled (t : ParseTree) : t.settled.ink = t.ink := by
  unfold ParseTree.settled
  split
  · simp
  · rfl

/-- An expression as an operand stands in parentheses. -/
theorem ink_asOperand_expression (children : List ParseTree) :
    (ParseTree.node (.phrase .expression) children).asOperand.ink =
      "(" ++ (ParseTree.node (.phrase .expression) children).ink ++ ")" := by
  rw [ParseTree.asOperand, ink_singleton, ink_singleton, ink_node (by decide)]
  simp [inks, ParseTree.symbol, ParseTree.ink, Phrase.gap, Phrase.spaced, Phrase.leads,
    Phrase.spacedAfter, String.append_assoc]

/-! ## What a node may have for children -/

/-- The phrases that a pattern calls. -/
def Pattern.calls : Pattern → List Phrase
  | .token _ => []
  | .phrase p => [p]
  | .seq x y | .alt x y => x.calls ++ y.calls
  | .opt x | .many x | .tail _ x | .absent x => x.calls

/-- A phrase that is no operation calls no operations but expressions. -/
theorem calls_body {p q : Phrase} (hp : p.isOperation = false) (hq : q ∈ p.body.calls)
    (ho : q.isOperation = true) : q = .expression := by
  have key : ∀ p : Phrase, p.isOperation = false →
      ∀ q ∈ p.body.calls, q.isOperation = true → q = .expression := by decide +kernel
  exact key p hp q hq ho

/-- A lexeme is a match of what it stands for. -/
theorem LexemeForm.symbol {x : Pattern} {s a : Unit} {t : ParseTree} (h : LexemeForm x s t a) :
    t.symbol = x := by
  obtain ⟨_, _, _, rfl, rfl, -⟩ | ⟨_, _, _, rfl, rfl, -⟩ | ⟨_, rfl, rfl⟩ := h.cases <;> rfl

/-- A tree that fits a phrase is a match of it. -/
theorem symbol_of_fits {p : Phrase} {t : ParseTree} (h : Fits (.phrase p) [t]) :
    t.symbol = .phrase p := by
  cases h with
  | lexeme hx hform => exact LexemeForm.symbol hform
  | phrase hp hbody => rfl

/-- The trees that fit a pattern are leaves or nodes of the phrases that it calls. -/
theorem mem_calls_of_fits {x : Pattern} {s a : Unit} {ts : List ParseTree}
    (h : Shape LexemeForm x s ts a) :
    ∀ t ∈ ts, ∀ q, t.symbol = .phrase q → q ∈ x.calls := by
  induction h with
  | @lexeme x _ t _ hx h =>
    intro u hu q hq
    rw [List.mem_singleton.1 hu, h.symbol] at hq
    simp [hq, Pattern.calls]
  | phrase =>
    intro u hu q hq
    rw [List.mem_singleton.1 hu] at hq
    cases hq
    simp [Pattern.calls]
  | seq _ _ ihx ihy =>
    intro u hu q hq
    rcases List.mem_append.1 hu with hu | hu
    · exact List.mem_append_left _ (ihx u hu q hq)
    · exact List.mem_append_right _ (ihy u hu q hq)
  | first _ ih =>
    intro u hu q hq
    exact List.mem_append_left _ (ih u hu q hq)
  | second _ ih =>
    intro u hu q hq
    exact List.mem_append_right _ (ih u hu q hq)
  | given _ ih => exact ih
  | omitted | stop | last => simp
  | step _ _ ihx ihr =>
    intro u hu q hq
    exact (List.mem_append.1 hu).elim (fun hu => ihx u hu q hq) fun hu => ihr u hu q hq
  | next hm _ _ ihx ihr =>
    intro u hu q hq
    simp only [List.cons_append, List.mem_cons, List.mem_append] at hu
    rcases hu with rfl | hu | hu
    · rw [hm.symbol] at hq
      cases hq
    · exact ihx u hu q hq
    · exact ihr u hu q hq

end VerilogLoops.Grammar
