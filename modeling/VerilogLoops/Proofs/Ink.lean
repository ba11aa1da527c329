import VerilogLoops.Ast.Layout
import VerilogLoops.Proofs.Form

/-!
# The ink of a parse tree

A parse tree has no trivia, so it can be written on one line with blanks of our own choosing. The
*ink* of a tree is its leaves in order, with a blank between two children of a phrase where the
canonical style has one. Where that is depends on the phrase and on what the two children are
(`Phrase.spaced`), except that a unary operator stands apart from its operand only if the two would
run together.
-/

namespace VerilogLoops.Grammar

open VerilogLoops.Lexical

/-- What a tree is a match of. -/
def ParseTree.symbol : ParseTree → Pattern
  | .leaf t _ _ => .token t
  | .node (.phrase p) _ => .phrase p
  | .node .whole _ => .token .endOfInput

@[simp] theorem symbol_leaf (t : Token) (start : Nat) (text : String) :
    (ParseTree.leaf t start text).symbol = .token t := rfl

@[simp] theorem symbol_node (p : Phrase) (children : List ParseTree) :
    (ParseTree.node (.phrase p) children).symbol = .phrase p := rfl

/-- The children of a phrase in front of which a blank stands. -/
def Phrase.leads : Phrase → List Pattern
  | .foreverLoop => [.phrase .statementOrNull]
  | .repeatLoop | .whileLoop => [.token .openParen, .phrase .statementOrNull]
  | .forLoop =>
    [.token .openParen, .phrase .expression, .phrase .forStep, .phrase .statementOrNull]
  | .doWhileLoop => [.phrase .statementOrNull, .token .keywordWhile, .token .openParen]
  | .foreachLoop => [.token .openParen, .phrase .statement]
  | .forDeclaration => [.phrase .forBinding]
  | .forBinding | .variableAssignment | .attributeEntry =>
    [.phrase .assignSign, .phrase .expression]
  | .operatorAssignment => [.token .assignmentOperator, .phrase .expression]
  | .block =>
    [.token .colon, .phrase .identifier, .phrase .statementOrNull, .token .keywordEnd]
  | .conditional => [.token .openParen, .phrase .statementOrNull, .token .keywordElse]
  | .jump => [.phrase .expression]
  | .attribute => [.token .closeAttribute]
  | .integerVectorType => [.token .signing, .phrase .packedDimension]
  | .integerAtomType => [.token .signing]
  | .namedType => [.phrase .packedDimension]
  | .conditionalExpression => [.token .question, .phrase .expression, .token .colon]
  | .chain level => [.token level.operator, .phrase level.operand]
  | _ => []

/-- The children of a phrase behind which a blank stands if anything follows. -/
def Phrase.spacedAfter : Phrase → List Pattern
  | .statement => [.phrase .statementLabel, .phrase .attribute]
  | .nullStatement => [.phrase .attribute]
  | .forDeclaration => [.token .keywordVar, .token .comma]
  | .attribute => [.token .openAttribute, .token .comma]
  | .forInitDeclarations | .forStep | .loopVariables | .variableAssignments
  | .lvalueConcatenation | .arguments | .concatenation => [.token .comma]
  | _ => []

/-- A blank stands between two neighbours among the children of a phrase. -/
def Phrase.spaced (p : Phrase) (before after : Pattern) : Bool :=
  p.spacedAfter.contains before || p.leads.contains after

/-- The blank between two neighbours, if there is one. -/
def Phrase.gap (p : Phrase) (before after : Pattern) : String :=
  if p.spaced before after then " " else ""

/-- The texts of the children of a phrase with the blanks between them. -/
def joined (p : Phrase) : List (Pattern × String) → String
  | [] => ""
  | [x] => x.2
  | x :: y :: rest => x.2 ++ p.gap x.1 y.1 ++ joined p (y :: rest)

/-- The tree is an operator with its operand, or an increment or decrement. -/
def ParseTree.isStacked : ParseTree → Bool
  | .node (.phrase .unary) [_, _] => true
  | .node (.phrase .unary) [.node (.phrase .stepExpression) _] => true
  | _ => false

/-- A text that would run together with an operator in front of it. -/
def startsClashing (text : String) : Bool :=
  match text.toList with
  | [] => true
  | c :: _ => Ast.clashing.contains c

mutual

/-- The leaves of a tree in canonical style. -/
def ParseTree.ink : ParseTree → String
  | .leaf _ _ text => text
  | .node (.phrase .unary) [op, operand] =>
    op.ink ++ (if operand.isStacked && startsClashing operand.ink then " " else "") ++ operand.ink
  | .node (.phrase p) children => joined p (inks children)
  | .node .whole children => joined .comment (inks children)

/-- Some trees with what they match and their leaves in canonical style. -/
def inks : List ParseTree → List (Pattern × String)
  | [] => []
  | t :: rest => (t.symbol, t.ink) :: inks rest

end

@[simp] theorem ink_leaf (t : Token) (start : Nat) (text : String) :
    (ParseTree.leaf t start text).ink = text := by
  rw [ParseTree.ink]

theorem inks_eq_map (ts : List ParseTree) : inks ts = ts.map fun t => (t.symbol, t.ink) := by
  induction ts with
  | nil => rfl
  | cons t rest ih => rw [inks, ih, List.map_cons]

/-- The ink of a phrase, apart from unary operators. -/
theorem ink_node {p : Phrase} (hp : p ≠ .unary) (children : List ParseTree) :
    (ParseTree.node (.phrase p) children).ink = joined p (inks children) := by
  unfold ParseTree.ink
  split <;> simp_all

/-! ## Joining -/

section Joining

variable {p : Phrase} {x : Pattern × String} {xs ys : List (Pattern × String)}

@[simp] theorem joined_nil : joined p [] = "" := rfl

@[simp] theorem joined_singleton : joined p [x] = x.2 := rfl

@[simp] theorem joined_cons_cons {y : Pattern × String} :
    joined p (x :: y :: ys) = x.2 ++ p.gap x.1 y.1 ++ joined p (y :: ys) := rfl

theorem joined_cons_of_head {y : Pattern × String} (h : xs.head? = some y) :
    joined p (x :: xs) = x.2 ++ p.gap x.1 y.1 ++ joined p xs := by
  cases xs with
  | nil => cases h
  | cons z xs =>
    cases h
    rfl

theorem joined_append_of_last {y z : Pattern × String} (h : xs.getLast? = some z) :
    joined p (xs ++ y :: ys) = joined p xs ++ p.gap z.1 y.1 ++ joined p (y :: ys) := by
  induction xs with
  | nil => cases h
  | cons x xs ih =>
    cases xs with
    | nil =>
      cases h
      rfl
    | cons u xs =>
      rw [List.getLast?_cons_cons] at h
      rw [List.cons_append, List.cons_append, joined_cons_cons, ← List.cons_append, ih h]
      simp [String.append_assoc]

/-- Children without blanks between them. -/
theorem joined_of_tight (h : ∀ a b, p.spaced a b = false) :
    joined p xs = String.join (xs.map (·.2)) := by
  induction xs with
  | nil => rfl
  | cons x xs ih =>
    cases xs with
    | nil => simp [String.join]
    | cons y ys => simp [ih, Phrase.gap, h]

/-- Children each of which has a blank in front of it. -/
theorem joined_of_leads (h : ∀ y ∈ xs, p.leads.contains y.1 = true) :
    joined p (x :: xs) = x.2 ++ String.join (xs.map fun y => " " ++ y.2) := by
  induction xs generalizing x with
  | nil => simp
  | cons y ys ih =>
    have hy : p.spaced x.1 y.1 = true := by
      rw [Phrase.spaced, h y List.mem_cons_self, Bool.or_true]
    rw [joined_cons_cons, ih fun z hz => h z (List.mem_cons_of_mem y hz)]
    simp [Phrase.gap, hy, String.append_assoc]

/-- Children each of which has a blank behind it, and then something. -/
theorem joined_of_spacedAfter (h : ∀ y ∈ xs, p.spacedAfter.contains y.1 = true) :
    joined p (xs ++ x :: ys) = String.join (xs.map fun y => y.2 ++ " ") ++ joined p (x :: ys) := by
  induction xs with
  | nil => simp
  | cons y rest ih =>
    have hy : ∀ z, p.spaced y.1 z = true := by
      intro z
      rw [Phrase.spaced, h y List.mem_cons_self, Bool.true_or]
    have ih := ih fun z hz => h z (List.mem_cons_of_mem y hz)
    cases rest with
    | nil => simp [Phrase.gap, hy]
    | cons z rest =>
      rw [List.cons_append, List.cons_append, joined_cons_cons, ← List.cons_append, ih]
      simp [Phrase.gap, hy, String.append_assoc]

end Joining

end VerilogLoops.Grammar
