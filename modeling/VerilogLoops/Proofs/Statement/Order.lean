import Mathlib.Data.List.Chain
import VerilogLoops.Proofs.Statement.Return

/-!
# Where statements end

A statement may end in another statement, and what stands behind it may belong to either. A
conditional without `else` takes an `else` behind it; a simple statement that detaches from `do` or
`begin` becomes part of a loop or of a block if the rest of the loop or of the block stands behind
it. The *tails* of a statement are the statements that end where it ends.

A tree is *ordered* if none of its parts takes up what stands behind it in the tree.
-/

namespace VerilogLoops.Grammar

open VerilogLoops.Text VerilogLoops.Lexical

/-! ## Tails -/

/-- The phrases of statements whose last child ends where they end and may be part of a longer
statement. -/
def Phrase.isTrailing : Phrase → Bool
  | .statementOrNull | .statement | .statementItem | .loop | .foreverLoop | .repeatLoop
  | .whileLoop | .forLoop | .foreachLoop | .conditional => true
  | _ => false

/-- The second tree begins with a dollar sign, directly behind the first. -/
def Adjoins (t u : ParseTree) : Prop :=
  u.start = t.stop ∧ u.firstText.toList.head? = some '$'

/-- The second tree ends where the first one does, or behind it stands what is read as further
statements. The latter is told by a flag: behind the body of a do-while loop stands a while loop
without a body, and behind the first branch of a conditional stands a statement if its `else` is the
beginning of an identifier. -/
inductive Tail (further : Bool) : ParseTree → ParseTree → Prop
  | here {t} : Tail further t t
  | last {p ts t u} (hp : p.isTrailing = true) (h : Tail further t u) :
    Tail further (.node (.phrase p) (ts ++ [t])) u
  | body {d t rest u} (hf : further = true) (h : Tail further t u) :
    Tail further (.node (.phrase .doWhileLoop) (d :: t :: rest)) u
  | branch {i o e c t k other u} (hf : further = true) (ha : Adjoins k other)
    (h : Tail further t u) :
    Tail further (.node (.phrase .conditional) [i, o, e, c, t, k, other]) u

/-- The statement ends in a conditional without `else`. -/
def IsOpen (t : ParseTree) : Prop :=
  ∃ ts, Tail false t (.node (.phrase .conditional) ts) ∧ ts.length = 5

/-- The statement ends in one that detaches from the keyword. -/
def Exposes (further : Bool) (word : String) (t : ParseTree) : Prop :=
  ∃ ts, Tail further t (.node (.phrase .statementItem) ts) ∧ Detaches word (leavesOf ts)

/-- The statement ends in a block without a name at its end. -/
def EndsInBlock (t : ParseTree) : Prop :=
  ∃ ts start text, Tail false t (.node (.phrase .block) (ts ++ [ParseTree.leaf .keywordEnd start text]))

/-- Where a tree adjoins what was read in front of it, a dollar sign comes next. -/
theorem glued_of_adjoins {x : Pattern} {m a : Place} {t u : ParseTree} {us : List ParseTree}
    (h : Adjoins t u) (ht : t.stop = m.offset) (hu : Reads x m (u :: us) a) : Glued m := by
  obtain ⟨hstart, ⟨rest, hrest⟩, -⟩ := Reads.head hu u rfl
  rw [h.1, ht] at hstart
  have htrivia : triviaLength m.rest = 0 := by omega
  rw [htrivia, List.drop_zero] at hrest
  have hdollar := h.2
  cases htext : u.firstText.toList with
  | nil =>
    rw [htext] at hdollar
    cases hdollar
  | cons c cs =>
    rw [htext] at hdollar hrest
    cases hdollar
    exact ⟨cs ++ rest, hrest⟩

/-- What is read where a dollar sign comes next adjoins what was read in front of it. -/
theorem Glued.adjoins {m a : Place} {t u : ParseTree} (hg : Glued m) (ht : t.stop = m.offset)
    {x : Pattern} {us : List ParseTree} (hu : Reads x m (u :: us) a) : Adjoins t u := by
  obtain ⟨hstart, ⟨rest, hrest⟩, hempty⟩ := Reads.head hu u rfl
  have hend : ¬Stands .endOfInput m := hg.not_stands rfl rfl
  obtain ⟨more, hmore⟩ := hg
  rw [hmore, triviaLength_dollar] at hstart hrest
  refine ⟨by rw [hstart, ht]; rfl, ?_⟩
  cases htext : u.firstText.toList with
  | nil => exact absurd (hempty (String.toList_eq_nil_iff.1 htext)) hend
  | cons c cs =>
    rw [htext] at hrest
    cases hrest
    rfl

/-! ## Ordered trees -/

/-- A simple statement in the place of any statement. -/
def asStatement (t : ParseTree) : ParseTree :=
  .node (.phrase .statementOrNull) [.node (.phrase .statement) [.node (.phrase .statementItem) [t]]]

/-- A while loop whose body is a semicolon. -/
def bareWhile (w o e c l : ParseTree) : ParseTree :=
  asStatement (.node (.phrase .loop) [.node (.phrase .whileLoop)
    [w, o, e, c, .node (.phrase .statementOrNull) [.node (.phrase .nullStatement) [l]]]])

/-- The first of two neighbours in a block does not take up the second. -/
structure Precedes (t u : ParseTree) : Prop where
  branch : IsOpen t → ¬Detaches "else" u.leaves
  body : Exposes false "do" t → ∀ w o e c l, u ≠ bareWhile w o e c l
  close : EndsInBlock t → ¬Adjoins t u

/-- No child of the node takes up what stands behind it or becomes part of a longer statement. -/
def Label.Orders : Label → List ParseTree → Prop
  | .phrase .statementItem, ts => ¬Detaches "forever" (leavesOf ts) ∧
      (Detaches "return" (leavesOf ts) → ∃ us, ts = [.node (.phrase .assignmentStatement) us])
  | .phrase .conditional, ts => ∀ i o e c t k u, ts = [i, o, e, c, t, k, u] → ¬IsOpen t
  | .phrase .doWhileLoop, ts => ∀ d t rest, ts = d :: t :: rest → ¬Exposes false "do" t
  | .phrase .block, ts => (∀ t ∈ ts, ¬Exposes true "begin" t) ∧ ts.IsChain Precedes
  | _, _ => True

/-- The tree is ordered. -/
inductive Ordered : ParseTree → Prop
  | leaf {t start text} : Ordered (.leaf t start text)
  | node {label ts} (h : label.Orders ts) (hs : ∀ t ∈ ts, Ordered t) : Ordered (.node label ts)

theorem Ordered.orders {label : Label} {ts : List ParseTree} (h : Ordered (.node label ts)) :
    label.Orders ts := by
  cases h with
  | node h _ => exact h

theorem Ordered.child {label : Label} {ts : List ParseTree} (h : Ordered (.node label ts))
    {t : ParseTree} (ht : t ∈ ts) : Ordered t := by
  cases h with
  | node _ hs => exact hs t ht

/-- Whatever children a node of this name has, none of them takes up what stands behind it. -/
def Label.isTame : Label → Bool
  | .phrase .statementItem | .phrase .conditional | .phrase .doWhileLoop | .phrase .block => false
  | _ => true

mutual

/-- There is no statement in the tree that could take up what stands behind it. -/
def ParseTree.isTame : ParseTree → Bool
  | .leaf .. => true
  | .node label children => label.isTame && allTame children

/-- There is no such statement in the trees. -/
def allTame : List ParseTree → Bool
  | [] => true
  | t :: rest => t.isTame && allTame rest

end

@[simp] theorem allTame_append (ts us : List ParseTree) :
    allTame (ts ++ us) = (allTame ts && allTame us) := by
  induction ts with
  | nil => rfl
  | cons t ts ih => rw [List.cons_append, allTame, ih, allTame, Bool.and_assoc]

mutual

theorem ordered_of_isTame : ∀ t : ParseTree, t.isTame = true → Ordered t
  | .leaf .., _ => .leaf
  | .node label children, h => by
    rw [ParseTree.isTame, Bool.and_eq_true] at h
    refine .node ?_ (ordered_of_allTame children h.2)
    unfold Label.isTame at h
    unfold Label.Orders
    split <;> simp_all

theorem ordered_of_allTame : ∀ ts : List ParseTree, allTame ts = true → ∀ t ∈ ts, Ordered t
  | [], _ => by simp
  | t :: rest, h => by
    rw [allTame, Bool.and_eq_true] at h
    intro u hu
    rcases List.mem_cons.1 hu with heq | hu
    · rw [heq]
      exact ordered_of_isTame t h.1
    · exact ordered_of_allTame rest h.2 u hu

end

/-! ## What stands behind a statement -/

/-- The rest of a do-while loop behind its body. -/
def loopEnd : Pattern :=
  .row (.token .keywordWhile)
    [.token .openParen, .phrase .expression, .token .closeParen, .token .semicolon]

/-- The second branch of a conditional. -/
def elseBranch : Pattern := .row (.token .keywordElse) [.phrase .statementOrNull]

/-- The rest of a block. -/
def blockEnd : Pattern := .row (.many (.phrase .statementOrNull)) [.token .keywordEnd]

/-- What stands behind the statement is no part of it. -/
structure Closed (t : ParseTree) (a : Place) : Prop where
  branch : IsOpen t → Refuses elseBranch a
  body : Exposes false "do" t → Refuses loopEnd a
  block : Exposes true "begin" t → Refuses blockEnd a
  name : EndsInBlock t → ¬Stands .colon a ∧ ¬Glued a

/-- The last part of a statement is closed if the statement is. -/
theorem Closed.last {p : Phrase} (ts : List ParseTree) {t : ParseTree} {a : Place}
    (h : Closed (.node (.phrase p) (ts ++ [t])) a) (hp : p.isTrailing = true) : Closed t a where
  branch := fun ⟨us, hu, hlen⟩ => h.branch ⟨us, .last hp hu, hlen⟩
  body := fun ⟨us, hu, hd⟩ => h.body ⟨us, .last hp hu, hd⟩
  block := fun ⟨us, hu, hd⟩ => h.block ⟨us, .last hp hu, hd⟩
  name := fun ⟨us, start, text, hu⟩ => h.name ⟨us, start, text, .last hp hu⟩

/-- A tree whose only tail is itself. -/
theorem tail_of_not_trailing {further : Bool} {p : Phrase} {ts : List ParseTree} {u : ParseTree}
    (hp : p.isTrailing = false) (hd : p ≠ .doWhileLoop)
    (h : Tail further (.node (.phrase p) ts) u) : u = .node (.phrase p) ts := by
  generalize ht : ParseTree.node (.phrase p) ts = t at h
  cases h with
  | here => rfl
  | last hq =>
    cases ht
    rw [hp] at hq
    cases hq
  | body =>
    cases ht
    exact absurd rfl hd
  | branch =>
    cases ht
    cases hp

/-- The tails of a node are the tails of its last child and the node itself, unless it is a do-while
loop or a conditional. -/
theorem tail_append {further : Bool} {p : Phrase} {ts : List ParseTree} {t u : ParseTree}
    (hd : p ≠ .doWhileLoop) (hc : p ≠ .conditional)
    (h : Tail further (.node (.phrase p) (ts ++ [t])) u) :
    u = .node (.phrase p) (ts ++ [t]) ∨ (p.isTrailing = true ∧ Tail further t u) := by
  generalize hx : ParseTree.node (.phrase p) (ts ++ [t]) = x at h
  cases h with
  | here => exact Or.inl rfl
  | @last q us t' u hq h =>
    simp only [ParseTree.node.injEq, Label.phrase.injEq] at hx
    obtain ⟨rfl, hx⟩ := hx
    cases List.append_inj_right' hx rfl
    exact Or.inr ⟨hq, h⟩
  | body =>
    simp only [ParseTree.node.injEq, Label.phrase.injEq] at hx
    exact absurd hx.1 hd
  | branch =>
    simp only [ParseTree.node.injEq, Label.phrase.injEq] at hx
    exact absurd hx.1 hc

/-- The tails of a node with a single child. -/
theorem tail_single {further : Bool} {p : Phrase} {t u : ParseTree}
    (h : Tail further (.node (.phrase p) [t]) u) :
    u = .node (.phrase p) [t] ∨ (p.isTrailing = true ∧ Tail further t u) := by
  generalize hx : ParseTree.node (.phrase p) [t] = x at h
  cases h with
  | here => exact Or.inl rfl
  | @last q us t' u hq h =>
    simp only [ParseTree.node.injEq, Label.phrase.injEq] at hx
    obtain ⟨rfl, hx⟩ := hx
    cases List.append_inj_right' (show [] ++ [t] = us ++ [t'] from hx) rfl
    exact Or.inr ⟨hq, h⟩
  | body => cases hx
  | branch => cases hx

/-- The tails of a simple statement in the place of a statement. -/
theorem tail_asStatement {further : Bool} {p : Phrase} {ts : List ParseTree} {u : ParseTree}
    (hp : p.isTrailing = false) (hd : p ≠ .doWhileLoop)
    (h : Tail further (asStatement (.node (.phrase p) ts)) u) :
    u = asStatement (.node (.phrase p) ts) ∨
      u = .node (.phrase .statement) [.node (.phrase .statementItem) [.node (.phrase p) ts]] ∨
        u = .node (.phrase .statementItem) [.node (.phrase p) ts] ∨ u = .node (.phrase p) ts := by
  rcases tail_single h with rfl | ⟨-, h⟩
  · exact Or.inl rfl
  rcases tail_single h with rfl | ⟨-, h⟩
  · exact Or.inr (Or.inl rfl)
  rcases tail_single h with rfl | ⟨-, h⟩
  · exact Or.inr (Or.inr (Or.inl rfl))
  · exact Or.inr (Or.inr (Or.inr (tail_of_not_trailing hp hd h)))

end VerilogLoops.Grammar
