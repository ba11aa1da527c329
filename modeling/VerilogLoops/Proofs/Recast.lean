import VerilogLoops.Ast.Build

/-!
# Maps of values that keep their form

What a phrase makes of the values of its children depends on their kinds and on the words among them, and
hardly ever on the names and positions in them. So a map of values that changes nothing but names and
positions may be applied before or after.

> `Recasts.assemble`: a phrase makes of changed values what it makes of the values, changed.
-/

namespace VerilogLoops.Ast

open VerilogLoops.Grammar

variable {place : Position → Position} {cast : Value → Value} {p : Phrase} {f : Family} {v w : Value}
  {vs ws : List Value} {pos : Position} {b : Built}

/-- The map changes nothing in a value but the positions, the names and the numbers. -/
structure Recasts (place : Position → Position) (cast : Value → Value) : Prop where
  null : cast .null = .null
  text (s : String) : cast (.text s) = .text s
  bool (x : Bool) : cast (.bool x) = .bool x
  int (n : Int) : cast (.int n) = .int n
  real (x : Number.Binary64) : cast (.real x) = .real x
  seq (vs : List Value) : cast (.seq vs) = .seq (vs.map cast)
  node {k : Kind} (pos : Position) (vs : List Value) (hk : k ≠ .identifier) (hk' : k ≠ .packageScope)
    (hn : k ≠ .numberLiteral) : cast (.node k pos vs) = .node k (place pos) (vs.map cast)
  name (k : Kind) (pos : Position) (vs : List Value) : ∃ ws, cast (.node k pos vs) = .node k (place pos) ws

/-- What was built, with every value changed. -/
def Built.map (cast : Value → Value) : Built → Built
  | .nothing => .nothing
  | .one v => .one (cast v)
  | .several vs => .several (vs.map cast)

theorem values_map : (b.map cast).values = b.values.map cast := by
  cases b <;> rfl

namespace Recasts

variable (h : Recasts place cast)
include h

/-! ## Parts of values -/

/-- A value is left alone, or stays a sequence, or stays a node of its kind. -/
theorem cases (v : Value) : cast v = v ∨ (∃ vs, v = .seq vs ∧ cast v = .seq (vs.map cast)) ∨
    ∃ k pos vs ws, v = .node k pos vs ∧ cast v = .node k (place pos) ws := by
  cases v with
  | null => exact Or.inl h.null
  | text s => exact Or.inl (h.text s)
  | bool x => exact Or.inl (h.bool x)
  | int n => exact Or.inl (h.int n)
  | real x => exact Or.inl (h.real x)
  | seq vs => exact Or.inr (Or.inl ⟨vs, rfl, h.seq vs⟩)
  | node k pos vs =>
    obtain ⟨ws, hws⟩ := h.name k pos vs
    exact Or.inr (Or.inr ⟨k, pos, vs, ws, rfl, hws⟩)

theorem isA (v : Value) : (cast v).isA f = v.isA f := by
  rcases h.cases v with hv | ⟨vs, rfl, hv⟩ | ⟨k, pos, vs, ws, rfl, hv⟩
  · rw [hv]
  · rw [hv]
    rfl
  · rw [hv]
    rfl

theorem isText (v : Value) : (cast v).isText = v.isText := by
  rcases h.cases v with hv | ⟨vs, rfl, hv⟩ | ⟨k, pos, vs, ws, rfl, hv⟩
  · rw [hv]
  · rw [hv]
    rfl
  · rw [hv]
    rfl

theorem eq_text {s : String} : cast v = .text s ↔ v = .text s := by
  rcases h.cases v with hv | ⟨vs, rfl, hv⟩ | ⟨k, pos, vs, ws, rfl, hv⟩
  · rw [hv]
  · simp [hv]
  · simp [hv]

theorem membersOf : Ast.membersOf f (vs.map cast) = (Ast.membersOf f vs).map cast := by
  simp [Ast.membersOf, List.filter_map, Function.comp_def, h.isA]

theorem theMember : Ast.theMember p f (vs.map cast) = (Ast.theMember p f vs).map cast := by
  unfold Ast.theMember
  rw [h.membersOf]
  cases Ast.membersOf f vs with
  | nil => cases f.name? <;> rfl
  | cons v rest =>
    cases rest with
    | nil => rfl
    | cons w rest => cases f.name? <;> simp [Except.map]

omit h in
theorem childAt (i : Nat) : Ast.childAt (vs.map cast) i = (Ast.childAt vs i).map cast := by
  unfold Ast.childAt
  rw [List.getElem?_map]
  cases vs[i]? <;> rfl

omit h in
theorem lastChild : Ast.lastChild (vs.map cast) = (Ast.lastChild vs).map cast := by
  unfold Ast.lastChild
  rw [List.getLast?_map]
  cases vs.getLast? <;> rfl

theorem firstOrNull : Ast.firstOrNull (vs.map cast) = cast (Ast.firstOrNull vs) := by
  cases vs <;> simp [Ast.firstOrNull, h.null]

theorem placesOf (word : String) : Ast.placesOf word (vs.map cast) = Ast.placesOf word vs := by
  unfold Ast.placesOf
  rw [List.zipIdx_map, List.filter_map, List.map_map]
  simp [Function.comp_def, h.eq_text]

theorem slotsOf (vs : List Value) (current : Value) :
    Ast.slotsOf (cast current) (vs.map cast) = (Ast.slotsOf current vs).map cast := by
  induction vs generalizing current with
  | nil => rfl
  | cons v rest ih =>
    rw [List.map_cons]
    unfold Ast.slotsOf
    by_cases hv : v = .text ","
    · rw [if_pos (h.eq_text.2 hv), if_pos hv, List.map_cons, ← ih .null, h.null]
    · rw [if_neg fun hcast => hv (h.eq_text.1 hcast), if_neg hv, ih v]

theorem argumentsOf : Ast.argumentsOf (vs.map cast) = cast (Ast.argumentsOf vs) := by
  unfold Ast.argumentsOf
  have hopen : (vs.map cast).contains (.text "(") = vs.contains (.text "(") := by
    rw [Bool.eq_iff_iff, List.contains_iff_mem, List.contains_iff_mem, List.mem_map]
    constructor
    · rintro ⟨v, hv, heq⟩
      rwa [← h.eq_text.1 heq]
    · intro hmem
      exact ⟨_, hmem, h.text _⟩
  rw [hopen]
  by_cases hparen : vs.contains (.text "(") = true
  · rw [if_pos hparen, if_pos hparen, h.seq, ← List.map_drop, h.membersOf]
  · rw [if_neg hparen, if_neg hparen, h.null]

theorem joinOperands (pos : Position) (left : Value) :
    Ast.joinOperands (place pos) (cast left) (vs.map cast) = (Ast.joinOperands pos left vs).map cast := by
  induction left, vs using joinOperands.induct pos with
  | case1 left => rfl
  | case2 left last => rfl
  | case3 left operator right rest ih =>
    have hnode := h.node (k := .binaryOp) pos [operator, left, right] (by decide) (by decide) (by decide)
    simp only [List.map_cons, List.map_nil] at hnode ⊢
    rw [Ast.joinOperands, Ast.joinOperands, ← ih, hnode]

theorem scopedName (pos : Position) :
    Ast.scopedName p (place pos) (vs.map cast) = (Ast.scopedName p pos vs).map cast := by
  unfold Ast.scopedName
  rw [h.theMember]
  cases Ast.theMember p (.only .hierarchicalIdentifier) vs with
  | error e => rfl
  | ok v =>
    simp [bind, Except.bind, pure, Except.pure, Except.map, h.node, h.membersOf, h.firstOrNull]

theorem getD (i : Nat) : (vs.map cast).getD i .null = cast (vs.getD i .null) := by
  simp only [List.getD_eq_getElem?_getD, List.getElem?_map]
  cases vs[i]? <;> simp [h.null]

end Recasts

/-! ## Phrases -/

section Binding

variable {ε α β γ : Type}

theorem map_bind (f : β → γ) (x : Except ε α) (g : α → Except ε β) :
    (x >>= g).map f = x >>= fun a => (g a).map f := by
  cases x <;> rfl

theorem bind_map (f : α → β) (x : Except ε α) (g : β → Except ε γ) :
    x.map f >>= g = x >>= fun a => g (f a) := by
  cases x <;> rfl

theorem map_pure (f : α → β) (a : α) : (pure a : Except ε α).map f = pure (f a) := rfl

end Binding

namespace Recasts

variable (h : Recasts place cast)
include h

/-- A step that is none of the three forms is not built: the error would show positions. -/
theorem assemble_step (hb : assemble .forStepItem pos vs = .ok b) :
    assemble .forStepItem (place pos) (vs.map cast) = .ok (b.map cast) := by
  simp only [assemble, childAt, bind_map] at hb ⊢
  cases hv : Ast.childAt vs 0 with
  | error e =>
    rw [hv] at hb
    cases hb
  | ok v =>
    rw [hv] at hb
    simp only [bind, Except.bind, h.isA] at hb ⊢
    by_cases hassignment : v.isA (.only .operatorAssignment) = true
    · rw [if_pos hassignment] at hb ⊢
      cases hb
      simp [Built.map, h.node, pure, Except.pure]
    · rw [if_neg hassignment] at hb ⊢
      by_cases hstep : v.isA (.only .incOrDecExpression) = true
      · rw [if_pos hstep] at hb ⊢
        cases hb
        simp [Built.map, h.node, pure, Except.pure]
      · rw [if_neg hstep] at hb ⊢
        by_cases hcall : v.isA .call = true
        · rw [if_pos hcall] at hb ⊢
          cases hb
          simp [Built.map, h.node, pure, Except.pure]
        · rw [if_neg hcall] at hb
          cases hb

/-- **A phrase makes of changed values what it makes of the values, changed**, unless it takes its text from
the words among them. -/
theorem assemble_map (hp : p ≠ .identifier ∧ p ≠ .packageScope ∧ p ≠ .classHandle)
    (hb : assemble p pos vs = .ok b) : assemble p (place pos) (vs.map cast) = .ok (b.map cast) := by
  -- every other phrase fails on changed values as it does on the values, so that both sides are compared as
  -- a whole; the error of an update shows a position
  suffices hmap : p ≠ .forStepItem →
      assemble p (place pos) (vs.map cast) = (assemble p pos vs).map (Built.map cast) by
    by_cases hstep : p = .forStepItem
    · exact hstep ▸ h.assemble_step (hstep ▸ hb)
    · rw [hmap hstep, hb]
      rfl
  intro hstep
  cases p
  case forStepItem => exact absurd rfl hstep
  case identifier => exact absurd rfl hp.1
  case packageScope => exact absurd rfl hp.2.1
  case classHandle => exact absurd rfl hp.2.2
  all_goals simp only [assemble, h.theMember, childAt, lastChild, h.scopedName, h.argumentsOf, h.membersOf,
    h.placesOf, h.getD, ← List.map_take, ← List.map_drop, map_bind, bind_map, map_pure]
  case comment | assignSign =>
    cases vs with
    | nil => rfl
    | cons v rest => cases rest <;> rfl
  case forLoop =>
    rcases Ast.placesOf ";" vs with _ | ⟨first, _ | ⟨second, _ | ⟨third, more⟩⟩⟩
    case cons.cons.nil =>
      simp [-bind_pure_comp, map_bind, map_pure, Built.map, h.node, h.null, h.seq, h.firstOrNull, apply_ite cast]
    all_goals rfl
  case block =>
    cases Ast.placesOf "end" vs with
    | nil => rfl
    | cons stop more =>
      simp [-bind_pure_comp, map_bind, map_pure, Built.map, h.node, h.null, h.seq, h.eq_text,
        apply_ite (Except.map (Built.map cast))]
  case loopVariables =>
    have hslots := h.slotsOf (vs.drop 1).dropLast .null
    rw [h.null] at hslots
    simp only [← List.map_dropLast, hslots, Built.map, List.map_cons, List.map_nil, h.seq,
      h.node pos _ (show Kind.loopVariables ≠ .identifier by decide) (by decide) (by decide)]
  case chain =>
    cases vs with
    | nil => rfl
    | cons v rest => simp [-bind_pure_comp, map_bind, map_pure, Built.map, h.joinOperands, bind_map]
  case unary =>
    rcases vs with _ | ⟨v, _ | ⟨w, rest⟩⟩
    case cons.nil => simp [-bind_pure_comp, map_pure, Built.map]
    all_goals simp [-bind_pure_comp, map_bind, map_pure, Built.map, h.node]
  case conditional =>
    cases Ast.membersOf .statementOrNull vs with
    | nil => rfl
    | cons first others => simp [-bind_pure_comp, map_pure, Built.map, h.node, h.firstOrNull]
  case packedDimension =>
    rcases Ast.membersOf .expression vs with _ | ⟨first, _ | ⟨second, rest⟩⟩
    case cons.nil => rfl
    all_goals simp [-bind_pure_comp, map_pure, Built.map, h.node, h.null]
  case conditionalExpression =>
    rcases Ast.membersOf .expression vs with _ | ⟨first, _ | ⟨second, _ | ⟨third, _ | ⟨fourth, rest⟩⟩⟩⟩
    case cons.cons.cons.nil => simp [-bind_pure_comp, map_pure, Built.map, h.node]
    all_goals rfl
  all_goals simp [-bind_pure_comp, map_bind, map_pure, Built.map, h.node, h.null, h.bool, h.seq, h.isA, h.isText,
    h.eq_text, h.firstOrNull, apply_ite cast, apply_ite (Except.map (Built.map cast))]

/-- The words stay where all names do. -/
theorem wordOf (hnode : ∀ k pos vs, k ≠ .numberLiteral → cast (.node k pos vs) = .node k (place pos) (vs.map cast))
    (v : Value) : Ast.wordOf (cast v) = Ast.wordOf v := by
  rcases h.cases v with hv | ⟨vs, rfl, hv⟩ | ⟨k, pos, fields, ws, rfl, hv⟩
  · rw [hv]
  · rw [hv]
    rfl
  · by_cases hk : k = .numberLiteral
    · subst hk
      rw [hv]
      rfl
    · clear hv
      rw [hnode k pos fields hk]
      unfold Ast.wordOf
      split <;> rename_i heq
      all_goals simp_all [h.eq_text]

/-- If only positions and the texts of numbers are changed, this holds of every phrase. -/
theorem assemble_words
    (hnode : ∀ k pos vs, k ≠ .numberLiteral → cast (.node k pos vs) = .node k (place pos) (vs.map cast))
    (hb : assemble p pos vs = .ok b) : assemble p (place pos) (vs.map cast) = .ok (b.map cast) := by
  have hwords := h.wordOf hnode
  by_cases hp : p = .identifier ∨ p = .packageScope ∨ p = .classHandle
  · have hmap : assemble p (place pos) (vs.map cast) = (assemble p pos vs).map (Built.map cast) := by
      rcases hp with rfl | rfl | rfl
      · simp [assemble, lastChild, map_bind, bind_map, map_pure, Built.map, hnode, -bind_pure_comp]
      · simp [assemble, childAt, map_bind, bind_map, map_pure, Built.map, hnode, hwords, h.text, -bind_pure_comp]
      · simp [assemble, map_pure, Built.map, Function.comp_def, hnode, hwords, h.text]
    rw [hmap, hb]
    rfl
  · simp only [not_or] at hp
    exact h.assemble_map hp hb

end Recasts

end VerilogLoops.Ast
