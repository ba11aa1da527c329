import VerilogLoops.Proofs.Encoding
import VerilogLoops.Proofs.Recast
import VerilogLoops.Proofs.Transcript
import VerilogLoops.Proofs.Building

/-!
# What trees stand for, up to positions

The offsets of a parse tree become the positions of the syntax tree and have no other effect. So parse
trees that differ in their offsets stand for the same, up to positions.

> `buildTree_bare`: a tree without offsets stands for what the tree stands for, without positions.
-/

namespace VerilogLoops.Ast

open VerilogLoops.Lexical VerilogLoops.Grammar

variable {p : Phrase} {f : Family} {v : Value} {vs : List Value} {pos : Position} {b : Built}
  {locate : Nat → Position}

/-! ## Values and their parts -/

/-- What was built, with every position replaced by the unknown one. -/
def Built.withoutPositions : Built → Built
  | .nothing => .nothing
  | .one v => .one v.withoutPositions
  | .several vs => .several (vs.map Value.withoutPositions)

section Parts

@[simp] theorem withoutPositions_null : Value.null.withoutPositions = .null := by
  simp [Value.withoutPositions]

@[simp] theorem withoutPositions_text (s : String) : (Value.text s).withoutPositions = .text s := by
  simp [Value.withoutPositions]

@[simp] theorem withoutPositions_bool (x : Bool) : (Value.bool x).withoutPositions = .bool x := by
  simp [Value.withoutPositions]

@[simp] theorem withoutPositions_seq (vs : List Value) :
    (Value.seq vs).withoutPositions = .seq (vs.map Value.withoutPositions) := by
  rw [Value.withoutPositions, allWithoutPositions_eq_map]

@[simp] theorem withoutPositions_node (k : Kind) (pos : Position) (vs : List Value) :
    (Value.node k pos vs).withoutPositions = .node k .unknown (vs.map Value.withoutPositions) := by
  rw [Value.withoutPositions, allWithoutPositions_eq_map]

/-- Taking the positions away changes nothing but them. -/
theorem recasts_withoutPositions : Recasts (fun _ => .unknown) Value.withoutPositions where
  null := withoutPositions_null
  text := withoutPositions_text
  bool := withoutPositions_bool
  int n := by simp [Value.withoutPositions]
  real x := by simp [Value.withoutPositions]
  seq := withoutPositions_seq
  node pos vs _ _ _ := withoutPositions_node _ pos vs
  name k pos vs := ⟨_, withoutPositions_node k pos vs⟩

@[simp] theorem isA_withoutPositions : v.withoutPositions.isA f = v.isA f :=
  recasts_withoutPositions.isA v

@[simp] theorem withoutPositions_eq_text {s : String} : v.withoutPositions = .text s ↔ v = .text s :=
  recasts_withoutPositions.eq_text

@[simp] theorem map_withoutPositions : b.map Value.withoutPositions = b.withoutPositions := by
  cases b <;> rfl

@[simp] theorem values_withoutPositions :
    b.withoutPositions.values = b.values.map Value.withoutPositions := by
  cases b <;> simp [Built.withoutPositions, Built.values]

@[simp] theorem membersOf_withoutPositions :
    membersOf f (vs.map Value.withoutPositions) = (membersOf f vs).map Value.withoutPositions :=
  recasts_withoutPositions.membersOf

end Parts

/-! ## Phrases -/

/-- What a phrase makes of values without positions is what it makes of the values, without positions. -/
theorem assemble_withoutPositions (h : assemble p pos vs = .ok b) :
    assemble p .unknown (vs.map Value.withoutPositions) = .ok b.withoutPositions := by
  rw [← map_withoutPositions]
  exact recasts_withoutPositions.assemble_words (fun k pos vs _ => withoutPositions_node k pos vs) h

/-! ## Parse trees -/

theorem buildLeaf_withoutPositions (t : Token) (pos : Position) (text : String) :
    buildLeaf t .unknown text = (buildLeaf t pos text).withoutPositions := by
  cases t <;> simp [buildLeaf, Built.withoutPositions]

mutual

/-- Without positions a tree stands for what it stands for, without positions. -/
theorem buildTree_unplaced : ∀ (t : ParseTree) {b : Built}, buildTree locate t = .ok b →
    buildTree (fun _ => .unknown) t = .ok b.withoutPositions
  | .leaf t start text, b, h => by
    simp only [buildTree, Except.ok.injEq] at h
    rw [buildTree, buildLeaf_withoutPositions t (locate start) text, h]
  | .node label children, b, h => by
    unfold buildTree at h
    cases hvs : buildAll locate children with
    | error e =>
      rw [hvs] at h
      cases h
    | ok vs =>
      rw [hvs] at h
      have hall := buildAll_unplaced children hvs
      unfold buildTree
      rw [hall]
      cases label with
      | phrase p => exact assemble_withoutPositions h
      | whole =>
        rcases vs with _ | ⟨v, _ | ⟨w, rest⟩⟩
        all_goals
          cases h
          rfl

/-- Without positions trees stand for what they stand for, without positions. -/
theorem buildAll_unplaced : ∀ (ts : List ParseTree) {vs : List Value}, buildAll locate ts = .ok vs →
    buildAll (fun _ => .unknown) ts = .ok (vs.map Value.withoutPositions)
  | [], vs, h => by
    cases h
    rfl
  | t :: rest, vs, h => by
    obtain ⟨b, ws, hb, hws, rfl⟩ := buildAll_cons.1 h
    refine buildAll_cons.2 ⟨_, _, buildTree_unplaced t hb, buildAll_unplaced rest hws, ?_⟩
    rw [values_withoutPositions, List.map_append]

end

mutual

/-- Where all positions are the same, offsets do not matter. -/
theorem buildTree_bare_const (pos : Position) : ∀ t : ParseTree,
    buildTree (fun _ => pos) t.bare = buildTree (fun _ => pos) t
  | .leaf .. => rfl
  | .node label children => by
    rw [ParseTree.bare]
    unfold buildTree
    rw [buildAll_bare_const pos children]

theorem buildAll_bare_const (pos : Position) : ∀ ts : List ParseTree,
    buildAll (fun _ => pos) (bareAll ts) = buildAll (fun _ => pos) ts
  | [] => rfl
  | t :: rest => by
    rw [bareAll]
    unfold buildAll
    rw [buildTree_bare_const pos t, buildAll_bare_const pos rest]

end

/-- A tree without offsets stands for what the tree stands for, without positions. -/
theorem buildTree_bare (t : ParseTree) (h : buildTree locate t = .ok b) :
    buildTree (fun _ => .unknown) t.bare = .ok b.withoutPositions := by
  rw [buildTree_bare_const, buildTree_unplaced t h]

/-- Trees without offsets stand for what the trees stand for, without positions. -/
theorem buildAll_bare (ts : List ParseTree) (h : buildAll locate ts = .ok vs) :
    buildAll (fun _ => .unknown) (bareAll ts) = .ok (vs.map Value.withoutPositions) := by
  rw [buildAll_bare_const, buildAll_unplaced ts h]

end VerilogLoops.Ast
