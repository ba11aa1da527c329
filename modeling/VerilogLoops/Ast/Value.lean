import VerilogLoops.Ast.Kind
import VerilogLoops.Document.Inspect
/-!
# Syntax trees

A node has a kind, a position and one value for each field of its kind. The value of a field is
another node, a sequence, a scalar or nothing. Trees that come from source text put values of the
right sort into every field, but a tree that is read from a document may hold any values anywhere:
only the kinds and the names of the fields are checked. So one type serves for both, and being
well typed is a property of a tree.
-/

namespace VerilogLoops.Ast

open VerilogLoops.Document VerilogLoops.Number

/-- Where a node comes from. Source text gives a text and two numbers, but a document may give
anything. -/
structure Position where
  origin : Data
  line : Data
  column : Data
deriving DecidableEq, Repr

/-- The position of nodes whose document does not say where they come from. -/
def Position.unknown : Position :=
  ⟨.text "<unknown>", .int 0, .int 0⟩

/-- A position in a running text. -/
def Position.display (p : Position) : String :=
  p.origin.display ++ ":" ++ p.line.display ++ ":" ++ p.column.display

/-- The value of a field. -/
inductive Value where
  /-- No value. -/
  | null
  | bool (b : Bool)
  | int (i : Int)
  | real (r : Binary64)
  | text (s : String)
  | seq (items : List Value)
  | node (kind : Kind) (position : Position) (fields : List Value)
deriving Repr

instance : Inhabited Value := ⟨.null⟩

mutual

/-- The values are the same. -/
def Value.same : Value → Value → Bool
  | .null, .null => true
  | .bool a, .bool b => a = b
  | .int a, .int b => a = b
  | .real a, .real b => a = b
  | .text a, .text b => a = b
  | .seq as, .seq bs => sameValues as bs
  | .node k p as, .node k' p' bs => k = k' && p = p' && sameValues as bs
  | _, _ => false

/-- The sequences are the same. -/
def sameValues : List Value → List Value → Bool
  | [], [] => true
  | a :: as, b :: bs => a.same b && sameValues as bs
  | _, _ => false

end

mutual

/-- What is the same is equal. -/
theorem Value.eq_of_same : ∀ a b : Value, a.same b = true → a = b
  | .seq as, b, h => by
    cases b <;> simp only [Value.same, Bool.false_eq_true] at h
    rw [eq_of_sameValues as _ h]
  | .node k p as, b, h => by
    cases b <;> simp only [Value.same, Bool.false_eq_true] at h
    simp only [Bool.and_eq_true, decide_eq_true_eq] at h
    rw [h.1.1, h.1.2, eq_of_sameValues as _ h.2]
  | .null, b, h => by cases b <;> simp_all [Value.same]
  | .bool a, b, h => by cases b <;> simp_all [Value.same]
  | .int a, b, h => by cases b <;> simp_all [Value.same]
  | .real a, b, h => by cases b <;> simp_all [Value.same]
  | .text a, b, h => by cases b <;> simp_all [Value.same]

/-- What is the same is equal, for sequences. -/
theorem eq_of_sameValues : ∀ as bs : List Value, sameValues as bs = true → as = bs
  | [], bs, h => by cases bs <;> simp_all [sameValues]
  | a :: as, bs, h => by
    cases bs with
    | nil => simp [sameValues] at h
    | cons b bs =>
      simp only [sameValues, Bool.and_eq_true] at h
      rw [Value.eq_of_same a b h.1, eq_of_sameValues as bs h.2]

end

mutual

/-- A value is the same as itself. -/
theorem Value.same_self : ∀ a : Value, a.same a = true
  | .seq as => by simp [Value.same, sameValues_self as]
  | .node _ _ as => by simp [Value.same, sameValues_self as]
  | .null | .bool _ | .int _ | .real _ | .text _ => by simp [Value.same]

/-- A sequence is the same as itself. -/
theorem sameValues_self : ∀ as : List Value, sameValues as as = true
  | [] => rfl
  | a :: as => by simp [sameValues, Value.same_self a, sameValues_self as]

end

instance : DecidableEq Value := fun a b =>
  decidable_of_iff (a.same b = true) ⟨Value.eq_of_same a b, fun h => h ▸ Value.same_self a⟩

mutual

/-- The value with every position replaced by the unknown one. -/
def Value.withoutPositions : Value → Value
  | .seq items => .seq (allWithoutPositions items)
  | .node kind _ fields => .node kind .unknown (allWithoutPositions fields)
  | v => v

/-- The values with every position replaced by the unknown one. -/
def allWithoutPositions : List Value → List Value
  | [] => []
  | v :: rest => v.withoutPositions :: allWithoutPositions rest

end

/-- The value is a node of a family. -/
def Value.isA (family : Family) : Value → Bool
  | .node kind _ _ => family.kinds.contains kind
  | _ => false

/-- The value is a text. -/
def Value.isText : Value → Bool
  | .text _ => true
  | _ => false

/-- The value counts as true where a condition is asked for: all but nothing, falsehood, zero and
what is empty. -/
def Value.isTruthy : Value → Bool
  | .null => false
  | .bool b => b
  | .int i => i ≠ 0
  | .real r => !r.isZero
  | .text s => !s.isEmpty
  | .seq items => !items.isEmpty
  | .node .. => true

/-- The name of the sort of a value. -/
def Value.sortName : Value → String
  | .null => "NoneType"
  | .bool _ => "bool"
  | .int _ => "int"
  | .real _ => "float"
  | .text _ => "str"
  | .seq _ => "tuple"
  | .node kind _ _ => kind.name

end VerilogLoops.Ast
