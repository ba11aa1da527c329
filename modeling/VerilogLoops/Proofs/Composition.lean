import VerilogLoops.Ast.Types
import VerilogLoops.Proofs.Making

/-!
# How values are composed

A phrase makes its values out of those of its children, in order. It leaves some of them out, it puts
nodes around others, and each node it makes stands where the phrase stands (`Grown`). What it makes
is of a sort that depends on the phrase alone (`Sorts`), and every new node is admitted by the data
model.

> `Grows p`: from children of the right sorts, `p` makes values of its own sort, composed of those of
> the children.

What is rendered does not matter here, so the operations are no special case.
-/

namespace VerilogLoops.Ast

open VerilogLoops.Lexical VerilogLoops.Grammar

/-! ## The text at the head of a node -/

/-- The text with which the source of a node begins, if its kind begins with a token of its own. -/
def Kind.heading : Kind → List Value → Option String
  | .identifier, [.text name] => some name
  | .numberLiteral, [.text text] => some text
  | .stringLiteral, [.text val] => some ("\"" ++ val ++ "\"")
  | .systemTfCall, [.text name, _] => some name
  | .unaryOp, [.text op, _] => some op
  | .incOrDecExpression, [_, .text op, .bool true] => some op
  | .integerVectorType, [.text keyword, _, _] => some keyword
  | .integerAtomType, [.text keyword, _] => some keyword
  | .builtinType, [.text keyword] => some keyword
  | .jumpStatement, [.text keyword, _] => some keyword
  | .varKeyword, _ => some "var"
  | .select, _ | .packedDimension, _ | .loopVariables, _ => some "["
  | .concatenation, _ => some "\x7b"
  | .namedArgument, _ => some "."
  | .attributeInstance, _ => some "(*"
  | .seqBlock, _ => some "begin"
  | .conditionalStatement, _ => some "if"
  | .loopForever, _ => some "forever"
  | .loopRepeat, _ => some "repeat"
  | .loopWhile, _ => some "while"
  | .loopFor, _ => some "for"
  | .loopDoWhile, _ => some "do"
  | .loopForeach, _ => some "foreach"
  | _, _ => none

/-! ## Nodes among values -/

@[simp] theorem haveTypes_nil : haveTypes [] [] = true := rfl

@[simp] theorem haveTypes_cons (t : FieldType) (types : List FieldType) (v : Value)
    (values : List Value) :
    haveTypes (t :: types) (v :: values) = (t.holds v && haveTypes types values) := rfl

@[simp] theorem headsOf_nil : headsOf [] = [] := rfl

@[simp] theorem headsOf_cons (v : Value) (vs : List Value) :
    headsOf (v :: vs) = v.heads ++ headsOf vs := rfl

@[simp] theorem headsOf_append (vs us : List Value) :
    headsOf (vs ++ us) = headsOf vs ++ headsOf us := by
  induction vs with
  | nil => rfl
  | cons v vs ih => simp [ih]

@[simp] theorem heads_null : Value.null.heads = [] := rfl

@[simp] theorem heads_bool (b : Bool) : (Value.bool b).heads = [] := rfl

@[simp] theorem heads_text (s : String) : (Value.text s).heads = [] := rfl

@[simp] theorem heads_seq (vs : List Value) : (Value.seq vs).heads = headsOf vs := rfl

@[simp] theorem heads_node (k : Kind) (p : Position) (fs : List Value) :
    (Value.node k p fs).heads = [.node k p fs] := rfl

theorem heads_of_isA {v : Value} {f : Family} (h : v.isA f = true) : v.heads = [v] := by
  cases v <;> first | rfl | cases h

theorem headsOf_of_isA {f : Family} {vs : List Value} (h : ∀ v ∈ vs, v.isA f = true) :
    headsOf vs = vs := by
  induction vs with
  | nil => rfl
  | cons v vs ih =>
    rw [headsOf_cons, heads_of_isA (h v List.mem_cons_self),
      ih fun u hu => h u (List.mem_cons_of_mem v hu)]
    rfl

/-! ## Values composed of others -/

/-- The second values are composed of the first ones: values may be left out, and nodes of the
position may be put around some that follow each other. A new node is as the data model says. If
its source begins with a token of its own, then this is the leading token. -/
inductive Grown (pos : Position) (lead : Option String) : List Value → List Value → Prop
  | same (vs : List Value) : Grown pos lead vs vs
  | pick {vs us ws : List Value} (h : Grown pos lead vs us) (hs : ws.Sublist us) :
    Grown pos lead vs ws
  | node {vs rest : List Value} {kind : Kind} {fields : List Value} (us : List Value)
    (h : Grown pos lead vs (us ++ rest)) (hne : us ≠ [])
    (hs : (headsOf fields).Sublist (headsOf us)) (ha : kind.admits fields = true)
    (hl : ∀ w, kind.heading fields = some w → lead = some w) :
    Grown pos lead vs (.node kind pos fields :: rest)

/-! ## Sorts of values -/

theorem isBareCall_node {k : Kind} (h : k ≠ .tfCall) (p : Position) (fs : List Value) :
    (Value.node k p fs).isBareCall = false := by
  unfold Value.isBareCall
  split
  · next heq => exact absurd (Value.node.inj heq).1 h
  · rfl

/-- What a phrase may make, apart from what it is rendered as. -/
def Sorts (q : Phrase) (values : List Value) (_ : String) : Prop :=
  match q with
  | .comment | .assignSign => ∃ text, values = [.text text]
  | .arguments | .forStep | .variableAssignments =>
    values ≠ [] ∧ ∀ v ∈ values, v.isA (familyOf q) = true ∧ v.isBareCall = false
  | .lvalue | .lvalueConcatenation =>
    ∃ v, values = [v] ∧ v.isA (familyOf q) = true ∧ v.isLvalue = true
  | .call | .routineCall => ∃ v, values = [v] ∧ v.isA (familyOf q) = true
  | q => ∃ v, values = [v] ∧ v.isA (familyOf q) = true ∧ v.isBareCall = false

/-- The phrases with a single value that is a node and no call without parentheses. -/
def isSingle : Phrase → Bool
  | .comment | .assignSign | .arguments | .forStep | .variableAssignments | .call
  | .routineCall => false
  | _ => true

theorem isBareCall_of_isLvalue {v : Value} (h : v.isLvalue = true) : v.isBareCall = false := by
  unfold Value.isBareCall
  split
  · cases h
  · rfl

theorem Sorts.single {q : Phrase} (hq : isSingle q = true) {values : List Value} {text : String}
    (h : Sorts q values text) :
    ∃ v, values = [v] ∧ v.isA (familyOf q) = true ∧ v.isBareCall = false := by
  have ofLvalue : (∃ v, values = [v] ∧ v.isA (familyOf q) = true ∧ v.isLvalue = true) →
      ∃ v, values = [v] ∧ v.isA (familyOf q) = true ∧ v.isBareCall = false := by
    rintro ⟨v, rfl, hv, hl⟩
    exact ⟨v, rfl, hv, isBareCall_of_isLvalue hl⟩
  cases q with
  | comment | assignSign | arguments | forStep | variableAssignments | call | routineCall => cases hq
  | lvalue | lvalueConcatenation => exact ofLvalue h
  | _ => exact h

/-- The text of the token with which some pieces begin. -/
def leadOf : List Piece → Option String
  | ⟨.token _, _, text⟩ :: _ => some text
  | _ => none

/-- Children of the right sorts are composed to values of the right sort. -/
def Grows (p : Phrase) : Prop :=
  ∀ pos ps, Forms Sorts p.body ps →
    ∃ b, assemble p pos (valuesOf ps) = .ok b ∧ Grown pos (leadOf ps) (valuesOf ps) b.values ∧
      Sorts p b.values ""

/-! ## What a phrase may do with its children -/

section Steps

variable {p : Phrase} {pos : Position} {ps : List Piece}

/-- A phrase may make a node of some of its children. -/
theorem grown_node (kind : Kind) (fields : List Value)
    (hp : Sorts p [.node kind pos fields] "")
    (hb : assemble p pos (valuesOf ps) = .ok (.one (.node kind pos fields)))
    (hne : valuesOf ps ≠ [])
    (hs : (headsOf fields).Sublist (headsOf (valuesOf ps))) (ha : kind.admits fields = true)
    (hl : ∀ w, kind.heading fields = some w → leadOf ps = some w) :
    ∃ b, assemble p pos (valuesOf ps) = .ok b ∧ Grown pos (leadOf ps) (valuesOf ps) b.values ∧
      Sorts p b.values "" := by
  have hgrown : Grown pos (leadOf ps) (valuesOf ps) [.node kind pos fields] := by
    refine .node (valuesOf ps) ?_ hne hs ha hl
    rw [List.append_nil]
    exact .same _
  exact ⟨_, hb, hgrown, hp⟩

/-- A phrase may hand one of its children on. -/
theorem grown_pick {v : Value} (hp : Sorts p [v] "")
    (hb : assemble p pos (valuesOf ps) = .ok (.one v)) (hv : v ∈ valuesOf ps) :
    ∃ b, assemble p pos (valuesOf ps) = .ok b ∧ Grown pos (leadOf ps) (valuesOf ps) b.values ∧
      Sorts p b.values "" :=
  ⟨_, hb, (Grown.same _).pick (List.singleton_sublist.2 hv), hp⟩

end Steps

/-! ## Lists -/

/-- The values are nodes of the family of the phrase, and no calls without parentheses. -/
def AllSorted (q : Phrase) (vs : List Value) : Prop :=
  ∀ v ∈ vs, v.isA (familyOf q) = true ∧ v.isBareCall = false

namespace AllSorted

variable {q : Phrase} {vs : List Value}

theorem isA (h : AllSorted q vs) : ∀ v ∈ vs, v.isA (familyOf q) = true := fun v hv => (h v hv).1

theorem members (h : AllSorted q vs) {g : Family} (hd : (familyOf q).within g = true) :
    membersOf g vs = vs :=
  membersOf_eq_self h.isA hd

theorem members_nil (h : AllSorted q vs) {g : Family} (hd : (familyOf q).apart g = true) :
    membersOf g vs = [] :=
  membersOf_eq_nil h.isA hd

theorem heads (h : AllSorted q vs) : headsOf vs = vs := headsOf_of_isA h.isA

theorem all_isA (h : AllSorted q vs) {g : Family} (hd : (familyOf q).within g = true) :
    (vs.all fun v => v.isA g) = true :=
  List.all_eq_true.2 fun v hv => isA_eq_true (h v hv).1 hd

theorem notBare (h : AllSorted q vs) : (vs.all fun v => !v.isBareCall) = true :=
  List.all_eq_true.2 fun v hv => by rw [(h v hv).2]; rfl

end AllSorted

/-- The values of pieces of one phrase. -/
theorem allSorted_of_pieces {q : Phrase} (hq : isSingle q = true) {ps : List Piece}
    (h : ∀ piece ∈ ps, ∃ values text, piece = ⟨.phrase q, values, text⟩ ∧ Sorts q values text) :
    AllSorted q (valuesOf ps) := by
  intro v hv
  obtain ⟨piece, hp, hv⟩ := List.mem_flatMap.1 hv
  obtain ⟨values, text, rfl, hs⟩ := h piece hp
  obtain ⟨u, rfl, hu⟩ := hs.single hq
  cases List.mem_singleton.1 hv
  exact hu

/-- What is known about the values of a list with commas: those of its items are its nodes. -/
structure Enumerates (q : Phrase) (ps : List Piece) (vs : List Value) : Prop where
  ne_nil : vs ≠ []
  sorted : AllSorted q vs
  members : ∀ f, membersOf f (valuesOf ps) = membersOf f vs
  heads : headsOf (valuesOf ps) = vs

theorem headsOf_intersperse {ps : List Piece} (t : Token) (word : String) :
    headsOf (valuesOf (ps.intersperse (markPiece t word))) = headsOf (valuesOf ps) := by
  fun_induction List.intersperse (markPiece t word) ps with
  | case1 => rfl
  | case2 => rfl
  | case3 p ps hne ih =>
    simp only [valuesOf_cons, headsOf_append, ih]
    simp [markPiece]

theorem enumerates_of_forms {q : Phrase} (hq : isSingle q = true) {t : Token} {word : String}
    (ht : t.word? = some word) {ps : List Piece}
    (h : Forms Sorts (Pattern.separated (.phrase q) t) ps) : ∃ vs, Enumerates q ps vs := by
  obtain ⟨item, items, rfl, hmade⟩ := forms_separated ht h
  have hall := allSorted_of_pieces hq hmade
  obtain ⟨values, text, rfl, hs⟩ := hmade item List.mem_cons_self
  obtain ⟨v, rfl, -⟩ := hs.single hq
  refine ⟨valuesOf (⟨.phrase q, [v], text⟩ :: items), by simp, hall,
    fun f => membersOf_intersperse, ?_⟩
  rw [headsOf_intersperse, hall.heads]

/-- A list that is spliced into the phrase around it. -/
theorem grown_list {p q : Phrase} {pos : Position} {ps : List Piece} {vs : List Value}
    (h : Enumerates q ps vs) (hf : familyOf p = familyOf q)
    (hp : p = .arguments ∨ p = .forStep ∨ p = .variableAssignments) :
    ∃ b, assemble p pos (valuesOf ps) = .ok b ∧ Grown pos (leadOf ps) (valuesOf ps) b.values ∧
      Sorts p b.values "" := by
  have hmembers : membersOf (familyOf p) (valuesOf ps) = vs := by
    rw [h.members, hf, membersOf_eq_self h.sorted.isA]
    exact List.all_eq_true.2 fun k hk => List.contains_iff_mem.2 hk
  refine ⟨.several vs, ?_, (Grown.same _).pick ?_, ?_⟩
  · rcases hp with rfl | rfl | rfl <;> simp only [assemble, familyOf] at hmembers ⊢ <;>
      rw [hmembers] <;> rfl
  · show vs.Sublist _
    rw [← hmembers]
    exact List.filter_sublist
  · have hsorted : AllSorted p vs := fun v hv => by rw [hf]; exact h.sorted v hv
    rcases hp with rfl | rfl | rfl <;> exact ⟨h.ne_nil, hsorted⟩

end VerilogLoops.Ast
