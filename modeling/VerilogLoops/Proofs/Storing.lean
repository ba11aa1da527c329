import VerilogLoops.Proofs.Encoding
import VerilogLoops.Proofs.Json

/-!
# What trees from source text hold

The scalars of a tree from source text are texts and truth values, and every character of a text
stands in the source: the builder takes texts apart and joins them, but it makes none up. So such a
tree is *storable*, which is to say that its document is simple.

> `storable_of_takes`: what is built from a text of some characters holds texts of these characters.
-/

namespace VerilogLoops.Text

/-- Lines and columns of a text are at most one more than its length. -/
theorem Location.ofOffset_le (text : List Char) (offset : Nat) :
    (Location.ofOffset text offset).line ≤ text.length + 1 ∧
      (Location.ofOffset text offset).column ≤ text.length + 1 := by
  have key : ∀ (cs : List Char) (loc : Location), (loc.behind cs).line ≤ loc.line + cs.length ∧
      (loc.behind cs).column ≤ max loc.column 1 + cs.length := by
    intro cs
    induction cs with
    | nil => exact fun loc => ⟨Nat.le_refl _, Nat.le_max_left _ _⟩
    | cons c cs ih =>
      intro loc
      have hrest := ih (loc.after c)
      have hafter : (loc.after c).line ≤ loc.line + 1 ∧
          (loc.after c).column ≤ max loc.column 1 + 1 := by
        unfold Location.after
        split <;> dsimp only <;> omega
      simp only [Location.behind, List.foldl_cons, List.length_cons] at hrest ⊢
      omega
  have hbounds := key (text.take offset) Location.first
  have hlength : (text.take offset).length ≤ text.length := List.length_take_le' _ _
  simp only [Location.first] at hbounds
  rw [Location.ofOffset, Location.first]
  omega

end VerilogLoops.Text

namespace VerilogLoops.Ast

open VerilogLoops.Document VerilogLoops.Grammar VerilogLoops.Lexical VerilogLoops.Text

/-- The value is made of truth values, texts of some characters and nodes at some positions. -/
inductive Value.Storable (letter : Char → Prop) (place : Position → Prop) : Value → Prop
  | null : Storable letter place .null
  | bool (b : Bool) : Storable letter place (.bool b)
  | text {s : String} (h : ∀ c ∈ s.toList, letter c) : Storable letter place (.text s)
  | seq {items : List Value} (h : ∀ v ∈ items, Storable letter place v) :
    Storable letter place (.seq items)
  | node {kind : Kind} {position : Position} {fields : List Value} (hp : place position)
    (h : ∀ v ∈ fields, Storable letter place v) :
    Storable letter place (.node kind position fields)

section Assemble

variable {letter : Char → Prop} {place : Position → Prop} {vs us : List Value} {v : Value}

/-- All values are storable. -/
def AllStorable (letter : Char → Prop) (place : Position → Prop) (vs : List Value) : Prop :=
  ∀ v ∈ vs, v.Storable letter place

theorem allStorable_nil : AllStorable letter place [] := by
  simp [AllStorable]

theorem allStorable_cons :
    AllStorable letter place (v :: vs) ↔ v.Storable letter place ∧ AllStorable letter place vs := by
  simp [AllStorable]

theorem AllStorable.sublist (h : AllStorable letter place vs) (hs : us.Sublist vs) :
    AllStorable letter place us :=
  fun v hv => h v (hs.subset hv)

theorem AllStorable.seq (h : AllStorable letter place vs) : (Value.seq vs).Storable letter place :=
  .seq h

theorem AllStorable.members (h : AllStorable letter place vs) (f : Family) :
    AllStorable letter place (membersOf f vs) :=
  h.sublist List.filter_sublist

theorem AllStorable.firstOrNull (h : AllStorable letter place vs) :
    (firstOrNull vs).Storable letter place := by
  cases vs with
  | nil => exact .null
  | cons v vs => exact h v List.mem_cons_self

theorem AllStorable.getD (h : AllStorable letter place vs) (i : Nat) :
    (vs.getD i .null).Storable letter place := by
  rw [List.getD_eq_getElem?_getD]
  cases hi : vs[i]? with
  | none => exact .null
  | some v => exact h v (List.mem_of_getElem? hi)

theorem AllStorable.theMember (h : AllStorable letter place vs) {p : Phrase} {f : Family}
    (hv : theMember p f vs = .ok v) : v.Storable letter place :=
  h v (theMember_mem hv)

theorem AllStorable.childAt (h : AllStorable letter place vs) {i : Nat}
    (hv : childAt vs i = .ok v) : v.Storable letter place := by
  unfold Ast.childAt at hv
  split at hv
  · next hi =>
    cases hv
    exact h v (List.mem_of_getElem? hi)
  · cases hv

theorem AllStorable.lastChild (h : AllStorable letter place vs)
    (hv : lastChild vs = .ok v) : v.Storable letter place := by
  unfold Ast.lastChild at hv
  split at hv
  · next hi =>
    cases hv
    exact h v (List.mem_of_getLast? hi)
  · cases hv

theorem Value.Storable.wordOf (h : v.Storable letter place) :
    ∀ c ∈ (wordOf v).toList, letter c := by
  unfold Ast.wordOf
  split
  · cases h with
    | text h => exact h
  · cases h with
    | node _ h =>
      cases h _ List.mem_cons_self with
      | text h => exact h
  · simp

theorem AllStorable.words (h : AllStorable letter place vs) :
    ∀ c ∈ (String.join (vs.map Ast.wordOf)).toList, letter c := by
  intro c hc
  rw [String.toList_join, List.mem_flatMap] at hc
  obtain ⟨s, hs, hc⟩ := hc
  obtain ⟨v, hv, rfl⟩ := List.mem_map.1 hs
  exact (h v hv).wordOf c hc

theorem AllStorable.slots (h : AllStorable letter place vs) (hv : v.Storable letter place) :
    AllStorable letter place (slotsOf v vs) := by
  induction vs generalizing v with
  | nil => exact allStorable_cons.2 ⟨hv, allStorable_nil⟩
  | cons u vs ih =>
    obtain ⟨hu, hvs⟩ := allStorable_cons.1 h
    rw [slotsOf]
    split
    · exact allStorable_cons.2 ⟨hv, ih hvs .null⟩
    · exact ih hvs hu

theorem AllStorable.arguments (h : AllStorable letter place vs) :
    (argumentsOf vs).Storable letter place := by
  unfold argumentsOf
  split
  · exact ((h.sublist (List.drop_sublist _ _)).members _).seq
  · exact .null

theorem AllStorable.joinOperands {pos : Position} (hp : place pos) {left : Value}
    (h : AllStorable letter place vs) (hl : left.Storable letter place)
    (hv : joinOperands pos left vs = .ok v) : v.Storable letter place := by
  fun_induction Ast.joinOperands pos left vs with
  | case1 =>
    cases hv
    exact hl
  | case2 => cases hv
  | case3 left op right rest ih =>
    simp only [allStorable_cons] at h
    exact ih h.2.2 (.node hp (by simp [h.1, h.2.1, hl])) hv

theorem storable_node {kind : Kind} {pos : Position} {fields : List Value} :
    (Value.node kind pos fields).Storable letter place ↔
      place pos ∧ AllStorable letter place fields := by
  refine ⟨fun h => ?_, fun h => .node h.1 h.2⟩
  cases h with
  | node hp h => exact ⟨hp, h⟩

theorem storable_seq {items : List Value} :
    (Value.seq items).Storable letter place ↔ AllStorable letter place items := by
  refine ⟨fun h => ?_, .seq⟩
  cases h with
  | seq h => exact h

theorem AllStorable.scopedName {p : Phrase} {pos : Position} (hp : place pos)
    (h : AllStorable letter place vs) (hv : scopedName p pos vs = .ok v) :
    v.Storable letter place := by
  simp only [Ast.scopedName, bind_eq_ok, pure_eq_ok, Except.ok.injEq] at hv
  obtain ⟨u, hu, rfl⟩ := hv
  simp [storable_node, hp, allStorable_cons, allStorable_nil, (h.members _).firstOrNull,
    h.theMember hu]

theorem storable_one {kind : Kind} {pos : Position} {fields : List Value} (hp : place pos) :
    AllStorable letter place (Built.one (.node kind pos fields)).values ↔
      AllStorable letter place fields := by
  simp [Built.values, allStorable_cons, allStorable_nil, storable_node, hp]

/-- What a phrase makes of storable values is storable. -/
theorem storable_assemble {p : Phrase} {pos : Position} (hp : place pos) {b : Built}
    (h : AllStorable letter place vs) (hb : assemble p pos vs = .ok b) :
    AllStorable letter place b.values := by
  cases p with
  | packageScope =>
    simp only [assemble, bind_eq_ok, pure_eq_ok, Except.ok.injEq] at hb
    obtain ⟨v, hv, rfl⟩ := hb
    have hword : Value.Storable letter place (.text (wordOf v)) := .text (h.childAt hv).wordOf
    simp [storable_one hp, allStorable_cons, allStorable_nil, hword]
  | classHandle =>
    simp only [assemble, pure_eq_ok, Except.ok.injEq] at hb
    subst hb
    have hwords : Value.Storable letter place (.text (String.join (vs.map wordOf))) :=
      .text h.words
    simp [storable_one hp, allStorable_cons, allStorable_nil, hwords]
  | forLoop =>
    simp only [assemble] at hb
    split at hb
    · next first second _ =>
      simp only [bind_eq_ok, pure_eq_ok, Except.ok.injEq] at hb
      obtain ⟨body, hbody, rfl⟩ := hb
      have hrest := h.sublist (List.drop_sublist second vs)
      have hinit := h.sublist (List.take_sublist first vs)
      have hcondition := h.sublist ((List.drop_sublist first _).trans (List.take_sublist second vs))
      simp only [storable_one hp, allStorable_cons]
      refine ⟨(hinit.members _).firstOrNull, (hcondition.members _).firstOrNull, ?_,
        hrest.theMember hbody, allStorable_nil⟩
      split
      · exact .null
      · exact (hrest.members _).seq
    · cases hb
  | forStepItem =>
    simp only [assemble, bind_eq_ok] at hb
    obtain ⟨v, hv, hb⟩ := hb
    have hv := h.childAt hv
    repeat' split at hb
    all_goals cases hb
    all_goals simp [storable_one hp, allStorable_cons, allStorable_nil, hv]
  | loopVariables =>
    simp only [assemble, pure_eq_ok, Except.ok.injEq] at hb
    subst hb
    have hinner := h.sublist ((List.dropLast_sublist _).trans (List.drop_sublist 1 vs))
    simp only [storable_one hp, allStorable_cons]
    exact ⟨(hinner.slots .null).seq, allStorable_nil⟩
  | block =>
    simp only [assemble] at hb
    split at hb
    · cases hb
    · next stop _ _ =>
      have hbody := h.sublist (List.take_sublist stop vs)
      simp only [bind_eq_ok] at hb
      obtain ⟨second, -, hb⟩ := hb
      split at hb <;> simp only [bind_eq_ok, pure_eq_ok, Except.ok.injEq] at hb <;>
        obtain ⟨name, hname, rfl⟩ := hb <;> simp only [storable_one hp, allStorable_cons]
      · exact ⟨h.childAt hname, (hbody.members _).seq, h.getD _, allStorable_nil⟩
      · exact ⟨hname ▸ .null, (hbody.members _).seq, h.getD _, allStorable_nil⟩
  | conditional =>
    simp only [assemble, bind_eq_ok] at hb
    obtain ⟨condition, hcondition, hb⟩ := hb
    have hbranches := h.members .statementOrNull
    split at hb
    · cases hb
    · next first others heq =>
      cases hb
      rw [heq, allStorable_cons] at hbranches
      simp only [storable_one hp, allStorable_cons]
      exact ⟨h.theMember hcondition, hbranches.1, hbranches.2.firstOrNull, allStorable_nil⟩
  | packedDimension | conditionalExpression =>
    have hparts := h.members .expression
    simp only [assemble] at hb
    split at hb <;> cases hb <;> simp_all [storable_one hp, allStorable_cons, allStorable_nil,
      Value.Storable.null]
  | chain =>
    simp only [assemble] at hb
    split at hb
    · cases hb
    · simp only [bind_eq_ok, pure_eq_ok, Except.ok.injEq] at hb
      obtain ⟨v, hv, rfl⟩ := hb
      rw [allStorable_cons] at h
      exact allStorable_cons.2 ⟨h.2.joinOperands hp h.1 hv, allStorable_nil⟩
  | unary =>
    simp only [assemble] at hb
    split at hb
    · cases hb
      exact h
    · simp only [bind_eq_ok, pure_eq_ok, Except.ok.injEq] at hb
      obtain ⟨op, hop, operand, hoperand, rfl⟩ := hb
      simp [storable_one hp, allStorable_cons, allStorable_nil, h.childAt hop, h.childAt hoperand]
  | comment | assignSign =>
    simp only [assemble] at hb
    split at hb <;> cases hb <;> exact h
  | forDeclaration =>
    simp only [assemble, bind_eq_ok, pure_eq_ok, Except.ok.injEq] at hb
    obtain ⟨first, -, dataType, hdataType, rfl⟩ := hb
    simp only [storable_one hp, allStorable_cons]
    refine ⟨?_, h.theMember hdataType, (h.members _).seq, allStorable_nil⟩
    split
    · exact .node hp allStorable_nil
    · exact .null
  | integerVectorType =>
    simp only [assemble, bind_eq_ok, pure_eq_ok, Except.ok.injEq] at hb
    obtain ⟨keyword, hkeyword, rfl⟩ := hb
    simp only [storable_one hp, allStorable_cons]
    refine ⟨h.childAt hkeyword, ?_, (h.members _).seq, allStorable_nil⟩
    split
    · exact h.getD 1
    · exact .null
  | stepExpression =>
    simp only [assemble, bind_eq_ok] at hb
    obtain ⟨first, hfirst, second, hsecond, hb⟩ := hb
    split at hb <;> cases hb <;>
      simp [storable_one hp, allStorable_cons, allStorable_nil, h.childAt hfirst,
        h.childAt hsecond, Value.Storable.bool]
  | select =>
    simp only [assemble] at hb
    split at hb <;> simp only [bind_eq_ok, pure_eq_ok, Except.ok.injEq] at hb
    · obtain ⟨index, hindex, rfl⟩ := hb
      simp [storable_one hp, allStorable_cons, allStorable_nil, h.childAt hindex,
        Value.Storable.null]
    · obtain ⟨index, hindex, op, hop, width, hwidth, rfl⟩ := hb
      simp [storable_one hp, allStorable_cons, allStorable_nil, h.childAt hindex,
        h.childAt hop, h.childAt hwidth]
  | _ =>
    -- The other phrases make one node of children and members, hand one on, or splice members.
    revert hb
    simp only [assemble, bind_eq_ok, pure_eq_ok, Except.ok.injEq, forall_exists_index, and_imp]
    intros
    subst_vars
    simp only [Built.values, allStorable_cons, storable_node, storable_seq]
    repeat' apply And.intro
    all_goals first
      | exact hp
      | exact allStorable_nil
      | exact h.childAt ‹_›
      | exact h.theMember ‹_›
      | exact h.lastChild ‹_›
      | exact h.members _
      | exact (h.members _).firstOrNull
      | exact h.arguments
      | exact h.scopedName hp ‹_›
      | exact h.getD _
      | exact .null
      | exact .bool _
      | exact h
      | split <;> first | exact h.childAt ‹_› | exact .null

/-- A leaf of some characters is storable. -/
theorem storable_buildLeaf {t : Token} {pos : Position} (hp : place pos) {text : String}
    (h : ∀ c ∈ text.toList, letter c) : AllStorable letter place (buildLeaf t pos text).values := by
  have htext : Value.Storable letter place (.text text) := .text h
  unfold buildLeaf
  split
  · exact allStorable_nil
  · simp [storable_one hp, allStorable_cons, allStorable_nil, htext]
  · simp only [storable_one hp, allStorable_cons]
    refine ⟨.text fun c hc => h c ?_, allStorable_nil⟩
    rw [String.toList_ofList] at hc
    exact List.mem_of_mem_drop ((List.dropLast_sublist _).subset hc)
  · exact allStorable_cons.2 ⟨htext, allStorable_nil⟩

end Assemble

section Build

variable {letter : Char → Prop} {place : Position → Prop} {locate : Nat → Position}

mutual

/-- What is built from leaves of some characters is storable. -/
theorem storable_buildTree (hlocate : ∀ n, place (locate n)) : ∀ (t : ParseTree) {b : Built},
    (∀ l ∈ t.leaves, ∀ c ∈ l.text.toList, letter c) → buildTree locate t = .ok b →
      AllStorable letter place b.values
  | .leaf t start text, b, h, hb => by
    cases hb
    exact storable_buildLeaf (hlocate start) (h _ List.mem_cons_self)
  | .node label children, b, h, hb => by
    rw [buildTree, bind_eq_ok] at hb
    obtain ⟨vs, hvs, hb⟩ := hb
    have hall := storable_buildAll hlocate children h hvs
    cases label with
    | phrase p => exact storable_assemble (hlocate _) hall hb
    | whole =>
      dsimp only at hb
      split at hb <;> cases hb <;> exact hall

theorem storable_buildAll (hlocate : ∀ n, place (locate n)) : ∀ (ts : List ParseTree)
    {vs : List Value}, (∀ l ∈ leavesOf ts, ∀ c ∈ l.text.toList, letter c) →
      buildAll locate ts = .ok vs → AllStorable letter place vs
  | [], vs, _, hvs => by
    cases hvs
    exact allStorable_nil
  | t :: rest, vs, h, hvs => by
    obtain ⟨b, us, hb, hus, rfl⟩ := buildAll_cons.1 hvs
    rw [leavesOf_cons] at h
    have ht := storable_buildTree hlocate t (fun l hl => h l (List.mem_append_left _ hl)) hb
    have hrest := storable_buildAll hlocate rest (fun l hl => h l (List.mem_append_right _ hl)) hus
    exact fun v hv => (List.mem_append.1 hv).elim (ht v) (hrest v)

end

end Build

/-! ## Documents of storable trees -/

/-- The position has a text of some characters for its origin and two numbers that are not too
long. -/
def Position.IsWritten (letter : Char → Prop) : Position → Prop
  | ⟨.text origin, .int line, .int column⟩ => (∀ c ∈ origin.toList, letter c) ∧
    line.natAbs < 10 ^ Number.digitLimit ∧ column.natAbs < 10 ^ Number.digitLimit
  | _ => False

/-- The keys in the documents of trees. -/
def entryNames : List String :=
  ["_type", "_position", "origin", "line", "column"] ++ Kind.all.flatMap (·.fields.map (·.name))

/-- The texts of some characters. -/
def TextOf (letter : Char → Prop) (s : String) : Prop :=
  ∀ c ∈ s.toList, letter c

section Encode

variable {letter : Char → Prop}

theorem TextOf.of_toList {s : String} {cs : List Char} (h : s.toList = cs)
    (hall : ∀ c ∈ cs, letter c) : TextOf letter s := by
  rw [TextOf, h]
  exact hall

theorem simple_position {p : Position} (h : p.IsWritten letter) :
    Simple (TextOf letter) (· ∈ entryNames) p.encode := by
  unfold Position.IsWritten at h
  split at h
  · obtain ⟨horigin, hline, hcolumn⟩ := h
    refine .record (by simp) (by simp [entryNames]) ?_
    simp only [List.forall_mem_cons]
    exact ⟨.text horigin, .int hline, .int hcolumn, by simp⟩
  · cases h

/-- The names of the entries of a node differ. -/
theorem nodup_nodeHead (b : Bool) (kind : Kind) (position : Position) {ds : List Data}
    (h : ds.length = kind.fields.length) :
    ((nodeHead b kind position ++ (kind.fields.map (·.name)).zip ds).map (·.1)).Nodup := by
  have hzip : (((kind.fields.map (·.name)).zip ds).map (·.1)) = kind.fields.map (·.name) :=
    List.map_fst_zip (by simp [h])
  have hnew : ∀ {name : String}, name.startsWith "_" = true → name ∉ kind.fields.map (·.name) := by
    intro name hname hmem
    rw [kind.not_startsWith hmem] at hname
    cases hname
  have hfields := kind.nodup_names
  have htype := hnew startsWith_type
  have hposition := hnew startsWith_position
  rw [List.map_append, hzip]
  cases b with
  | true => simp [nodeHead, -List.mem_map, hfields, htype, hposition]
  | false => simp [nodeHead, -List.mem_map, hfields, htype]

mutual

/-- The document of a storable value is simple. -/
theorem simple_encode (hkinds : ∀ kind : Kind, TextOf letter kind.name) (b : Bool) :
    ∀ v : Value, v.Storable letter (Position.IsWritten letter) → v.isComplete = true →
      Simple (TextOf letter) (· ∈ entryNames) (v.encode b)
  | .null, _, _ => .null
  | .bool t, _, _ => .bool t
  | .int _, h, _ => by cases h
  | .real _, h, _ => by cases h
  | .text _, h, _ => by
    cases h with
    | text h => exact .text h
  | .seq items, h, hc => by
    rw [storable_seq] at h
    exact .list (simple_encodeAll hkinds b items h hc)
  | .node kind position fields, h, hc => by
    rw [storable_node] at h
    simp only [Value.isComplete, Bool.and_eq_true, decide_eq_true_eq] at hc
    have hfields := simple_encodeAll hkinds b fields h.2 hc.2
    have hhead : ∀ e ∈ nodeHead b kind position,
        e = ("_type", .text kind.name) ∨ e = ("_position", position.encode) := by
      cases b <;> simp [nodeHead]
    refine .record (nodup_nodeHead b kind position ((encodeAll_length b fields).trans hc.1)) ?_ ?_
    · intro e he
      rcases List.mem_append.1 he with he | he
      · rcases hhead e he with rfl | rfl <;> simp [entryNames]
      · refine List.mem_append_right _ (List.mem_flatMap.2 ⟨kind, kind.mem_all, ?_⟩)
        exact (List.of_mem_zip he).1
    · intro e he
      rcases List.mem_append.1 he with he | he
      · rcases hhead e he with rfl | rfl
        · exact .text (hkinds kind)
        · exact simple_position h.1
      · exact hfields _ (List.of_mem_zip he).2

theorem simple_encodeAll (hkinds : ∀ kind : Kind, TextOf letter kind.name) (b : Bool) :
    ∀ vs : List Value, AllStorable letter (Position.IsWritten letter) vs → areComplete vs = true →
      ∀ d ∈ encodeAll b vs, Simple (TextOf letter) (· ∈ entryNames) d
  | [], _, _ => by simp [encodeAll]
  | v :: rest, h, hc => by
    rw [allStorable_cons] at h
    simp only [areComplete, Bool.and_eq_true] at hc
    rw [encodeAll, List.forall_mem_cons]
    exact ⟨simple_encode hkinds b v h.1 hc.1, simple_encodeAll hkinds b rest h.2 hc.2⟩

end

end Encode

end VerilogLoops.Ast

namespace VerilogLoops

open VerilogLoops.Ast VerilogLoops.Document VerilogLoops.Grammar VerilogLoops.Text

/-- The tree of a text of some characters, or of a text that begins with a loop statement, holds
texts of these characters. Its positions are written with no more digits than can be read if the
text is not too long. -/
theorem storable_of_takes {p : Phrase} {letter : Char → Prop} {origin : String} {code : List Char}
    {tree : ParseTree} {a : Place} (ht : Takes (.phrase p) (.first code) [tree] a) {v : Value}
    (hb : buildIn origin code tree = .ok (.one v)) (horigin : TextOf letter origin)
    (hcode : ∀ c ∈ code, letter c) (hlength : code.length + 1 < 10 ^ Number.digitLimit) :
    v.Storable letter (Position.IsWritten letter) := by
  have hleaves : ∀ l ∈ tree.leaves, ∀ c ∈ l.text.toList, letter c := by
    intro l hl c hc
    have hslice : l.IsSlice code := ht.isSlice (Place.in_first code) l (by simpa using hl)
    rw [Leaf.IsSlice] at hslice
    rw [← hslice] at hc
    exact hcode c (List.mem_of_mem_drop (List.mem_of_mem_take hc))
  refine storable_buildTree (fun offset => ?_) tree hleaves (buildIn_eq_ok.1 hb) v
    List.mem_cons_self
  have hbound := Location.ofOffset_le code offset
  rw [LocationTable.locate_of]
  exact ⟨horigin, by simp; omega, by simp; omega⟩

end VerilogLoops
