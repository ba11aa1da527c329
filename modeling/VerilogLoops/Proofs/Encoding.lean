import Mathlib.Data.List.Basic
import VerilogLoops.Ast.Decode
import VerilogLoops.Ast.Encode
import VerilogLoops.Proofs.Typing

/-!
# Trees as documents and back

A node is written as a map from names to documents and read by looking the names up again. Nothing
is lost if the node has one value for each field of its kind; such a tree is *complete*. Trees from
source text are complete because they are well typed, and trees from documents because a node is
only made when every field is there.

> `decodeValue_encode`: a complete tree is read back from its document, with its positions or, if
> they were left out, with the unknown position in their place.
-/

namespace VerilogLoops.Ast

open VerilogLoops.Document VerilogLoops.Grammar

/-! ## The names of fields -/

theorem Kind.ofName?_name (kind : Kind) : Kind.ofName? kind.name = some kind := by
  cases kind <;> decide

theorem Kind.nodup_names (kind : Kind) : (kind.fields.map (·.name)).Nodup := by
  cases kind <;> decide

/-- The name of a field does not start with the mark of the entries that are passed over. -/
theorem Kind.not_startsWith (kind : Kind) {name : String}
    (h : name ∈ kind.fields.map (·.name)) : name.startsWith "_" = false := by
  have key : ∀ kind : Kind, ∀ name ∈ kind.fields.map (·.name), name.startsWith "_" = false := by
    decide +kernel
  exact key kind name h

theorem startsWith_type : "_type".startsWith "_" = true := by decide +kernel

theorem startsWith_position : "_position".startsWith "_" = true := by decide +kernel

/-- No field is looked up under the key of an entry that is passed over. -/
theorem Kind.lookup_zip (kind : Kind) {key : String} (hkey : key.startsWith "_" = true)
    (ds : List Data) :
    lookup key (((kind.fields.map (·.name)).zip ds).map fun e => (.text e.1, e.2)) = none := by
  simp only [lookup, Option.map_eq_none_iff, List.find?_eq_none, List.mem_map,
    decide_eq_true_eq, forall_exists_index, and_imp]
  rintro _ ⟨name, d⟩ he rfl heq
  have hname := kind.not_startsWith (List.of_mem_zip he).1
  cases heq
  rw [hkey] at hname
  cases hname

/-! ## Complete trees -/

mutual

/-- Every node of the value has one value for each field of its kind. -/
def Value.isComplete : Value → Bool
  | .seq items => areComplete items
  | .node kind _ fields => fields.length = kind.fields.length && areComplete fields
  | _ => true

/-- The values are complete. -/
def areComplete : List Value → Bool
  | [] => true
  | v :: rest => v.isComplete && areComplete rest

end

theorem areComplete_iff {vs : List Value} :
    areComplete vs = true ↔ ∀ v ∈ vs, v.isComplete = true := by
  induction vs with
  | nil => simp [areComplete]
  | cons v rest ih => simp [areComplete, ih]

theorem haveTypes_length {types : List FieldType} {vs : List Value}
    (h : haveTypes types vs = true) : vs.length = types.length := by
  induction types generalizing vs with
  | nil =>
    cases vs with
    | nil => rfl
    | cons => cases h
  | cons t types ih =>
    cases vs with
    | nil => cases h
    | cons v vs =>
      simp only [haveTypes, Bool.and_eq_true] at h
      simp [ih h.2]

theorem Kind.length_types (kind : Kind) : kind.types.length = kind.fields.length := by
  cases kind <;> rfl

mutual

/-- Well-formed nodes have a value for each field. -/
theorem isComplete_of_nodes : ∀ v : Value, (∀ n ∈ v.nodes, n.isWellFormed = true) →
    v.isComplete = true
  | .seq items, h => areComplete_of_nodes items h
  | .node kind position fields, h => by
    simp only [Value.nodes, List.forall_mem_cons] at h
    obtain ⟨hnode, hfields⟩ := h
    simp only [Value.isWellFormed, Kind.admits, Bool.and_eq_true] at hnode
    have hlength := haveTypes_length hnode.2.1.1
    simp [Value.isComplete, hlength, kind.length_types, areComplete_of_nodes fields hfields]
  | .null, _ | .bool _, _ | .int _, _ | .real _, _ | .text _, _ => rfl

/-- Values of well-formed nodes are complete. -/
theorem areComplete_of_nodes : ∀ vs : List Value, (∀ n ∈ nodesOfAll vs, n.isWellFormed = true) →
    areComplete vs = true
  | [], _ => rfl
  | v :: rest, h => by
    simp only [nodesOfAll, List.mem_append] at h
    simp [areComplete, isComplete_of_nodes v fun n hn => h n (Or.inl hn),
      areComplete_of_nodes rest fun n hn => h n (Or.inr hn)]

end

/-- A well-typed tree is complete. -/
theorem isComplete_of_isTyped {v : Value} (h : v.isTyped = true) : v.isComplete = true :=
  isComplete_of_nodes v (List.all_eq_true.1 h)

/-! ## Trees from documents are complete -/

/-- A node is made of one value for each field, taken from those that were read. -/
theorem fillNode_eq_ok {kind : Kind} {position : Position} {given : List (String × Value)}
    {v : Value} (h : fillNode kind position given = .ok v) :
    ∃ fields, v = .node kind position fields ∧
      kind.fields.map (·.fill given) = fields.map some := by
  unfold fillNode at h
  split at h
  · next hnone =>
    cases h
    refine ⟨_, rfl, ?_⟩
    have hall : ∀ f ∈ kind.fields, f.fill given ≠ none := by
      simpa using hnone
    clear hnone
    generalize kind.fields = fields at hall
    induction fields with
    | nil => rfl
    | cons f fields ih =>
      simp only [List.forall_mem_cons] at hall
      obtain ⟨u, hu⟩ := Option.ne_none_iff_exists'.1 hall.1
      simp [hu, ih hall.2]
  · cases h

theorem isComplete_of_fill {given : List (String × Value)}
    (hg : ∀ e ∈ given, e.2.isComplete = true) {f : Field} {v : Value}
    (h : f.fill given = some v) : v.isComplete = true := by
  unfold Field.fill at h
  split at h
  · next u _ hu =>
    cases h
    obtain ⟨e, he, rfl⟩ : ∃ e ∈ given, e.2 = v := by
      clear hg
      induction given with
      | nil => cases hu
      | cons e rest ih =>
        rw [List.lookup_cons] at hu
        split at hu
        · cases hu
          exact ⟨e, List.mem_cons_self, rfl⟩
        · obtain ⟨e', he', heq⟩ := ih hu
          exact ⟨e', List.mem_cons_of_mem _ he', heq⟩
    exact hg e he
  · cases h
    rfl
  · cases h
    rfl
  · cases h

mutual

/-- The value that is read from a document is complete. -/
theorem isComplete_of_decodeValue : ∀ (d : Data) {v : Value}, decodeValue d = .ok v →
    v.isComplete = true
  | .list items, v, h => by
    simp only [decodeValue, bind_eq_ok, pure_eq_ok, Except.ok.injEq] at h
    obtain ⟨vs, hvs, rfl⟩ := h
    exact areComplete_of_decodeItems items hvs
  | .map entries, v, h => by
    simp only [decodeValue, bind_eq_ok] at h
    obtain ⟨kind, -, position, -, given, hgiven, hnode⟩ := h
    obtain ⟨fields, rfl, hfill⟩ := fillNode_eq_ok hnode
    have hall := isComplete_of_decodeFields kind entries hgiven
    have hlength : fields.length = kind.fields.length := by
      simpa using (congrArg List.length hfill).symm
    have hfields : areComplete fields = true := by
      rw [areComplete_iff]
      intro u hu
      have hmem : some u ∈ kind.fields.map (·.fill given) := by
        rw [hfill]
        exact List.mem_map_of_mem hu
      obtain ⟨f, -, hf⟩ := List.mem_map.1 hmem
      exact isComplete_of_fill hall hf
    simp [Value.isComplete, hlength, hfields]
  | .null, v, h | .bool _, v, h | .int _, v, h | .real _, v, h | .text _, v, h => by
    cases h
    rfl
  | .set _, v, h | .pair .., v, h | .binary _, v, h | .date .., v, h | .moment .., v, h => by
    cases h

/-- The values that are read from the items of a list are complete. -/
theorem areComplete_of_decodeItems : ∀ (ds : List Data) {vs : List Value},
    decodeItems ds = .ok vs → areComplete vs = true
  | [], vs, h => by
    cases h
    rfl
  | d :: rest, vs, h => by
    simp only [decodeItems, bind_eq_ok, pure_eq_ok, Except.ok.injEq] at h
    obtain ⟨v, hv, us, hus, rfl⟩ := h
    simp [areComplete, isComplete_of_decodeValue d hv, areComplete_of_decodeItems rest hus]

/-- The values that are read for the fields of a node are complete. -/
theorem isComplete_of_decodeFields (kind : Kind) : ∀ (entries : List (Data × Data))
    {given : List (String × Value)}, decodeFields kind entries = .ok given →
      ∀ e ∈ given, e.2.isComplete = true
  | [], given, h => by
    cases h
    simp
  | (.text name, d) :: rest, given, h => by
    rw [decodeFields] at h
    split at h
    · exact isComplete_of_decodeFields kind rest h
    · split at h
      · cases h
      · simp only [bind_eq_ok, pure_eq_ok, Except.ok.injEq] at h
        obtain ⟨v, hv, more, hmore, rfl⟩ := h
        simp only [List.forall_mem_cons]
        exact ⟨isComplete_of_decodeValue d hv, isComplete_of_decodeFields kind rest hmore⟩
  | (.null, _) :: _, given, h | (.bool _, _) :: _, given, h | (.int _, _) :: _, given, h
  | (.real _, _) :: _, given, h | (.list _, _) :: _, given, h | (.map _, _) :: _, given, h
  | (.set _, _) :: _, given, h | (.pair .., _) :: _, given, h | (.binary _, _) :: _, given, h
  | (.date .., _) :: _, given, h | (.moment .., _) :: _, given, h => by
    simp [decodeFields] at h

end

theorem decodeTree_eq_ok {d : Data} {v : Value} :
    decodeTree d = .ok (some v) ↔ decodeValue d = .ok v ∧ ∃ entries, d = .map entries := by
  cases d <;> simp [decodeTree, bind_eq_ok]

/-! ## What is written is read back -/

/-- The value with its positions, or with the unknown one in their place. -/
def Value.located (withPositions : Bool) (v : Value) : Value :=
  if withPositions then v else v.withoutPositions

theorem allWithoutPositions_eq_map (vs : List Value) :
    allWithoutPositions vs = vs.map Value.withoutPositions := by
  induction vs with
  | nil => rfl
  | cons v rest ih => rw [allWithoutPositions, ih, List.map_cons]

theorem located_seq (b : Bool) (items : List Value) :
    (Value.seq items).located b = .seq (items.map (·.located b)) := by
  cases b <;> simp [Value.located, Value.withoutPositions, allWithoutPositions_eq_map]

theorem located_node (b : Bool) (kind : Kind) (position : Position) (fields : List Value) :
    (Value.node kind position fields).located b =
      .node kind (if b then position else .unknown) (fields.map (·.located b)) := by
  cases b <;> simp [Value.located, Value.withoutPositions, allWithoutPositions_eq_map]

theorem encodeAll_length (b : Bool) (vs : List Value) : (encodeAll b vs).length = vs.length := by
  induction vs with
  | nil => rfl
  | cons v rest ih => simp [encodeAll, ih]

theorem decodePosition_encode (p : Position) : decodePosition p.encode = .ok p := by
  simp [decodePosition, Position.encode, Data.record, lookup]

/-- The entries of a node that are not fields. -/
def nodeHead (b : Bool) (kind : Kind) (position : Position) : List (String × Data) :=
  ("_type", .text kind.name) :: if b then [("_position", position.encode)] else []

theorem decodeKind_encode (b : Bool) (kind : Kind) (position : Position)
    (entries : List (Data × Data)) :
    decodeKind ((nodeHead b kind position).map (fun e => (Data.text e.1, e.2)) ++ entries)
      = .ok kind := by
  simp [decodeKind, nodeHead, lookup, kind.ofName?_name]

theorem decodeNodePosition_encode (b : Bool) (kind : Kind) (position : Position) (ds : List Data) :
    decodeNodePosition ((nodeHead b kind position).map (fun e => (Data.text e.1, e.2))
        ++ ((kind.fields.map (·.name)).zip ds).map fun e => (Data.text e.1, e.2))
      = .ok (if b then position else .unknown) := by
  cases b with
  | true => simp [decodeNodePosition, nodeHead, lookup, decodePosition_encode]
  | false =>
    have hnone := kind.lookup_zip startsWith_position ds
    simp only [lookup, Option.map_eq_none_iff] at hnone
    simp [decodeNodePosition, nodeHead, lookup, hnone]

/-- The entries that are not fields are passed over. -/
theorem decodeFields_head (b : Bool) (kind : Kind) (position : Position)
    (entries : List (Data × Data)) :
    decodeFields kind ((nodeHead b kind position).map (fun e => (Data.text e.1, e.2)) ++ entries)
      = decodeFields kind entries := by
  cases b <;> simp [nodeHead, decodeFields, startsWith_type, startsWith_position]

/-- Fields are read one by one, each under its own name. -/
theorem decodeFields_zip (kind : Kind) {names : List String} {ds : List Data} {vs : List Value}
    (hn : ∀ n ∈ names, n ∈ kind.fields.map (·.name)) (h : decodeItems ds = .ok vs) :
    decodeFields kind ((names.zip ds).map fun e => (.text e.1, e.2)) = .ok (names.zip vs) := by
  induction names generalizing ds vs with
  | nil => simp [decodeFields]
  | cons name names ih =>
    cases ds with
    | nil =>
      cases h
      simp [decodeFields]
    | cons d ds =>
      simp only [decodeItems, bind_eq_ok, pure_eq_ok, Except.ok.injEq] at h
      obtain ⟨v, hv, us, hus, rfl⟩ := h
      simp only [List.forall_mem_cons] at hn
      -- an entry is passed over only if no field has its name
      have hknown : (kind.fields.all (·.name ≠ name)) = false := by
        obtain ⟨f, hf, rfl⟩ := List.mem_map.1 hn.1
        exact List.all_eq_false.2 ⟨f, hf, by simp⟩
      rw [List.zip_cons_cons, List.map_cons, decodeFields, kind.not_startsWith hn.1, hknown,
        hv, ih hn.2 hus]
      rfl

/-- Every field finds the value that was written under its name. -/
theorem fill_zip {fields : List Field} (hd : (fields.map (·.name)).Nodup) {vs : List Value}
    (hl : vs.length = fields.length) :
    fields.map (·.fill ((fields.map (·.name)).zip vs)) = vs.map some := by
  induction fields generalizing vs with
  | nil =>
    cases vs with
    | nil => rfl
    | cons => cases hl
  | cons f fields ih =>
    cases vs with
    | nil => cases hl
    | cons v vs =>
      rw [List.map_cons, List.nodup_cons] at hd
      -- the names differ, so no other field finds the first value
      have hrest : fields.map (·.fill (((f.name :: fields.map (·.name))).zip (v :: vs)))
          = fields.map (·.fill ((fields.map (·.name)).zip vs)) := by
        refine List.map_congr_left fun g hg => ?_
        have hne : g.name ≠ f.name := fun heq => hd.1 (heq ▸ List.mem_map_of_mem hg)
        simp [Field.fill, List.lookup_cons, beq_false_of_ne hne]
      rw [List.map_cons, List.map_cons, hrest, ih hd.2 (by simpa using hl), List.map_cons]
      simp [Field.fill]

/-- A node is made of the values that were written for its fields. -/
theorem fillNode_zip (kind : Kind) (position : Position) {vs : List Value}
    (hl : vs.length = kind.fields.length) :
    fillNode kind position ((kind.fields.map (·.name)).zip vs) = .ok (.node kind position vs) := by
  have hfill := fill_zip kind.nodup_names hl
  -- no field is left without a value
  have hnone : kind.fields.filter
      (fun f => (f.fill ((kind.fields.map (·.name)).zip vs)).isNone) = [] := by
    rw [List.filter_eq_nil_iff]
    intro f hf
    have hmem : f.fill ((kind.fields.map (·.name)).zip vs) ∈ vs.map some := by
      rw [← hfill]
      exact List.mem_map_of_mem hf
    obtain ⟨v, -, hv⟩ := List.mem_map.1 hmem
    simp [← hv]
  have hvalues : kind.fields.filterMap (·.fill ((kind.fields.map (·.name)).zip vs)) = vs :=
    calc kind.fields.filterMap (·.fill ((kind.fields.map (·.name)).zip vs))
        = (kind.fields.map (·.fill ((kind.fields.map (·.name)).zip vs))).filterMap id := by
          rw [List.filterMap_map]
          rfl
      _ = vs := by
          rw [hfill, List.filterMap_map]
          exact List.filterMap_some
  rw [fillNode, hnone, hvalues]
  rfl

mutual

/-- A complete value is read back from its document. -/
theorem decodeValue_encode (b : Bool) : ∀ v : Value, v.isComplete = true →
    decodeValue (v.encode b) = .ok (v.located b)
  | .seq items, h => by
    rw [Value.encode, decodeValue, decodeItems_encode b items h, located_seq]
    rfl
  | .node kind position fields, h => by
    simp only [Value.isComplete, Bool.and_eq_true, decide_eq_true_eq] at h
    have hitems := decodeItems_encode b fields h.2
    have hlength : (fields.map (·.located b)).length = kind.fields.length := by simp [h.1]
    have hfields := decodeFields_zip kind (fun _ hn => hn) hitems
    have hmap : (Value.node kind position fields).encode b =
        .map ((nodeHead b kind position).map (fun e => (Data.text e.1, e.2))
          ++ ((kind.fields.map (·.name)).zip (encodeAll b fields)).map
            fun e => (Data.text e.1, e.2)) := by
      rw [Value.encode, encodeNode, Data.record, List.map_append]
      rfl
    rw [hmap, decodeValue, decodeKind_encode, ok_bind, decodeNodePosition_encode, ok_bind,
      decodeFields_head, hfields, ok_bind, fillNode_zip kind _ hlength, located_node]
  | .null, _ | .bool _, _ | .int _, _ | .real _, _ | .text _, _ => by
    cases b <;> rfl

/-- Complete values are read back from their documents. -/
theorem decodeItems_encode (b : Bool) : ∀ vs : List Value, areComplete vs = true →
    decodeItems (encodeAll b vs) = .ok (vs.map (·.located b))
  | [], _ => rfl
  | v :: rest, h => by
    simp only [areComplete, Bool.and_eq_true] at h
    rw [encodeAll, decodeItems, decodeValue_encode b v h.1, decodeItems_encode b rest h.2]
    rfl

end

/-- A complete node is read back from its document as a tree. -/
theorem decodeTree_encode (b : Bool) {v : Value} (hn : ∃ kind position fields,
    v = .node kind position fields) (h : v.isComplete = true) :
    decodeTree (v.encode b) = .ok (some (v.located b)) := by
  obtain ⟨kind, position, fields, rfl⟩ := hn
  exact decodeTree_eq_ok.2 ⟨decodeValue_encode b _ h, _, rfl⟩

/-- What is read from a map is a node. -/
theorem isNode_of_decodeTree {d : Data} {v : Value} (h : decodeTree d = .ok (some v)) :
    ∃ kind position fields, v = .node kind position fields := by
  obtain ⟨hv, entries, rfl⟩ := decodeTree_eq_ok.1 h
  simp only [decodeValue, bind_eq_ok] at hv
  obtain ⟨kind, -, position, -, given, -, hnode⟩ := hv
  obtain ⟨fields, rfl, -⟩ := fillNode_eq_ok hnode
  exact ⟨kind, position, fields, rfl⟩

theorem isNode_of_isA {v : Value} {family : Family} (h : v.isA family = true) :
    ∃ kind position fields, v = .node kind position fields := by
  cases v with
  | node kind position fields => exact ⟨kind, position, fields, rfl⟩
  | _ => cases h

end VerilogLoops.Ast

namespace VerilogLoops

open VerilogLoops.Ast VerilogLoops.Document VerilogLoops.Grammar

/-- A tree that the library gives: from a text that is a loop statement, from one that begins with a
loop statement, from a file, or from a document. -/
inductive Arises (v : Value) : Prop
  | parsed {origin text : String} (h : parse origin text = .ok v)
  | ahead {origin text rest : String} (h : parsePrefix origin text = .ok (v, rest))
  | filed {directory name : String} {contents : Option ByteArray}
    (h : parseFile directory name contents = .ok v)
  | decoded {d : Data} (h : decodeTree d = .ok (some v))

/-- What is parsed is a well-typed loop statement. -/
theorem isTyped_of_parse {origin text : String} {v : Value} (h : parse origin text = .ok v) :
    v.isA .loop = true ∧ v.isTyped = true := by
  obtain ⟨tree, a, ht, hb⟩ := parse_eq_ok.1 h
  exact isTyped_of_takes (Or.inr rfl) ht hb

/-- What is parsed at the head of a text is a well-typed loop statement. -/
theorem isTyped_of_parsePrefix {origin text rest : String} {v : Value}
    (h : parsePrefix origin text = .ok (v, rest)) : v.isA .loop = true ∧ v.isTyped = true := by
  obtain ⟨tree, a, ht, hb, -⟩ := parsePrefix_eq_ok.1 h
  exact isTyped_of_takes (Or.inl rfl) ht hb

/-- The tree of a file is the tree of its text. -/
theorem parse_of_parseFile {directory name : String} {contents : Option ByteArray} {v : Value}
    (h : parseFile directory name contents = .ok v) :
    ∃ origin text, parse origin text = .ok v := by
  unfold parseFile at h
  split at h
  · cases h
  · split at h
    · cases h
    · dsimp only at h
      split at h
      · next hv =>
        cases h
        exact ⟨_, _, hv⟩
      · cases h

/-- A tree that the library gives is a complete node. -/
theorem Arises.isComplete {v : Value} (h : Arises v) :
    (∃ kind position fields, v = .node kind position fields) ∧ v.isComplete = true := by
  cases h with
  | parsed h =>
    obtain ⟨hloop, htyped⟩ := isTyped_of_parse h
    exact ⟨isNode_of_isA hloop, isComplete_of_isTyped htyped⟩
  | ahead h =>
    obtain ⟨hloop, htyped⟩ := isTyped_of_parsePrefix h
    exact ⟨isNode_of_isA hloop, isComplete_of_isTyped htyped⟩
  | filed h =>
    obtain ⟨origin, text, h⟩ := parse_of_parseFile h
    obtain ⟨hloop, htyped⟩ := isTyped_of_parse h
    exact ⟨isNode_of_isA hloop, isComplete_of_isTyped htyped⟩
  | decoded h =>
    exact ⟨isNode_of_decodeTree h, isComplete_of_decodeValue _ (decodeTree_eq_ok.1 h).1⟩

/-- **Documents lose nothing.** Whatever tree the library gives, from source text or from a document
with any values in any fields, is read back from its document. If positions are left out of the
document, the tree is read back with the unknown position at every node. -/
theorem documents_lose_nothing {v : Value} (h : Arises v) :
    decodeTree (v.encode true) = .ok (some v) ∧
      decodeTree (v.encode false) = .ok (some v.withoutPositions) := by
  obtain ⟨hnode, hcomplete⟩ := h.isComplete
  exact ⟨decodeTree_encode true hnode hcomplete, decodeTree_encode false hnode hcomplete⟩

/-- A node whose document has an entry to pass over, a field left out further inside, a sequence in
the place of an operand and a position of odd values. -/
theorem documents_lose_nothing_oddities :
    let document : Data := .record
      [("op", .bool true), ("_note", .int 3),
       ("operand", .list [.null, .list [], .record [("_type", .text "NullStatement")]]),
       ("_position", .record [("column", .list []), ("line", .null), ("origin", .record [])]),
       ("_type", .text "UnaryOp")]
    let tree : Value := .node .unaryOp ⟨.record [], .null, .list []⟩
      [.bool true, .seq [.null, .seq [], .node .nullStatement .unknown [.seq []]]]
    decodeTree document = .ok (some tree) ∧ decodeTree (tree.encode true) = .ok (some tree) ∧
      decodeTree (tree.encode false) = .ok (some tree.withoutPositions) := by
  intro document tree
  have hread : decodeTree document = .ok (some tree) := by decide +kernel
  exact ⟨hread, documents_lose_nothing (.decoded hread)⟩

end VerilogLoops
