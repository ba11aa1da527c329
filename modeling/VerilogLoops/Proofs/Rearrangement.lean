import Mathlib.Logic.Relation
import VerilogLoops.Proofs.Decoding

/-!
# Rearranged documents

A document may be edited without a change to what it is read as: the entries of a node and of its
position may be put in another order, a node may be given entries whose keys begin with an underscore,
whatever they hold, and a position may be given more entries than it needs. `Data.Edit` is one such edit
at any depth, and `Data.Rearranged` any number of them, made or taken back, by which the document stays
one of JSON.

> `decodeValue_of_edit`: an edited document is read as the same value, or not at all if the document was
> not;
> `decodeTree_rearranged`: so is any rearranged one.
-/

namespace VerilogLoops.Document

/-- The entries of a position are put in another order, or one is added that is not looked at. -/
inductive PositionEdit : List (Data × Data) → List (Data × Data) → Prop
  | order {entries entries' : List (Data × Data)} (h : entries.Perm entries') : PositionEdit entries entries'
  | extra {entries : List (Data × Data)} {name : String} {d : Data}
    (h : name ∉ ["origin", "line", "column"]) : PositionEdit entries ((.text name, d) :: entries)

/-- An edit that does not matter: the entries of a node are put in another order, an entry that is passed
over is added to a node, or a position is edited; and so in a field of a node or in an item of a list. -/
inductive Data.Edit : Data → Data → Prop
  | order {entries entries' : List (Data × Data)} (h : entries.Perm entries') :
    Edit (.map entries) (.map entries')
  | aside {entries : List (Data × Data)} {name : String} {d : Data} (h : name.startsWith "_" = true)
    (htype : name ≠ "_type") (hposition : name ≠ "_position") :
    Edit (.map entries) (.map ((.text name, d) :: entries))
  | position {before after entries entries' : List (Data × Data)} (h : PositionEdit entries entries') :
    Edit (.map (before ++ (.text "_position", .map entries) :: after))
      (.map (before ++ (.text "_position", .map entries') :: after))
  | field {before after : List (Data × Data)} {name : String} {d d' : Data}
    (hname : name.startsWith "_" = false) (h : Edit d d') :
    Edit (.map (before ++ (.text name, d) :: after)) (.map (before ++ (.text name, d') :: after))
  | item {before after : List Data} {d d' : Data} (h : Edit d d') :
    Edit (.list (before ++ d :: after)) (.list (before ++ d' :: after))

/-- The one document of JSON arises from the other by edits that are made or taken back. -/
def Data.Rearranged : Data → Data → Prop :=
  Relation.EqvGen fun d d' => d.isJson = true ∧ d'.isJson = true ∧ d.Edit d'

end VerilogLoops.Document

namespace VerilogLoops.Ast

open VerilogLoops.Document

variable {kind : Kind} {entries entries' before after : List (Data × Data)} {name : String} {d d' : Data}
  {v : Value}

/-- What the value of a key is read as: nothing if the key is not there. -/
def readAt (name : String) (entries : List (Data × Data)) : Option (Option Value) :=
  (lookup name entries).map fun d => (decodeValue d).toOption

/-- All that reading a map sees of its entries is the same for both: the type, the position, whether they
are a kind's, and what the fields are read as. -/
structure SameReading (entries entries' : List (Data × Data)) : Prop where
  type : lookup "_type" entries = lookup "_type" entries'
  position : ∀ p, decodeNodePosition entries = .ok p ↔ decodeNodePosition entries' = .ok p
  keys : ∀ kind : Kind, (∀ e ∈ entries, ∃ name, e.1 = .text name ∧ kind.knows name) ↔
    ∀ e ∈ entries', ∃ name, e.1 = .text name ∧ kind.knows name
  fields : ∀ name : String, name.startsWith "_" = false → readAt name entries = readAt name entries'

theorem SameReading.symm (h : SameReading entries entries') : SameReading entries' entries :=
  ⟨h.type.symm, fun p => (h.position p).symm, fun kind => (h.keys kind).symm,
    fun name hname => (h.fields name hname).symm⟩

/-- Maps that look the same are read as the same node. -/
theorem SameReading.decode (h : SameReading entries entries') (hd : (entries'.map (·.1)).Nodup)
    (hv : decodeValue (.map entries) = .ok v) : decodeValue (.map entries') = .ok v := by
  obtain ⟨kind, position, given, hkind, hposition, hfields, hfill⟩ := decodeMap_eq_ok.1 hv
  obtain ⟨hkeys, hvalues⟩ := exists_decodeFields.1 ⟨given, hfields⟩
  -- a field of the one map is read because the same field of the other is
  have hvalues' : ∀ name d', (.text name, d') ∈ entries' → name.startsWith "_" = false →
      ∃ u, decodeValue d' = .ok u := by
    intro name d' hmem hname
    have hread := h.fields name hname
    simp only [readAt, lookup_of_mem hd hmem, Option.map_some, Option.map_eq_some_iff] at hread
    obtain ⟨d, hlookup, hsame⟩ := hread
    obtain ⟨u, hu⟩ := hvalues name d (mem_of_lookup hlookup) hname
    refine ⟨u, ?_⟩
    rw [hu] at hsame
    cases hd' : decodeValue d' with
    | ok u' => rw [hd'] at hsame; cases hsame; rfl
    | error e => rw [hd'] at hsame; cases hsame
  obtain ⟨given', hfields'⟩ := exists_decodeFields.2 ⟨(h.keys kind).1 hkeys, hvalues'⟩
  have hgiven : ∀ name ∈ kind.fields.map (·.name), given.lookup name = given'.lookup name := by
    intro name hmem
    have hname := kind.not_startsWith hmem
    have hjoin : ∀ es, ((lookup name es).bind fun d => (decodeValue d).toOption) = (readAt name es).join := by
      intro es
      unfold readAt
      cases lookup name es <;> rfl
    rw [lookup_of_decodeFields hfields hname, lookup_of_decodeFields hfields' hname, hjoin, hjoin,
      h.fields name hname]
  exact decodeMap_eq_ok.2 ⟨kind, position, given', decodeKind_eq_ok.2 (h.type ▸ decodeKind_eq_ok.1 hkind),
    (h.position position).1 hposition, hfields', fillNode_congr hgiven ▸ hfill⟩

theorem SameReading.decode_iff (h : SameReading entries entries') (hjson : (Data.map entries).isJson = true)
    (hjson' : (Data.map entries').isJson = true) :
    decodeValue (.map entries) = .ok v ↔ decodeValue (.map entries') = .ok v :=
  ⟨h.decode (nodup_of_isJson hjson'), h.symm.decode (nodup_of_isJson hjson)⟩

/-! ## One edit -/

/-- Entries under whose keys the same is found look the same. -/
theorem sameReading_of_lookup (hkeys : ∀ kind : Kind, (∀ e ∈ entries, ∃ name, e.1 = .text name ∧ kind.knows name) ↔
      ∀ e ∈ entries', ∃ name, e.1 = .text name ∧ kind.knows name)
    (h : ∀ key, key = "_type" ∨ key = "_position" ∨ key.startsWith "_" = false →
      lookup key entries = lookup key entries') : SameReading entries entries' where
  type := h _ (.inl rfl)
  position p := by rw [decodeNodePosition, decodeNodePosition, h _ (.inr (.inl rfl))]
  keys := hkeys
  fields name hname := by rw [readAt, readAt, h _ (.inr (.inr hname))]

theorem sameReading_order (hd : (entries.map (·.1)).Nodup) (h : entries.Perm entries') :
    SameReading entries entries' :=
  sameReading_of_lookup (fun _ => forall_congr' fun _ => by rw [h.mem_iff]) fun _ _ => lookup_perm hd h

theorem sameReading_aside (h : name.startsWith "_" = true) (htype : name ≠ "_type")
    (hposition : name ≠ "_position") : SameReading entries ((.text name, d) :: entries) := by
  refine sameReading_of_lookup (fun kind => ?_) fun key hkey => ?_
  · rw [List.forall_mem_cons]
    exact ⟨fun hall => ⟨⟨name, rfl, .inl h⟩, hall⟩, And.right⟩
  · rw [lookup_cons, if_neg]
    rintro ⟨⟩
    rcases hkey with rfl | rfl | hkey
    · exact htype rfl
    · exact hposition rfl
    · rw [h] at hkey
      cases hkey

/-- An edited position is read as the same one. -/
theorem decodePosition_of_edit (h : PositionEdit entries entries') (hd : (entries.map (·.1)).Nodup)
    (p : Position) : decodePosition (.map entries) = .ok p ↔ decodePosition (.map entries') = .ok p := by
  have hlookup : ∀ key ∈ ["origin", "line", "column"], lookup key entries = lookup key entries' := by
    intro key hkey
    cases h with
    | order h => exact lookup_perm hd h
    | extra h =>
      rw [lookup_cons, if_neg]
      rintro ⟨⟩
      exact h hkey
  simp [decodePosition_eq_ok, hlookup]

/-- An entry is found where it stands. -/
theorem lookup_at (hd : ((before ++ (.text name, d) :: after).map (·.1)).Nodup) :
    lookup name (before ++ (.text name, d) :: after) = some d :=
  lookup_of_mem hd (by simp)

/-- Another value in one place leaves the keys as they are. -/
theorem keys_replace (kind : Kind) :
    (∀ e ∈ before ++ (.text name, d) :: after, ∃ name, e.1 = .text name ∧ kind.knows name) ↔
      ∀ e ∈ before ++ (.text name, d') :: after, ∃ name, e.1 = .text name ∧ kind.knows name := by
  simp [or_imp, forall_and]

/-- A position in which an edit was made leaves the map as it is. -/
theorem sameReading_position (h : PositionEdit entries entries')
    (hd : ((before ++ (.text "_position", .map entries) :: after).map (·.1)).Nodup)
    (hd' : ((before ++ (.text "_position", .map entries') :: after).map (·.1)).Nodup)
    (hde : (entries.map (·.1)).Nodup) :
    SameReading (before ++ (.text "_position", .map entries) :: after)
      (before ++ (.text "_position", .map entries') :: after) where
  type := lookup_replace (by decide)
  position p := by
    simp only [decodeNodePosition, lookup_at hd, lookup_at hd']
    exact decodePosition_of_edit h hde p
  keys := keys_replace
  fields name hname := by
    have hne : name ≠ "_position" := by
      rintro rfl
      rw [startsWith_position] at hname
      cases hname
    rw [readAt, readAt, lookup_replace hne]

/-- A field that is read the same leaves the map as it is. -/
theorem sameReading_field (hname : name.startsWith "_" = false)
    (h : ∀ v, decodeValue d = .ok v ↔ decodeValue d' = .ok v)
    (hd : ((before ++ (.text name, d) :: after).map (·.1)).Nodup)
    (hd' : ((before ++ (.text name, d') :: after).map (·.1)).Nodup) :
    SameReading (before ++ (.text name, d) :: after) (before ++ (.text name, d') :: after) := by
  have hne : ∀ {key : String}, key.startsWith "_" = true → key ≠ name := by
    rintro key hkey rfl
    rw [hname] at hkey
    cases hkey
  have hsame : (decodeValue d).toOption = (decodeValue d').toOption := by
    refine Option.ext fun v => ?_
    have hok : ∀ x : Except DecodeError Value, x.toOption = some v ↔ x = .ok v := by
      rintro (_ | _) <;> simp [Except.toOption]
    rw [hok, hok, h v]
  refine ⟨lookup_replace (hne startsWith_type), fun p => ?_, keys_replace, fun other hother => ?_⟩
  · rw [decodeNodePosition, decodeNodePosition, lookup_replace (hne startsWith_position)]
  · by_cases heq : other = name
    · subst heq
      simp [readAt, lookup_at hd, lookup_at hd', hsame]
    · rw [readAt, readAt, lookup_replace heq]

/-- Lists in which one item is read the same are read as the same lists. -/
theorem decodeItems_replace (h : ∀ v, decodeValue d = .ok v ↔ decodeValue d' = .ok v)
    (before after : List Data) (vs : List Value) :
    decodeItems (before ++ d :: after) = .ok vs ↔ decodeItems (before ++ d' :: after) = .ok vs := by
  induction before generalizing vs with
  | nil => simp [decodeItems, bind_eq_ok, h]
  | cons b before ih => simp [decodeItems, bind_eq_ok, ih]

/-- An edited document is read as the same value. -/
theorem decodeValue_of_edit (h : d.Edit d') (hjson : d.isJson = true) (hjson' : d'.isJson = true) (v : Value) :
    decodeValue d = .ok v ↔ decodeValue d' = .ok v := by
  induction h generalizing v with
  | order h => exact (sameReading_order (nodup_of_isJson hjson) h).decode_iff hjson hjson'
  | aside h htype hposition => exact (sameReading_aside h htype hposition).decode_iff hjson hjson'
  | @position before after entries entries' h =>
    have hentries : (Data.map entries).isJson = true :=
      isJson_of_mem hjson (e := (.text "_position", .map entries)) (by simp)
    exact (sameReading_position h (nodup_of_isJson hjson) (nodup_of_isJson hjson')
      (nodup_of_isJson hentries)).decode_iff hjson hjson'
  | @field before after name d d' hname _ ih =>
    have hd : d.isJson = true := isJson_of_mem hjson (e := (.text name, d)) (by simp)
    have hd' : d'.isJson = true := isJson_of_mem hjson' (e := (.text name, d')) (by simp)
    exact (sameReading_field hname (ih hd hd') (nodup_of_isJson hjson)
      (nodup_of_isJson hjson')).decode_iff hjson hjson'
  | @item before after d d' _ ih =>
    rw [Data.isJson, areJson_iff] at hjson hjson'
    have hitems := decodeItems_replace (ih (hjson d (by simp)) (hjson' d' (by simp))) before after
    simp [decodeValue, bind_eq_ok, hitems]

end VerilogLoops.Ast

namespace VerilogLoops

open VerilogLoops.Ast VerilogLoops.Document

/-- An edited document is read as the same tree. -/
theorem decodeTree_of_edit {d d' : Data} (h : d.Edit d') (hjson : d.isJson = true) (hjson' : d'.isJson = true)
    (tree : Option Value) : decodeTree d = .ok tree ↔ decodeTree d' = .ok tree := by
  have hvalue := decodeValue_of_edit h hjson hjson'
  cases h with
  | item h => simp [decodeTree]
  | _ => simp only [decodeTree, bind_eq_ok, hvalue]

/-- **Rearranging a document does not change its tree.** Documents of JSON that arise from each other by
putting the entries of nodes and positions in another order, by adding, changing or removing entries of
nodes whose keys begin with an underscore, other than the type and the position, and by adding or removing
entries of positions other than the origin, the line and the column, in any number and at any depth, are
read as the same tree, or neither is read. -/
theorem decodeTree_rearranged {d d' : Data} (h : d.Rearranged d') (tree : Option Value) :
    decodeTree d = .ok tree ↔ decodeTree d' = .ok tree := by
  induction h with
  | rel d d' h => exact decodeTree_of_edit h.2.2 h.1 h.2.1 tree
  | refl d => rfl
  | symm d d' _ ih => exact ih.symm
  | trans d d' d'' _ _ ih ih' => exact ih.trans ih'

/-- A node in whose operand the type and the position change places and the position is turned around and
gets an entry that is not looked at, and which gets a document that is no tree under a key to pass over, and
is turned around itself. -/
theorem decodeTree_rearranged_node :
    let position : Data := .record [("origin", .text "a"), ("line", .int 1), ("column", .int 2)]
    let turned : Data := .record [("column", .int 2), ("note", .null), ("line", .int 1), ("origin", .text "a")]
    let document : Data := .record [("_type", .text "UnaryOp"), ("op", .text "-"),
      ("operand", .record [("_type", .text "NullStatement"), ("_position", position)])]
    let edited : Data := .record
      [("operand", .record [("_position", turned), ("_type", .text "NullStatement")]),
       ("_x", .record [("_type", .list [])]), ("op", .text "-"), ("_type", .text "UnaryOp")]
    document.Rearranged edited ∧ decodeTree edited = .ok (some (.node .unaryOp .unknown
      [.text "-", .node .nullStatement ⟨.text "a", .int 1, .int 2⟩ [.seq []]])) := by
  intro position turned document edited
  -- the head of the node, and the node with a given operand
  let head : List (Data × Data) := [(.text "_type", .text "UnaryOp"), (.text "op", .text "-")]
  let around (d : Data) : Data := .map (head ++ [(Data.text "operand", d)])
  have hinside : ∀ {d d' : Data}, d.Edit d' → (around d).Edit (around d') :=
    fun h => .field (by decide +kernel) h
  let noted : Data := .record
    [("note", .null), ("origin", .text "a"), ("line", .int 1), ("column", .int 2)]
  let operand (p : Data) : Data := .record [("_position", p), ("_type", .text "NullStatement")]
  have hfirst : document.Edit (around (operand position)) := hinside (.order (.swap _ _ _))
  have hsecond : (around (operand position)).Edit (around (operand noted)) :=
    hinside (@Data.Edit.position [] _ _ _ (.extra (by decide)))
  have hthird : (around (operand noted)).Edit (around (operand turned)) :=
    hinside (@Data.Edit.position [] _ _ _ (.order (by decide +kernel)))
  have hfourth : (around (operand turned)).Edit (.map ((.text "_x", .record [("_type", .list [])])
      :: head ++ [(Data.text "operand", operand turned)])) :=
    .aside (by decide +kernel) (by decide) (by decide)
  have hfifth : Data.Edit (.map ((.text "_x", .record [("_type", .list [])])
      :: head ++ [(Data.text "operand", operand turned)])) edited := .order (by decide +kernel)
  have hrearranged : document.Rearranged edited :=
    .trans _ _ _ (.rel _ _ ⟨by decide +kernel, by decide +kernel, hfirst⟩)
      (.trans _ _ _ (.rel _ _ ⟨by decide +kernel, by decide +kernel, hsecond⟩)
        (.trans _ _ _ (.rel _ _ ⟨by decide +kernel, by decide +kernel, hthird⟩)
          (.trans _ _ _ (.rel _ _ ⟨by decide +kernel, by decide +kernel, hfourth⟩)
            (.rel _ _ ⟨by decide +kernel, by decide +kernel, hfifth⟩))))
  exact ⟨hrearranged, (decodeTree_rearranged hrearranged _).1 (by decide +kernel)⟩

end VerilogLoops
