import VerilogLoops.Proofs.Decoding

/-!
# Which documents are trees

What reading a document asks of it is told here without reading it: `Data.IsWellFormed` says which
documents stand for values, and `Data.FailsAtType` that, of all that is asked of the document in its
own order and from the inside out, the first thing that does not hold is that a type is no list and
no map. Nothing else that is asked of a document of JSON can fail in any way but one.

> `decodeTree_outcome`: a document of JSON is read as a tree just if it is none or a well-formed node;
> if it is not, the error is about a type or about a value, and which of the two is told by where
> the document fails first.
-/

namespace VerilogLoops.Document

open VerilogLoops.Ast

/-- The document is a list or a map. -/
def Data.IsCompound (d : Data) : Prop :=
  (∃ items, d = .list items) ∨ ∃ entries, d = .map entries

/-- The document is a map with an origin, a line and a column. -/
def Data.IsPosition (d : Data) : Prop :=
  ∃ entries, d = .map entries ∧ ∀ key ∈ ["origin", "line", "column"], (lookup key entries).isSome = true

/-- What holds of scalars, of lists if it holds of their items and of maps if it holds of the values
of their entries holds of all documents. -/
@[elab_as_elim]
theorem Data.value_induction {P : Data → Prop} (list : ∀ items, (∀ d ∈ items, P d) → P (.list items))
    (map : ∀ entries, (∀ e ∈ entries, P e.2) → P (.map entries))
    (scalar : ∀ d : Data, ¬ d.IsCompound → P d) : ∀ d, P d
  | .list items => list items fun d _ => Data.value_induction list map scalar d
  | .map entries => map entries fun e _ => Data.value_induction list map scalar e.2
  | .null | .bool _ | .int _ | .real _ | .text _ | .set _ | .pair .. | .binary _ | .date .. | .moment .. =>
    scalar _ (by rintro (⟨_, ⟨⟩⟩ | ⟨_, ⟨⟩⟩))
termination_by d => sizeOf d
decreasing_by
  · have := List.sizeOf_lt_of_mem ‹d ∈ items›
    simp
    omega
  · have := List.sizeOf_lt_of_mem ‹e ∈ entries›
    have : sizeOf e = 1 + sizeOf e.1 + sizeOf e.2 := by
      cases e
      rfl
    simp
    omega

/-! ## What is asked of a document -/

/-- The document stands for a value: it is a scalar, a list of such documents or a node. A node names its
kind as its type, has a position that is one or none, has no entries but those of its kind, with
documents that stand for values in its fields, and has every field that may not be left out. -/
inductive Data.IsWellFormed : Data → Prop
  | null : IsWellFormed .null
  | bool (b : Bool) : IsWellFormed (.bool b)
  | int (i : Int) : IsWellFormed (.int i)
  | real (r : Number.Binary64) : IsWellFormed (.real r)
  | text (s : String) : IsWellFormed (.text s)
  | list {items : List Data} (h : ∀ d ∈ items, IsWellFormed d) : IsWellFormed (.list items)
  | node {kind : Kind} {entries : List (Data × Data)}
    (htype : lookup "_type" entries = some (.text kind.name))
    (hposition : ∀ d, lookup "_position" entries = some d → d.IsPosition)
    (hkeys : ∀ e ∈ entries, ∃ name, e.1 = .text name ∧ kind.knows name)
    (hvalues : ∀ name d, (.text name, d) ∈ entries → name.startsWith "_" = false → IsWellFormed d)
    (hrequired : ∀ f ∈ kind.fields, f.fallback = .required → (lookup f.name entries).isSome = true) :
    IsWellFormed (.map entries)

/-- The first thing asked of the document that does not hold, in its own order and from the inside out,
is that a type is no list and no map. -/
inductive Data.FailsAtType : Data → Prop
  | here {entries : List (Data × Data)} {d : Data} (htype : lookup "_type" entries = some d)
    (h : d.IsCompound) : FailsAtType (.map entries)
  | item {before after : List Data} {d : Data} (hbefore : ∀ b ∈ before, b.IsWellFormed)
    (h : FailsAtType d) : FailsAtType (.list (before ++ d :: after))
  | field {kind : Kind} {name : String} {before after : List (Data × Data)} {d : Data}
    (htype : lookup "_type" (before ++ (.text name, d) :: after) = some (.text kind.name))
    (hposition : ∀ p, lookup "_position" (before ++ (.text name, d) :: after) = some p → p.IsPosition)
    (hbefore : kind.Covers Data.IsWellFormed before) (hname : name ∈ kind.fields.map (·.name))
    (h : FailsAtType d) : FailsAtType (.map (before ++ (.text name, d) :: after))

/-- The document stands for a tree, or for none. -/
def Data.IsTree (d : Data) : Prop :=
  d = .null ∨ (∃ entries, d = .map entries) ∧ d.IsWellFormed

end VerilogLoops.Document

namespace VerilogLoops.Ast

open VerilogLoops.Document

variable {kind : Kind} {entries : List (Data × Data)} {d : Data} {e : DecodeError}

/-! ## What is read -/

theorem exists_decodePosition : (∃ p, decodePosition d = .ok p) ↔ d.IsPosition := by
  simp only [decodePosition_eq_ok, Data.IsPosition, List.forall_mem_cons, List.not_mem_nil,
    Option.isSome_iff_exists]
  constructor
  · rintro ⟨p, es, rfl, ho, hl, hc⟩
    exact ⟨es, rfl, ⟨_, ho⟩, ⟨_, hl⟩, ⟨_, hc⟩, by simp⟩
  · rintro ⟨es, rfl, ⟨origin, ho⟩, ⟨line, hl⟩, ⟨column, hc⟩, -⟩
    exact ⟨⟨origin, line, column⟩, es, rfl, ho, hl, hc⟩

theorem exists_decodeNodePosition : (∃ p, decodeNodePosition entries = .ok p) ↔
    ∀ d, lookup "_position" entries = some d → d.IsPosition := by
  unfold decodeNodePosition
  cases h : lookup "_position" entries with
  | none => simp
  | some d => simp [exists_decodePosition]

/-- A document is read as a value just if it is well formed. -/
theorem exists_decodeValue : (∃ v, decodeValue d = .ok v) ↔ d.IsWellFormed := by
  constructor
  · -- the keys of a map are not decoded, so the induction is on the values of its entries
    induction d using Data.value_induction with
    | list items ih =>
      rintro ⟨v, hv⟩
      obtain ⟨vs, hvs⟩ : ∃ vs, decodeItems items = .ok vs := by
        simp only [decodeValue, bind_eq_ok] at hv
        exact ⟨_, hv.choose_spec.1⟩
      exact .list fun d hd => ih d hd (exists_decodeItems.1 ⟨vs, hvs⟩ d hd)
    | map entries ih =>
      intro h
      obtain ⟨kind, htype, hposition, ⟨hkeys, hvalues⟩, hrequired⟩ := exists_decodeMap.1 h
      exact .node htype (exists_decodeNodePosition.1 hposition) hkeys
        (fun name d hd hname => ih _ hd (hvalues name d hd hname)) hrequired
    | scalar d hd =>
      rintro ⟨v, hv⟩
      cases d with
      | null => exact .null
      | bool b => exact .bool b
      | int i => exact .int i
      | real r => exact .real r
      | text s => exact .text s
      | list items => exact absurd (.inl ⟨items, rfl⟩) hd
      | map entries => exact absurd (.inr ⟨entries, rfl⟩) hd
      | _ => cases hv
  · intro h
    induction h with
    | list h ih =>
      obtain ⟨vs, hvs⟩ := exists_decodeItems.2 ih
      exact ⟨.seq vs, by rw [decodeValue, hvs]; rfl⟩
    | node htype hposition hkeys hvalues hrequired ih =>
      exact exists_decodeMap.2
        ⟨_, htype, exists_decodeNodePosition.2 hposition, ⟨hkeys, ih⟩, hrequired⟩
    | _ => exact ⟨_, rfl⟩

/-- The fields of a map are read just if its entries are those of its kind and well formed. -/
theorem exists_decodeFields_iff : (∃ given, decodeFields kind entries = .ok given) ↔
    kind.Covers Data.IsWellFormed entries := by
  have hread : (fun d => ∃ v, decodeValue d = .ok v) = Data.IsWellFormed :=
    funext fun d => propext exists_decodeValue
  rw [exists_decodeFields, hread]

/-! ## How reading fails -/

/-- If the type cannot be looked up, the error is about a type. -/
theorem exists_error_of_failsAtType (h : d.FailsAtType) : ∃ e, decodeValue d = .error e ∧ e.sort = .type := by
  induction h with
  | here htype h =>
    obtain ⟨items, rfl⟩ | ⟨es, rfl⟩ := h
    all_goals
      simp only [decodeValue, decodeKind, htype]
      exact ⟨_, rfl, rfl⟩
  | @item before after d hbefore _ ih =>
    obtain ⟨e, he, hsort⟩ := ih
    have hitems : decodeItems (before ++ d :: after) = .error e := decodeItems_eq_error.2
      ⟨before, d, after, rfl, fun b hb => exists_decodeValue.2 (hbefore b hb), he⟩
    exact ⟨e, by rw [decodeValue, hitems]; rfl, hsort⟩
  | @field kind name before after d htype hposition hbefore hname _ ih =>
    obtain ⟨e, he, hsort⟩ := ih
    obtain ⟨p, hp⟩ := exists_decodeNodePosition.2 hposition
    have hfault : decodeFields kind [(.text name, d)] = .error e :=
      decodeField_eq_error.2 ⟨kind.not_startsWith hname, .inr ⟨hname, he⟩⟩
    have hfields : decodeFields kind (before ++ (.text name, d) :: after) = .error e :=
      decodeFields_eq_error.2 ⟨before, _, after, rfl, exists_decodeFields_iff.2 hbefore, hfault⟩
    exact ⟨e, by rw [decodeValue, decodeKind_eq_ok.2 htype, ok_bind, hp, ok_bind, hfields]; rfl, hsort⟩

theorem DecodeError.sort_about {error : String → DecodeError} {shown : String}
    (h : ∀ s, (error s).sort = .value) : (DecodeError.about error d shown).sort = .value := by
  unfold DecodeError.about
  split
  · exact h shown
  · rfl

/-- A kind is not found because there is no type or another one, or because the type is a list or a
map. -/
theorem sort_of_decodeKind (hjson : haveJson entries = true) (h : decodeKind entries = .error e) :
    e.sort = .value ∨ ∃ d, lookup "_type" entries = some d ∧ d.IsCompound := by
  unfold decodeKind at h
  split at h
  · cases h
    exact .inl rfl
  · split at h <;> cases h
    exact .inl rfl
  · next items hitems => exact .inr ⟨_, hitems, .inl ⟨items, rfl⟩⟩
  · next es hes => exact .inr ⟨_, hes, .inr ⟨es, rfl⟩⟩
  · next items hitems =>
    -- no document of JSON holds a set
    have hset := (haveJson_iff.1 hjson _ (mem_of_lookup hitems)).2
    cases hset
  · cases h
    exact .inl (DecodeError.sort_about fun _ => rfl)

/-- What is wrong with a position is a value. -/
theorem sort_of_decodeNodePosition (h : decodeNodePosition entries = .error e) : e.sort = .value := by
  unfold decodeNodePosition decodePosition at h
  repeat' split at h
  all_goals cases h
  all_goals exact DecodeError.sort_about fun _ => rfl

theorem sort_of_fillNode {position : Position} {given : List (String × Value)}
    (h : fillNode kind position given = .error e) : e.sort = .value := by
  unfold fillNode at h
  split at h <;> cases h
  rfl

/-- An error is about a value unless the document fails at a type. -/
theorem sort_of_decodeValue (hjson : d.isJson = true) (h : decodeValue d = .error e) :
    e.sort = .value ∨ d.FailsAtType := by
  induction d using Data.value_induction generalizing e with
  | list items ih =>
    rw [Data.isJson] at hjson
    have hitems : decodeItems items = .error e := by
      simpa [decodeValue, bind_eq_error, pure, Except.pure] using h
    obtain ⟨before, d, after, rfl, hbefore, hd⟩ := decodeItems_eq_error.1 hitems
    have hmem : d ∈ before ++ d :: after := by simp
    exact (ih d hmem (areJson_iff.1 hjson d hmem) hd).imp_right
      (.item fun b hb => exists_decodeValue.1 (hbefore b hb))
  | map entries ih =>
    rw [Data.isJson, Bool.and_eq_true] at hjson
    simp only [decodeValue, bind_eq_error] at h
    -- the type is asked for first, then the position, the entries in their order, and what is left out
    rcases h with h | ⟨kind, hkind, h | ⟨p, hp, h | ⟨given, -, h⟩⟩⟩
    · rcases sort_of_decodeKind hjson.2 h with hvalue | ⟨d, hd, hcompound⟩
      · exact .inl hvalue
      · exact .inr (.here hd hcompound)
    · exact .inl (sort_of_decodeNodePosition h)
    · obtain ⟨before, ⟨k, d⟩, after, rfl, hbefore, hd⟩ := decodeFields_eq_error.1 h
      have hmem : (k, d) ∈ before ++ (k, d) :: after := by simp
      obtain ⟨⟨name, rfl⟩, hdjson⟩ := haveJson_iff.1 hjson.2 _ hmem
      obtain ⟨-, ⟨-, rfl⟩ | ⟨hname, hd⟩⟩ := decodeField_eq_error.1 hd
      · exact .inl rfl
      · exact (ih _ hmem hdjson hd).imp_right fun hf => .field (decodeKind_eq_ok.1 hkind)
          (exists_decodeNodePosition.1 ⟨p, hp⟩) (exists_decodeFields_iff.1 hbefore) hname hf
    · exact .inl (sort_of_fillNode h)
  | scalar d hd =>
    cases d with
    | list items => exact absurd (.inl ⟨items, rfl⟩) hd
    | map entries => exact absurd (.inr ⟨entries, rfl⟩) hd
    | null | bool | int | real | text => cases h
    | _ => cases hjson

end VerilogLoops.Ast

namespace VerilogLoops

open VerilogLoops.Ast VerilogLoops.Document

/-- A document is read as a tree or as none just if it is one. -/
theorem exists_decodeTree {d : Data} : (∃ tree, decodeTree d = .ok tree) ↔ d.IsTree := by
  cases d with
  | null => exact ⟨fun _ => .inl rfl, fun _ => ⟨none, rfl⟩⟩
  | map entries =>
    rw [decodeTree]
    simp [bind_eq_ok, exists_decodeValue, Data.IsTree]
  | _ => simp [decodeTree, Data.IsTree]

/-- An error of the tree is one of its map, or there is no map. -/
theorem decodeTree_eq_error {d : Data} {e : DecodeError} (h : decodeTree d = .error e) :
    e.sort = .value ∨ (∃ entries, d = .map entries) ∧ decodeValue d = .error e := by
  cases d with
  | null => cases h
  | map entries =>
    rw [decodeTree] at h
    simp only [bind_eq_error, pure_eq_ok, reduceCtorEq, and_false, exists_false, or_false] at h
    exact .inr ⟨⟨entries, rfl⟩, h⟩
  | _ =>
    cases h
    exact .inl rfl

/-- **Exactly the well-formed documents are read.** A document of JSON is read if and only if it is null
or a well-formed node. Otherwise the error is about a type if the first thing asked of the document that
does not hold is that a type is no list and no map, and about a value if it is anything else. No error is
of the third sort. -/
theorem decodeTree_outcome {d : Data} (hjson : d.isJson = true) :
    ((∃ tree, decodeTree d = .ok tree) ↔ d.IsTree) ∧
      ((∃ e, decodeTree d = .error e ∧ e.sort = .type) ↔ (∃ entries, d = .map entries) ∧ d.FailsAtType) ∧
      ((∃ e, decodeTree d = .error e ∧ e.sort = .value) ↔
        ¬ d.IsTree ∧ ¬ ((∃ entries, d = .map entries) ∧ d.FailsAtType)) ∧
      ∀ e, decodeTree d = .error e → e.sort = .type ∨ e.sort = .value := by
  have htype : (∃ entries, d = .map entries) ∧ d.FailsAtType →
      ∃ e, decodeTree d = .error e ∧ e.sort = .type := by
    rintro ⟨⟨entries, rfl⟩, hfails⟩
    obtain ⟨e, he, hsort⟩ := exists_error_of_failsAtType hfails
    exact ⟨e, by rw [decodeTree, he]; rfl, hsort⟩
  -- an error is about a value unless the document fails at a type
  have hsort : ∀ e, decodeTree d = .error e →
      e.sort = .value ∨ (∃ entries, d = .map entries) ∧ d.FailsAtType := by
    intro e he
    rcases decodeTree_eq_error he with hvalue | ⟨hmap, hd⟩
    · exact .inl hvalue
    · exact (sort_of_decodeValue hjson hd).imp_right fun hfails => ⟨hmap, hfails⟩
  refine ⟨exists_decodeTree, ⟨?_, htype⟩, ⟨?_, ?_⟩, fun e he => ?_⟩
  · rintro ⟨e, he, hs⟩
    exact (hsort e he).resolve_left (by rw [hs]; decide)
  · rintro ⟨e, he, hs⟩
    refine ⟨fun htree => ?_, fun hfails => ?_⟩
    · obtain ⟨tree, ht⟩ := exists_decodeTree.2 htree
      cases he.symm.trans ht
    · obtain ⟨e', he', hs'⟩ := htype hfails
      cases he.symm.trans he'
      cases hs.symm.trans hs'
  · rintro ⟨hno, hfails⟩
    cases he : decodeTree d with
    | ok tree => exact absurd (exists_decodeTree.1 ⟨tree, he⟩) hno
    | error e => exact ⟨e, rfl, (hsort e he).resolve_right hfails⟩
  · rcases hsort e he with hs | hfails
    · exact .inr hs
    · obtain ⟨e', he', hs⟩ := htype hfails
      cases he.symm.trans he'
      exact .inl hs

/-- A node whose second field is a list, in which a node has a list for its type behind a node that is
well formed; what is wrong behind it does not count, nor what an entry to pass over holds. -/
theorem decodeTree_outcome_compound :
    let document : Data := .record
      [("_note", .record [("_type", .list [])]), ("op", .text "+"), ("_type", .text "UnaryOp"),
       ("operand", .list [.record [("_type", .text "NullStatement")],
         .record [("position", .null), ("_type", .list [.null])]]),
       ("position", .int 3)]
    document.isJson = true ∧ ¬ document.IsTree ∧ document.FailsAtType ∧
      decodeTree document = .error (.compoundType "list") := by
  intro document
  have hjson : document.isJson = true := by decide +kernel
  have herror : decodeTree document = .error (.compoundType "list") := by decide +kernel
  obtain ⟨htree, htype, -⟩ := decodeTree_outcome hjson
  refine ⟨hjson, fun h => ?_, (htype.1 ⟨_, herror, rfl⟩).2, herror⟩
  obtain ⟨tree, ht⟩ := htree.2 h
  cases herror.symm.trans ht

end VerilogLoops
