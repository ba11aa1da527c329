import Mathlib.Data.List.Basic
import VerilogLoops.Proofs.Encoding

/-!
# What a document is read as

A map is read as a node by looking up its type, its position and its fields, and every other entry of it
only has to be one that may stand there. So what it is read as depends on the values that its keys have
and not on how its entries are arranged.

> `exists_decodeMap`: which maps are read as nodes;
> `lookup_of_decodeFields`: the value of a field is read from the value of its key;
> `decodeFields_eq_error`: reading fails at the first field that is at fault.
-/

namespace VerilogLoops.Document

variable {key other : String} {d d' : Data} {entries entries' before after : List (Data × Data)}

/-! ## Entries by key -/

theorem lookup_cons (k d : Data) (entries : List (Data × Data)) :
    lookup key ((k, d) :: entries) = if k = .text key then some d else lookup key entries := by
  by_cases hk : k = .text key <;> simp [lookup, hk]

/-- What is found under a key is an entry with this key. -/
theorem mem_of_lookup (h : lookup key entries = some d) : (.text key, d) ∈ entries := by
  simp only [lookup, Option.map_eq_some_iff] at h
  obtain ⟨⟨k, d⟩, hfind, rfl⟩ := h
  have hk : k = .text key := by simpa using List.find?_some hfind
  exact hk ▸ List.mem_of_find?_eq_some hfind

/-- Where keys differ, every entry is found under its key. -/
theorem lookup_of_mem (hd : (entries.map (·.1)).Nodup) (h : (.text key, d) ∈ entries) :
    lookup key entries = some d := by
  induction entries with
  | nil => cases h
  | cons e entries ih =>
    obtain ⟨k, d'⟩ := e
    rw [List.map_cons, List.nodup_cons] at hd
    rw [lookup_cons]
    rcases List.mem_cons.1 h with heq | hmem
    · cases heq
      rw [if_pos rfl]
    · have hne : k ≠ .text key := by
        rintro rfl
        exact hd.1 (List.mem_map_of_mem (f := (·.1)) hmem)
      rw [if_neg hne, ih hd.2 hmem]

theorem lookup_eq_some_iff (hd : (entries.map (·.1)).Nodup) :
    lookup key entries = some d ↔ (.text key, d) ∈ entries :=
  ⟨mem_of_lookup, lookup_of_mem hd⟩

/-- Where keys differ, the order of the entries does not matter. -/
theorem lookup_perm (hd : (entries.map (·.1)).Nodup) (h : entries.Perm entries') :
    lookup key entries = lookup key entries' := by
  have hd' : (entries'.map (·.1)).Nodup := (h.map _).nodup_iff.1 hd
  refine Option.ext fun d => ?_
  rw [lookup_eq_some_iff hd, lookup_eq_some_iff hd', h.mem_iff]

/-- Another value for a key does not change what is found under the other keys. -/
theorem lookup_replace (h : key ≠ other) : lookup key (before ++ (.text other, d) :: after)
    = lookup key (before ++ (.text other, d') :: after) := by
  have hother : Data.text other ≠ .text key := fun heq => h (Data.text.inj heq).symm
  induction before with
  | nil => simp [lookup_cons, hother]
  | cons e before ih =>
    obtain ⟨k, d⟩ := e
    rw [List.cons_append, List.cons_append, lookup_cons, lookup_cons, ih]

/-! ## Documents of JSON -/

mutual

/-- The document is the value of a JSON text: its keys are texts, and no map has a key twice. -/
def Data.isJson : Data → Bool
  | .null | .bool _ | .int _ | .real _ | .text _ => true
  | .list items => areJson items
  | .map entries => decide (entries.map (·.1)).Nodup && haveJson entries
  | .set _ | .pair .. | .binary _ | .date .. | .moment .. => false

/-- The documents are values of JSON texts. -/
def areJson : List Data → Bool
  | [] => true
  | d :: rest => d.isJson && areJson rest

/-- The entries have texts for keys and values of JSON texts. -/
def haveJson : List (Data × Data) → Bool
  | [] => true
  | (.text _, d) :: rest => d.isJson && haveJson rest
  | _ => false

end

theorem areJson_iff {items : List Data} : areJson items = true ↔ ∀ d ∈ items, d.isJson = true := by
  induction items with
  | nil => simp [areJson]
  | cons d rest ih => simp [areJson, ih]

theorem haveJson_iff {entries : List (Data × Data)} : haveJson entries = true ↔
    ∀ e ∈ entries, (∃ name, e.1 = .text name) ∧ e.2.isJson = true := by
  induction entries with
  | nil => simp [haveJson]
  | cons e rest ih =>
    obtain ⟨k, d⟩ := e
    cases k <;> simp [haveJson, ih]

theorem nodup_of_isJson (h : (Data.map entries).isJson = true) : (entries.map (·.1)).Nodup := by
  rw [Data.isJson, Bool.and_eq_true, decide_eq_true_eq] at h
  exact h.1

theorem isJson_of_mem (h : (Data.map entries).isJson = true) {e : Data × Data} (he : e ∈ entries) :
    e.2.isJson = true := by
  rw [Data.isJson, Bool.and_eq_true] at h
  exact (haveJson_iff.1 h.2 e he).2

end VerilogLoops.Document

namespace VerilogLoops.Ast

open VerilogLoops.Document

variable {kind : Kind} {position : Position} {entries : List (Data × Data)} {given : List (String × Value)}
  {name : String} {d : Data} {v : Value}

/-! ## The type and the position -/

theorem Kind.ofName?_eq_some : Kind.ofName? name = some kind ↔ kind.name = name := by
  constructor
  · intro h
    simpa using List.find?_some h
  · rintro rfl
    exact kind.ofName?_name

/-- The kind of a map is the one that its type names. -/
theorem decodeKind_eq_ok : decodeKind entries = .ok kind ↔ lookup "_type" entries = some (.text kind.name) := by
  unfold decodeKind
  split
  case h_2 name h =>
    rw [h, Option.some.injEq, Data.text.injEq]
    cases hname : Kind.ofName? name with
    | none =>
      simp only [reduceCtorEq, false_iff]
      rintro rfl
      rw [kind.ofName?_name] at hname
      cases hname
    | some k =>
      obtain rfl := Kind.ofName?_eq_some.1 hname
      rw [Except.ok.injEq]
      refine ⟨congrArg Kind.name, fun heq => ?_⟩
      rw [← Option.some.injEq, ← k.ofName?_name, ← kind.ofName?_name, heq]
  case h_6 h _ _ _ _ =>
    simp_all
  all_goals simp_all

/-- A position is a map with an origin, a line and a column. -/
theorem decodePosition_eq_ok : decodePosition d = .ok position ↔ ∃ es, d = .map es ∧
    lookup "origin" es = some position.origin ∧ lookup "line" es = some position.line ∧
      lookup "column" es = some position.column := by
  unfold decodePosition
  split
  · next es =>
    simp only [Data.map.injEq, exists_eq_left']
    split <;> rename_i h
    · next origin line column _ _ =>
      cases position
      simp_all
    · simp only [reduceCtorEq, false_iff]
      rintro ⟨ho, hl, hc⟩
      exact h _ _ _ ho hl hc
  · next h =>
    simp only [reduceCtorEq, false_iff]
    rintro ⟨es, rfl, -⟩
    exact h es rfl

/-! ## The fields -/

/-- The key is the name of a field, or one that is passed over. -/
def Kind.knows (kind : Kind) (name : String) : Prop :=
  name.startsWith "_" = true ∨ name ∈ kind.fields.map (·.name)

/-- The entries are a node's as far as they go: each has a key that the kind knows, and the documents of
the fields have a property. -/
structure Kind.Covers (kind : Kind) (property : Data → Prop) (entries : List (Data × Data)) : Prop where
  keys : ∀ e ∈ entries, ∃ name, e.1 = .text name ∧ kind.knows name
  values : ∀ name d, (.text name, d) ∈ entries → name.startsWith "_" = false → property d

theorem Kind.all_ne : (kind.fields.all (·.name ≠ name)) = true ↔ name ∉ kind.fields.map (·.name) := by
  simp [List.all_eq_true, List.mem_map]

/-- Fields are read one by one, and keys that begin with an underscore are passed over. -/
theorem decodeFields_cons {k : Data} : decodeFields kind ((k, d) :: entries) = .ok given ↔
    ∃ name, k = .text name ∧ kind.knows name ∧
      ((name.startsWith "_" = true ∧ decodeFields kind entries = .ok given) ∨
        (name.startsWith "_" = false ∧ ∃ v more, decodeValue d = .ok v ∧
          decodeFields kind entries = .ok more ∧ given = (name, v) :: more)) := by
  cases k with
  | text name =>
    simp only [decodeFields, Data.text.injEq, exists_eq_left', Kind.knows]
    by_cases hprivate : name.startsWith "_" = true
    · simp [hprivate]
    · rw [if_neg hprivate]
      rw [Bool.not_eq_true] at hprivate
      by_cases hknown : name ∈ kind.fields.map (·.name)
      · rw [if_neg fun h => Kind.all_ne.1 h hknown]
        simp only [bind_eq_ok, pure_eq_ok, Except.ok.injEq]
        simp [hprivate, hknown, eq_comm]
      · rw [if_pos (Kind.all_ne.2 hknown)]
        simp [hprivate, hknown]
  | _ => simp [decodeFields]

/-- The fields of a map are read if each of them is known and has a value that is read. -/
theorem exists_decodeFields : (∃ given, decodeFields kind entries = .ok given) ↔
    kind.Covers (fun d => ∃ v, decodeValue d = .ok v) entries := by
  induction entries with
  | nil => exact ⟨fun _ => ⟨by simp, by simp⟩, fun _ => ⟨[], rfl⟩⟩
  | cons e entries ih =>
    obtain ⟨k, d⟩ := e
    constructor
    · rintro ⟨given, h⟩
      obtain ⟨name, rfl, hknown, hrest⟩ := decodeFields_cons.1 h
      obtain ⟨more, hmore⟩ : ∃ more, decodeFields kind entries = .ok more := by
        rcases hrest with ⟨-, hmore⟩ | ⟨-, _, more, -, hmore, -⟩
        · exact ⟨given, hmore⟩
        · exact ⟨more, hmore⟩
      obtain ⟨hkeys, hvalues⟩ := ih.1 ⟨more, hmore⟩
      refine ⟨List.forall_mem_cons.2 ⟨⟨name, rfl, hknown⟩, hkeys⟩, fun other u hmem hpublic => ?_⟩
      rcases List.mem_cons.1 hmem with heq | hmem
      · cases heq
        rcases hrest with ⟨hprivate, -⟩ | ⟨-, v, _, hv, -⟩
        · rw [hpublic] at hprivate
          cases hprivate
        · exact ⟨v, hv⟩
      · exact hvalues other u hmem hpublic
    · rintro ⟨hkeys, hvalues⟩
      obtain ⟨⟨name, rfl, hknown⟩, hrest⟩ := List.forall_mem_cons.1 hkeys
      obtain ⟨more, hmore⟩ := ih.2 ⟨hrest, fun other u hmem => hvalues other u (List.mem_cons_of_mem _ hmem)⟩
      cases hpublic : name.startsWith "_" with
      | true => exact ⟨more, decodeFields_cons.2 ⟨name, rfl, hknown, .inl ⟨hpublic, hmore⟩⟩⟩
      | false =>
        obtain ⟨v, hv⟩ := hvalues name d List.mem_cons_self hpublic
        exact ⟨_, decodeFields_cons.2 ⟨name, rfl, hknown, .inr ⟨hpublic, v, more, hv, hmore, rfl⟩⟩⟩

/-- The value of a field is read from the value of its key. -/
theorem lookup_of_decodeFields (h : decodeFields kind entries = .ok given) (hname : name.startsWith "_" = false) :
    given.lookup name = (lookup name entries).bind fun d => (decodeValue d).toOption := by
  induction entries generalizing given with
  | nil =>
    cases h
    rfl
  | cons e entries ih =>
    obtain ⟨k, d⟩ := e
    obtain ⟨key, rfl, -, ⟨hprivate, hrest⟩ | ⟨-, v, more, hv, hrest, rfl⟩⟩ := decodeFields_cons.1 h
    · have hne : Data.text key ≠ .text name := by
        rintro heq
        cases heq
        rw [hname] at hprivate
        cases hprivate
      rw [ih hrest, lookup_cons, if_neg hne]
    · rw [List.lookup_cons, lookup_cons]
      by_cases hkey : key = name
      · subst hkey
        simp [hv, Except.toOption]
      · rw [if_neg fun heq => hkey (Data.text.inj heq), beq_eq_false_iff_ne.2 (Ne.symm hkey), ih hrest]

/-- A field is given if its key is there. -/
theorem isSome_lookup_of_decodeFields (h : decodeFields kind entries = .ok given)
    (hname : name.startsWith "_" = false) : (given.lookup name).isSome = (lookup name entries).isSome := by
  rw [lookup_of_decodeFields h hname]
  cases hd : lookup name entries with
  | none => rfl
  | some d =>
    obtain ⟨v, hv⟩ := (exists_decodeFields.1 ⟨given, h⟩).values name d (mem_of_lookup hd) hname
    simp [hv, Except.toOption]

/-! ## The node -/

/-- A node is made if no field is missing that may not be left out. -/
theorem exists_fillNode : (∃ v, fillNode kind position given = .ok v) ↔
    ∀ f ∈ kind.fields, f.fallback = .required → (given.lookup f.name).isSome = true := by
  have hfill : ∀ f : Field, (f.fill given).isNone = false ↔
      (f.fallback = .required → (given.lookup f.name).isSome = true) := by
    intro f
    unfold Field.fill
    cases given.lookup f.name <;> cases f.fallback <;> simp
  have hmissing : (∃ v, fillNode kind position given = .ok v) ↔
      (kind.fields.filter fun f => (f.fill given).isNone).map (·.name) = [] := by
    unfold fillNode
    split <;> simp_all
  rw [hmissing, List.map_eq_nil_iff, List.filter_eq_nil_iff]
  exact forall₂_congr fun f _ => by rw [Bool.not_eq_true, hfill f]

/-- The node depends on what the fields have for values. -/
theorem fillNode_congr {given' : List (String × Value)}
    (h : ∀ name ∈ kind.fields.map (·.name), given.lookup name = given'.lookup name) :
    fillNode kind position given = fillNode kind position given' := by
  have hfill : ∀ f ∈ kind.fields, f.fill given = f.fill given' := fun f hf => by
    unfold Field.fill
    rw [h f.name (List.mem_map_of_mem hf)]
  have hmissing : (kind.fields.filter fun f => (f.fill given).isNone)
      = kind.fields.filter fun f => (f.fill given').isNone :=
    List.filter_congr fun f hf => by rw [hfill f hf]
  unfold fillNode
  rw [hmissing, List.filterMap_congr hfill]

/-- A map is read as a node of its kind at its position with its fields. -/
theorem decodeMap_eq_ok : decodeValue (.map entries) = .ok v ↔ ∃ kind position given,
    decodeKind entries = .ok kind ∧ decodeNodePosition entries = .ok position ∧
      decodeFields kind entries = .ok given ∧ fillNode kind position given = .ok v := by
  simp [decodeValue, bind_eq_ok]

/-- A map is read if it names its kind, has a position that is one or none, has no entries but those of
the kind, with values that are read, and has every field that may not be left out. -/
theorem exists_decodeMap : (∃ v, decodeValue (.map entries) = .ok v) ↔ ∃ kind : Kind,
    lookup "_type" entries = some (.text kind.name) ∧ (∃ p, decodeNodePosition entries = .ok p) ∧
      kind.Covers (fun d => ∃ v, decodeValue d = .ok v) entries ∧
      ∀ f ∈ kind.fields, f.fallback = .required → (lookup f.name entries).isSome = true := by
  -- what the fields are given is what their keys have
  have hgiven : ∀ {kind given}, decodeFields kind entries = .ok given → ∀ f ∈ kind.fields,
      (given.lookup f.name).isSome = (lookup f.name entries).isSome := fun h f hf =>
    isSome_lookup_of_decodeFields h (Kind.not_startsWith _ (List.mem_map_of_mem hf))
  constructor
  · rintro ⟨v, hv⟩
    obtain ⟨kind, position, given, hkind, hposition, hfields, hfill⟩ := decodeMap_eq_ok.1 hv
    refine ⟨kind, decodeKind_eq_ok.1 hkind, ⟨position, hposition⟩, exists_decodeFields.1 ⟨given, hfields⟩,
      fun f hf hr => ?_⟩
    rw [← hgiven hfields f hf]
    exact exists_fillNode.1 ⟨v, hfill⟩ f hf hr
  · rintro ⟨kind, hkind, ⟨position, hposition⟩, hcovers, hrequired⟩
    obtain ⟨given, hfields⟩ := exists_decodeFields.2 hcovers
    obtain ⟨v, hfill⟩ : ∃ v, fillNode kind position given = .ok v :=
      exists_fillNode.2 fun f hf hr => (hgiven hfields f hf).trans (hrequired f hf hr)
    exact ⟨v, decodeMap_eq_ok.2 ⟨kind, position, given, decodeKind_eq_ok.2 hkind, hposition, hfields, hfill⟩⟩

/-! ## Failures -/

variable {ds : List Data} {e : DecodeError}

/-- A list is read if its items are. -/
theorem exists_decodeItems : (∃ vs, decodeItems ds = .ok vs) ↔ ∀ d ∈ ds, ∃ v, decodeValue d = .ok v := by
  induction ds with
  | nil => simp [decodeItems]
  | cons d ds ih =>
    rw [List.forall_mem_cons, ← ih]
    simp only [decodeItems, bind_eq_ok, pure_eq_ok, Except.ok.injEq]
    constructor
    · rintro ⟨_, v, hv, vs, hvs, -⟩
      exact ⟨⟨v, hv⟩, vs, hvs⟩
    · rintro ⟨⟨v, hv⟩, vs, hvs⟩
      exact ⟨_, v, hv, vs, hvs, rfl⟩

/-- A computation fails if its first step fails or what follows the first step does. -/
theorem bind_eq_error {α β : Type} {x : Except DecodeError α} {f : α → Except DecodeError β} :
    (x >>= f) = .error e ↔ x = .error e ∨ ∃ a, x = .ok a ∧ f a = .error e := by
  cases x <;> simp [bind, Except.bind]

/-- Reading a list fails at the first item that is not read. -/
theorem decodeItems_eq_error : decodeItems ds = .error e ↔ ∃ before d after,
    ds = before ++ d :: after ∧ (∀ b ∈ before, ∃ v, decodeValue b = .ok v) ∧ decodeValue d = .error e := by
  induction ds with
  | nil => simp [decodeItems]
  | cons d ds ih =>
    have hcons : decodeItems (d :: ds) = .error e ↔ decodeValue d = .error e ∨
        (∃ v, decodeValue d = .ok v) ∧ decodeItems ds = .error e := by
      simp [decodeItems, bind_eq_error, pure, Except.pure]
    rw [hcons, ih]
    constructor
    · rintro (hd | ⟨hv, before, d', after, rfl, hbefore, hd'⟩)
      · exact ⟨[], d, ds, rfl, by simp, hd⟩
      · exact ⟨d :: before, d', after, rfl, List.forall_mem_cons.2 ⟨hv, hbefore⟩, hd'⟩
    · rintro ⟨before, d', after, heq, hbefore, hd'⟩
      cases before with
      | nil =>
        cases heq
        exact .inl hd'
      | cons b before =>
        cases heq
        obtain ⟨hv, hbefore⟩ := List.forall_mem_cons.1 hbefore
        exact .inr ⟨hv, before, d', after, rfl, hbefore, hd'⟩

/-- An entry is read by itself, and then the others. -/
theorem decodeFields_first (entry : Data × Data) : decodeFields kind (entry :: entries) =
    (do return (← decodeFields kind [entry]) ++ (← decodeFields kind entries)) := by
  obtain ⟨k, d⟩ := entry
  cases k with
  | text name =>
    rw [decodeFields, decodeFields]
    split
    · cases decodeFields kind entries <;> rfl
    · split
      · rfl
      · rw [decodeFields]
        cases decodeValue d with
        | error => rfl
        | ok => cases decodeFields kind entries <;> rfl
  | _ => rfl

/-- Reading the fields fails at the first entry that is at fault by itself. -/
theorem decodeFields_eq_error : decodeFields kind entries = .error e ↔ ∃ before entry after,
    entries = before ++ entry :: after ∧ (∃ given, decodeFields kind before = .ok given) ∧
      decodeFields kind [entry] = .error e := by
  induction entries with
  | nil => simp [decodeFields]
  | cons entry entries ih =>
    have hcons : ∀ rest, decodeFields kind (entry :: rest) = .error e ↔ decodeFields kind [entry] = .error e ∨
        (∃ given, decodeFields kind [entry] = .ok given) ∧ decodeFields kind rest = .error e := by
      intro rest
      rw [decodeFields_first]
      simp [bind_eq_error, pure, Except.pure]
    have hread : ∀ rest, (∃ given, decodeFields kind (entry :: rest) = .ok given) ↔
        (∃ given, decodeFields kind [entry] = .ok given) ∧ ∃ given, decodeFields kind rest = .ok given := by
      intro rest
      rw [decodeFields_first]
      simp [bind_eq_ok, pure, Except.pure]
    rw [hcons, ih]
    constructor
    · rintro (hentry | ⟨hok, before, fault, after, rfl, hbefore, hfault⟩)
      · exact ⟨[], entry, entries, rfl, ⟨[], rfl⟩, hentry⟩
      · exact ⟨entry :: before, fault, after, rfl, (hread before).2 ⟨hok, hbefore⟩, hfault⟩
    · rintro ⟨before, fault, after, heq, hbefore, hfault⟩
      cases before with
      | nil =>
        cases heq
        exact .inl hfault
      | cons b before =>
        cases heq
        obtain ⟨hok, hbefore⟩ := (hread before).1 hbefore
        exact .inr ⟨hok, before, fault, after, rfl, hbefore, hfault⟩

/-- What is wrong with an entry: its name is not known, or its value is not read. -/
theorem decodeField_eq_error : decodeFields kind [(.text name, d)] = .error e ↔
    name.startsWith "_" = false ∧ ((name ∉ kind.fields.map (·.name) ∧ e = .unknownField name kind.name) ∨
      name ∈ kind.fields.map (·.name) ∧ decodeValue d = .error e) := by
  rw [decodeFields]
  by_cases hprivate : name.startsWith "_" = true
  · simp [hprivate, decodeFields]
  · rw [if_neg hprivate]
    rw [Bool.not_eq_true] at hprivate
    by_cases hknown : name ∈ kind.fields.map (·.name)
    · rw [if_neg fun h => Kind.all_ne.1 h hknown]
      simp [hprivate, hknown, bind_eq_error, decodeFields, pure, Except.pure]
    · rw [if_pos (Kind.all_ne.2 hknown)]
      simp [hprivate, hknown, eq_comm]

end VerilogLoops.Ast
