import Mathlib.Data.List.Induction
import VerilogLoops.Proofs.Typing

/-!
# Positions are faithful to the source

A position is a line and a column, and these denote one offset of the text: places of a text come
one behind the other, so no two offsets share a place (`Location.offset?_ofOffset`). At this offset
stands the first token of what a node is made of, and the offsets of the nodes of a tree are in
order.

> `positions_faithful`: origin, offset, first token and order of all nodes of a tree.
-/

namespace VerilogLoops.Text

/-! ## Lines and columns by counting -/

/-- The line is one more than the line feeds in front, and the column is one more than the
characters behind the last of them. -/
theorem Location.ofOffset_eq (text : List Char) (offset : Nat) :
    Location.ofOffset text offset =
      ⟨1 + (text.take offset).count '\n',
        1 + ((text.take offset).reverse.takeWhile (· ≠ '\n')).length⟩ := by
  have key : ∀ cs : List Char, Location.first.behind cs =
      ⟨1 + cs.count '\n', 1 + (cs.reverse.takeWhile (· ≠ '\n')).length⟩ := by
    intro cs
    induction cs using List.reverseRecOn with
    | nil => rfl
    | append_singleton cs c ih =>
      have hbehind : Location.first.behind (cs ++ [c]) = (Location.first.behind cs).after c := by
        simp [behind]
      rw [hbehind, ih, after]
      by_cases hc : c = '\n'
      · simp [hc]
        omega
      · simp [hc, List.count_append]
        omega
  exact key _

/-- The second place stands behind the first one. -/
def Location.Before (a b : Location) : Prop :=
  a.line < b.line ∨ (a.line = b.line ∧ a.column < b.column)

theorem Location.before_after (loc : Location) (c : Char) : loc.Before (loc.after c) := by
  unfold Before after
  split
  · exact Or.inl (Nat.lt_succ_self _)
  · exact Or.inr ⟨rfl, Nat.lt_succ_self _⟩

theorem Location.Before.trans {a b c : Location} (h : a.Before b) (h' : b.Before c) :
    a.Before c := by
  unfold Before at *
  omega

theorem Location.before_behind (loc : Location) {text : List Char} (h : text ≠ []) :
    loc.Before (loc.behind text) := by
  induction text generalizing loc with
  | nil => exact absurd rfl h
  | cons c rest ih =>
    cases rest with
    | nil => exact loc.before_after c
    | cons d rest => exact (loc.before_after c).trans (ih (loc.after c) (List.cons_ne_nil _ _))

/-- Places come one behind the other. -/
theorem Location.before_ofOffset {text : List Char} {a b : Nat} (h : a < b) (hb : b ≤ text.length) :
    (Location.ofOffset text a).Before (Location.ofOffset text b) := by
  have hsplit : text.take b = text.take a ++ (text.drop a).take (b - a) := by
    rw [← List.take_add, Nat.add_sub_cancel' (Nat.le_of_lt h)]
  have hbehind : Location.ofOffset text b =
      (Location.ofOffset text a).behind ((text.drop a).take (b - a)) := by
    rw [ofOffset, hsplit, behind, List.foldl_append]
    rfl
  rw [hbehind]
  refine Location.before_behind _ fun hnil => ?_
  have hlen := congrArg List.length hnil
  simp only [List.length_take, List.length_drop, List.length_nil] at hlen
  omega

theorem Location.ofOffset_injective {text : List Char} {a b : Nat} (ha : a ≤ text.length)
    (hb : b ≤ text.length) (h : Location.ofOffset text a = Location.ofOffset text b) : a = b := by
  rcases Nat.lt_trichotomy a b with hlt | heq | hlt
  · have := Location.before_ofOffset hlt hb
    rw [h, Before] at this
    omega
  · exact heq
  · have := Location.before_ofOffset hlt ha
    rw [h, Before] at this
    omega

/-- The offset of a place in a text. -/
def Location.offset? (text : List Char) (location : Location) : Option Nat :=
  (List.range (text.length + 1)).find? fun offset => Location.ofOffset text offset = location

/-- A place denotes the offset it is the place of. -/
theorem Location.offset?_ofOffset {text : List Char} {offset : Nat} (h : offset ≤ text.length) :
    Location.offset? text (Location.ofOffset text offset) = some offset := by
  unfold offset?
  cases hfind : (List.range (text.length + 1)).find? fun o =>
      decide (Location.ofOffset text o = Location.ofOffset text offset) with
  | none =>
    have := List.find?_eq_none.1 hfind offset (List.mem_range.2 (Nat.lt_succ_of_le h))
    exact absurd (decide_eq_true rfl) this
  | some o =>
    have hmem := List.mem_range.1 (List.mem_of_find?_eq_some hfind)
    have heq : Location.ofOffset text o = Location.ofOffset text offset := by
      simpa using List.find?_some hfind
    rw [Location.ofOffset_injective (Nat.le_of_lt_succ hmem) h heq]

end VerilogLoops.Text

namespace VerilogLoops.Ast

open VerilogLoops.Text VerilogLoops.Lexical VerilogLoops.Grammar VerilogLoops.Document

/-! ## The offsets of nodes -/

/-- The offset in the text that the line and the column of a node denote. -/
def Value.offsetIn (code : List Char) : Value → Option Nat
  | .node _ ⟨_, .int line, .int column⟩ _ => Location.offset? code ⟨line.toNat, column.toNat⟩
  | _ => none

/-- The entries of a part of a loop: the items of a sequence, or the part itself. -/
def Value.entries : Value → List Value
  | .seq items => items
  | v => [v]

section Offsets

variable {code : List Char} {origin : String} {lo hi : Nat} {vs : List Value}

/-- The positions of the offsets of a text of some origin. -/
def placed (origin : String) (code : List Char) (offset : Nat) : Position :=
  positionAt origin ((LocationTable.of code).locate offset)

theorem placed_eq (origin : String) (code : List Char) (offset : Nat) :
    placed origin code offset = ⟨.text origin, .int (1 + (code.take offset).count '\n' : Nat),
      .int (1 + ((code.take offset).reverse.takeWhile (· ≠ '\n')).length : Nat)⟩ := by
  rw [placed, positionAt, LocationTable.locate_of, Location.ofOffset_eq]

theorem offsetIn_placed {offset : Nat} (h : offset ≤ code.length) (kind : Kind)
    (fields : List Value) :
    (Value.node kind (placed origin code offset) fields).offsetIn code = some offset := by
  rw [placed, positionAt, LocationTable.locate_of, Value.offsetIn]
  exact Location.offset?_ofOffset h

/-- The offsets of the nodes of spread values lie between those of the values. -/
theorem Spread.offsets_mem (h : Spread code (placed origin code) lo hi vs) (hhi : hi ≤ code.length) :
    ∀ o ∈ (nodesOfAll vs).filterMap (Value.offsetIn code), lo ≤ o ∧ o < hi := by
  intro o ho
  obtain ⟨n, hn, hoff⟩ := List.mem_filterMap.1 ho
  obtain ⟨o', mid, kind, fields, rfl, hle, hlt, hmid, -⟩ := h.nodes hn
  rw [offsetIn_placed (by omega)] at hoff
  cases hoff
  omega

/-- The offsets of the nodes of spread values never decrease. -/
theorem Spread.offsets_pairwise (h : Spread code (placed origin code) lo hi vs)
    (hhi : hi ≤ code.length) :
    ((nodesOfAll vs).filterMap (Value.offsetIn code)).Pairwise (· ≤ ·) := by
  induction h with
  | nil => exact List.Pairwise.nil
  | text _ _ ih => exact ih hhi
  | @node lo o mid hi kind fields rest hlo ho _ hf hr ihf ihr =>
    have hmid := hr.le
    have hfields := hf.offsets_mem (by omega)
    have hordered := ihf (by omega)
    rw [nodesOfAll_headsOf] at hfields hordered
    simp only [nodesOfAll, Value.nodes, List.cons_append, List.filterMap_cons,
      offsetIn_placed (show o ≤ code.length by omega), List.filterMap_append]
    refine List.pairwise_cons.2 ⟨fun a ha => ?_, List.pairwise_append.2 ⟨hordered, ihr hhi,
      fun a ha b hb => ?_⟩⟩
    · rcases List.mem_append.1 ha with ha | ha
      · exact (hfields a ha).1
      · have := (hr.offsets_mem hhi a ha).1
        omega
    · have := (hfields a ha).2
      have := (hr.offsets_mem hhi b hb).1
      omega

mutual

theorem headsOf_heads : ∀ v : Value, headsOf v.heads = v.heads
  | .seq items => headsOf_headsOf items
  | .node .. => rfl
  | .null | .bool _ | .int _ | .real _ | .text _ => rfl

theorem headsOf_headsOf : ∀ vs : List Value, headsOf (headsOf vs) = headsOf vs
  | [] => rfl
  | v :: rest => by
    rw [headsOf_cons, headsOf_append, headsOf_heads v, headsOf_headsOf rest]

end

/-- The offsets of spread values increase. -/
theorem Spread.heads_pairwise (h : Spread code (placed origin code) lo hi vs)
    (hhi : hi ≤ code.length) :
    ((headsOf vs).filterMap (Value.offsetIn code)).Pairwise (· < ·) ∧
      ∀ o ∈ (headsOf vs).filterMap (Value.offsetIn code), lo ≤ o := by
  induction h with
  | nil => exact ⟨List.Pairwise.nil, fun _ ho => by cases ho⟩
  | text hlt _ ih =>
    obtain ⟨hordered, hle⟩ := ih hhi
    exact ⟨hordered, fun o ho => Nat.le_trans (Nat.le_of_lt hlt) (hle o ho)⟩
  | @node lo o mid hi kind fields rest hlo ho _ _ hr _ ihr =>
    have hmid := hr.le
    obtain ⟨hordered, hle⟩ := ihr hhi
    simp only [headsOf_cons, heads_node, List.cons_append, List.nil_append, List.filterMap_cons,
      offsetIn_placed (show o ≤ code.length by omega)]
    refine ⟨List.pairwise_cons.2 ⟨fun a ha => ?_, hordered⟩, fun a ha => ?_⟩
    · have := hle a ha
      omega
    · rcases List.mem_cons.1 ha with rfl | ha
      · exact hlo
      · have := hle a ha
        omega

end Offsets

/-! ## The parts of a loop -/

/-- A field of the type holds nodes, with gaps or in sequences. -/
def FieldType.holdsNodes : FieldType → Bool
  | .node _ => true
  | .maybe t => t.holdsNodes
  | .filled (.node _) | .filled (.maybe (.node _)) => true
  | _ => false

theorem headsOf_eq_filter {items : List Value} {t : FieldType}
    (ht : (∃ f, t = .node f) ∨ ∃ f, t = .maybe (.node f)) (h : items.all t.holds = true) :
    headsOf items = items.filter (· ≠ .null) := by
  induction items with
  | nil => rfl
  | cons v rest ih =>
    rw [List.all_cons, Bool.and_eq_true] at h
    have hv : v = .null ∨ ∃ f, v.isA f = true := by
      rcases ht with ⟨f, rfl⟩ | ⟨f, rfl⟩
      · exact Or.inr ⟨f, h.1⟩
      · have := h.1
        simp only [FieldType.holds, Bool.or_eq_true, decide_eq_true_eq] at this
        exact this.imp id fun hv => ⟨f, hv⟩
    rcases hv with rfl | ⟨f, hv⟩
    · simp [ih h.2]
    · simp [ih h.2, heads_of_isA hv, ne_null_of_isA hv]

/-- The nodes of a field that holds nodes are its entries but for gaps. -/
theorem heads_eq_entries : ∀ {t : FieldType} {v : Value}, t.holdsNodes = true → t.holds v = true →
    v.heads = v.entries.filter (· ≠ .null)
  | .node f, v, _, hv => by
    have hv : v.isA f = true := hv
    cases v with
    | node => rfl
    | _ => cases hv
  | .maybe t, v, ht, hv => by
    simp only [FieldType.holds, Bool.or_eq_true, decide_eq_true_eq] at hv
    rcases hv with rfl | hv
    · rfl
    · exact heads_eq_entries (t := t) ht hv
  | .filled t, v, ht, hv => by
    unfold FieldType.holdsNodes at ht
    cases v with
    | seq items =>
      simp only [FieldType.holds, Bool.and_eq_true] at hv
      refine headsOf_eq_filter (t := t) ?_ hv.2
      cases t with
      | node f => exact Or.inl ⟨f, rfl⟩
      | maybe t => cases t with
        | node f => exact Or.inr ⟨f, rfl⟩
        | _ => cases ht
      | _ => cases ht
    | _ => cases hv

theorem headsOf_eq_entries : ∀ {types : List FieldType} {fields : List Value},
    types.all FieldType.holdsNodes = true → haveTypes types fields = true →
      headsOf fields = (fields.flatMap Value.entries).filter (· ≠ .null)
  | [], [], _, _ => rfl
  | t :: types, v :: fields, ht, hv => by
    simp only [List.all_cons, haveTypes, Bool.and_eq_true] at ht hv
    rw [headsOf_cons, heads_eq_entries ht.1 hv.1, headsOf_eq_entries ht.2 hv.2, List.flatMap_cons,
      List.filter_append]

/-- The parts of a node, one behind the other and without gaps, are its child nodes. -/
theorem entries_parts {n : Value} (h : n.isWellFormed = true) {parts : List Value}
    (hp : n.parts? = some parts) :
    (parts.flatMap Value.entries).filter (· ≠ .null) = n.childNodes := by
  cases n with
  | node kind position fields =>
    simp only [Value.parts?] at hp
    split at hp
    · next hk =>
      cases hp
      have key : ∀ k ∈ Kind.withParts, k.types.all FieldType.holdsNodes = true := by decide
      have htypes := key kind (List.contains_iff_mem.1 hk)
      simp only [Value.isWellFormed, Kind.admits, Bool.and_eq_true] at h
      exact (headsOf_eq_entries htypes h.2.1.1).symm
    · cases hp
  | _ => cases hp

end VerilogLoops.Ast

namespace VerilogLoops

open VerilogLoops.Ast VerilogLoops.Grammar VerilogLoops.Lexical VerilogLoops.Text
  VerilogLoops.Document

/-- An offset behind the end has the place of the end. -/
theorem offset_eq_of_placed {origin : String} {code : List Char} {a b : Nat} (ha : a < code.length)
    (h : placed origin code b = placed origin code a) : b = a := by
  simp only [placed, positionAt, LocationTable.locate_of, Position.mk.injEq, Data.int.injEq,
    Int.ofNat_inj, true_and] at h
  have heta : ∀ x y : Location, x.line = y.line → x.column = y.column → x = y := by
    rintro ⟨_, _⟩ ⟨_, _⟩ rfl rfl
    rfl
  have hplace : Location.ofOffset code b = Location.ofOffset code a := heta _ _ h.1 h.2
  rcases Nat.lt_or_ge b code.length with hb | hb
  · exact Location.ofOffset_injective (Nat.le_of_lt hb) (Nat.le_of_lt ha) hplace
  · have hend : Location.ofOffset code b = Location.ofOffset code code.length := by
      rw [Location.ofOffset, Location.ofOffset, List.take_of_length_le hb, List.take_length]
    rw [hend] at hplace
    have := Location.ofOffset_injective (Nat.le_refl _) (Nat.le_of_lt ha) hplace
    omega

/-- **Positions are faithful to the source.** The tree of a text has the following positions. Every
node has the origin, and its line and column, counted by line feeds, are those of an offset inside
the text. There starts the first leaf of the parse tree that the node is made of, dangling commas
left out, and if the kind of the node begins with a token of its own, its text stands there. The
offsets of all nodes, a node before those in its fields, never decrease, and those of the child nodes
of a node increase. If a node gives its parts, then these are its child nodes, with gaps. -/
theorem positions_faithful {origin code : String} {v : Value} (h : parse origin code = .ok v) :
    ∃ tree after, parseTree (.phrase .loopUnit) false code.toList = .ok (tree, after) ∧
      (∀ n ∈ v.nodes, ∃ kind line column fields offset,
        n = .node kind ⟨.text origin, .int line, .int column⟩ fields ∧
        offset < code.toList.length ∧
        line = (1 + (code.toList.take offset).count '\n' : Nat) ∧
        column = (1 + ((code.toList.take offset).reverse.takeWhile (· ≠ '\n')).length : Nat) ∧
        n.offsetIn code.toList = some offset ∧
        (∃ u ∈ subtrees tree.pruned, MadeAt (placed origin code.toList) n u offset) ∧
        ∀ w, kind.heading fields = some w → w.toList <+: code.toList.drop offset) ∧
      (v.nodes.filterMap (Value.offsetIn code.toList)).Pairwise (· ≤ ·) ∧
      ∀ n ∈ v.nodes, (n.childNodes.filterMap (Value.offsetIn code.toList)).Pairwise (· < ·) ∧
        ∀ parts, n.parts? = some parts →
          (parts.flatMap Value.entries).filter (· ≠ .null) = n.childNodes := by
  obtain ⟨tree, a, ht, hb⟩ := parse_eq_ok.1 h
  have hb : buildTree (placed origin code.toList) tree = .ok (.one v) := buildIn_eq_ok.1 hb
  -- everything is read off one fact: the values are spread over the text
  obtain ⟨hspread, hvalues, stop, hstop, hv⟩ := exists_spread (Or.inr rfl) ht hb
  have hparse : parseTree (.phrase .loopUnit) false code.toList = .ok (tree, a) := by
    rcases parseTree_prefix (.phrase .loopUnit) code.toList with ⟨t, a', ht', heq⟩ | ⟨hr, -⟩
    · obtain ⟨htree, rfl⟩ := ht.unique ht'
      cases htree
      exact heq
    · exact absurd ht hr.not_takes
  -- pruning and tidying are the same on a tree that fits
  have hpruned : tree.pruned = tree.tidy :=
    pruned_eq_tidy _ (Or.inr ⟨.loopUnit, (ht.reads_phrase rfl).fits⟩)
  have hnodes : nodesOfAll [v] = v.nodes := by simp [nodesOfAll]
  refine ⟨tree, a, hparse, fun n hn => ?_, ?_, fun n hn => ?_⟩
  · rw [← hnodes] at hn
    obtain ⟨o, mid, kind, fields, rfl, -, hlt, hmid, hs, -⟩ := hv.nodes hn
    have ho : o < code.toList.length := by omega
    obtain ⟨u, hu, hmade, kind', fields', hnode⟩ := hspread.own _ (by rw [hvalues]; exact hn)
    have hstart : u.start = o := offset_eq_of_placed ho (Value.node.inj hnode).2.1.symm
    rw [hstart] at hmade
    refine ⟨kind, _, _, fields, o, by rw [placed_eq], ho, rfl, rfl,
      offsetIn_placed (Nat.le_of_lt ho) kind fields, ⟨u, by rw [hpruned]; exact hu, hmade⟩,
      hs.heading⟩
  · rw [← hnodes]
    exact hv.offsets_pairwise hstop
  · have hwell : n.isWellFormed = true :=
      List.all_eq_true.1 ((parsed_isTyped origin code).1 v h).2 n hn
    refine ⟨?_, fun parts hp => entries_parts hwell hp⟩
    rw [← hnodes] at hn
    obtain ⟨o, mid, kind, fields, rfl, -, -, hmid, -, hf⟩ := hv.nodes hn
    -- the child nodes of a node are the heads of its fields
    have hordered := (hf.heads_pairwise (Nat.le_trans hmid hstop)).1
    rw [headsOf_headsOf] at hordered
    exact hordered

/-- Positions in a text with a comment, a second line, parentheses and two operators of one level. -/
theorem positions_faithful_parentheses :
    ∃ v tree after,
      parse "a.sv" "// two\nwhile ((a + b) - c)\n  i = !\"s\";" = .ok v ∧
      parseTree (.phrase .loopUnit) false
        "// two\nwhile ((a + b) - c)\n  i = !\"s\";".toList = .ok (tree, after) ∧
      (v.nodes.filterMap (Value.offsetIn
        "// two\nwhile ((a + b) - c)\n  i = !\"s\";".toList)).Pairwise (· ≤ ·) := by
  obtain ⟨v, h⟩ : ∃ v, parse "a.sv" "// two\nwhile ((a + b) - c)\n  i = !\"s\";" = .ok v := by
    rw [parse_afresh String.toList_ofList]
    exact exists_of_isOk (by decide +kernel)
  obtain ⟨tree, after, htree, -, hordered, -⟩ := positions_faithful h
  exact ⟨v, tree, after, h, htree, hordered⟩

end VerilogLoops
