import VerilogLoops.Proofs.Making

/-!
# What statements make

Attributes, labels, blocks and the statements that are no loops.
-/

namespace VerilogLoops.Ast

open VerilogLoops.Lexical VerilogLoops.Grammar

attribute [local simp] Phrase.gap Phrase.spaced Phrase.leads Phrase.spacedAfter assemble theMember
  childAt lastChild firstOrNull tokenPiece buildLeaf Built.values Value.render
  writeFields writeItems writeAll Kind.layout renderParts Part.render Part.render.fieldAt
  Thunk.get Spelling.wholeWord Spelling.keyword Spelling.plain Spelling.notBefore
  String.append_assoc

/-! ## Attributes -/

theorem assembles_attributeEntry : Assembles .attributeEntry := by
  intro pos ps h
  simp only [Phrase.body, Pattern.row, forms_phrase_seq, forms_opt, forms_phrase] at h
  obtain ⟨_, name, _, rfl, ⟨p, rfl⟩, rfl | ⟨_, sign, _, rfl, ⟨rfl, rfl⟩, _, text, rfl, h⟩⟩ := h
  · exact ⟨.one (.node .attrSpec pos [.node .identifier p [.text name], .null]),
      by simp [Family.kinds, Kind.expressions], _, rfl, rfl, ⟨_, by simp, rfl⟩⟩
  · obtain ⟨v, rfl, hv, hr⟩ := h.plain rfl
    simp only [familyOf] at hv
    refine ⟨.one (.node .attrSpec pos [.node .identifier p [.text name], v]), ?_, _, rfl, rfl,
      ⟨_, ?_, rfl⟩⟩
    · simp [Family.kinds, Kind.expressions, hv]
    · simp [hr, ne_null_of_isA hv]
      exact String.toList_injective (by simp)

theorem assembles_attribute : Assembles .attribute := by
  intro pos ps h
  simp only [Phrase.body, Pattern.row, forms_token_seq] at h
  obtain ⟨_, rfl, qs, rs, rfl, hlist, hclose⟩ := h
  simp only [forms_token] at hclose
  subst hclose
  obtain ⟨items, hl⟩ := listed_of_forms rfl hlist
  refine ⟨.one (.node .attributeInstance pos [.seq (valuesOf items)]), ?_, _, rfl, rfl,
    ⟨_, ?_, rfl⟩⟩
  · have := hl.made.members (g := .only .attrSpec) (by decide)
    simp [hl.members, this]
  · rw [linesOf_cons, linesOf_append, linesOf_cons, linesOf_nil,
      hl.joined_between (by simp) (by simp)]
    simp [hl.made.renderAll]

/-- Attributes, each with a blank behind it, stand in front of what they belong to. -/
theorem joined_attributes {q : Phrase} (hq : q = .statement ∨ q = .nullStatement)
    {x : Pattern × String} {ps : List Piece}
    (h : Items .attribute (.only .attributeInstance) ps) :
    joined q (linesOf ps ++ [x]) = String.join (ps.map fun p => p.text ++ " ") ++ x.2 := by
  rw [joined_of_spacedAfter]
  · simp [linesOf, Function.comp_def]
  · intro y hy
    obtain ⟨piece, hp, rfl⟩ := List.mem_map.1 hy
    have := h.symbols piece hp
    rcases hq with rfl | rfl <;> simp [this]

/-! ## Statements -/

theorem assembles_nullStatement : Assembles .nullStatement := by
  intro pos ps h
  simp only [Phrase.body, Pattern.row, forms_many_phrase_seq, forms_token] at h
  obtain ⟨attrs, _, rfl, h, rfl⟩ := h
  have hitems : Items .attribute (.only .attributeInstance) attrs := items_of_makes rfl h
  refine ⟨.one (.node .nullStatement pos [.seq (valuesOf attrs)]), ?_, _, rfl, rfl,
    ⟨_, ?_, rfl⟩⟩
  · simp [hitems.members (g := .only .attributeInstance) (by decide)]
  · rw [linesOf_append, linesOf_cons, linesOf_nil, joined_attributes (Or.inr rfl) hitems]
    simp [hitems.renderAll, Function.comp_def]

/-- The first of some attributes and an item is no name. -/
theorem first_isA_identifier {attrs : List Piece} {v : Value} (vs : List Value)
    (h : Items .attribute (.only .attributeInstance) attrs) (hv : v.isA .statementItem = true) :
    ∃ first : Value, (valuesOf attrs ++ v :: vs)[0]? = some first ∧
      first.isA (.only .identifier) = false := by
  cases attrs with
  | nil => exact ⟨v, rfl, isA_eq_false hv (by decide)⟩
  | cons p attrs =>
    obtain ⟨u, text, rfl, hu, -⟩ := h p List.mem_cons_self
    exact ⟨u, rfl, isA_eq_false hu (by decide)⟩

theorem assembles_statement : Assembles .statement := by
  intro pos ps h
  simp only [Phrase.body, Pattern.row, forms_opt_seq, forms_phrase_seq, forms_many_phrase_seq,
    forms_phrase] at h
  rcases h with ⟨attrs, _, rfl, h, _, text, rfl, hitem⟩ |
    ⟨_, label, _, rfl, ⟨p, name, rfl, rfl⟩, attrs, _, rfl, h, _, text, rfl, hitem⟩
  · have hitems : Items .attribute (.only .attributeInstance) attrs := items_of_makes rfl h
    obtain ⟨v, rfl, hv, hr⟩ := hitem.plain rfl
    simp only [familyOf] at hv
    -- without a label the first value is an attribute or the statement, and neither is a name
    obtain ⟨first, hfirst, hname⟩ := first_isA_identifier [] hitems hv
    refine ⟨.one (.node .statement pos [.null, .seq (valuesOf attrs), v]), ?_, _, rfl, rfl,
      ⟨_, ?_, rfl⟩⟩
    · simp only [valuesOf_append, valuesOf_cons, valuesOf_nil, List.append_nil, assemble, childAt,
        hfirst]
      simp (disch := decide) [hname, hitems.members, hitems.members_nil, isA_eq_true hv,
        isA_eq_false hv]
    · rw [linesOf_append, linesOf_cons, linesOf_nil, joined_attributes (Or.inl rfl) hitems]
      simp [hitems.renderAll, hr, Function.comp_def]
  · have hitems : Items .attribute (.only .attributeInstance) attrs := items_of_makes rfl h
    obtain ⟨v, rfl, hv, hr⟩ := hitem.plain rfl
    simp only [familyOf] at hv
    refine ⟨.one (.node .statement pos [.node .identifier p [.text name], .seq (valuesOf attrs),
      v]), ?_, _, rfl, rfl, ⟨_, ?_, rfl⟩⟩
    · simp only [valuesOf_append, valuesOf_cons, valuesOf_nil, List.append_nil, assemble, childAt,
        List.cons_append, List.nil_append, List.getElem?_cons_zero, ok_bind]
      simp (disch := decide) [hitems.members, hitems.members_nil, isA_eq_true hv, isA_eq_false hv,
        Family.kinds, Kind.loops]
    · have hjoin : ∀ {x y : Pattern × String} {ys : List (Pattern × String)},
          x.1 = .phrase .statementLabel → joined .statement (x :: (ys ++ [y])) =
            x.2 ++ " " ++ joined .statement (ys ++ [y]) := by
        intro x y ys hx
        cases ys with
        | nil => simp [hx]
        | cons z ys => simp [hx]
      rw [linesOf_cons, linesOf_append, linesOf_cons, linesOf_nil, hjoin rfl,
        joined_attributes (Or.inl rfl) hitems]
      simp [hitems.renderAll, hr, Function.comp_def]

theorem assembles_statementItem : Assembles .statementItem := by
  intro pos ps h
  simp only [Phrase.body, Pattern.oneOf, forms_alt, forms_phrase] at h
  rcases h with ⟨_, text, rfl, h⟩ | ⟨_, text, rfl, h⟩ | ⟨_, text, rfl, h⟩ | ⟨_, text, rfl, h⟩ |
    ⟨_, text, rfl, h⟩ | ⟨_, text, rfl, h⟩ | ⟨_, text, rfl, h⟩ <;>
  · obtain ⟨v, rfl, hv, hr⟩ := h.plain rfl
    have hv : v.isA .statementItem = true := isA_eq_true hv (by decide)
    exact ⟨.one v, by simp [hv], v, rfl, hv, ⟨_, hr, rfl⟩⟩

theorem assembles_statementOrNull : Assembles .statementOrNull := by
  intro pos ps h
  simp only [Phrase.body, Pattern.oneOf, forms_alt, forms_phrase] at h
  rcases h with ⟨_, text, rfl, h⟩ | ⟨_, text, rfl, h⟩ <;>
  · obtain ⟨v, rfl, hv, hr⟩ := h.plain rfl
    have hv : v.isA .statementOrNull = true := isA_eq_true hv (by decide)
    exact ⟨.one v, by simp [hv], v, rfl, hv, ⟨_, hr, rfl⟩⟩

theorem assembles_conditional : Assembles .conditional := by
  intro pos ps h
  simp only [Phrase.body, Pattern.row, forms_token_seq, forms_phrase_seq, forms_opt,
    forms_phrase] at h
  obtain ⟨_, rfl, _, rfl, _, cond, _, rfl, hc, _, rfl, _, yes, _, rfl, hy,
    rfl | ⟨_, rfl, _, no, rfl, hn⟩⟩ := h
  · obtain ⟨c, rfl, hvc, hrc⟩ := hc.plain rfl
    obtain ⟨y, rfl, hvy, hry⟩ := hy.plain rfl
    simp only [familyOf] at hvc hvy
    refine ⟨.one (.node .conditionalStatement pos [c, y, .null]), ?_, _, rfl, rfl,
      ⟨_, ?_, rfl⟩⟩
    · simp (disch := decide) [hvc, hvy, isA_eq_false hvc, isA_eq_false hvy]
    · simp [hrc, hry]
      exact String.toList_injective (by simp)
  · obtain ⟨c, rfl, hvc, hrc⟩ := hc.plain rfl
    obtain ⟨y, rfl, hvy, hry⟩ := hy.plain rfl
    obtain ⟨n, rfl, hvn, hrn⟩ := hn.plain rfl
    simp only [familyOf] at hvc hvy hvn
    refine ⟨.one (.node .conditionalStatement pos [c, y, n]), ?_, _, rfl, rfl,
      ⟨_, ?_, rfl⟩⟩
    · simp (disch := decide) [hvc, hvy, hvn, isA_eq_false hvc, isA_eq_false hvy, isA_eq_false hvn]
    · simp [hrc, hry, hrn, ne_null_of_isA hvn]
      exact String.toList_injective (by simp)

theorem assembles_jump : Assembles .jump := by
  intro pos ps h
  simp only [Phrase.body, Pattern.row, Pattern.oneOf, forms_alt, forms_token_seq, forms_opt_seq,
    forms_phrase_seq, forms_token] at h
  rcases h with ⟨_, rfl, rfl | ⟨_, text, _, rfl, h, rfl⟩⟩ | ⟨_, rfl, rfl⟩ | ⟨_, rfl, rfl⟩
  · exact ⟨.one (.node .jumpStatement pos [.text "return", .null]), by simp, _, rfl, rfl,
      ⟨_, by simp, rfl⟩⟩
  · obtain ⟨v, rfl, hv, hr⟩ := h.plain rfl
    simp only [familyOf] at hv
    refine ⟨.one (.node .jumpStatement pos [.text "return", v]), by simp [hv], _, rfl, rfl,
      ⟨_, ?_, rfl⟩⟩
    simp [hr, ne_null_of_isA hv]
    exact String.toList_injective (by simp)
  · exact ⟨.one (.node .jumpStatement pos [.text "break", .null]), by simp, _, rfl, rfl,
      ⟨_, by simp, rfl⟩⟩
  · exact ⟨.one (.node .jumpStatement pos [.text "continue", .null]), by simp, _, rfl, rfl,
      ⟨_, by simp, rfl⟩⟩

/-- A statement that is a semicolon behind something else. -/
theorem assembles_closed {q : Phrase} {kind : Kind}
    (hq : (q = .assignmentStatement ∧ kind = .blockingAssignment) ∨
      (q = .stepStatement ∧ kind = .incOrDecStatement) ∨
        (q = .callStatement ∧ kind = .subroutineCallStatement)) : Assembles q := by
  intro pos ps h
  rcases hq with ⟨rfl, hk⟩ | ⟨rfl, hk⟩ | ⟨rfl, hk⟩ <;>
  · simp only [Phrase.body, Pattern.row, forms_phrase_seq, forms_token] at h
    obtain ⟨_, text, _, rfl, h, rfl⟩ := h
    obtain ⟨v, rfl, hv, hr⟩ := h.plain rfl
    simp only [familyOf] at hv
    exact ⟨.one (.node kind pos [v]), by simp [hv, hk], _, rfl, by rw [hk]; rfl,
      ⟨_, by simp [hr, hk], rfl⟩⟩

/-! ## Blocks -/

theorem placesOf_append (word : String) (vs us : List Value) :
    placesOf word (vs ++ us) = placesOf word vs ++ (placesOf word us).map (· + vs.length) := by
  have hshift : ∀ (us : List Value) (n : Nat), ((us.zipIdx n).filter
      fun c => decide (c.1 = .text word)).map (·.2) = (placesOf word us).map (· + n) := by
    intro us n
    unfold placesOf
    rw [List.zipIdx_eq_map_add, List.filter_map, List.map_map, List.map_map]
    simp [Function.comp_def, Nat.add_comm]
  unfold placesOf
  rw [List.zipIdx_append, List.filter_append, List.map_append, Nat.zero_add, hshift us]
  rfl

theorem placesOf_cons (word : String) (v : Value) (vs : List Value) :
    placesOf word (v :: vs) =
      (if v = .text word then [0] else []) ++ (placesOf word vs).map (· + 1) := by
  rw [← List.singleton_append, placesOf_append]
  by_cases h : v = .text word <;> simp [placesOf, h]

@[simp] theorem placesOf_nil (word : String) : placesOf word [] = [] := rfl

theorem placesOf_of_isA {f : Family} {vs : List Value} (h : ∀ v ∈ vs, v.isA f = true)
    (word : String) : placesOf word vs = [] := by
  induction vs with
  | nil => rfl
  | cons v vs ih =>
    rw [placesOf_cons, ih fun u hu => h u (List.mem_cons_of_mem v hu),
      if_neg (ne_text_of_isA (h v List.mem_cons_self) word)]
    rfl

/-- A colon and a name, or nothing. -/
def labelled (name : Value) : List Value := if name = .null then [] else [.text ":", name]

section Block

variable {name last : Value} {items : List Value}

theorem placesOf_labelled (h : name = .null ∨ name.isA (.only .identifier) = true) :
    placesOf "end" (labelled name) = [] := by
  unfold labelled
  split
  · rfl
  · next hn => simp [placesOf_cons, ne_text_of_isA (h.resolve_left hn) "end"]

/-- The name of a block is looked for behind `begin`. -/
theorem childAt_labelled (h : name = .null ∨ name.isA (.only .identifier) = true)
    (hitems : ∀ v ∈ items, v.isA .statementOrNull = true) (rest : List Value) :
    ∃ first, childAt (.text "begin" :: (labelled name ++ (items ++ .text "end" :: rest))) 1
        = .ok first ∧
      ((first ≠ .text ":" ∧ name = .null) ∨ (first = .text ":" ∧ childAt (.text "begin" ::
        (labelled name ++ (items ++ .text "end" :: rest))) 2 = .ok name)) := by
  unfold labelled
  rcases h with rfl | hname
  · cases items with
    | nil => exact ⟨.text "end", by simp, Or.inl (by simp)⟩
    | cons v items =>
      exact ⟨v, by simp, Or.inl ⟨ne_text_of_isA (hitems v List.mem_cons_self) ":", rfl⟩⟩
  · exact ⟨.text ":", by simp [ne_null_of_isA hname], Or.inr (by simp [ne_null_of_isA hname])⟩

/-- A block is made of its names and its items. -/
theorem assemble_block (hname : name = .null ∨ name.isA (.only .identifier) = true)
    (hlast : last = .null ∨ last.isA (.only .identifier) = true)
    (hitems : ∀ v ∈ items, v.isA .statementOrNull = true) (pos : Position) :
    assemble .block pos (.text "begin" :: (labelled name ++ (items ++ .text "end" ::
      labelled last))) = .ok (.one (.node .seqBlock pos [name, .seq items, last])) := by
  have hend : placesOf "end" (.text "begin" :: (labelled name ++ (items ++ .text "end" ::
      labelled last))) = [items.length + (labelled name).length + 1] := by
    simp [placesOf_cons, placesOf_append, placesOf_labelled hname, placesOf_labelled hlast,
      placesOf_of_isA hitems]
  -- `end` stands behind the items, and its offset cuts the values
  have hcut : Value.text "begin" :: (labelled name ++ (items ++ .text "end" :: labelled last)) =
      (Value.text "begin" :: (labelled name ++ items)) ++ .text "end" :: labelled last := by simp
  have hlen : (Value.text "begin" :: (labelled name ++ items)).length =
      items.length + (labelled name).length + 1 := by simp [Nat.add_comm]
  have hnone : membersOf .statementOrNull (labelled name) = [] := by
    unfold labelled
    rcases hname with rfl | hname
    · rfl
    · simp (disch := decide) [ne_null_of_isA hname, isA_eq_false hname]
  have hfoot : (labelled last).getD 1 .null = last := by
    unfold labelled
    split <;> simp [*]
  have hmembers : membersOf .statementOrNull (List.take (items.length + (labelled name).length + 1)
      (.text "begin" :: (labelled name ++ (items ++ .text "end" :: labelled last)))) = items := by
    rw [hcut, ← hlen, List.take_left]
    simp [hnone, membersOf_eq_self hitems (g := .statementOrNull) (by decide)]
  have hlabel : (Value.text "begin" :: (labelled name ++ (items ++ .text "end" ::
      labelled last))).getD (items.length + (labelled name).length + 1 + 2) .null = last := by
    rw [hcut, ← hlen, List.getD_eq_getElem?_getD, List.getElem?_append_right (by simp)]
    simpa using hfoot
  obtain ⟨first, hfirst, hcases⟩ := childAt_labelled hname hitems (labelled last)
  simp only [assemble, hend, hfirst, hmembers, hlabel, ok_bind]
  rcases hcases with ⟨hne, rfl⟩ | ⟨rfl, hname⟩
  · rw [if_neg hne]
    rfl
  · rw [if_pos rfl, hname]
    rfl

end Block

/-- A colon and a name, or nothing. -/
structure NamePart (ps : List Piece) (name : Value) (text : String) : Prop where
  values : valuesOf ps = labelled name
  isName : name = .null ∨ name.isA (.only .identifier) = true
  leads : ∀ y ∈ linesOf ps, y.1 = .token .colon ∨ y.1 = .phrase .identifier
  renders : name ≠ .null → name.render = .ok text
  joined : String.join ((linesOf ps).map fun y => " " ++ y.2) =
    if name = .null then "" else " : " ++ text

theorem namePart_of_forms {ps : List Piece}
    (h : Forms Makes (.opt (.seq (.token .colon) (.phrase .identifier))) ps) :
    ∃ name text, NamePart ps name text := by
  simp only [forms_opt, forms_token_seq, forms_phrase] at h
  rcases h with rfl | ⟨_, rfl, _, text, rfl, p, rfl⟩
  · exact ⟨.null, "", by simp [labelled], by simp, by simp, by simp, by simp⟩
  · refine ⟨.node .identifier p [.text text], text, ?_⟩
    constructor <;> simp [Family.kinds, labelled]
    exact String.toList_injective (by simp)

theorem assembles_block : Assembles .block := by
  intro pos ps h
  simp only [Phrase.body, Pattern.row, forms_token_seq] at h
  obtain ⟨_, rfl, head, _, rfl, hhead, h⟩ := h
  obtain ⟨items, _, rfl, hitems, h⟩ := forms_many_phrase_seq.1 h
  simp only [forms_token_seq] at h
  obtain ⟨foot, rfl, hfoot⟩ := h
  obtain ⟨name, ntext, hn⟩ := namePart_of_forms hhead
  obtain ⟨last, ltext, hl⟩ := namePart_of_forms hfoot
  have hitems : Items .statementOrNull .statementOrNull items := items_of_makes rfl hitems
  refine ⟨.one (.node .seqBlock pos [name, .seq (valuesOf items), last]), ?_, _, rfl, rfl,
    ⟨_, ?_, rfl⟩⟩
  · have hblock := assemble_block hn.isName hl.isName hitems.isA pos
    rw [← hn.values, ← hl.values] at hblock
    simpa only [valuesOf_cons, valuesOf_append, List.cons_append, List.nil_append,
      Spelling.keyword, String.ofList_toList] using hblock
  · -- a blank stands in front of everything behind `begin`
    have hleads : ∀ y ∈ linesOf (head ++ (items ++ ⟨.token .keywordEnd, [.text "end"], "end"⟩ ::
        foot)), Phrase.block.leads.contains y.1 = true := by
      intro y hy
      rw [linesOf_append, linesOf_append, linesOf_cons] at hy
      rcases List.mem_append.1 hy with hy | hy
      · rcases hn.leads y hy with h | h <;> simp [h]
      rcases List.mem_append.1 hy with hy | hy
      · obtain ⟨piece, hp, rfl⟩ := List.mem_map.1 hy
        simp [hitems.symbols piece hp]
      rcases List.mem_cons.1 hy with rfl | hy
      · simp
      · rcases hl.leads y hy with h | h <;> simp [h]
    simp only [Spelling.keyword, String.ofList_toList]
    rw [linesOf_cons, joined_of_leads hleads]
    simp only [linesOf_append, linesOf_cons, List.map_append, List.map_cons, String.join_append,
      String.join_cons, hn.joined, hl.joined]
    by_cases hname : name = .null <;> by_cases hlast : last = .null <;>
      simp [hname, hlast, hitems.renderAll, hn.renders, hl.renders, Function.comp_def,
        linesOf]

end VerilogLoops.Ast
