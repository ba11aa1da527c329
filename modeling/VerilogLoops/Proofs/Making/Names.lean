import VerilogLoops.Proofs.Making

/-!
# What names and data types make

Identifiers, names with a scope, and the data types of declarations.
-/

namespace VerilogLoops.Ast

open VerilogLoops.Lexical VerilogLoops.Grammar

attribute [local simp] Phrase.gap Phrase.spaced Phrase.leads Phrase.spacedAfter assemble theMember
  childAt lastChild scopedName firstOrNull tokenPiece buildLeaf Built.values Value.render
  writeFields writeItems writeAll Kind.layout renderParts Part.render Part.render.fieldAt
  Thunk.get wordOf Spelling.wholeWord Spelling.keyword Spelling.plain
  Spelling.notBefore String.append_assoc

theorem assembles_comment : Assembles .comment := by
  intro pos ps h
  simp only [Phrase.body, Pattern.oneOf, forms_alt, forms_token] at h
  rcases h with ⟨text, p, rfl, -⟩ | ⟨text, p, rfl, -⟩ <;>
    exact ⟨.one (.text text), rfl, rfl⟩

/-! ## Names -/

theorem assembles_identifier : Assembles .identifier := by
  intro pos ps h
  simp only [Phrase.body, Pattern.row, Pattern.oneOf, Forms] at h
  obtain ⟨_, _, rfl, rfl, h⟩ := h
  rcases h with ⟨text, p, rfl, -⟩ | ⟨text, p, rfl, -⟩ <;>
    exact ⟨.one (.node .identifier pos [.text text]), by simp, pos, rfl⟩

/-- A name by another name. -/
theorem assembles_rename {q : Phrase} (hq : q = .variableName ∨ q = .indexName) :
    Assembles q := by
  intro pos ps h
  rcases hq with rfl | rfl <;>
  · obtain ⟨_, text, rfl, p, rfl⟩ := h
    exact ⟨.one (.node .identifier p [.text text]), by simp, p, rfl⟩

theorem assembles_statementLabel : Assembles .statementLabel := by
  intro pos ps h
  simp only [Phrase.body, Pattern.row, forms_phrase_seq, forms_token] at h
  obtain ⟨_, text, _, rfl, ⟨p, rfl⟩, rfl⟩ := h
  exact ⟨.one (.node .identifier p [.text text]), by simp, p, text, rfl, by simp⟩

/-- The identifiers between the points of a name. -/
theorem path_of_forms {ps : List Piece}
    (h : Forms Makes (Pattern.separated (.phrase .identifier) .period) ps) :
    ∃ items, Items .identifier (.only .identifier) items ∧ (∃ v rest, valuesOf ps = v :: rest ∧
      v.isA (.only .identifier) = true) ∧
      membersOf (.only .identifier) (valuesOf ps) = valuesOf items ∧
      String.join ((linesOf ps).map (·.2)) = ".".intercalate (items.map Piece.text) := by
  obtain ⟨item, items, rfl, hmade⟩ := forms_separated rfl h
  have hitems : Items .identifier (.only .identifier) (item :: items) :=
    items_of_makes rfl hmade
  refine ⟨item :: items, hitems, ?_, ?_, ?_⟩
  · obtain ⟨rest, hrest⟩ := intersperse_cons (markPiece .period ".") item items
    obtain ⟨v, text, rfl, hv, -⟩ := hitems item List.mem_cons_self
    exact ⟨v, valuesOf rest, congrArg valuesOf hrest, hv⟩
  · exact membersOf_intersperse.trans (hitems.members (by decide))
  · have tight : ∀ a b, Phrase.hierarchicalName.spaced a b = false := by simp
    rw [← joined_of_tight tight]
    exact joined_intersperse (by simp) hitems.symbols

theorem assembles_hierarchicalName : Assembles .hierarchicalName := by
  intro pos ps h
  simp only [Phrase.body, Pattern.row, forms_opt_seq, forms_seq_seq, forms_token_seq] at h
  have tight : ∀ a b, Phrase.hierarchicalName.spaced a b = false := by simp
  rcases h with h | ⟨_, rfl, _, rfl, h⟩
  · obtain ⟨items, hitems, ⟨v, rest, hvalues, hv⟩, hmembers, htext⟩ := path_of_forms h
    refine ⟨.one (.node .hierarchicalIdentifier pos [.bool false, .seq (valuesOf items)]), ?_,
      _, rfl, rfl, ⟨_, ?_, rfl⟩⟩
    · rw [← hmembers, hvalues]
      simp [ne_text_of_isA hv]
    · rw [joined_of_tight tight, htext]
      simp [hitems.renderAll]
  · obtain ⟨items, hitems, -, hmembers, htext⟩ := path_of_forms h
    refine ⟨.one (.node .hierarchicalIdentifier pos [.bool true, .seq (valuesOf items)]), ?_,
      _, rfl, rfl, ⟨_, ?_, rfl⟩⟩
    · rw [← hmembers]
      simp
    · rw [joined_of_tight tight]
      simp [hitems.renderAll, htext]
      exact String.toList_injective (by simp)

theorem assembles_packageScope : Assembles .packageScope := by
  intro pos ps h
  simp only [Phrase.body, Pattern.row, Pattern.oneOf, forms_alt_seq, forms_token_seq,
    forms_phrase_seq, forms_token] at h
  rcases h with ⟨_, rfl, rfl⟩ | ⟨_, text, _, rfl, ⟨p, rfl⟩, rfl⟩
  · exact ⟨.one (.node .packageScope pos [.text "$unit"]), by simp, _, rfl, rfl,
      ⟨_, by simp, rfl⟩⟩
  · exact ⟨.one (.node .packageScope pos [.text text]), by simp, _, rfl, rfl,
      ⟨_, by simp, rfl⟩⟩

theorem assembles_classHandle : Assembles .classHandle := by
  intro pos ps h
  simp only [Phrase.body, Pattern.row, Pattern.oneOf, forms_alt, forms_token_seq,
    forms_token] at h
  rcases h with ⟨_, rfl, _, rfl, rfl⟩ | rfl | rfl
  · exact ⟨.one (.node .classHandle pos [.text "this.super"]), by simp [String.join], _, rfl, rfl,
      ⟨"this.super.", by simp, by simp [inkOf]⟩⟩
  · exact ⟨.one (.node .classHandle pos [.text "this"]), by simp [String.join], _, rfl, rfl,
      ⟨"this.", by simp, by simp [inkOf]⟩⟩
  · exact ⟨.one (.node .classHandle pos [.text "super"]), by simp [String.join], _, rfl, rfl,
      ⟨"super.", by simp, by simp [inkOf]⟩⟩

theorem assembles_qualifier : Assembles .qualifier := by
  intro pos ps h
  simp only [Phrase.body, Pattern.row, Pattern.oneOf, forms_alt, forms_phrase_seq, forms_phrase,
    forms_token] at h
  rcases h with ⟨_, text, _, rfl, ⟨v, rfl, hv, hr⟩, rfl⟩ | ⟨_, text, rfl, v, rfl, hv, hr⟩
  · refine ⟨.one v, ?_, v, rfl, isA_eq_true hv (by decide), ?_⟩
    · simp [isA_eq_true hv (show Family.within _ .qualifier = true by decide)]
    · obtain ⟨s, hs, rfl⟩ := hr
      exact ⟨_, hs, by simp [inkOf]⟩
  · refine ⟨.one v, ?_, v, rfl, isA_eq_true hv (by decide), ?_⟩
    · simp [isA_eq_true hv (show Family.within _ .qualifier = true by decide)]
    · obtain ⟨s, hs, rfl⟩ := hr
      exact ⟨_, hs, by simp [inkOf]⟩

/-- A name with an optional scope. -/
theorem assembles_scopedName {q : Phrase} (hq : q = .arrayName ∨ q = .routineName) :
    Assembles q := by
  intro pos ps h
  rcases hq with rfl | rfl <;>
  · simp only [Phrase.body, Pattern.row, forms_opt_seq, forms_phrase_seq, forms_phrase] at h
    rcases h with ⟨_, text, rfl, h⟩ | ⟨_, scope, _, rfl, hs, _, text, rfl, h⟩
    · obtain ⟨v, rfl, hv, hr⟩ := h.plain rfl
      simp only [familyOf] at hv
      refine ⟨.one (.node .scopedIdentifier pos [.null, v]), ?_, _, rfl, rfl,
        ⟨_, ?_, rfl⟩⟩
      · simp (disch := decide) [isA_eq_true hv, isA_eq_false hv]
      · simp [hr]
    · obtain ⟨v, rfl, hv, hr⟩ := h.plain rfl
      obtain ⟨u, rfl, hu, hru⟩ := hs.plain rfl
      simp only [familyOf] at hv hu
      refine ⟨.one (.node .scopedIdentifier pos [u, v]), ?_, _, rfl, rfl,
        ⟨_, ?_, rfl⟩⟩
      · simp (disch := decide) [isA_eq_true hv, isA_eq_false hv, isA_eq_true hu, isA_eq_false hu]
      · simp [hr, hru, isTruthy_of_isA hu]

/-! ## Data types -/

/-- A data type that is one keyword. -/
theorem assembles_builtinType {q : Phrase} (hq : q = .nonIntegerType ∨ q = .simpleType) :
    Assembles q := by
  intro pos ps h
  rcases hq with rfl | rfl <;>
  · obtain ⟨text, p, rfl, -⟩ := h
    exact ⟨.one (.node .builtinType pos [.text text]), by simp, _, rfl, rfl,
      ⟨_, by simp, rfl⟩⟩

theorem assembles_dataType : Assembles .dataType := by
  intro pos ps h
  simp only [Phrase.body, Pattern.oneOf, forms_alt, forms_phrase] at h
  rcases h with ⟨_, text, rfl, h⟩ | ⟨_, text, rfl, h⟩ | ⟨_, text, rfl, h⟩ | ⟨_, text, rfl, h⟩ |
    ⟨_, text, rfl, h⟩ <;>
  · obtain ⟨v, rfl, hv, hr⟩ := h.plain rfl
    have hv : v.isA .dataType = true := hv
    exact ⟨.one v, by simp [hv], v, rfl, hv, ⟨_, hr, rfl⟩⟩

theorem ne_empty_of_signing {text : String} (h : Token.signing.HasForm text) : text ≠ "" := by
  rintro rfl
  have := h rfl
  revert this
  decide

theorem assembles_integerAtomType : Assembles .integerAtomType := by
  intro pos ps h
  simp only [Phrase.body, Pattern.row, forms_token_seq, forms_opt, forms_token] at h
  obtain ⟨text, p, _, rfl, -, rfl | ⟨sign, p', rfl, hsign⟩⟩ := h
  · exact ⟨.one (.node .integerAtomType pos [.text text, .null]), by simp, _, rfl, rfl,
      ⟨_, by simp, rfl⟩⟩
  · exact ⟨.one (.node .integerAtomType pos [.text text, .text sign]), by simp, _, rfl, rfl,
      ⟨_, by simp [ne_empty_of_signing hsign], rfl⟩⟩

/-- Dimensions, each with a blank in front of it, stand behind what they belong to. -/
theorem joined_dimensions {q : Phrase} (hq : q = .integerVectorType ∨ q = .namedType)
    {x : Pattern × String} {ps : List Piece}
    (h : Items .packedDimension (.only .packedDimension) ps) :
    joined q (x :: linesOf ps) = x.2 ++ String.join (ps.map fun p => " " ++ p.text) := by
  rw [joined_of_leads]
  · simp [linesOf, Function.comp_def]
  · intro y hy
    obtain ⟨piece, hp, rfl⟩ := List.mem_map.1 hy
    have := h.symbols piece hp
    rcases hq with rfl | rfl <;> simp [this]

theorem assembles_integerVectorType : Assembles .integerVectorType := by
  intro pos ps h
  simp only [Phrase.body, Pattern.row, forms_token_seq, forms_opt_seq, forms_many_phrase] at h
  obtain ⟨text, p, dims, rfl, -, h | ⟨sign, p', dims, rfl, hsign, h⟩⟩ := h
  · have hitems : Items .packedDimension (.only .packedDimension) dims := items_of_makes rfl h
    refine ⟨.one (.node .integerVectorType pos [.text text, .null, .seq (valuesOf dims)]), ?_,
      _, rfl, rfl, ⟨_, ?_, rfl⟩⟩
    · simp [hitems.members (g := .only .packedDimension) (by decide), hitems.isText_getD]
    · rw [linesOf_cons, joined_dimensions (Or.inl rfl) hitems]
      simp [hitems.renderAll, Function.comp_def]
  · have hitems : Items .packedDimension (.only .packedDimension) dims := items_of_makes rfl h
    refine ⟨.one (.node .integerVectorType pos [.text text, .text sign, .seq (valuesOf dims)]), ?_,
      _, rfl, rfl, ⟨_, ?_, rfl⟩⟩
    · simp [hitems.members (g := .only .packedDimension) (by decide)]
    · rw [linesOf_cons, linesOf_cons, joined_cons_cons,
        joined_dimensions (Or.inl rfl) hitems]
      simp [hitems.renderAll, Function.comp_def, ne_empty_of_signing hsign]

theorem assembles_namedType : Assembles .namedType := by
  intro pos ps h
  simp only [Phrase.body, Pattern.row, forms_phrase_seq, forms_opt_seq, forms_many_phrase] at h
  rcases h with ⟨_, text, dims, rfl, hname, h⟩ |
    ⟨_, scope, _, rfl, hscope, _, text, dims, rfl, hname, h⟩
  · have hitems : Items .packedDimension (.only .packedDimension) dims := items_of_makes rfl h
    obtain ⟨p, rfl⟩ := hname
    refine ⟨.one (.node .namedType pos [.null, .node .identifier p [.text text],
      .seq (valuesOf dims)]), ?_, _, rfl, rfl, ⟨_, ?_, rfl⟩⟩
    · simp (disch := decide) [hitems.members, hitems.members_nil, Family.kinds]
    · rw [linesOf_cons, joined_dimensions (Or.inr rfl) hitems]
      simp [hitems.renderAll, Function.comp_def]
  · have hitems : Items .packedDimension (.only .packedDimension) dims := items_of_makes rfl h
    obtain ⟨p, rfl⟩ := hname
    obtain ⟨v, rfl, hv, hr⟩ := hscope.plain rfl
    simp only [familyOf] at hv
    refine ⟨.one (.node .namedType pos [v, .node .identifier p [.text text],
      .seq (valuesOf dims)]), ?_, _, rfl, rfl, ⟨_, ?_, rfl⟩⟩
    · simp (disch := decide) [hitems.members, hitems.members_nil, Family.kinds, isA_eq_true hv,
        isA_eq_false hv]
    · rw [linesOf_cons, linesOf_cons, joined_cons_cons,
        joined_dimensions (Or.inr rfl) hitems]
      simp [hitems.renderAll, Function.comp_def, hr, isTruthy_of_isA hv]

end VerilogLoops.Ast
