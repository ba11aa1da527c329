import VerilogLoops.Proofs.Composition

/-!
# How names and data types are composed

Names with a scope, and the data types of declarations. A reference and a name with a scope are
composed twice: the name first, then what is around it.
-/

namespace VerilogLoops.Ast

open VerilogLoops.Lexical VerilogLoops.Grammar

attribute [local simp] assemble theMember childAt lastChild scopedName firstOrNull tokenPiece
  buildLeaf Built.values wordOf Spelling.wholeWord Spelling.keyword Spelling.plain
  Spelling.notBefore Kind.admits Kind.types FieldType.holds Kind.agrees Kind.callers
  Kind.heading leadOf Family.kinds isBareCall_node

theorem grows_comment : Grows .comment := by
  intro pos ps h
  simp only [Phrase.body, Pattern.oneOf, forms_alt, forms_token] at h
  rcases h with ⟨text, p, rfl, -⟩ | ⟨text, p, rfl, -⟩ <;>
    exact ⟨.one (.text text), rfl, .same _, text, rfl⟩

/-! ## Names -/

/-- A name by another name. -/
theorem grows_rename {q : Phrase} (hq : q = .variableName ∨ q = .indexName) : Grows q := by
  intro pos ps h
  rcases hq with rfl | rfl <;>
  · obtain ⟨_, text, rfl, v, rfl, hv⟩ := h
    exact grown_pick ⟨v, rfl, hv⟩ (by simp) (by simp)

theorem grows_statementLabel : Grows .statementLabel := by
  intro pos ps h
  simp only [Phrase.body, Pattern.row, forms_phrase_seq, forms_token] at h
  obtain ⟨_, text, _, rfl, ⟨v, rfl, hv⟩, rfl⟩ := h
  exact grown_pick ⟨v, rfl, hv⟩ (by simp) (by simp)

theorem grows_hierarchicalName : Grows .hierarchicalName := by
  intro pos ps h
  simp only [Phrase.body, Pattern.row, forms_opt_seq, forms_seq_seq, forms_token_seq] at h
  rcases h with h | ⟨_, rfl, _, rfl, h⟩
  · obtain ⟨vs, hl⟩ := enumerates_of_forms rfl rfl h
    obtain ⟨_, _, rfl, ⟨values, text, rfl, hs⟩, -⟩ := h
    obtain ⟨v, rfl, hv, -⟩ := hs.single rfl
    have hmembers := (hl.members _).trans (hl.sorted.members (g := .only .identifier) (by decide))
    have hidentifiers := hl.sorted.all_isA (g := .only .identifier) (by decide)
    refine grown_node .hierarchicalIdentifier [.bool false, .seq vs]
      ⟨_, rfl, rfl, by simp⟩ ?_ (by simp) ?_ ?_ (by simp)
    · rw [← hmembers]
      simp [ne_text_of_isA hv]
    · rw [hl.heads]
      simp [hl.sorted.heads]
    · simp [hl.sorted.heads, hl.ne_nil, hidentifiers, hl.sorted.notBare]
  · obtain ⟨vs, hl⟩ := enumerates_of_forms rfl rfl h
    have hmembers := (hl.members _).trans (hl.sorted.members (g := .only .identifier) (by decide))
    have hidentifiers := hl.sorted.all_isA (g := .only .identifier) (by decide)
    refine grown_node .hierarchicalIdentifier [.bool true, .seq vs]
      ⟨_, rfl, rfl, by simp⟩ ?_ (by simp) ?_ ?_ (by simp)
    · rw [← hmembers]
      simp
    · simp [hl.heads, hl.sorted.heads]
    · simp [hl.sorted.heads, hl.ne_nil, hidentifiers, hl.sorted.notBare]

theorem grows_packageScope : Grows .packageScope := by
  intro pos ps h
  simp only [Phrase.body, Pattern.row, Pattern.oneOf, forms_alt_seq, forms_token_seq,
    forms_phrase_seq, forms_token] at h
  rcases h with ⟨_, rfl, rfl⟩ | ⟨_, text, _, rfl, ⟨v, rfl, hv⟩, rfl⟩
  · exact grown_node .packageScope [.text "$unit"] ⟨_, rfl, rfl, by simp⟩
      (by simp) (by simp) (by simp) (by simp) (by simp)
  · exact grown_node .packageScope [.text (wordOf v)] ⟨_, rfl, rfl, by simp⟩
      (by simp) (by simp) (by simp) (by simp) (by simp)

theorem grows_classHandle : Grows .classHandle := by
  intro pos ps h
  simp only [Phrase.body, Pattern.row, Pattern.oneOf, forms_alt, forms_token_seq,
    forms_token] at h
  rcases h with ⟨_, rfl, _, rfl, rfl⟩ | rfl | rfl
  · exact grown_node .classHandle [.text "this.super"]
      ⟨_, rfl, rfl, by simp⟩ (by simp [String.join]) (by simp) (by simp) (by simp) (by simp)
  · exact grown_node .classHandle [.text "this"]
      ⟨_, rfl, rfl, by simp⟩ (by simp [String.join]) (by simp) (by simp) (by simp) (by simp)
  · exact grown_node .classHandle [.text "super"]
      ⟨_, rfl, rfl, by simp⟩ (by simp [String.join]) (by simp) (by simp) (by simp) (by simp)

theorem grows_qualifier : Grows .qualifier := by
  intro pos ps h
  simp only [Phrase.body, Pattern.row, Pattern.oneOf, forms_alt, forms_phrase_seq, forms_phrase,
    forms_token] at h
  rcases h with ⟨_, text, _, rfl, ⟨v, rfl, hv, hb⟩, rfl⟩ | ⟨_, text, rfl, v, rfl, hv, hb⟩ <;>
  · have hv : v.isA .qualifier = true := isA_eq_true hv (by decide)
    exact grown_pick ⟨v, rfl, hv, hb⟩ (by simp [hv]) (by simp)

/-- A name with an optional scope. -/
theorem grows_scopedName {q : Phrase} (hq : q = .arrayName ∨ q = .routineName) : Grows q := by
  intro pos ps h
  rcases hq with rfl | rfl <;>
  · simp only [Phrase.body, Pattern.row, forms_opt_seq, forms_phrase_seq, forms_phrase] at h
    rcases h with ⟨_, text, rfl, v, rfl, hv, hb⟩ |
      ⟨_, scope, _, rfl, ⟨u, rfl, hu, hub⟩, _, text, rfl, v, rfl, hv, hb⟩
    · simp only [familyOf] at hv
      refine grown_node .scopedIdentifier [.null, v]
        ⟨_, rfl, rfl, by simp⟩ ?_ (by simp) (by simp) ?_ (by simp)
      · simp (disch := decide) [isA_eq_true hv, isA_eq_false hv]
      · simp [hv, heads_of_isA hv, hb]
    · simp only [familyOf] at hv hu
      refine grown_node .scopedIdentifier [u, v]
        ⟨_, rfl, rfl, by simp⟩ ?_ (by simp) (by simp) ?_ (by simp)
      · simp (disch := decide) [isA_eq_true hv, isA_eq_false hv, isA_eq_true hu, isA_eq_false hu]
      · simp [hv, hu, heads_of_isA hv, heads_of_isA hu, hb, hub]

/-- The name of a reference is composed first, and then the reference. -/
theorem grows_variableReference : Grows .variableReference := by
  intro pos ps h
  simp only [Phrase.body, Pattern.row, forms_phrase_seq, forms_opt_seq, forms_many_phrase] at h
  have compose : ∀ (name : List Value) {fields selects : List Value},
      AllSorted .select selects → name ≠ [] → (headsOf fields).Sublist (headsOf name) →
      Kind.scopedIdentifier.admits fields = true → Grown pos (leadOf ps) (name ++ selects)
        [.node .variableReference pos [.node .scopedIdentifier pos fields, .seq selects]] := by
    intro name fields selects hall hne hs ha
    have hname : Grown pos (leadOf ps) (name ++ selects)
        (.node .scopedIdentifier pos fields :: selects) := .node name (.same _) hne hs ha (by simp)
    have hselects := hall.all_isA (g := .only .select) (by decide)
    refine .node (.node .scopedIdentifier pos fields :: selects) (by simpa using hname)
      (by simp) (by simp) ?_ (by simp)
    simp [hall.heads, hselects, hall.notBare]
  rcases h with ⟨_, text, selects, rfl, ⟨v, rfl, hv, hb⟩, h⟩ |
    ⟨_, scope, _, rfl, ⟨u, rfl, hu, hub⟩, _, text, selects, rfl, ⟨v, rfl, hv, hb⟩, h⟩
  · have hall := allSorted_of_pieces rfl h
    simp only [familyOf] at hv
    refine ⟨.one (.node .variableReference pos [.node .scopedIdentifier pos [.null, v],
      .seq (valuesOf selects)]), ?_, ?_, ⟨_, rfl, rfl, by simp⟩⟩
    · simp (disch := decide) [isA_eq_true hv, isA_eq_false hv, hall.members, hall.members_nil]
    · exact compose [v] hall (by simp) (by simp) (by simp [hv, heads_of_isA hv, hb])
  · have hall := allSorted_of_pieces rfl h
    simp only [familyOf] at hv hu
    refine ⟨.one (.node .variableReference pos [.node .scopedIdentifier pos [u, v],
      .seq (valuesOf selects)]), ?_, ?_, ⟨_, rfl, rfl, by simp⟩⟩
    · simp (disch := decide) [isA_eq_true hv, isA_eq_false hv, isA_eq_true hu, isA_eq_false hu,
        hall.members, hall.members_nil]
    · exact compose [u, v] hall (by simp) (by simp)
        (by simp [hv, hu, heads_of_isA hv, heads_of_isA hu, hb, hub])

/-! ## Data types -/

/-- A data type that is one keyword. -/
theorem grows_builtinType {q : Phrase} (hq : q = .nonIntegerType ∨ q = .simpleType) :
    Grows q := by
  intro pos ps h
  rcases hq with rfl | rfl <;>
  · obtain ⟨text, p, rfl, -⟩ := h
    exact grown_node .builtinType [.text text] ⟨_, rfl, rfl, by simp⟩
      (by simp) (by simp) (by simp) (by simp) (by simp)

theorem grows_dataType : Grows .dataType := by
  intro pos ps h
  simp only [Phrase.body, Pattern.oneOf, forms_alt, forms_phrase] at h
  rcases h with ⟨_, text, rfl, v, rfl, hv, hb⟩ | ⟨_, text, rfl, v, rfl, hv, hb⟩ |
    ⟨_, text, rfl, v, rfl, hv, hb⟩ | ⟨_, text, rfl, v, rfl, hv, hb⟩ |
      ⟨_, text, rfl, v, rfl, hv, hb⟩ <;>
  · have hv : v.isA .dataType = true := hv
    exact grown_pick ⟨v, rfl, hv, hb⟩ (by simp [hv]) (by simp)

theorem grows_integerAtomType : Grows .integerAtomType := by
  intro pos ps h
  simp only [Phrase.body, Pattern.row, forms_token_seq, forms_opt, forms_token] at h
  obtain ⟨text, p, _, rfl, -, rfl | ⟨sign, p', rfl, -⟩⟩ := h
  · exact grown_node .integerAtomType [.text text, .null]
      ⟨_, rfl, rfl, by simp⟩ (by simp) (by simp) (by simp) (by simp) (by simp)
  · exact grown_node .integerAtomType [.text text, .text sign]
      ⟨_, rfl, rfl, by simp⟩ (by simp) (by simp) (by simp) (by simp) (by simp)

theorem grows_integerVectorType : Grows .integerVectorType := by
  intro pos ps h
  simp only [Phrase.body, Pattern.row, forms_token_seq, forms_opt_seq, forms_many_phrase] at h
  obtain ⟨text, p, dims, rfl, -, h | ⟨sign, p', dims, rfl, -, h⟩⟩ := h
  · have hall := allSorted_of_pieces rfl h
    have hmembers := hall.members (g := .only .packedDimension) (by decide)
    have hdims := hall.all_isA (g := .only .packedDimension) (by decide)
    have hsecond : ((valuesOf dims)[0]?.getD Value.null).isText = false := by
      cases hi : (valuesOf dims)[0]? with
      | none => rfl
      | some v => exact isText_of_isA (hall.isA v (List.mem_of_getElem? hi))
    refine grown_node .integerVectorType
      [.text text, .null, .seq (valuesOf dims)] ⟨_, rfl, rfl, by simp⟩ ?_ (by simp)
      (by simp) ?_ (by simp)
    · simp [hmembers, hsecond]
    · simp [hall.heads, hdims, hall.notBare]
  · have hall := allSorted_of_pieces rfl h
    have hmembers := hall.members (g := .only .packedDimension) (by decide)
    have hdims := hall.all_isA (g := .only .packedDimension) (by decide)
    refine grown_node .integerVectorType
      [.text text, .text sign, .seq (valuesOf dims)] ⟨_, rfl, rfl, by simp⟩ ?_
      (by simp) (by simp) ?_ (by simp)
    · simp [hmembers]
    · simp [hall.heads, hdims, hall.notBare]

theorem grows_namedType : Grows .namedType := by
  intro pos ps h
  simp only [Phrase.body, Pattern.row, forms_phrase_seq, forms_opt_seq, forms_many_phrase] at h
  rcases h with ⟨_, text, dims, rfl, ⟨v, rfl, hv, hb⟩, h⟩ |
    ⟨_, scope, _, rfl, ⟨u, rfl, hu, hub⟩, _, text, dims, rfl, ⟨v, rfl, hv, hb⟩, h⟩
  · have hall := allSorted_of_pieces rfl h
    have hdims := hall.all_isA (g := .only .packedDimension) (by decide)
    simp only [familyOf] at hv
    refine grown_node .namedType [.null, v, .seq (valuesOf dims)]
      ⟨_, rfl, rfl, by simp⟩ ?_ (by simp) (by simp) ?_ (by simp)
    · simp (disch := decide) [hall.members, hall.members_nil, isA_eq_true hv, isA_eq_false hv]
    · simp [hv, heads_of_isA hv, hb, hall.heads, hdims, hall.notBare]
  · have hall := allSorted_of_pieces rfl h
    have hdims := hall.all_isA (g := .only .packedDimension) (by decide)
    simp only [familyOf] at hv hu
    refine grown_node .namedType [u, v, .seq (valuesOf dims)]
      ⟨_, rfl, rfl, by simp⟩ ?_ (by simp) (by simp) ?_ (by simp)
    · simp (disch := decide) [hall.members, hall.members_nil, isA_eq_true hv, isA_eq_false hv,
        isA_eq_true hu, isA_eq_false hu]
    · simp [hv, hu, heads_of_isA hv, heads_of_isA hu, hb, hub, hall.heads, hdims, hall.notBare]

end VerilogLoops.Ast
