import VerilogLoops.Proofs.Making

/-!
# What expressions and assignments make

References, calls and assignments.
-/

namespace VerilogLoops.Ast

open VerilogLoops.Lexical VerilogLoops.Grammar

attribute [local simp] Phrase.gap Phrase.spaced Phrase.leads Phrase.spacedAfter assemble theMember
  childAt lastChild scopedName firstOrNull tokenPiece buildLeaf Built.values Value.render
  writeFields writeItems writeAll Kind.layout renderParts Part.render Part.render.fieldAt
  Thunk.get wordOf Spelling.wholeWord Spelling.keyword Spelling.plain Spelling.notBefore
  String.append_assoc

/-! ## References -/

theorem assembles_select : Assembles .select := by
  intro pos ps h
  simp only [Phrase.body, Pattern.row, forms_token_seq, forms_phrase_seq, forms_opt_seq,
    forms_seq_seq, forms_token] at h
  obtain ⟨_, rfl, _, index, _, rfl, hi, rfl | ⟨op, p, _, rfl, -, _, width, _, rfl, hw', rfl⟩⟩ := h
  · obtain ⟨v, rfl, hv, hr⟩ := hi.plain rfl
    exact ⟨.one (.node .select pos [v, .null, .null]), by simp, _, rfl, rfl,
      ⟨_, by simp [hr], rfl⟩⟩
  · obtain ⟨v, rfl, hv, hr⟩ := hi.plain rfl
    obtain ⟨u, rfl, hu, hru⟩ := hw'.plain rfl
    exact ⟨.one (.node .select pos [v, .text op, u]), by simp, _, rfl, rfl,
      ⟨_, by simp [hr, hru], rfl⟩⟩

theorem assembles_variableReference : Assembles .variableReference := by
  intro pos ps h
  have tight : ∀ a b, Phrase.variableReference.spaced a b = false := by simp
  simp only [Phrase.body, Pattern.row, forms_phrase_seq, forms_opt_seq, forms_many_phrase] at h
  rcases h with ⟨_, text, selects, rfl, hname, h⟩ |
    ⟨_, scope, _, rfl, hscope, _, text, selects, rfl, hname, h⟩
  · have hitems : Items .select (.only .select) selects := items_of_makes rfl h
    obtain ⟨v, rfl, hv, hr⟩ := hname.plain rfl
    simp only [familyOf] at hv
    refine ⟨.one (.node .variableReference pos [.node .scopedIdentifier pos [.null, v],
      .seq (valuesOf selects)]), ?_, _, rfl, rfl, ⟨_, ?_, rfl⟩⟩
    · simp (disch := decide) [isA_eq_true hv, isA_eq_false hv, hitems.members, hitems.members_nil]
    · rw [joined_of_tight tight]
      simp [hr, hitems.renderAll, map_snd_linesOf]
  · have hitems : Items .select (.only .select) selects := items_of_makes rfl h
    obtain ⟨v, rfl, hv, hr⟩ := hname.plain rfl
    obtain ⟨u, rfl, hu, hru⟩ := hscope.plain rfl
    simp only [familyOf] at hv hu
    refine ⟨.one (.node .variableReference pos [.node .scopedIdentifier pos [u, v],
      .seq (valuesOf selects)]), ?_, _, rfl, rfl, ⟨_, ?_, rfl⟩⟩
    · simp (disch := decide) [isA_eq_true hv, isA_eq_false hv, isA_eq_true hu, isA_eq_false hu,
        hitems.members, hitems.members_nil]
    · rw [joined_of_tight tight]
      simp [hr, hru, isTruthy_of_isA hu, hitems.renderAll, map_snd_linesOf]

theorem assembles_lvalue : Assembles .lvalue := by
  intro pos ps h
  simp only [Phrase.body, Pattern.oneOf, forms_alt, forms_phrase] at h
  rcases h with ⟨_, text, rfl, h⟩ | ⟨_, text, rfl, h⟩ <;>
  · obtain ⟨v, rfl, hv, hr⟩ := h.plain rfl
    simp only [familyOf] at hv
    refine ⟨.one v, ?_, v, rfl, isA_eq_true hv (by decide), ⟨_, hr, rfl⟩⟩
    simp (disch := decide) [isA_eq_true hv]

/-- Something in braces. -/
theorem assembles_concatenation {q item : Phrase}
    (hq : (q = .concatenation ∧ item = .expression) ∨
      (q = .lvalueConcatenation ∧ item = .lvalue)) : Assembles q := by
  intro pos ps h
  rcases hq with ⟨rfl, rfl⟩ | ⟨rfl, rfl⟩ <;>
  · simp only [Phrase.body, Pattern.row, forms_token_seq] at h
    obtain ⟨_, rfl, qs, rs, rfl, hlist, hclose⟩ := h
    simp only [forms_token] at hclose
    subst hclose
    obtain ⟨items, hl⟩ := listed_of_forms rfl hlist
    refine ⟨.one (.node .concatenation pos [.seq (valuesOf items)]), ?_, _, rfl, rfl,
      ⟨_, ?_, rfl⟩⟩
    · have := hl.made.members (g := .expression) (by decide)
      simp [hl.members, this]
    · rw [linesOf_cons, linesOf_append, linesOf_cons, linesOf_nil,
        hl.joined_between (by simp) (by simp)]
      simp [hl.made.renderAll]

theorem assembles_packedDimension : Assembles .packedDimension := by
  intro pos ps h
  simp only [Phrase.body, Pattern.row, Pattern.oneOf, forms_alt, forms_token_seq, forms_phrase_seq,
    forms_token] at h
  rcases h with ⟨_, rfl, _, msb, _, rfl, hm, _, rfl, _, lsb, _, rfl, hl, rfl⟩ | ⟨_, rfl, rfl⟩
  · obtain ⟨v, rfl, hv, hr⟩ := hm.plain rfl
    obtain ⟨u, rfl, hu, hru⟩ := hl.plain rfl
    simp only [familyOf] at hv hu
    exact ⟨.one (.node .packedDimension pos [v, u]), by simp [hv, hu], _, rfl, rfl,
      ⟨_, by simp [hr, hru, ne_null_of_isA hv], rfl⟩⟩
  · exact ⟨.one (.node .packedDimension pos [.null, .null]), by simp, _, rfl, rfl,
      ⟨_, by simp, rfl⟩⟩

/-! ## Assignments -/

theorem assembles_assignSign : Assembles .assignSign := by
  intro pos ps h
  simp only [Phrase.body, Pattern.row, forms_token_seq] at h
  obtain ⟨_, rfl, rfl⟩ := h
  exact ⟨.one (.text "="), rfl, rfl, by simp⟩

theorem assembles_variableAssignment : Assembles .variableAssignment := by
  intro pos ps h
  simp only [Phrase.body, Pattern.row, forms_phrase_seq, forms_phrase] at h
  obtain ⟨_, left, _, rfl, hl, _, sign, _, rfl, ⟨rfl, rfl⟩, _, right, rfl, hr⟩ := h
  obtain ⟨v, rfl, hv, hrv⟩ := hl.plain rfl
  obtain ⟨u, rfl, hu, hru⟩ := hr.plain rfl
  refine ⟨.one (.node .variableAssignment pos [v, u]), by simp, _, rfl, rfl,
    ⟨_, ?_, rfl⟩⟩
  simp only [linesOf_cons, joined_cons_cons]
  simp [hrv, hru]
  exact String.toList_injective (by simp)

theorem assembles_operatorAssignment : Assembles .operatorAssignment := by
  intro pos ps h
  simp only [Phrase.body, Pattern.row, forms_phrase_seq, forms_token_seq, forms_phrase] at h
  obtain ⟨_, left, _, rfl, hl, op, p, _, rfl, -, _, right, rfl, hr⟩ := h
  obtain ⟨v, rfl, hv, hrv⟩ := hl.plain rfl
  obtain ⟨u, rfl, hu, hru⟩ := hr.plain rfl
  exact ⟨.one (.node .operatorAssignment pos [v, .text op, u]), by simp, _, rfl, rfl,
    ⟨_, by simp [hrv, hru], rfl⟩⟩

theorem assembles_variableAssignments : Assembles .variableAssignments := by
  intro pos ps h
  obtain ⟨items, hl⟩ := listed_of_forms rfl h
  have hmembers := hl.made.members (g := .only .variableAssignment) (by decide)
  refine ⟨.several (valuesOf items), by simp [hl.members, hmembers],
    fun hnil => hl.ne_nil (hl.made.values_eq_nil.1 hnil), hl.made.isA, ?_⟩
  exact ⟨_, hl.made.renderAll, (hl.joined _ (by simp) (by simp)).symm⟩

theorem assembles_stepExpression : Assembles .stepExpression := by
  intro pos ps h
  simp only [Phrase.body, Pattern.row, Pattern.oneOf, forms_alt, forms_token_seq,
    forms_phrase_seq, forms_phrase, forms_token] at h
  rcases h with ⟨op, p, _, rfl, -, _, text, rfl, h⟩ | ⟨_, text, _, rfl, h, op, p, rfl, -⟩
  · obtain ⟨v, rfl, hv, hr⟩ := h.plain rfl
    exact ⟨.one (.node .incOrDecExpression pos [v, .text op, .bool true]), by simp, _, rfl, rfl,
      ⟨_, by simp [hr], rfl⟩⟩
  · obtain ⟨v, rfl, hv, hr⟩ := h.plain rfl
    exact ⟨.one (.node .incOrDecExpression pos [v, .text op, .bool false]),
      by simp [isText_of_isA hv], _, rfl, rfl, ⟨_, by simp [hr], rfl⟩⟩

/-! ## Calls -/

theorem assembles_namedArgument : Assembles .namedArgument := by
  intro pos ps h
  simp only [Phrase.body, Pattern.row, forms_token_seq, forms_phrase_seq, forms_opt_seq,
    forms_token] at h
  obtain ⟨_, rfl, _, name, _, rfl, ⟨p, rfl⟩, _, rfl, rfl | ⟨_, text, _, rfl, he, rfl⟩⟩ := h
  · exact ⟨.one (.node .namedArgument pos [.node .identifier p [.text name], .null]),
      by simp [Family.kinds, Kind.expressions], _, rfl, rfl, ⟨_, by simp, rfl⟩⟩
  · obtain ⟨v, rfl, hv, hr⟩ := he.plain rfl
    simp only [familyOf] at hv
    refine ⟨.one (.node .namedArgument pos [.node .identifier p [.text name], v]), ?_, _, rfl, rfl,
      ⟨_, ?_, rfl⟩⟩
    · simp (disch := decide) [Family.kinds, Kind.expressions, hv, isA_eq_false hv]
    · simp [hr, ne_null_of_isA hv]

theorem assembles_argument : Assembles .argument := by
  intro pos ps h
  simp only [Phrase.body, Pattern.oneOf, forms_alt, forms_phrase] at h
  rcases h with ⟨_, text, rfl, h⟩ | ⟨_, text, rfl, h⟩ <;>
  · obtain ⟨v, rfl, hv, hr⟩ := h.plain rfl
    exact ⟨.one v, by simp, v, rfl, isA_eq_true hv (by decide), ⟨_, hr, rfl⟩⟩

theorem assembles_arguments : Assembles .arguments := by
  intro pos ps h
  obtain ⟨items, hl⟩ := listed_of_forms rfl h
  have hmembers := hl.made.members (g := .argument) (by decide)
  refine ⟨.several (valuesOf items), by simp [hl.members, hmembers],
    fun hnil => hl.ne_nil (hl.made.values_eq_nil.1 hnil), hl.made.isA, ?_⟩
  exact ⟨_, hl.made.renderAll, (hl.joined _ (by simp) (by simp)).symm⟩

/-- The arguments between the parentheses of a call. -/
theorem arguments_of_forms {ps : List Piece} (h : Forms Makes
      (.seq (.token .openParen) (.seq (.opt (.phrase .arguments)) (.token .closeParen))) ps) :
    ∃ args texts, valuesOf ps = .text "(" :: (args ++ [Value.text ")"]) ∧
      (∀ v ∈ args, v.isA .argument = true) ∧ RenderAll args texts ∧
        String.join ((linesOf ps).map (·.2)) = "(" ++ ", ".intercalate texts ++ ")" := by
  simp only [forms_token_seq, forms_opt_seq, forms_token, forms_phrase_seq] at h
  obtain ⟨_, rfl, rfl | ⟨values, text, _, rfl, ⟨-, hargs, hr⟩, rfl⟩⟩ := h
  · exact ⟨[], [], by simp, by simp, rfl, by simp⟩
  · obtain ⟨texts, htexts, rfl⟩ := hr
    exact ⟨values, texts, by simp, hargs, htexts, by simp⟩

theorem paren_ne_dollar (name : String) : "(" ≠ "$" ++ name := by
  intro h
  have := congrArg String.toList h
  simp at this

theorem assembles_systemCall : Assembles .systemCall := by
  intro pos ps h
  have tight : ∀ a b, Phrase.systemCall.spaced a b = false := by simp
  simp only [Phrase.body, Pattern.row] at h
  obtain ⟨text, p, rest, rfl, ⟨name, rfl⟩, rfl | h⟩ := forms_token_seq.1 h
  · exact ⟨.one (.node .systemTfCall pos [.text ("$" ++ name), .null]),
      by simp [argumentsOf, paren_ne_dollar], _, rfl, rfl, ⟨_, by simp, rfl⟩⟩
  · obtain ⟨args, texts, hvalues, hargs, hr⟩ := arguments_of_forms h
    refine ⟨.one (.node .systemTfCall pos [.text ("$" ++ name), .seq args]), ?_, _, rfl, rfl,
      ⟨_, ?_, rfl⟩⟩
    · simp [argumentsOf, hvalues, membersOf_eq_self hargs (g := .argument) (by decide)]
    · obtain ⟨hall, htext⟩ := hr
      rw [joined_of_tight tight]
      simp [hall, htext]

/-- The call of a routine, of which the arguments may be left out. -/
theorem assembles_routineCall {q : Phrase} (hq : q = .routineCall ∨ q = .appliedCall) :
    Assembles q := by
  intro pos ps h
  have tight : ∀ a b, q.spaced a b = false := by rcases hq with rfl | rfl <;> simp
  have hcall : ∃ values text rest, ps = ⟨.phrase .routineName, values, text⟩ :: rest ∧
      Makes .routineName values text ∧ (rest = [] ∨ Forms Makes (.seq (.token .openParen)
        (.seq (.opt (.phrase .arguments)) (.token .closeParen))) rest) := by
    rcases hq with rfl | rfl
    · exact forms_phrase_seq.1 h
    · obtain ⟨values, text, rest, rfl, hm, h⟩ := forms_phrase_seq.1 h
      exact ⟨values, text, rest, rfl, hm, Or.inr h⟩
  clear h
  obtain ⟨_, text, rest, rfl, hm, h⟩ := hcall
  obtain ⟨v, rfl, hv, hrv⟩ := hm.plain rfl
  have hne : Value.text "(" ≠ v := (ne_text_of_isA hv "(").symm
  suffices hcall : ∃ fields, assemble q pos (v :: valuesOf rest) =
      .ok (.one (.node .tfCall pos fields)) ∧ ((Value.node .tfCall pos fields).render =
        .ok (text ++ String.join ((linesOf rest).map (·.2)))) by
    obtain ⟨fields, hb, hr⟩ := hcall
    refine ⟨_, hb, ?_⟩
    rw [joined_of_tight tight]
    rcases hq with rfl | rfl <;> exact ⟨_, rfl, rfl, ⟨_, hr, by simp [inkOf]⟩⟩
  rcases h with rfl | h
  · refine ⟨[v, .null], ?_, by simp [hrv]⟩
    rcases hq with rfl | rfl <;> simp [argumentsOf, hne]
  · obtain ⟨args, texts, hvalues, hargs, hr⟩ := arguments_of_forms h
    refine ⟨[v, .seq args], ?_, ?_⟩
    · have := membersOf_eq_self hargs (g := .argument) (by decide)
      rcases hq with rfl | rfl <;> simp [argumentsOf, hvalues, this]
    · obtain ⟨hall, htext⟩ := hr
      simp [hrv, hall, htext]

theorem assembles_call : Assembles .call := by
  intro pos ps h
  simp only [Phrase.body, Pattern.oneOf, forms_alt, forms_phrase] at h
  rcases h with ⟨_, text, rfl, h⟩ | ⟨_, text, rfl, h⟩ <;>
  · obtain ⟨v, rfl, hv, hr⟩ := h.plain rfl
    have hv : v.isA .call = true := isA_eq_true hv (by decide)
    exact ⟨.one v, by simp [hv], v, rfl, hv, ⟨_, hr, rfl⟩⟩

end VerilogLoops.Ast
