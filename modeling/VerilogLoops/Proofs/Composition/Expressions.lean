import VerilogLoops.Proofs.Composition

/-!
# How expressions and assignments are composed

Calls, assignments and operations. Operands with operators between them are composed in steps, each
of which puts a node around the left operand, the operator and the right operand.
-/

namespace VerilogLoops.Ast

open VerilogLoops.Lexical VerilogLoops.Grammar

attribute [local simp] assemble theMember childAt lastChild firstOrNull tokenPiece
  buildLeaf Built.values Spelling.wholeWord Spelling.keyword Spelling.plain
  Spelling.notBefore Kind.admits Kind.types FieldType.holds Kind.agrees Kind.callers
  Kind.heading leadOf Family.kinds isBareCall_node

/-! ## Parts of references -/

theorem grows_select : Grows .select := by
  intro pos ps h
  simp only [Phrase.body, Pattern.row, forms_token_seq, forms_phrase_seq, forms_opt_seq,
    forms_seq_seq, forms_token] at h
  obtain ⟨_, rfl, _, index, _, rfl, ⟨v, rfl, hv, hb⟩, rfl |
    ⟨op, p, _, rfl, -, _, width, _, rfl, ⟨u, rfl, hu, hub⟩, rfl⟩⟩ := h
  · simp only [familyOf] at hv
    exact grown_node .select [v, .null, .null] ⟨_, rfl, rfl, by simp⟩
      (by simp) (by simp) (by simp) (by simp [hv, heads_of_isA hv, hb]) (by simp)
  · simp only [familyOf] at hv hu
    exact grown_node .select [v, .text op, u] ⟨_, rfl, rfl, by simp⟩
      (by simp) (by simp) (by simp)
      (by simp [hv, hu, heads_of_isA hv, heads_of_isA hu, hb, hub, ne_null_of_isA hu]) (by simp)

theorem grows_packedDimension : Grows .packedDimension := by
  intro pos ps h
  simp only [Phrase.body, Pattern.row, Pattern.oneOf, forms_alt, forms_token_seq, forms_phrase_seq,
    forms_token] at h
  rcases h with ⟨_, rfl, _, msb, _, rfl, ⟨v, rfl, hv, hb⟩, _, rfl, _, lsb, _, rfl,
    ⟨u, rfl, hu, hub⟩, rfl⟩ | ⟨_, rfl, rfl⟩
  · simp only [familyOf] at hv hu
    exact grown_node .packedDimension [v, u] ⟨_, rfl, rfl, by simp⟩
      (by simp [hv, hu]) (by simp) (by simp)
      (by simp [hv, hu, heads_of_isA hv, heads_of_isA hu, hb, hub, ne_null_of_isA hv,
        ne_null_of_isA hu]) (by simp)
  · exact grown_node .packedDimension [.null, .null] ⟨_, rfl, rfl, by simp⟩
      (by simp) (by simp) (by simp) (by simp) (by simp)

/-! ## What is assigned to -/

theorem isLvalue_of_variableReference {v : Value} (h : v.isA (.only .variableReference) = true) :
    v.isLvalue = true := by
  cases v with
  | node kind pos fields =>
    simp only [isA_node, Family.kinds, List.contains_cons, List.contains_nil, Bool.or_false,
      beq_iff_eq] at h
    subst h
    rfl
  | _ => cases h

theorem areLvalues_eq (vs : List Value) : areLvalues vs = vs.all Value.isLvalue := by
  induction vs with
  | nil => rfl
  | cons v vs ih => rw [areLvalues, ih, List.all_cons]

theorem grows_lvalue : Grows .lvalue := by
  intro pos ps h
  simp only [Phrase.body, Pattern.oneOf, forms_alt, forms_phrase] at h
  rcases h with ⟨_, text, rfl, v, rfl, hv, hl⟩ | ⟨_, text, rfl, v, rfl, hv, -⟩
  · have he : v.isA .expression = true := isA_eq_true hv (by decide)
    exact grown_pick ⟨v, rfl, he, hl⟩ (by simp [he]) (by simp)
  · have he : v.isA .expression = true := isA_eq_true hv (by decide)
    exact grown_pick ⟨v, rfl, he, isLvalue_of_variableReference hv⟩ (by simp [he]) (by simp)

theorem grows_concatenation : Grows .concatenation := by
  intro pos ps h
  simp only [Phrase.body, Pattern.row, forms_token_seq] at h
  obtain ⟨_, rfl, qs, rs, rfl, hlist, hclose⟩ := h
  simp only [forms_token] at hclose
  subst hclose
  obtain ⟨vs, hl⟩ := enumerates_of_forms rfl rfl hlist
  have hitems := hl.sorted.all_isA (g := .expression) (by decide)
  refine grown_node .concatenation [.seq vs] ⟨_, rfl, rfl, by simp⟩ ?_
    (by simp) ?_ ?_ (by simp)
  · simp (disch := decide) [hl.members, hl.sorted.members]
  · simp [hl.heads, hl.sorted.heads]
  · simp [hl.sorted.heads, hl.ne_nil, hitems, hl.sorted.notBare]

/-- The items of a list of what is assigned to may be assigned to. -/
theorem lvalues_of_forms {ps : List Piece} {vs : List Value} (hl : Enumerates .lvalue ps vs)
    (h : Forms Sorts (Pattern.separated (.phrase .lvalue) .comma) ps) : areLvalues vs = true := by
  obtain ⟨item, items, rfl, hmade⟩ := forms_separated rfl h
  have hvalues : headsOf (valuesOf (item :: items)) = vs :=
    (headsOf_intersperse .comma ",").symm.trans hl.heads
  rw [(allSorted_of_pieces (q := .lvalue) rfl hmade).heads] at hvalues
  rw [areLvalues_eq, List.all_eq_true, ← hvalues]
  intro v hv
  obtain ⟨piece, hp, hv⟩ := List.mem_flatMap.1 hv
  obtain ⟨_, text, rfl, u, rfl, -, hu⟩ := hmade piece hp
  cases List.mem_singleton.1 hv
  exact hu

theorem grows_lvalueConcatenation : Grows .lvalueConcatenation := by
  intro pos ps h
  simp only [Phrase.body, Pattern.row, forms_token_seq] at h
  obtain ⟨_, rfl, qs, rs, rfl, hlist, hclose⟩ := h
  simp only [forms_token] at hclose
  subst hclose
  obtain ⟨vs, hl⟩ := enumerates_of_forms rfl rfl hlist
  have hitems := hl.sorted.all_isA (g := .expression) (by decide)
  refine grown_node .concatenation [.seq vs]
    ⟨_, rfl, rfl, by simpa [Value.isLvalue] using lvalues_of_forms hl hlist⟩ ?_ (by simp) ?_ ?_
    (by simp)
  · simp (disch := decide) [hl.members, hl.sorted.members]
  · simp [hl.heads, hl.sorted.heads]
  · simp [hl.sorted.heads, hl.ne_nil, hitems, hl.sorted.notBare]

/-! ## Assignments -/

theorem grows_assignSign : Grows .assignSign := by
  intro pos ps h
  simp only [Phrase.body, Pattern.row, forms_token_seq] at h
  obtain ⟨_, rfl, rfl⟩ := h
  exact ⟨.one (.text "="), rfl, .same _, _, rfl⟩

theorem grows_variableAssignment : Grows .variableAssignment := by
  intro pos ps h
  simp only [Phrase.body, Pattern.row, forms_phrase_seq, forms_phrase] at h
  obtain ⟨_, left, _, rfl, ⟨v, rfl, hv, hl⟩, _, sign, _, rfl, ⟨w, rfl⟩, _, right, rfl, u, rfl, hu,
    hub⟩ := h
  simp only [familyOf] at hv hu
  exact grown_node .variableAssignment [v, u] ⟨_, rfl, rfl, by simp⟩
    (by simp) (by simp) (by simp)
    (by simp [hl, hu, heads_of_isA hv, heads_of_isA hu, isBareCall_of_isLvalue hl, hub]) (by simp)

theorem grows_operatorAssignment : Grows .operatorAssignment := by
  intro pos ps h
  simp only [Phrase.body, Pattern.row, forms_phrase_seq, forms_token_seq, forms_phrase] at h
  obtain ⟨_, left, _, rfl, ⟨v, rfl, hv, hl⟩, op, p, _, rfl, -, _, right, rfl, u, rfl, hu, hub⟩ := h
  simp only [familyOf] at hv hu
  exact grown_node .operatorAssignment [v, .text op, u]
    ⟨_, rfl, rfl, by simp⟩ (by simp) (by simp) (by simp)
    (by simp [hl, hu, heads_of_isA hv, heads_of_isA hu, isBareCall_of_isLvalue hl, hub]) (by simp)

theorem grows_variableAssignments : Grows .variableAssignments := by
  intro pos ps h
  obtain ⟨vs, hl⟩ := enumerates_of_forms rfl rfl h
  exact grown_list hl rfl (by simp)

theorem grows_stepExpression : Grows .stepExpression := by
  intro pos ps h
  simp only [Phrase.body, Pattern.row, Pattern.oneOf, forms_alt, forms_token_seq,
    forms_phrase_seq, forms_phrase, forms_token] at h
  rcases h with ⟨op, p, _, rfl, -, _, text, rfl, v, rfl, hv, hl⟩ |
    ⟨_, text, _, rfl, ⟨v, rfl, hv, hl⟩, op, p, rfl, -⟩
  · exact grown_node .incOrDecExpression [v, .text op, .bool true]
      ⟨_, rfl, rfl, by simp⟩ (by simp) (by simp) (by simp)
      (by simp [hl, heads_of_isA hv, isBareCall_of_isLvalue hl]) (by simp)
  · exact grown_node .incOrDecExpression [v, .text op, .bool false]
      ⟨_, rfl, rfl, by simp⟩ (by simp [isText_of_isA hv]) (by simp) (by simp)
      (by simp [hl, heads_of_isA hv, isBareCall_of_isLvalue hl]) (by simp)

/-! ## Calls -/

theorem grows_namedArgument : Grows .namedArgument := by
  intro pos ps h
  simp only [Phrase.body, Pattern.row, forms_token_seq, forms_phrase_seq, forms_opt_seq,
    forms_token] at h
  obtain ⟨_, rfl, _, name, _, rfl, ⟨v, rfl, hv, hb⟩, _, rfl, rfl |
    ⟨_, text, _, rfl, ⟨u, rfl, hu, hub⟩, rfl⟩⟩ := h
  · simp only [familyOf] at hv
    refine grown_node .namedArgument [v, .null] ⟨_, rfl, rfl, by simp⟩ ?_
      (by simp) (by simp) (by simp [hv, heads_of_isA hv, hb]) (by simp)
    simp (disch := decide) [isA_eq_true hv, isA_eq_false hv]
  · simp only [familyOf] at hv hu
    refine grown_node .namedArgument [v, u] ⟨_, rfl, rfl, by simp⟩ ?_
      (by simp) (by simp) (by simp [hv, hu, heads_of_isA hv, heads_of_isA hu, hb, hub]) (by simp)
    simp (disch := decide) [isA_eq_true hv, isA_eq_false hv, isA_eq_true hu, isA_eq_false hu]

theorem grows_argument : Grows .argument := by
  intro pos ps h
  simp only [Phrase.body, Pattern.oneOf, forms_alt, forms_phrase] at h
  rcases h with ⟨_, text, rfl, v, rfl, hv, hb⟩ | ⟨_, text, rfl, v, rfl, hv, hb⟩ <;>
    exact grown_pick ⟨v, rfl, isA_eq_true hv (by decide), hb⟩ (by simp) (by simp)

theorem grows_arguments : Grows .arguments := by
  intro pos ps h
  obtain ⟨vs, hl⟩ := enumerates_of_forms rfl rfl h
  exact grown_list hl rfl (by simp)

/-- The arguments between the parentheses of a call. -/
theorem sorts_arguments {ps : List Piece} (h : Forms Sorts
      (.seq (.token .openParen) (.seq (.opt (.phrase .arguments)) (.token .closeParen))) ps) :
    ∃ args, valuesOf ps = .text "(" :: (args ++ [Value.text ")"]) ∧ AllSorted .arguments args := by
  simp only [forms_token_seq, forms_opt_seq, forms_token, forms_phrase_seq] at h
  obtain ⟨_, rfl, rfl | ⟨values, text, _, rfl, ⟨-, hargs⟩, rfl⟩⟩ := h
  · exact ⟨[], by simp, fun _ hv => by cases hv⟩
  · exact ⟨values, by simp, hargs⟩

theorem grows_systemCall : Grows .systemCall := by
  intro pos ps h
  simp only [Phrase.body, Pattern.row] at h
  obtain ⟨text, p, rest, rfl, ⟨name, rfl⟩, rfl | h⟩ := forms_token_seq.1 h
  · have hparen : "(" ≠ "$" ++ name := fun h => by simpa using congrArg String.toList h
    exact grown_node .systemTfCall [.text ("$" ++ name), .null]
      ⟨_, rfl, rfl, by simp⟩ (by simp [argumentsOf, hparen]) (by simp) (by simp) (by simp)
      (by simp)
  · obtain ⟨args, hvalues, hargs⟩ := sorts_arguments h
    have hall := hargs.all_isA (g := .argument) (by decide)
    have hmembers := hargs.members (g := .argument) (by decide)
    refine grown_node .systemTfCall [.text ("$" ++ name), .seq args]
      ⟨_, rfl, rfl, by simp⟩ ?_ (by simp) ?_ ?_ (by simp)
    · simp [argumentsOf, hvalues, hmembers]
    · simp [hvalues, hargs.heads]
    · simp [hargs.heads, hall, hargs.notBare]

/-- The call of a routine, of which the arguments may be left out. -/
theorem grows_routineCall : Grows .routineCall := by
  intro pos ps h
  simp only [Phrase.body, Pattern.row] at h
  obtain ⟨_, text, rest, rfl, ⟨v, rfl, hv, hb⟩, rfl | h⟩ := forms_phrase_seq.1 h
  · simp only [familyOf] at hv
    exact grown_node .tfCall [v, .null] ⟨_, rfl, rfl⟩
      (by simp [argumentsOf, (ne_text_of_isA hv "(").symm]) (by simp) (by simp)
      (by simp [hv, heads_of_isA hv, hb]) (by simp)
  · obtain ⟨args, hvalues, hargs⟩ := sorts_arguments h
    have hall := hargs.all_isA (g := .argument) (by decide)
    have hmembers := hargs.members (g := .argument) (by decide)
    simp only [familyOf] at hv
    refine grown_node .tfCall [v, .seq args] ⟨_, rfl, rfl⟩ ?_ (by simp) ?_ ?_
      (by simp)
    · simp [argumentsOf, hvalues, hmembers]
    · simp [hvalues, hargs.heads]
    · simp [hv, heads_of_isA hv, hb, hargs.heads, hall, hargs.notBare]

/-- The call of a routine inside an expression has its parentheses. -/
theorem grows_appliedCall : Grows .appliedCall := by
  intro pos ps h
  simp only [Phrase.body, Pattern.row] at h
  obtain ⟨_, text, rest, rfl, ⟨v, rfl, hv, hb⟩, hargs⟩ := forms_phrase_seq.1 h
  obtain ⟨args, hvalues, hargs⟩ := sorts_arguments hargs
  have hall := hargs.all_isA (g := .argument) (by decide)
  have hmembers := hargs.members (g := .argument) (by decide)
  simp only [familyOf] at hv
  refine grown_node .tfCall [v, .seq args] ⟨_, rfl, rfl, rfl⟩ ?_ (by simp) ?_
    ?_ (by simp)
  · simp [argumentsOf, hvalues, hmembers]
  · simp [hvalues, hargs.heads]
  · simp [hv, heads_of_isA hv, hb, hargs.heads, hall, hargs.notBare]

theorem grows_call : Grows .call := by
  intro pos ps h
  simp only [Phrase.body, Pattern.oneOf, forms_alt, forms_phrase] at h
  rcases h with ⟨_, text, rfl, v, rfl, hv, -⟩ | ⟨_, text, rfl, v, rfl, hv⟩ <;>
  · have hv : v.isA .call = true := isA_eq_true hv (by decide)
    exact grown_pick ⟨v, rfl, hv⟩ (by simp [hv]) (by simp)

/-! ## Operations -/

theorem grows_expression : Grows .expression := by
  intro pos ps h
  simp only [Phrase.body, Pattern.oneOf, forms_alt, forms_phrase] at h
  rcases h with ⟨_, text, rfl, v, rfl, hv, hb⟩ | ⟨_, text, rfl, v, rfl, hv, hb⟩ <;>
  · simp only [familyOf] at hv
    exact grown_pick ⟨v, rfl, hv, hb⟩ (by simp [hv]) (by simp)

theorem grows_parenthesized : Grows .parenthesized := by
  intro pos ps h
  simp only [Phrase.body, Pattern.row, forms_token_seq, forms_phrase_seq, forms_token] at h
  obtain ⟨_, rfl, _, text, _, rfl, ⟨v, rfl, hv, hb⟩, rfl⟩ := h
  simp only [familyOf] at hv
  exact grown_pick ⟨v, rfl, hv, hb⟩ (by simp [hv]) (by simp)

theorem grows_conditionalExpression : Grows .conditionalExpression := by
  intro pos ps h
  simp only [Phrase.body, Pattern.row, forms_token_seq, forms_phrase_seq, forms_phrase] at h
  obtain ⟨_, ctext, _, rfl, ⟨c, rfl, hc, hcb⟩, _, rfl, _, atext, _, rfl, ⟨a, rfl, ha, hab⟩, _, rfl,
    _, btext, rfl, b, rfl, hb, hbb⟩ := h
  simp only [familyOf] at hc ha hb
  exact grown_node .conditionalOp [c, a, b] ⟨_, rfl, rfl, by simp⟩
    (by simp [hc, ha, hb]) (by simp) (by simp)
    (by simp [hc, ha, hb, heads_of_isA hc, heads_of_isA ha, heads_of_isA hb, hcb, hab, hbb])
    (by simp)

/-- Operands with operators between them are composed from the left. -/
theorem grown_joinOperands {level : Level} {pos : Position} {lead : Option String}
    {groups : List (List Piece)}
    (h : ∀ qs ∈ groups, ∃ text p rs, qs = tokenPiece level.operator p text :: rs ∧
      level.operator.HasForm text ∧ Forms Sorts (.phrase level.operand) rs) :
    ∀ {vs : List Value} {left : Value}, left.isA .expression = true → left.isBareCall = false →
      Grown pos lead vs (left :: valuesOf groups.flatten) →
      ∃ v, joinOperands pos left (valuesOf groups.flatten) = .ok v ∧ Grown pos lead vs [v] ∧
        v.isA .expression = true ∧ v.isBareCall = false := by
  induction groups with
  | nil => exact fun hv hb hg => ⟨_, rfl, hg, hv, hb⟩
  | cons group groups ih =>
    intro vs left hv hb hg
    obtain ⟨op, p, _, rfl, -, _, text, rfl, hs⟩ := h group List.mem_cons_self
    obtain ⟨right, rfl, hr, hrb⟩ := hs.single (by cases level <;> rfl)
    have hr : right.isA .expression = true := by cases level <;> exact hr
    have hop : (tokenPiece level.operator p op).values = [.text op] := by cases level <;> rfl
    have hvalues : valuesOf ((tokenPiece level.operator p op ::
        [⟨.phrase level.operand, [right], text⟩]) :: groups).flatten =
          .text op :: right :: valuesOf groups.flatten := by
      simp only [List.flatten_cons, valuesOf_append, valuesOf_cons, hop, valuesOf_nil]
      rfl
    rw [hvalues] at hg ⊢
    -- the operation so far becomes the left operand of the next one
    refine ih (fun qs hqs => h qs (List.mem_cons_of_mem _ hqs)) rfl (by simp) ?_
    refine .node [left, .text op, right] hg (by simp) (by simp) ?_ (by simp)
    simp [hv, hr, heads_of_isA hv, heads_of_isA hr, hb, hrb]

theorem grows_chain (level : Level) : Grows (.chain level) := by
  intro pos ps h
  obtain ⟨_, _, rfl, ⟨_, text, rfl, hs⟩, groups, rfl, hall⟩ := h
  obtain ⟨left, rfl, hv, hb⟩ := hs.single (by cases level <;> rfl)
  have hv : left.isA .expression = true := by cases level <;> exact hv
  obtain ⟨v, hjoin, hg, hv, hb⟩ := grown_joinOperands hall hv hb (Grown.same _)
  exact ⟨.one v, by simp [hjoin], hg, v, rfl, hv, hb⟩

theorem grows_unary : Grows .unary := by
  intro pos ps h
  simp only [Phrase.body, Pattern.row, Pattern.oneOf, forms_alt, forms_token_seq,
    forms_phrase] at h
  rcases h with ⟨_, text, rfl, v, rfl, hv, hb⟩ | ⟨op, p, _, rfl, -, _, text, rfl, v, rfl, hv, hb⟩ |
    ⟨_, text, rfl, v, rfl, hv, hb⟩
  · exact grown_pick ⟨v, rfl, isA_eq_true hv (by decide), hb⟩ (by simp) (by simp)
  · simp only [familyOf] at hv
    exact grown_node .unaryOp [.text op, v] ⟨_, rfl, rfl, by simp⟩
      (by simp) (by simp) (by simp) (by simp [hv, heads_of_isA hv, hb]) (by simp)
  · exact grown_pick ⟨v, rfl, hv, hb⟩ (by simp) (by simp)

theorem grows_primary : Grows .primary := by
  intro pos ps h
  simp only [Phrase.body, Pattern.oneOf, forms_alt, forms_token, forms_phrase] at h
  rcases h with ⟨text, p, rfl, -⟩ | ⟨text, p, rfl, -⟩ | ⟨_, text, rfl, v, rfl, hv, hb⟩ |
    ⟨_, text, rfl, v, rfl, hv, hb⟩ | ⟨_, text, rfl, v, rfl, hv, hb⟩ |
    ⟨_, text, rfl, v, rfl, hv, hb⟩ | ⟨_, text, rfl, v, rfl, hv, hb⟩
  · exact grown_pick (v := .node .numberLiteral p [.text text]) ⟨_, rfl, rfl, by simp⟩
      (by simp [Kind.expressions]) (by simp)
  · exact grown_pick
      (v := .node .stringLiteral p [.text (String.ofList (text.toList.drop 1).dropLast)])
      ⟨_, rfl, rfl, by simp⟩ (by simp [Kind.expressions]) (by simp)
  all_goals
    have hv : v.isA .expression = true := isA_eq_true hv (by decide)
    exact grown_pick ⟨v, rfl, hv, hb⟩ (by simp [hv]) (by simp)

end VerilogLoops.Ast
