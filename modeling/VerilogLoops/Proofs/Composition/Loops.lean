import VerilogLoops.Proofs.Composition.Statements

/-!
# How loop statements are composed

The headers of the loop statements and the loop statements themselves.
-/

namespace VerilogLoops.Ast

open VerilogLoops.Lexical VerilogLoops.Grammar

attribute [local simp] assemble theMember childAt lastChild firstOrNull tokenPiece
  buildLeaf Built.values Spelling.wholeWord Spelling.keyword Spelling.plain
  Spelling.notBefore Kind.admits Kind.types FieldType.holds Kind.agrees Kind.callers
  Kind.heading leadOf Family.kinds isBareCall_node

/-! ## The first clause of a for loop -/

theorem grows_forBinding : Grows .forBinding := by
  intro pos ps h
  simp only [Phrase.body, Pattern.row, forms_phrase_seq, forms_phrase] at h
  obtain ⟨_, name, _, rfl, ⟨v, rfl, hv, hb⟩, _, sign, _, rfl, ⟨w, rfl⟩, _, text, rfl, u, rfl, hu,
    hub⟩ := h
  simp only [familyOf] at hv hu
  refine grown_node .forVariableBinding [v, u] ⟨_, rfl, rfl, by simp⟩ ?_ (by simp) (by simp)
    (by simp [hv, hu, heads_of_isA hv, heads_of_isA hu, hb, hub]) (by simp)
  simp (disch := decide) [isA_eq_true hv, isA_eq_false hv, isA_eq_true hu, isA_eq_false hu]

/-- The keyword `var` becomes a node of its own. -/
theorem grows_forDeclaration : Grows .forDeclaration := by
  intro pos ps h
  simp only [Phrase.body, Pattern.row, forms_opt_seq, forms_token_seq, forms_phrase_seq] at h
  rcases h with ⟨_, type, rest, rfl, ⟨v, rfl, hv, hb⟩, h⟩ |
    ⟨_, rfl, _, type, rest, rfl, ⟨v, rfl, hv, hb⟩, h⟩
  · obtain ⟨vs, hl⟩ := enumerates_of_forms rfl rfl h
    have hown := hl.sorted.members (g := .only .forVariableBinding) (by decide)
    have hnone := hl.sorted.members_nil (g := .dataType) (by decide)
    have hbindings := hl.sorted.all_isA (g := .only .forVariableBinding) (by decide)
    simp only [familyOf] at hv
    refine grown_node .forVariableDeclaration [.null, v, .seq vs] ⟨_, rfl, rfl, by simp⟩ ?_
      (by simp) ?_ ?_ (by simp)
    · simp only [assemble, valuesOf_cons, List.cons_append, List.nil_append, childAt,
        List.getElem?_cons_zero, ok_bind]
      simp (disch := decide) [hl.members, hown, hnone, hv, isA_eq_false hv, ne_text_of_isA hv]
    · simp [hl.heads, hl.sorted.heads]
    · simp [hv, heads_of_isA hv, hb, hl.ne_nil, hl.sorted.heads, hbindings, hl.sorted.notBare]
  · obtain ⟨vs, hl⟩ := enumerates_of_forms rfl rfl h
    have hown := hl.sorted.members (g := .only .forVariableBinding) (by decide)
    have hnone := hl.sorted.members_nil (g := .dataType) (by decide)
    have hbindings := hl.sorted.all_isA (g := .only .forVariableBinding) (by decide)
    simp only [familyOf] at hv
    refine ⟨.one (.node .forVariableDeclaration pos [.node .varKeyword pos [], v, .seq vs]), ?_, ?_,
      _, rfl, rfl, by simp⟩
    · simp only [assemble, valuesOf_cons, List.cons_append, List.nil_append, childAt,
        List.getElem?_cons_zero, ok_bind]
      simp (disch := decide) [hl.members, hown, hnone, hv, isA_eq_false hv]
    · -- the keyword becomes a node first, then the whole does
      have hvar : Grown pos (some "var") (.text "var" :: v :: valuesOf rest)
          (.node .varKeyword pos [] :: v :: valuesOf rest) :=
        .node [.text "var"] (.same _) (by simp) (by simp) (by simp) (by simp)
      have hdeclaration : Grown pos (some "var") (.text "var" :: v :: valuesOf rest)
          [.node .forVariableDeclaration pos [.node .varKeyword pos [], v, .seq vs]] := by
        refine .node (.node .varKeyword pos [] :: v :: valuesOf rest) (by simpa using hvar) (by simp)
          ?_ ?_ (by simp)
        · simp [hl.heads, hl.sorted.heads]
        · simp [hv, heads_of_isA hv, hb, hl.ne_nil, hl.sorted.heads, hbindings, hl.sorted.notBare]
      simpa using hdeclaration

theorem grows_forInitDeclarations : Grows .forInitDeclarations := by
  intro pos ps h
  obtain ⟨vs, hl⟩ := enumerates_of_forms rfl rfl h
  have hown := hl.sorted.members (g := .only .forVariableDeclaration) (by decide)
  have hdeclarations := hl.sorted.all_isA (g := .only .forVariableDeclaration) (by decide)
  refine grown_node .forInitDeclarationList [.seq vs] ⟨_, rfl, rfl, by simp⟩ ?_ ?_ ?_ ?_ (by simp)
  · simp [hl.members, hown]
  · intro hnil
    exact hl.ne_nil (by rw [← hl.heads, hnil]; rfl)
  · simp [hl.heads, hl.sorted.heads]
  · simp [hl.ne_nil, hl.sorted.heads, hdeclarations, hl.sorted.notBare]

theorem grows_forInitAssignments : Grows .forInitAssignments := by
  intro pos ps h
  obtain ⟨values, text, rfl, hne, hs⟩ := forms_phrase.1 h
  have hall : AllSorted .variableAssignments values := hs
  have hown := hall.members (g := .only .variableAssignment) (by decide)
  have hassignments := hall.all_isA (g := .only .variableAssignment) (by decide)
  refine grown_node .forInitAssignmentList [.seq values] ⟨_, rfl, rfl, by simp⟩ ?_ ?_ ?_ ?_
    (by simp)
  · simp [hown]
  · simpa using hne
  · simp
  · simp [hne, hall.heads, hassignments, hall.notBare]

theorem grows_forInit : Grows .forInit := by
  intro pos ps h
  simp only [Phrase.body, Pattern.oneOf, forms_alt, forms_phrase] at h
  rcases h with ⟨_, text, rfl, v, rfl, hv, hb⟩ | ⟨_, text, rfl, v, rfl, hv, hb⟩ <;>
  · have hv : v.isA .forInit = true := hv
    exact grown_pick ⟨v, rfl, hv, hb⟩ (by simp [hv]) (by simp)

/-! ## The last clause of a for loop -/

/-- In a step the call may go without parentheses. -/
theorem grows_forStepItem : Grows .forStepItem := by
  intro pos ps h
  simp only [Phrase.body, Pattern.oneOf, forms_alt, forms_phrase] at h
  rcases h with ⟨_, text, rfl, v, rfl, hv, hb⟩ | ⟨_, text, rfl, v, rfl, hv, hb⟩ |
    ⟨_, text, rfl, v, rfl, hv⟩
  · simp only [familyOf] at hv
    exact grown_node .forStepOperatorAssignment [v] ⟨_, rfl, rfl, by simp⟩ (by simp [hv]) (by simp)
      (by simp) (by simp [hv, heads_of_isA hv, hb]) (by simp)
  · simp only [familyOf] at hv
    have hne : v.isA (.only .operatorAssignment) = false := isA_eq_false hv rfl
    exact grown_node .forStepIncOrDec [v] ⟨_, rfl, rfl, by simp⟩ (by simp [hv, hne]) (by simp)
      (by simp) (by simp [hv, heads_of_isA hv, hb]) (by simp)
  · simp only [familyOf] at hv
    have hne : v.isA (.only .operatorAssignment) = false := isA_eq_false hv rfl
    have hne' : v.isA (.only .incOrDecExpression) = false := isA_eq_false hv rfl
    exact grown_node .forStepSubroutineCall [v] ⟨_, rfl, rfl, by simp⟩ (by simp [hv, hne, hne'])
      (by simp) (by simp) (by simp [hv]) (by simp)

theorem grows_forStep : Grows .forStep := by
  intro pos ps h
  obtain ⟨vs, hl⟩ := enumerates_of_forms rfl rfl h
  exact grown_list hl rfl (by simp)

/-! ## Loops with a condition or none -/

theorem grows_loop : Grows .loop := by
  intro pos ps h
  simp only [Phrase.body, Pattern.oneOf, forms_alt, forms_phrase] at h
  rcases h with ⟨_, text, rfl, v, rfl, hv, hb⟩ | ⟨_, text, rfl, v, rfl, hv, hb⟩ |
    ⟨_, text, rfl, v, rfl, hv, hb⟩ | ⟨_, text, rfl, v, rfl, hv, hb⟩ |
    ⟨_, text, rfl, v, rfl, hv, hb⟩ | ⟨_, text, rfl, v, rfl, hv, hb⟩ <;>
  · have hv : v.isA .loop = true := hv
    exact grown_pick ⟨v, rfl, hv, hb⟩ (by simp [hv]) (by simp)

theorem grows_loopUnit : Grows .loopUnit := by
  intro pos ps h
  simp only [Phrase.body, Pattern.row, forms_phrase_seq, forms_token] at h
  obtain ⟨_, text, _, rfl, ⟨v, rfl, hv, hb⟩, _, p, rfl, rfl⟩ := h
  simp only [familyOf] at hv
  exact grown_pick ⟨v, rfl, hv, hb⟩ (by simp [hv]) (by simp)

theorem grows_foreverLoop : Grows .foreverLoop := by
  intro pos ps h
  simp only [Phrase.body, Pattern.row, forms_token_seq, forms_phrase] at h
  obtain ⟨_, rfl, _, text, rfl, v, rfl, hv, hb⟩ := h
  simp only [familyOf] at hv
  exact grown_node .loopForever [v] ⟨_, rfl, rfl, by simp⟩ (by simp [hv]) (by simp) (by simp)
    (by simp [hv, heads_of_isA hv, hb]) (by simp)

/-- A loop whose header is an expression in parentheses. -/
theorem grows_headed {q : Phrase} (hq : q = .repeatLoop ∨ q = .whileLoop) : Grows q := by
  intro pos ps h
  rcases hq with rfl | rfl
  · simp only [Phrase.body, Pattern.row, forms_token_seq, forms_phrase_seq, forms_phrase] at h
    obtain ⟨_, rfl, _, rfl, _, cond, _, rfl, ⟨c, rfl, hc, hcb⟩, _, rfl, _, text, rfl, v, rfl, hv,
      hb⟩ := h
    simp only [familyOf] at hc hv
    refine grown_node .loopRepeat [c, v] ⟨_, rfl, rfl, by simp⟩ ?_ (by simp) (by simp)
      (by simp [hc, hv, heads_of_isA hc, heads_of_isA hv, hcb, hb]) (by simp)
    simp (disch := decide) [hc, hv, isA_eq_false hc, isA_eq_false hv]
  · simp only [Phrase.body, Pattern.row, forms_token_seq, forms_phrase_seq, forms_phrase] at h
    obtain ⟨_, rfl, _, rfl, _, cond, _, rfl, ⟨c, rfl, hc, hcb⟩, _, rfl, _, text, rfl, v, rfl, hv,
      hb⟩ := h
    simp only [familyOf] at hc hv
    refine grown_node .loopWhile [c, v] ⟨_, rfl, rfl, by simp⟩ ?_ (by simp) (by simp)
      (by simp [hc, hv, heads_of_isA hc, heads_of_isA hv, hcb, hb]) (by simp)
    simp (disch := decide) [hc, hv, isA_eq_false hc, isA_eq_false hv]

theorem grows_doWhileLoop : Grows .doWhileLoop := by
  intro pos ps h
  simp only [Phrase.body, Pattern.row, forms_token_seq, forms_phrase_seq, forms_token] at h
  obtain ⟨_, rfl, _, text, _, rfl, ⟨v, rfl, hv, hb⟩, _, rfl, _, rfl, _, cond, _, rfl,
    ⟨c, rfl, hc, hcb⟩, _, rfl, rfl⟩ := h
  simp only [familyOf] at hc hv
  refine grown_node .loopDoWhile [v, c] ⟨_, rfl, rfl, by simp⟩ ?_ (by simp) (by simp)
    (by simp [hc, hv, heads_of_isA hc, heads_of_isA hv, hcb, hb]) (by simp)
  simp (disch := decide) [hc, hv, isA_eq_false hc, isA_eq_false hv]

/-! ## For loops -/

/-- The steps of a for loop, or nothing. -/
theorem sorts_steps {ps : List Piece} (h : Forms Sorts (.opt (.phrase .forStep)) ps) :
    AllSorted .forStep (valuesOf ps) := by
  rcases h with rfl | ⟨values, text, rfl, -, hall⟩
  · exact fun v hv => by cases hv
  · simpa using (show AllSorted .forStep values from hall)

theorem grows_forLoop : Grows .forLoop := by
  intro pos ps h
  simp only [Phrase.body, Pattern.row, forms_token_seq] at h
  obtain ⟨_, rfl, _, rfl, first, _, rfl, hfirst, h⟩ := h
  simp only [forms_token_seq] at h
  obtain ⟨_, rfl, second, _, rfl, hsecond, h⟩ := h
  simp only [forms_token_seq] at h
  obtain ⟨_, rfl, third, _, rfl, hthird, h⟩ := h
  simp only [forms_token_seq, forms_phrase] at h
  obtain ⟨_, rfl, _, text, rfl, v, rfl, hv, hb⟩ := h
  obtain ⟨init, hi, hinit⟩ := maybe_of_forms rfl hfirst
  obtain ⟨cond, hc, hcond⟩ := maybe_of_forms rfl hsecond
  have hall := sorts_steps hthird
  have hsteps := hall.all_isA (g := .forStep) (by decide)
  have hinits := hi.isA
  have hconds := hc.isA
  simp only [familyOf] at hv hinits hconds
  refine grown_node .loopFor
    [init, cond, if (valuesOf third).isEmpty then .null else .seq (valuesOf third), v]
    ⟨_, rfl, rfl, by simp⟩ ?_ (by simp) ?_ ?_ (by simp)
  · have hloop := assemble_forLoop hinits hconds hall.isA hv pos
    rw [← hinit, ← hcond] at hloop
    simpa [-assemble] using hloop
  · by_cases hnil : valuesOf third = [] <;>
      simp [hinit, hcond, hi.heads_optional, hc.heads_optional, hnil]
  · by_cases hnil : valuesOf third = [] <;>
      simp [hinits, hconds, hi.notBare, hc.notBare, hv, heads_of_isA hv, hb, hnil, hsteps,
        hall.heads, hall.notBare]

/-! ## Foreach loops -/

/-- The slots of the variables of a foreach loop: names or nothing. -/
def AreSlots (slots : List Value) : Prop := ∀ v ∈ slots, MaybeSorted .indexName v

/-- The slots behind the first one, each of them behind a comma. -/
theorem slots_of_forms {groups : List (List Piece)}
    (h : ∀ qs ∈ groups, Forms Sorts (.seq (.token .comma) (.opt (.phrase .indexName))) qs) :
    ∃ slots, AreSlots slots ∧ headsOf (valuesOf groups.flatten) = headsOf slots ∧
      ∀ current, slotsOf current (valuesOf groups.flatten) = current :: slots := by
  induction groups with
  | nil => exact ⟨[], List.forall_mem_nil _, rfl, fun _ => rfl⟩
  | cons group groups ih =>
    obtain ⟨slots, hslots, hheads, hcurrent⟩ := ih fun qs hqs => h qs (List.mem_cons_of_mem _ hqs)
    have hgroup := h group List.mem_cons_self
    simp only [forms_token_seq, forms_opt, forms_phrase] at hgroup
    obtain ⟨_, rfl, rfl | ⟨_, text, rfl, v, rfl, hv, hb⟩⟩ := hgroup
    · refine ⟨.null :: slots, ?_, by simp [hheads], fun current => by simp [slotsOf, hcurrent]⟩
      exact List.forall_mem_cons.2 ⟨maybeSorted_null _, hslots⟩
    · refine ⟨v :: slots, List.forall_mem_cons.2 ⟨maybeSorted_of_isA hv hb, hslots⟩,
        by simp [hheads], fun current => ?_⟩
      simp [slotsOf, hcurrent, ne_text_of_isA hv]

/-- What stands between the brackets is the slots. -/
theorem slotsOf_bracketed (vs : List Value) :
    ((Value.text "[" :: (vs ++ [Value.text "]"])).drop 1).dropLast = vs := by
  simp

theorem admits_loopVariables {slots : List Value} (h : AreSlots slots) (hne : slots ≠ []) :
    Kind.loopVariables.admits [.seq slots] = true := by
  have hbare : ((headsOf slots).all fun v => !v.isBareCall) = true := by
    clear hne
    induction slots with
    | nil => rfl
    | cons v slots ih =>
      rw [headsOf_cons, List.all_append, (h v List.mem_cons_self).notBare,
        ih fun u hu => h u (List.mem_cons_of_mem v hu)]
      rfl
  have htypes : haveTypes Kind.loopVariables.types [.seq slots] = true := by
    have hnames : ∀ v ∈ slots, v = .null ∨ v.isA (.only .identifier) = true :=
      fun v hv => (h v hv).isA
    simpa using ⟨hne, hnames⟩
  simp only [Kind.admits, htypes, headsOf_cons, heads_seq, headsOf_nil, List.append_nil, hbare]
  rfl

theorem grows_loopVariables : Grows .loopVariables := by
  intro pos ps h
  simp only [Phrase.body, Pattern.row, forms_token_seq] at h
  obtain ⟨_, rfl, head, _, rfl, hhead, groups, close, rfl, hgroups, hclose⟩ := h
  simp only [forms_token] at hclose
  subst hclose
  obtain ⟨groups, rfl, hgroups⟩ := hgroups
  obtain ⟨slots, hslots, hheads, hcurrent⟩ := slots_of_forms hgroups
  obtain ⟨first, hf, hfirst⟩ := maybe_of_forms rfl hhead
  refine grown_node .loopVariables [.seq (first :: slots)] ⟨_, rfl, rfl, by simp⟩ ?_ (by simp) ?_
    (admits_loopVariables (List.forall_mem_cons.2 ⟨⟨hf.isA, hf.notBare⟩, hslots⟩) (by simp)) (by simp)
  · have hall : slotsOf .null (optional first ++ valuesOf groups.flatten) = first :: slots := by
      unfold optional
      rcases hf.isA with rfl | hv
      · simp [hcurrent]
      · simp [ne_null_of_isA hv, slotsOf, ne_text_of_isA hv, hcurrent]
    have hcut := slotsOf_bracketed (optional first ++ valuesOf groups.flatten)
    simp only [List.append_assoc] at hcut
    simp only [valuesOf_cons, valuesOf_append, valuesOf_nil, hfirst, assemble, Spelling.plain,
      String.ofList_toList, List.cons_append, List.nil_append, List.append_nil, hcut, hall]
    rfl
  · simp [hfirst, hf.heads_optional, hheads]

theorem grows_foreachLoop : Grows .foreachLoop := by
  intro pos ps h
  simp only [Phrase.body, Pattern.row, forms_token_seq, forms_phrase_seq, forms_phrase] at h
  obtain ⟨_, rfl, _, rfl, _, array, _, rfl, ⟨a, rfl, ha, hab⟩, _, slots, _, rfl, ⟨u, rfl, hu, hub⟩,
    _, rfl, _, text, rfl, v, rfl, hv, hb⟩ := h
  simp only [familyOf] at ha hu hv
  refine grown_node .loopForeach [a, u, v] ⟨_, rfl, rfl, by simp⟩ ?_ (by simp) (by simp)
    (by simp [ha, hu, hv, heads_of_isA ha, heads_of_isA hu, heads_of_isA hv, hab, hub, hb]) (by simp)
  simp (disch := decide) [ha, hu, hv, isA_eq_false ha, isA_eq_false hu, isA_eq_false hv]

end VerilogLoops.Ast
