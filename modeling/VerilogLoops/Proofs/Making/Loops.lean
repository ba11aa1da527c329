import VerilogLoops.Proofs.Making.Statements

/-!
# What loop statements make

The headers of the loop statements and the loop statements themselves.
-/

namespace VerilogLoops.Ast

open VerilogLoops.Lexical VerilogLoops.Grammar

attribute [local simp] Phrase.gap Phrase.spaced Phrase.leads Phrase.spacedAfter assemble theMember
  childAt lastChild firstOrNull tokenPiece buildLeaf Built.values Value.render
  writeFields writeItems writeAll Kind.layout renderParts Part.render Part.render.fieldAt
  Thunk.get Spelling.wholeWord Spelling.keyword Spelling.plain Spelling.notBefore
  String.append_assoc

/-! ## The first clause of a for loop -/

theorem assembles_forBinding : Assembles .forBinding := by
  intro pos ps h
  simp only [Phrase.body, Pattern.row, forms_phrase_seq, forms_phrase] at h
  obtain ⟨_, name, _, rfl, ⟨p, rfl⟩, _, sign, _, rfl, ⟨rfl, rfl⟩, _, text, rfl, h⟩ := h
  obtain ⟨v, rfl, hv, hr⟩ := h.plain rfl
  simp only [familyOf] at hv
  refine ⟨.one (.node .forVariableBinding pos [.node .identifier p [.text name], v]), ?_, _, rfl,
    rfl, ⟨_, ?_, rfl⟩⟩
  · simp (disch := decide) [Family.kinds, Kind.expressions, hv, isA_eq_false hv]
  · simp [hr]
    exact String.toList_injective (by simp)

theorem assembles_forDeclaration : Assembles .forDeclaration := by
  intro pos ps h
  simp only [Phrase.body, Pattern.row, forms_opt_seq, forms_token_seq, forms_phrase_seq] at h
  rcases h with ⟨_, type, _, rfl, ht, h⟩ | ⟨_, rfl, _, type, _, rfl, ht, h⟩
  · obtain ⟨items, hl⟩ := listed_of_forms rfl h
    obtain ⟨v, rfl, hv, hr⟩ := ht.plain rfl
    obtain ⟨y, hy, hsymbol⟩ := hl.head
    simp only [familyOf] at hv
    have hown := hl.made.members (g := .only .forVariableBinding) (by decide)
    have hnone := hl.made.members_nil (g := .dataType) (by decide)
    refine ⟨.one (.node .forVariableDeclaration pos [.null, v, .seq (valuesOf items)]), ?_, _,
      rfl, rfl, ⟨_, ?_, rfl⟩⟩
    · simp only [assemble, valuesOf_cons, List.cons_append, List.nil_append, childAt,
        List.getElem?_cons_zero, ok_bind]
      simp (disch := decide) [hl.members, hown, hnone, hv, isA_eq_false hv, ne_text_of_isA hv]
    · rw [linesOf_cons, joined_cons_of_head hy, hsymbol, hl.joined _ (by simp) (by simp)]
      simp [hr, hl.made.renderAll]
  · obtain ⟨items, hl⟩ := listed_of_forms rfl h
    obtain ⟨v, rfl, hv, hr⟩ := ht.plain rfl
    obtain ⟨y, hy, hsymbol⟩ := hl.head
    simp only [familyOf] at hv
    have hown := hl.made.members (g := .only .forVariableBinding) (by decide)
    have hnone := hl.made.members_nil (g := .dataType) (by decide)
    refine ⟨.one (.node .forVariableDeclaration pos [.node .varKeyword pos [], v,
      .seq (valuesOf items)]), ?_, _, rfl, rfl, ⟨_, ?_, rfl⟩⟩
    · simp only [assemble, valuesOf_cons, List.cons_append, List.nil_append, childAt,
        List.getElem?_cons_zero, ok_bind]
      simp (disch := decide) [hl.members, hown, hnone, hv, isA_eq_false hv]
    · rw [linesOf_cons, linesOf_cons, joined_cons_cons, joined_cons_of_head hy, hsymbol,
        hl.joined _ (by simp) (by simp)]
      simp [hr, hl.made.renderAll]

theorem assembles_forInitDeclarations : Assembles .forInitDeclarations := by
  intro pos ps h
  obtain ⟨items, hl⟩ := listed_of_forms rfl h
  have hown := hl.made.members (g := .only .forVariableDeclaration) (by decide)
  refine ⟨.one (.node .forInitDeclarationList pos [.seq (valuesOf items)]), ?_, _, rfl, rfl,
    ⟨_, ?_, rfl⟩⟩
  · simp [hl.members, hown]
  · rw [hl.joined _ (by simp) (by simp)]
    simp [hl.made.renderAll]

theorem assembles_forInitAssignments : Assembles .forInitAssignments := by
  intro pos ps h
  obtain ⟨values, text, rfl, hne, hall, hr⟩ := forms_phrase.1 h
  refine ⟨.one (.node .forInitAssignmentList pos [.seq values]), ?_, _, rfl, rfl,
    ⟨_, ?_, rfl⟩⟩
  · simp [membersOf_eq_self hall (g := .only .variableAssignment) (by decide)]
  · obtain ⟨texts, htexts, rfl⟩ := hr
    simp [htexts]

theorem assembles_forInit : Assembles .forInit := by
  intro pos ps h
  simp only [Phrase.body, Pattern.oneOf, forms_alt, forms_phrase] at h
  rcases h with ⟨_, text, rfl, h⟩ | ⟨_, text, rfl, h⟩ <;>
  · obtain ⟨v, rfl, hv, hr⟩ := h.plain rfl
    have hv : v.isA .forInit = true := hv
    exact ⟨.one v, by simp [hv], v, rfl, hv, ⟨_, hr, rfl⟩⟩

/-! ## The last clause of a for loop -/

theorem assembles_forStepItem : Assembles .forStepItem := by
  intro pos ps h
  simp only [Phrase.body, Pattern.oneOf, forms_alt, forms_phrase] at h
  rcases h with ⟨_, text, rfl, h⟩ | ⟨_, text, rfl, h⟩ | ⟨_, text, rfl, h⟩
  · obtain ⟨v, rfl, hv, hr⟩ := h.plain rfl
    simp only [familyOf] at hv
    exact ⟨.one (.node .forStepOperatorAssignment pos [v]), by simp [hv], _, rfl, rfl,
      ⟨_, by simp [hr], rfl⟩⟩
  · obtain ⟨v, rfl, hv, hr⟩ := h.plain rfl
    simp only [familyOf] at hv
    have hne : v.isA (.only .operatorAssignment) = false := isA_eq_false hv rfl
    exact ⟨.one (.node .forStepIncOrDec pos [v]), by simp [hv, hne], _, rfl, rfl,
      ⟨_, by simp [hr], rfl⟩⟩
  · obtain ⟨v, rfl, hv, hr⟩ := h.plain rfl
    simp only [familyOf] at hv
    have hne : v.isA (.only .operatorAssignment) = false := isA_eq_false hv rfl
    have hne' : v.isA (.only .incOrDecExpression) = false := isA_eq_false hv rfl
    exact ⟨.one (.node .forStepSubroutineCall pos [v]), by simp [hv, hne, hne'], _, rfl, rfl,
      ⟨_, by simp [hr], rfl⟩⟩

theorem assembles_forStep : Assembles .forStep := by
  intro pos ps h
  obtain ⟨items, hl⟩ := listed_of_forms rfl h
  have hmembers := hl.made.members (g := .forStep) (by decide)
  refine ⟨.several (valuesOf items), by simp [hl.members, hmembers],
    fun hnil => hl.ne_nil (hl.made.values_eq_nil.1 hnil), hl.made.isA, ?_⟩
  exact ⟨_, hl.made.renderAll, (hl.joined _ (by simp) (by simp)).symm⟩

/-! ## Loops with a condition or none -/

theorem assembles_loop : Assembles .loop := by
  intro pos ps h
  simp only [Phrase.body, Pattern.oneOf, forms_alt, forms_phrase] at h
  rcases h with ⟨_, text, rfl, h⟩ | ⟨_, text, rfl, h⟩ | ⟨_, text, rfl, h⟩ | ⟨_, text, rfl, h⟩ |
    ⟨_, text, rfl, h⟩ | ⟨_, text, rfl, h⟩ <;>
  · obtain ⟨v, rfl, hv, hr⟩ := h.plain rfl
    have hv : v.isA .loop = true := hv
    exact ⟨.one v, by simp [hv], v, rfl, hv, ⟨_, hr, rfl⟩⟩

theorem assembles_loopUnit : Assembles .loopUnit := by
  intro pos ps h
  simp only [Phrase.body, Pattern.row, forms_phrase_seq, forms_token] at h
  obtain ⟨_, text, _, rfl, h, _, p, rfl, rfl⟩ := h
  obtain ⟨v, rfl, hv, hr⟩ := h.plain rfl
  simp only [familyOf] at hv
  exact ⟨.one v, by simp [hv], v, rfl, hv, ⟨_, hr, by simp [inkOf]⟩⟩

theorem assembles_foreverLoop : Assembles .foreverLoop := by
  intro pos ps h
  simp only [Phrase.body, Pattern.row, forms_token_seq, forms_phrase] at h
  obtain ⟨_, rfl, _, text, rfl, h⟩ := h
  obtain ⟨v, rfl, hv, hr⟩ := h.plain rfl
  simp only [familyOf] at hv
  refine ⟨.one (.node .loopForever pos [v]), by simp [hv], _, rfl, rfl, ⟨_, ?_, rfl⟩⟩
  simp [hr]

/-- A loop whose header is an expression in parentheses. -/
theorem assembles_headed {q : Phrase} {kind : Kind}
    (hq : (q = .repeatLoop ∧ kind = .loopRepeat) ∨ (q = .whileLoop ∧ kind = .loopWhile)) :
    Assembles q := by
  intro pos ps h
  rcases hq with ⟨rfl, hk⟩ | ⟨rfl, hk⟩ <;>
  · simp only [Phrase.body, Pattern.row, forms_token_seq, forms_phrase_seq, forms_phrase] at h
    obtain ⟨_, rfl, _, rfl, _, cond, _, rfl, hc, _, rfl, _, text, rfl, h⟩ := h
    obtain ⟨c, rfl, hvc, hrc⟩ := hc.plain rfl
    obtain ⟨v, rfl, hv, hr⟩ := h.plain rfl
    simp only [familyOf] at hvc hv
    refine ⟨.one (.node kind pos [c, v]), ?_, _, rfl, by rw [hk]; rfl, ⟨_, ?_, rfl⟩⟩
    · simp (disch := decide) [hvc, hv, isA_eq_false hvc, isA_eq_false hv, hk]
    · simp [hrc, hr, hk]
      exact String.toList_injective (by simp)

theorem assembles_doWhileLoop : Assembles .doWhileLoop := by
  intro pos ps h
  simp only [Phrase.body, Pattern.row, forms_token_seq, forms_phrase_seq, forms_token] at h
  obtain ⟨_, rfl, _, text, _, rfl, h, _, rfl, _, rfl, _, cond, _, rfl, hc, _, rfl, rfl⟩ := h
  obtain ⟨c, rfl, hvc, hrc⟩ := hc.plain rfl
  obtain ⟨v, rfl, hv, hr⟩ := h.plain rfl
  simp only [familyOf] at hvc hv
  refine ⟨.one (.node .loopDoWhile pos [v, c]), ?_, _, rfl, rfl, ⟨_, ?_, rfl⟩⟩
  · simp (disch := decide) [hvc, hv, isA_eq_false hvc, isA_eq_false hv]
  · simp [hrc, hr]
    exact String.toList_injective (by simp)

/-! ## For loops -/

/-- One value, or nothing. -/
def optional (v : Value) : List Value := if v = .null then [] else [v]

theorem placesOf_optional {f : Family} {v : Value} (h : v = .null ∨ v.isA f = true)
    (word : String) : placesOf word (optional v) = [] := by
  unfold optional
  rcases h with rfl | hv
  · rfl
  · rw [if_neg (ne_null_of_isA hv)]
    exact placesOf_of_isA (by simpa using hv) word

theorem firstOrNull_optional {f : Family} {v : Value} (h : v = .null ∨ v.isA f = true) :
    (membersOf f (optional v)).head?.getD .null = v := by
  unfold optional
  rcases h with rfl | hv
  · rfl
  · simp [ne_null_of_isA hv, hv]

/-- A for loop is made of the clauses between its semicolons and of its body. -/
theorem assemble_forLoop {init cond body : Value} {steps : List Value}
    (hinit : init = .null ∨ init.isA .forInit = true)
    (hcond : cond = .null ∨ cond.isA .expression = true)
    (hsteps : ∀ v ∈ steps, v.isA .forStep = true) (hbody : body.isA .statementOrNull = true)
    (pos : Position) :
    assemble .forLoop pos ([Value.text "for", .text "("] ++ optional init ++ (.text ";" ::
      optional cond) ++ (.text ";" :: (steps ++ [.text ")", body]))) = .ok (.one (.node .loopFor pos
        [init, cond, if steps.isEmpty then .null else .seq steps, body])) := by
  have hfound : placesOf ";" ([Value.text "for", .text "("] ++ optional init ++ (.text ";" ::
      optional cond) ++ (.text ";" :: (steps ++ [.text ")", body]))) =
      [([Value.text "for", .text "("] ++ optional init).length,
        ([Value.text "for", .text "("] ++ optional init ++ (.text ";" ::
          optional cond)).length] := by
    simp [placesOf_cons, placesOf_append, placesOf_optional hinit, placesOf_optional hcond,
      placesOf_of_isA hsteps, ne_text_of_isA hbody]
    omega
  have hfirst := firstOrNull_optional hinit
  have hsecond := firstOrNull_optional hcond
  simp only [assemble, hfound]
  rw [List.drop_left, List.take_left, List.drop_left, List.append_assoc, List.take_left]
  simp (disch := decide) [hfirst, hsecond, membersOf_eq_self hsteps, membersOf_eq_nil hsteps,
    isA_eq_true hbody, isA_eq_false hbody]

/-- A plain phrase, or nothing. -/
structure MaybePart (q : Phrase) (ps : List Piece) (v : Value) (text : String) :
    Prop where
  values : valuesOf ps = optional v
  isA : v = .null ∨ v.isA (familyOf q) = true
  renders : v ≠ .null → v.render = .ok text
  lines : linesOf ps = if v = .null then [] else [(.phrase q, text)]

theorem maybePart_of_forms {q : Phrase} (hq : isPlain q = true) {ps : List Piece}
    (h : Forms Makes (.opt (.phrase q)) ps) : ∃ v text, MaybePart q ps v text := by
  rcases h with rfl | ⟨_, text, rfl, h⟩
  · exact ⟨.null, "", by simp [optional], by simp, by simp, by simp⟩
  · obtain ⟨v, rfl, hv, hr⟩ := h.plain hq
    exact ⟨v, text, by simp [optional, ne_null_of_isA hv], Or.inr hv, fun _ => hr,
      by simp [ne_null_of_isA hv]⟩

/-- The steps of a for loop, or nothing. -/
theorem steps_of_forms {ps : List Piece} (h : Forms Makes (.opt (.phrase .forStep)) ps) :
    (∀ v ∈ valuesOf ps, v.isA .forStep = true) ∧
      (∃ texts, RenderAll (valuesOf ps) texts ∧ linesOf ps =
        if valuesOf ps = [] then [] else [(.phrase .forStep, ", ".intercalate texts)]) := by
  rcases h with rfl | ⟨values, text, rfl, hne, hall, hr⟩
  · exact ⟨by simp, ⟨[], rfl, rfl⟩⟩
  · refine ⟨by simpa [familyOf] using hall, ?_⟩
    obtain ⟨texts, htexts, rfl⟩ := hr
    exact ⟨texts, by simpa using htexts, by simp [hne]⟩

theorem assembles_forLoop : Assembles .forLoop := by
  intro pos ps h
  simp only [Phrase.body, Pattern.row, forms_token_seq] at h
  obtain ⟨_, rfl, _, rfl, first, _, rfl, hfirst, h⟩ := h
  simp only [forms_token_seq] at h
  obtain ⟨_, rfl, second, _, rfl, hsecond, h⟩ := h
  simp only [forms_token_seq] at h
  obtain ⟨_, rfl, third, _, rfl, hthird, h⟩ := h
  simp only [forms_token_seq, forms_phrase] at h
  obtain ⟨_, rfl, _, text, rfl, h⟩ := h
  obtain ⟨v, rfl, hv, hr⟩ := h.plain rfl
  obtain ⟨init, itext, hi⟩ := maybePart_of_forms rfl hfirst
  obtain ⟨cond, ctext, hc⟩ := maybePart_of_forms rfl hsecond
  obtain ⟨hsteps, hsr⟩ := steps_of_forms hthird
  simp only [familyOf] at hv
  refine ⟨.one (.node .loopFor pos [init, cond,
    if (valuesOf third).isEmpty then .null else .seq (valuesOf third), v]), ?_, _, rfl, rfl,
    ⟨_, ?_, rfl⟩⟩
  · have hloop := assemble_forLoop hi.isA hc.isA hsteps hv pos
    rw [← hi.values, ← hc.values] at hloop
    simpa [-assemble] using hloop
  · obtain ⟨texts, htexts, hlines⟩ := hsr
    simp only [linesOf_cons, linesOf_append, hi.lines, hc.lines, hlines]
    by_cases hinit : init = .null <;> by_cases hcond : cond = .null <;>
      by_cases hthird : valuesOf third = [] <;>
        simp [hinit, hcond, hthird, hi.renders, hc.renders, htexts, hr] <;>
          exact String.toList_injective (by simp)

/-! ## Foreach loops -/

/-- The texts of the slots between the brackets: the text of a name, or nothing. -/
def SlotTexts (slots : List Value) (texts : List String) : Prop :=
  textsOf ((writeAll slots).map fun w => if w.value = .null then ⟨.null, .mk fun _ => .ok ""⟩ else w)
    = .ok texts

theorem SlotTexts.cons {v : Value} {slots : List Value} {text : String} {texts : List String}
    (h : (v = .null ∧ text = "") ∨ (v ≠ .null ∧ v.render = .ok text))
    (hs : SlotTexts slots texts) : SlotTexts (v :: slots) (text :: texts) := by
  simp only [SlotTexts] at hs
  rcases h with ⟨rfl, rfl⟩ | ⟨hv, h⟩ <;> simp [SlotTexts, textsOf, *]

/-- The blank behind a comma. -/
def blankAfter (x : Pattern) : String := if x = .token .comma then " " else ""

/-- The slots behind the first one, each of them behind a comma. -/
theorem slots_of_groups {groups : List (List Piece)}
    (h : ∀ qs ∈ groups, Forms Makes
      (.seq (.token .comma) (.opt (.phrase .indexName))) qs) :
    ∃ slots texts, SlotTexts slots texts ∧
      (∀ current, slotsOf current (valuesOf groups.flatten) = current :: slots) ∧
        ∀ x : Pattern × String, (∀ y, Phrase.loopVariables.gap x.1 y = blankAfter x.1) →
          joined .loopVariables (x :: (linesOf groups.flatten ++ [(Pattern.token .closeBracket, "]")])) =
            x.2 ++ blankAfter x.1 ++ String.join (texts.map (", " ++ ·)) ++ "]" := by
  induction groups with
  | nil =>
    refine ⟨[], [], rfl, fun _ => rfl, fun x hx => ?_⟩
    simp [hx, -Phrase.gap]
  | cons group groups ih =>
    obtain ⟨slots, texts, htexts, hslots, hjoined⟩ :=
      ih fun qs hqs => h qs (List.mem_cons_of_mem group hqs)
    have hgroup := h group List.mem_cons_self
    simp only [forms_token_seq, forms_opt, forms_phrase] at hgroup
    obtain ⟨_, rfl, rfl | ⟨_, text, rfl, p, rfl⟩⟩ := hgroup
    · refine ⟨.null :: slots, "" :: texts, htexts.cons (Or.inl ⟨rfl, rfl⟩), fun _ => ?_,
        fun x hx => ?_⟩
      · simp [slotsOf, hslots]
      · have hcomma := hjoined (.token .comma, ",") fun y => by simp [blankAfter]
        simp only [List.flatten_cons, List.cons_append, List.nil_append, linesOf_cons,
          joined_cons_cons, Spelling.plain, String.ofList_toList, hcomma, hx]
        simp [blankAfter]
    · refine ⟨.node .identifier p [.text text] :: slots, text :: texts,
        htexts.cons (Or.inr ⟨by simp, render_identifier p text⟩), fun _ => ?_, fun x hx => ?_⟩
      · simp [slotsOf, hslots]
      · have hname := hjoined (.phrase .indexName, text) fun y => by simp [blankAfter]
        simp only [List.flatten_cons, List.cons_append, List.nil_append, linesOf_cons,
          joined_cons_cons, Spelling.plain, String.ofList_toList, hname, hx]
        simp [blankAfter]

theorem intercalate_cons (mark text : String) (texts : List String) :
    mark.intercalate (text :: texts) = text ++ String.join (texts.map (mark ++ ·)) := by
  induction texts generalizing text with
  | nil => simp
  | cons next texts ih => simp [String.intercalate_cons_cons, ih]

theorem assembles_loopVariables : Assembles .loopVariables := by
  intro pos ps h
  simp only [Phrase.body, Pattern.row, forms_token_seq] at h
  obtain ⟨_, rfl, head, _, rfl, hhead, groups, close, rfl, hgroups, hclose⟩ := h
  simp only [forms_token] at hclose
  subst hclose
  obtain ⟨groups, rfl, hgroups⟩ := hgroups
  obtain ⟨slots, texts, htexts, hslots, hjoined⟩ := slots_of_groups hgroups
  have render : ∀ {vs ts}, SlotTexts vs ts → (Value.node .loopVariables pos [.seq vs]).render =
      .ok (", ".intercalate ts) := by
    intro vs ts h
    simp only [SlotTexts] at h
    simp [h]
  simp only [forms_opt, forms_phrase] at hhead
  -- without a first name the first slot is empty
  rcases hhead with rfl | ⟨_, text, rfl, p, rfl⟩
  · refine ⟨.one (.node .loopVariables pos [.seq (.null :: slots)]), ?_, _, rfl, rfl,
      ⟨_, render (htexts.cons (Or.inl ⟨rfl, rfl⟩)), ?_⟩⟩
    · simp [hslots]
    · have := hjoined (.token .openBracket, "[") fun y => by simp [blankAfter]
      simp only [List.nil_append, linesOf_cons, linesOf_append, linesOf_nil, Spelling.plain,
        String.ofList_toList, this]
      simp [inkOf, blankAfter, intercalate_cons]
  · refine ⟨.one (.node .loopVariables pos [.seq (.node .identifier p [.text text] :: slots)]),
      ?_, _, rfl, rfl, ⟨_, render (htexts.cons
        (Or.inr ⟨by simp, render_identifier p text⟩)), ?_⟩⟩
    · have hcut : ∀ (v : Value) (vs : List Value),
          (v :: (vs ++ [Value.text "]"])).dropLast = v :: vs := fun v vs =>
        (List.dropLast_concat : ((v :: vs) ++ [Value.text "]"]).dropLast = v :: vs)
      simp [hcut, hslots, slotsOf]
    · have := hjoined (.phrase .indexName, text) fun y => by simp [blankAfter]
      simp only [List.cons_append, List.nil_append, linesOf_cons, linesOf_append, linesOf_nil,
        joined_cons_cons, Spelling.plain, String.ofList_toList, this]
      simp [inkOf, blankAfter, intercalate_cons]

theorem assembles_foreachLoop : Assembles .foreachLoop := by
  intro pos ps h
  simp only [Phrase.body, Pattern.row, forms_token_seq, forms_phrase_seq, forms_phrase] at h
  obtain ⟨_, rfl, _, rfl, _, array, _, rfl, ha, _, slots, _, rfl, ⟨u, rfl, hu, hru⟩, _, rfl, _,
    text, rfl, h⟩ := h
  obtain ⟨a, rfl, hva, hra⟩ := ha.plain rfl
  obtain ⟨v, rfl, hv, hr⟩ := h.plain rfl
  simp only [familyOf] at hu hva hv
  refine ⟨.one (.node .loopForeach pos [a, u, v]), ?_, _, rfl, rfl, ⟨_, ?_, rfl⟩⟩
  · simp (disch := decide) [hu, hva, hv, isA_eq_false hu, isA_eq_false hva, isA_eq_false hv]
  · obtain ⟨s, hs, rfl⟩ := hru
    simp [hs, hra, hr]
    exact String.toList_injective (by simp)

end VerilogLoops.Ast
