import VerilogLoops.Proofs.Parts

/-!
# Building trees that lack children

A node of a parse tree from which children were taken away may be none that its phrase recognises. Then
building is meant to report what it missed: how many children of a family there are, how many semicolons, that
a block has no end. Some phrases take a child by its place, or one of a family that has no name, and those
fail without a report. Which they are, and of which children, is told by `phraseSlip?`.

> `damaged_trees`: building a node of a parse tree without some of its children, but not all, succeeds or
> fails with a report, except where `phraseSlip?` says which other error there is.
-/

namespace VerilogLoops.Ast

open VerilogLoops.Lexical VerilogLoops.Grammar

/-! ## Reports and slips -/

/-- The error says what the phrase was expected to have. The others say that some list was too short, or
that a family has no name. -/
def BuildError.isReport : BuildError → Bool
  | .missingChild | .missingMember | .namelessFamily => false
  | _ => true

/-- The error with which a phrase fails without a report, if it does, by what its children are matches
of. -/
def phraseSlip? (p : Phrase) (kept : List Pattern) : Option BuildError :=
  match p with
  | .qualifier => if kept = [.token .period] then some .namelessFamily else none
  | .foreverLoop | .doWhileLoop =>
    if kept.count (.phrase .statementOrNull) = 1 then none else some .namelessFamily
  | .repeatLoop | .whileLoop =>
    if kept.count (.phrase .expression) = 1 ∧ kept.count (.phrase .statementOrNull) ≠ 1 then
      some .namelessFamily
    else none
  | .forLoop =>
    if kept.count (.token .semicolon) = 2 ∧ kept.count (.phrase .statementOrNull) ≠ 1 then
      some .namelessFamily
    else none
  | .conditional =>
    if kept.count (.phrase .expression) = 1 ∧ kept.count (.phrase .statementOrNull) = 0 then
      some .missingMember
    else none
  | .packedDimension => if kept.count (.phrase .expression) = 1 then some .missingMember else none
  | .block =>
    if kept = [.token .keywordEnd] ∨ kept = [.token .keywordEnd, .token .colon] then some .missingChild
    else none
  | .operatorAssignment | .select => if kept.length < 3 then some .missingChild else none
  | .stepExpression => if kept.length < 2 then some .missingChild else none
  | .chain _ => if kept.length % 2 = 0 then some .missingChild else none
  | _ => none

/-- The same for any node. The values of a whole text are not put together. -/
def slipOf? : Label → List Pattern → Option BuildError
  | .phrase p, kept => phraseSlip? p kept
  | .whole, _ => none

/-- Building succeeds or fails with a report. -/
def Reports {α : Type} (r : Except BuildError α) : Prop := ∀ e, r = .error e → e.isReport = true

/-- Building fails with the given error, or if none is given, without one or with a report. -/
def SlipsAs (slip : Option BuildError) (r : Except BuildError Built) : Prop :=
  match slip with
  | none => Reports r
  | some e => r = .error e

section Reports

variable {α β : Type} {p : Phrase} {f : Family} {vs : List Value} {pos : Position} {i : Nat}

theorem reports_ok (a : α) : Reports (.ok a) := fun _ h => by cases h

theorem reports_error {e : BuildError} (h : e.isReport = true) : Reports (.error e : Except BuildError α) :=
  fun _ he => by
    cases he
    exact h

theorem Reports.bind {x : Except BuildError α} {g : α → Except BuildError β} (hx : Reports x)
    (hg : ∀ a, x = .ok a → Reports (g a)) : Reports (x >>= g) := by
  cases x with
  | ok a => exact hg a rfl
  | error e =>
    intro e' h
    cases h
    exact hx e rfl

/-- A family with a name is missed with a report. -/
theorem reports_theMember (h : f.name?.isSome = true) : Reports (theMember p f vs) := by
  unfold theMember
  split
  · exact reports_ok _
  · split
    · exact reports_error rfl
    · next hname =>
      rw [hname] at h
      cases h

theorem reports_childAt (h : i < vs.length) : Reports (childAt vs i) := by
  rw [childAt, List.getElem?_eq_getElem h]
  exact reports_ok _

theorem reports_lastChild (h : vs ≠ []) : Reports (lastChild vs) := by
  rw [lastChild, List.getLast?_eq_some_getLast h]
  exact reports_ok _

theorem reports_scopedName : Reports (scopedName p pos vs) :=
  (reports_theMember rfl).bind fun _ _ => reports_ok _

/-- The phrases that never fail without a report. -/
def isSure : Phrase → Bool
  | .qualifier | .foreverLoop | .doWhileLoop | .repeatLoop | .whileLoop | .forLoop | .conditional
  | .packedDimension | .block | .operatorAssignment | .select | .stepExpression | .chain _
  | .statementOrNull => false
  | _ => true

/-- The phrases that take no child by its place. -/
theorem reports_assemble (hp : isSure p = true) (h : vs ≠ [] ∨ p = .loopUnit) :
    Reports (assemble p pos vs) := by
  have hfirst : p ≠ .loopUnit → Reports (childAt vs 0) := fun hne =>
    reports_childAt (List.length_pos_of_ne_nil (h.resolve_right hne))
  have hlast : p ≠ .loopUnit → Reports (lastChild vs) := fun hne =>
    reports_lastChild (h.resolve_right hne)
  cases p with
  | qualifier | foreverLoop | doWhileLoop | repeatLoop | whileLoop | forLoop | conditional
  | packedDimension | block | operatorAssignment | select | stepExpression | chain
  | statementOrNull => cases hp
  -- all children of a family, or whatever there is
  | classHandle | forInitAssignments | forInitDeclarations | forStep | loopVariables | nullStatement
  | «attribute» | variableAssignments | lvalueConcatenation | concatenation | arguments =>
    exact reports_ok _
  | comment | assignSign =>
    simp only [assemble]
    split <;> exact reports_ok _
  -- the first child or the last one
  | variableName | indexName | statementLabel | argument | hierarchicalName | packageScope | jump
  | attributeEntry | integerVectorType | integerAtomType | nonIntegerType | simpleType | systemCall
  | routineCall | appliedCall => exact (hfirst (by simp)).bind fun _ _ => reports_ok _
  | identifier => exact (hlast (by simp)).bind fun _ _ => reports_ok _
  | variableAssignment =>
    exact (hfirst (by simp)).bind fun _ _ => (hlast (by simp)).bind fun _ _ => reports_ok _
  | forStepItem =>
    refine (hfirst (by simp)).bind fun _ _ => ?_
    split
    · exact reports_ok _
    · split
      · exact reports_ok _
      · split
        · exact reports_ok _
        · exact reports_error rfl
  | unary =>
    simp only [assemble]
    split
    · exact reports_ok _
    · next hone =>
      have htwo : 1 < vs.length := by
        rcases vs with _ | ⟨v, _ | ⟨w, vs⟩⟩
        · simp at h
        · exact absurd rfl (hone v)
        · simp
      exact (hfirst (by simp)).bind fun _ _ => (reports_childAt htwo).bind fun _ _ => reports_ok _
  -- members of families that have names
  | loop | loopUnit | forInit | statementItem | assignmentStatement | stepStatement | callStatement
  | dataType | namedType | lvalue | call | namedArgument | expression | primary | parenthesized =>
    exact (reports_theMember rfl).bind fun _ _ => reports_ok _
  | forBinding =>
    exact (reports_theMember rfl).bind fun _ _ => (reports_theMember rfl).bind fun _ _ => reports_ok _
  | foreachLoop =>
    exact (reports_theMember rfl).bind fun _ _ => (reports_theMember rfl).bind fun _ _ =>
      (reports_theMember rfl).bind fun _ _ => reports_ok _
  | statement | forDeclaration =>
    exact (hfirst (by simp)).bind fun _ _ => (reports_theMember rfl).bind fun _ _ => reports_ok _
  | arrayName | routineName | variableReference =>
    exact reports_scopedName.bind fun _ _ => reports_ok _
  | conditionalExpression =>
    simp only [assemble]
    split
    · exact reports_ok _
    · exact reports_error rfl

end Reports

/-! ## Phrases that take a child by its place or of a family without a name -/

section Slips

variable {p q : Phrase} {f : Family} {vs : List Value} {pos : Position} {ps qs : List Piece}

theorem slipsAs_if {c : Prop} [Decidable c] {e : BuildError} {r : Except BuildError Built}
    (h : c → r = .error e) (hno : ¬c → Reports r) : SlipsAs (if c then some e else none) r := by
  split
  · next hc => exact h hc
  · next hc => exact hno hc

theorem theMember_isOk (p : Phrase) : (∃ v, theMember p f vs = .ok v) ↔ (membersOf f vs).length = 1 := by
  rw [List.length_eq_one_iff]
  constructor
  · rintro ⟨v, hv⟩
    unfold theMember at hv
    split at hv
    · next w hw => exact ⟨w, hw⟩
    · split at hv <;> cases hv
  · rintro ⟨v, hv⟩
    exact ⟨v, by rw [theMember, hv]⟩

/-- A family without a name is missed without a report. -/
theorem theMember_nameless (h : (membersOf f vs).length ≠ 1) (hf : f.name? = none) :
    theMember p f vs = .error .namelessFamily := by
  unfold theMember
  split
  · next hv => exact absurd (congrArg List.length hv) h
  · rw [hf]

theorem childAt_isOk (vs : List Value) {i : Nat} (h : i < vs.length) : ∃ v, childAt vs i = .ok v :=
  ⟨vs[i], by rw [childAt, List.getElem?_eq_getElem h]⟩

theorem childAt_missing {i : Nat} (h : vs.length ≤ i) : childAt vs i = .error .missingChild := by
  rw [childAt, List.getElem?_eq_none h]

theorem slips_headed (hp : p = .repeatLoop ∨ p = .whileLoop) (h : ∀ piece ∈ qs, PartOf p.body piece) :
    SlipsAs (phraseSlip? p (qs.map Piece.symbol)) (assemble p pos (valuesOf qs)) := by
  have hcondition := length_expressions (by rcases hp with rfl | rfl <;> decide) h
  have hbody := length_statements (by rcases hp with rfl | rfl <;> decide) h
  have hread : ∀ {f}, (membersOf f (valuesOf qs)).length = 1 → ∃ v, theMember p f (valuesOf qs) = .ok v :=
    (theMember_isOk p).2
  -- the condition is looked for first, so the body is missed only where there is one
  rcases hp with rfl | rfl <;>
  · refine slipsAs_if (fun ⟨hone, hno⟩ => ?_) fun hno => ?_
    · obtain ⟨v, hv⟩ := hread (hcondition.trans hone)
      simp only [assemble, hv, ok_bind, theMember_nameless (fun heq => hno (hbody.symm.trans heq)) rfl]
      rfl
    · refine (reports_theMember rfl).bind fun v hv => ?_
      have hone := hcondition.symm.trans ((theMember_isOk _).1 ⟨v, hv⟩)
      obtain ⟨w, hw⟩ := hread (hbody.trans (not_not.1 fun hne => hno ⟨hone, hne⟩))
      simp only [hw, ok_bind]
      exact reports_ok _

theorem slips_foreverLoop (h : ∀ piece ∈ qs, PartOf Phrase.foreverLoop.body piece) :
    SlipsAs (phraseSlip? .foreverLoop (qs.map Piece.symbol)) (assemble .foreverLoop pos (valuesOf qs)) := by
  have hbody := length_statements (x := Phrase.foreverLoop.body) (by decide) h
  simp only [phraseSlip?]
  split
  · next hone =>
    obtain ⟨v, hv⟩ := (theMember_isOk .foreverLoop).2 (hbody.trans hone)
    simp only [assemble, hv, ok_bind]
    exact reports_ok _
  · next hno =>
    simp only [assemble, theMember_nameless (fun heq => hno (hbody.symm.trans heq)) rfl]
    rfl

theorem slips_doWhileLoop (h : ∀ piece ∈ qs, PartOf Phrase.doWhileLoop.body piece) :
    SlipsAs (phraseSlip? .doWhileLoop (qs.map Piece.symbol)) (assemble .doWhileLoop pos (valuesOf qs)) := by
  have hbody := length_statements (x := Phrase.doWhileLoop.body) (by decide) h
  simp only [phraseSlip?]
  split
  · next hone =>
    obtain ⟨v, hv⟩ := (theMember_isOk .doWhileLoop).2 (hbody.trans hone)
    simp only [assemble, hv, ok_bind]
    exact (reports_theMember rfl).bind fun _ _ => reports_ok _
  · next hno =>
    simp only [assemble, theMember_nameless (fun heq => hno (hbody.symm.trans heq)) rfl]
    rfl

theorem slips_conditional (h : ∀ piece ∈ qs, PartOf Phrase.conditional.body piece) :
    SlipsAs (phraseSlip? .conditional (qs.map Piece.symbol)) (assemble .conditional pos (valuesOf qs)) := by
  have hcondition := length_expressions (x := Phrase.conditional.body) (by decide) h
  have hbranches := length_statements (x := Phrase.conditional.body) (by decide) h
  refine slipsAs_if (fun ⟨hone, hno⟩ => ?_) fun hno => ?_
  · obtain ⟨v, hv⟩ := (theMember_isOk .conditional).2 (hcondition.trans hone)
    have hnil := List.eq_nil_of_length_eq_zero (hbranches.trans hno)
    simp only [assemble, hv, hnil, ok_bind]
    rfl
  · -- a condition that is missed is reported before the branches are looked at
    refine (reports_theMember rfl).bind fun v hv => ?_
    have hone := hcondition.symm.trans ((theMember_isOk _).1 ⟨v, hv⟩)
    split
    · next hnil => exact absurd ⟨hone, hbranches.symm.trans (congrArg List.length hnil)⟩ hno
    · exact reports_ok _

theorem slips_packedDimension (h : ∀ piece ∈ qs, PartOf Phrase.packedDimension.body piece) :
    SlipsAs (phraseSlip? .packedDimension (qs.map Piece.symbol))
      (assemble .packedDimension pos (valuesOf qs)) := by
  have hbounds := length_expressions (x := Phrase.packedDimension.body) (by decide) h
  refine slipsAs_if (fun hone => ?_) fun hno => ?_
  · obtain ⟨v, hv⟩ := List.length_eq_one_iff.1 (hbounds.trans hone)
    simp only [assemble, hv]
    rfl
  · simp only [assemble]
    split
    · exact reports_ok _
    · next hv => exact absurd (hbounds.symm.trans (congrArg List.length hv)) hno
    · exact reports_ok _

/-- Operands and operators are joined unless an operand is missing behind the last operator. -/
theorem joinOperands_of_length (pos : Position) (left : Value) (vs : List Value) :
    (vs.length % 2 = 0 → ∃ v, joinOperands pos left vs = .ok v) ∧
      (vs.length % 2 = 1 → joinOperands pos left vs = .error .missingChild) := by
  fun_induction joinOperands pos left vs with
  | case1 => simp
  | case2 => simp
  | case3 left operator right rest ih =>
    have hlen : (operator :: right :: rest).length % 2 = rest.length % 2 := by
      simp only [List.length_cons]
      omega
    rwa [hlen]

theorem slips_chain {level : Level} (h : ∀ piece ∈ qs, PartOf (Phrase.chain level).body piece)
    (hne : qs ≠ []) : SlipsAs (phraseSlip? (.chain level) (qs.map Piece.symbol))
      (assemble (.chain level) pos (valuesOf qs)) := by
  have hlen := length_valuesOf (x := (Phrase.chain level).body) (by cases level <;> decide) h
  obtain ⟨v, vs, hvs⟩ : ∃ v vs, valuesOf qs = v :: vs :=
    List.exists_cons_of_length_pos (hlen ▸ List.length_pos_of_ne_nil hne)
  rw [hvs, List.length_cons] at hlen
  have hjoin := joinOperands_of_length pos v vs
  refine slipsAs_if (fun heven => ?_) fun hodd => ?_
  · rw [List.length_map, ← hlen] at heven
    simp only [assemble, hvs, hjoin.2 (by omega)]
    rfl
  · rw [List.length_map, ← hlen] at hodd
    obtain ⟨w, hw⟩ := hjoin.1 (by omega)
    simp only [assemble, hvs, hw]
    exact reports_ok _

theorem slips_stepExpression (h : ∀ piece ∈ qs, PartOf Phrase.stepExpression.body piece) (hne : qs ≠ []) :
    SlipsAs (phraseSlip? .stepExpression (qs.map Piece.symbol))
      (assemble .stepExpression pos (valuesOf qs)) := by
  have hlen := length_valuesOf (x := Phrase.stepExpression.body) (by decide) h
  have hpos := List.length_pos_of_ne_nil hne
  obtain ⟨v, hv⟩ := childAt_isOk (valuesOf qs) (i := 0) (by omega)
  simp only [assemble, hv, ok_bind]
  refine slipsAs_if (fun hshort => ?_) fun hlong => ?_
  · rw [List.length_map] at hshort
    rw [childAt_missing (by omega)]
    rfl
  · rw [List.length_map] at hlong
    refine (reports_childAt (by omega)).bind fun _ _ => ?_
    split <;> exact reports_ok _

theorem slips_operatorAssignment (h : ∀ piece ∈ qs, PartOf Phrase.operatorAssignment.body piece)
    (hne : qs ≠ []) : SlipsAs (phraseSlip? .operatorAssignment (qs.map Piece.symbol))
      (assemble .operatorAssignment pos (valuesOf qs)) := by
  have hlen := length_valuesOf (x := Phrase.operatorAssignment.body) (by decide) h
  have hpos := List.length_pos_of_ne_nil hne
  obtain ⟨v, hv⟩ := childAt_isOk (valuesOf qs) (i := 0) (by omega)
  simp only [assemble, hv, ok_bind]
  refine slipsAs_if (fun hshort => ?_) fun hlong => ?_
  · rw [List.length_map] at hshort
    by_cases htwo : 1 < (valuesOf qs).length
    · obtain ⟨w, hw⟩ := childAt_isOk _ htwo
      rw [hw, ok_bind, childAt_missing (by omega)]
      rfl
    · rw [childAt_missing (by omega)]
      rfl
  · rw [List.length_map] at hlong
    exact (reports_childAt (by omega)).bind fun _ _ => (reports_childAt (by omega)).bind fun _ _ => reports_ok _

theorem slips_select (h : ∀ piece ∈ qs, PartOf Phrase.select.body piece) :
    SlipsAs (phraseSlip? .select (qs.map Piece.symbol)) (assemble .select pos (valuesOf qs)) := by
  have hlen := length_valuesOf (x := Phrase.select.body) (by decide) h
  refine slipsAs_if (fun hshort => ?_) fun hlong => ?_
  · rw [List.length_map] at hshort
    simp only [assemble]
    rw [if_neg (by omega)]
    by_cases htwo : 1 < (valuesOf qs).length
    · obtain ⟨w, hw⟩ := childAt_isOk _ htwo
      rw [hw, ok_bind, childAt_missing (by omega)]
      rfl
    · rw [childAt_missing (by omega)]
      rfl
  · rw [List.length_map] at hlong
    simp only [assemble]
    split
    · exact (reports_childAt (by omega)).bind fun _ _ => reports_ok _
    · exact (reports_childAt (by omega)).bind fun _ _ => (reports_childAt (by omega)).bind fun _ _ =>
        (reports_childAt (by omega)).bind fun _ _ => reports_ok _

/-- A qualifier is missed if only the point behind it is left. -/
theorem slips_qualifier (h : Forms Sorts Phrase.qualifier.body ps) (hqs : qs.Sublist ps) (hne : qs ≠ []) :
    SlipsAs (phraseSlip? .qualifier (qs.map Piece.symbol)) (assemble .qualifier pos (valuesOf qs)) := by
  have hone : ∃ q values text rest, ps = ⟨.phrase q, values, text⟩ :: rest ∧ Sorts q values text ∧
      isSingle q = true ∧ (familyOf q).within .qualifier = true ∧
        (rest = [⟨.token .period, [.text "."], "."⟩] ∨ rest = []) := by
    simp only [Phrase.body, Pattern.row, Pattern.oneOf, forms_alt, forms_phrase_seq, forms_token,
      forms_phrase] at h
    rcases h with ⟨values, text, rest, rfl, hs, rfl⟩ | ⟨values, text, rfl, hs⟩
    · exact ⟨_, values, text, _, rfl, hs, rfl, by decide, .inl rfl⟩
    · exact ⟨_, values, text, [], rfl, hs, rfl, by decide, .inr rfl⟩
  obtain ⟨q, values, text, rest, rfl, hs, hq, hf, hrest⟩ := hone
  obtain ⟨v, rfl, hv, -⟩ := hs.single hq
  have hnone : ∀ us : List Piece, us.Sublist rest → membersOf .qualifier (valuesOf us) = [] ∧
      (us ≠ [] → us = [⟨.token .period, [.text "."], "."⟩]) := by
    rcases hrest with rfl | rfl
    · intro us hus
      rcases List.sublist_singleton.1 hus with rfl | rfl <;> simp
    · intro us hus
      simp [List.sublist_nil.1 hus]
  rcases List.sublist_cons_iff.1 hqs with hqs | ⟨us, rfl, hus⟩
  · obtain ⟨hmembers, hperiod⟩ := hnone qs hqs
    simp only [assemble, theMember_nameless (p := .qualifier) (by rw [hmembers]; simp) rfl]
    rw [hperiod hne]
    rfl
  · have hmembers : (membersOf .qualifier (valuesOf (⟨.phrase q, [v], text⟩ :: us))).length = 1 := by
      simp [isA_eq_true hv hf, (hnone us hus).1]
    obtain ⟨w, hw⟩ := (theMember_isOk .qualifier).2 hmembers
    have hkept : phraseSlip? .qualifier ((⟨.phrase q, [v], text⟩ :: us).map Piece.symbol) = none := by
      simp [phraseSlip?]
    rw [hkept]
    simp only [assemble, hw, ok_bind]
    exact reports_ok _

/-- The one statement is kept. -/
theorem slips_statementOrNull (h : Forms Sorts Phrase.statementOrNull.body ps) (hqs : qs.Sublist ps)
    (hne : qs ≠ []) :
    SlipsAs (phraseSlip? .statementOrNull (qs.map Piece.symbol))
      (assemble .statementOrNull pos (valuesOf qs)) := by
  have hone : ∃ q values text, ps = [⟨.phrase q, values, text⟩] ∧ Sorts q values text ∧
      isSingle q = true ∧ (familyOf q).within .statementOrNull = true := by
    simp only [Phrase.body, Pattern.oneOf, forms_alt, forms_phrase] at h
    rcases h with ⟨values, text, rfl, hs⟩ | ⟨values, text, rfl, hs⟩ <;>
      exact ⟨_, values, text, rfl, hs, rfl, by decide⟩
  obtain ⟨q, values, text, rfl, hs, hq, hf⟩ := hone
  obtain ⟨v, rfl, hv, -⟩ := hs.single hq
  obtain rfl : qs = [⟨.phrase q, [v], text⟩] :=
    hqs.eq_of_length_le (List.length_pos_of_ne_nil hne)
  have hmembers : (membersOf .statementOrNull [v]).length = 1 := by simp [isA_eq_true hv hf]
  obtain ⟨w, hw⟩ := (theMember_isOk .statementOrNull).2 hmembers
  simp only [assemble, valuesOf_cons, valuesOf_nil, List.append_nil, hw, ok_bind]
  exact reports_ok _

/-! ### For loops -/

theorem length_placesOf (word : String) (vs : List Value) :
    (placesOf word vs).length = vs.count (.text word) := by
  induction vs with
  | nil => rfl
  | cons v vs ih =>
    rw [placesOf_cons, List.length_append, List.length_map, ih, List.count_cons, Nat.add_comm]
    by_cases hv : v = .text word <;> simp [hv]

theorem lt_of_mem_placesOf (word : String) {i : Nat} (h : i ∈ placesOf word vs) : i < vs.length := by
  induction vs generalizing i with
  | nil => cases h
  | cons v vs ih =>
    rw [placesOf_cons, List.mem_append, List.mem_map] at h
    rcases h with h | ⟨j, hj, rfl⟩
    · split at h
      · cases List.mem_singleton.1 h
        simp
      · cases h
    · have := ih hj
      simp only [List.length_cons]
      omega

/-- What has the form of several patterns in a row has the form of the last one at its end. -/
theorem forms_row_concat {makes : Phrase → List Value → String → Prop} {x y : Pattern} (xs : List Pattern)
    (h : Forms makes (.row x (xs ++ [y])) ps) :
    ∃ as bs, ps = as ++ bs ∧ Forms makes (.row x xs) as ∧ Forms makes y bs := by
  induction xs generalizing x ps with
  | nil => exact h
  | cons z xs ih =>
    obtain ⟨as, rest, rfl, hx, hrest⟩ := h
    obtain ⟨bs, cs, rfl, hbs, hcs⟩ := ih hrest
    exact ⟨as ++ bs, cs, by rw [List.append_assoc], ⟨as, bs, rfl, hx, hbs⟩, hcs⟩

/-- Where there are two semicolons, the body is looked for behind the second one. -/
theorem slips_forLoop (h : Forms Sorts Phrase.forLoop.body ps) (hqs : qs.Sublist ps) :
    SlipsAs (phraseSlip? .forLoop (qs.map Piece.symbol)) (assemble .forLoop pos (valuesOf qs)) := by
  have hparts : ∀ piece ∈ qs, PartOf Phrase.forLoop.body piece :=
    fun piece hp => partOf_of_forms h piece (hqs.subset hp)
  have hmarks := count_text (x := Phrase.forLoop.body) .semicolon ";" (by decide) hparts
  have hbody := length_statements (x := Phrase.forLoop.body) (by decide) hparts
  obtain ⟨as, bs, rfl, has, values, text, rfl, hs⟩ := forms_row_concat [Token.openParen,
    .opt Phrase.forInit, Token.semicolon, .opt Phrase.expression, Token.semicolon, .opt Phrase.forStep,
    Token.closeParen] h
  obtain ⟨us, ws, rfl, hus, hws⟩ := List.sublist_append_iff.1 hqs
  -- nothing in front of the body is a statement, and the body is no semicolon
  have hheader : membersOf .statementOrNull (valuesOf us) = [] := by
    have hfront := fun piece hp => partOf_of_forms has piece (hus.subset hp)
    refine List.eq_nil_of_length_eq_zero ?_
    rw [length_membersOf (q := .statementOrNull) (by decide) hfront, List.count_eq_zero]
    exact fun hmem => absurd (mem_calls_of_parts hfront hmem) (by decide)
  have hplaces : placesOf ";" (valuesOf (us ++ ws)) = placesOf ";" (valuesOf us) := by
    obtain ⟨v, rfl, hv, -⟩ := hs.single rfl
    have hlast : placesOf ";" (valuesOf ws) = [] :=
      placesOf_of_isA (f := familyOf .statementOrNull) (fun w hw => by
        obtain ⟨piece, hp, hw⟩ := List.mem_flatMap.1 hw
        cases List.mem_singleton.1 (hws.subset hp)
        cases List.mem_singleton.1 hw
        exact hv) ";"
    rw [valuesOf_append, placesOf_append, hlast, List.map_nil, List.append_nil]
  rw [← length_placesOf] at hmarks
  have hbehind : ∀ {first second}, placesOf ";" (valuesOf (us ++ ws)) = [first, second] →
      (membersOf .statementOrNull ((valuesOf (us ++ ws)).drop second)).length =
        ((us ++ ws).map Piece.symbol).count (.phrase .statementOrNull) := by
    intro first second heq
    have hlt : second < (valuesOf us).length := by
      refine lt_of_mem_placesOf ";" ?_
      rw [← hplaces, heq]
      simp
    have hfront : membersOf .statementOrNull ((valuesOf us).drop second) = [] :=
      List.eq_nil_of_sublist_nil (hheader ▸ (List.drop_sublist _ _).filter _)
    rw [← hbody, valuesOf_append, List.drop_append_of_le_length hlt.le, membersOf_append, membersOf_append,
      hheader, hfront]
  simp only [assemble]
  split
  · next first second heq =>
    have htwo := hmarks.symm.trans (congrArg List.length heq)
    refine slipsAs_if (fun ⟨_, hno⟩ => ?_) fun hno => ?_
    · rw [theMember_nameless (fun hone => hno ((hbehind heq).symm.trans hone)) rfl]
      rfl
    · obtain ⟨v, hv⟩ := (theMember_isOk .forLoop).2
        ((hbehind heq).trans (not_not.1 fun hne => hno ⟨htwo, hne⟩))
      rw [hv]
      exact reports_ok _
  · next hother =>
    refine slipsAs_if (fun ⟨htwo, _⟩ => ?_) fun _ => reports_error rfl
    obtain ⟨first, second, heq⟩ := List.length_eq_two.1 (hmarks.trans htwo)
    exact absurd heq (hother first second)

/-! ### Blocks -/

/-- A block is looked at up to its third child, where there is an end. -/
theorem slips_block (h : ∀ piece ∈ qs, PartOf Phrase.block.body piece) (hne : qs ≠ []) :
    SlipsAs (phraseSlip? .block (qs.map Piece.symbol)) (assemble .block pos (valuesOf qs)) := by
  have hend : (placesOf "end" (valuesOf qs)).length = _ := (length_placesOf "end" (valuesOf qs)).trans
    (count_text (x := Phrase.block.body) .keywordEnd "end" (by decide) h)
  have hlen := length_valuesOf (x := Phrase.block.body) (by decide) h
  simp only [assemble]
  split
  · next hnil =>
    rw [hnil, List.length_nil, eq_comm, List.count_eq_zero] at hend
    refine slipsAs_if (fun heq => ?_) fun _ => reports_error rfl
    rcases heq with heq | heq <;> simp [heq] at hend
  · next stop others hstop =>
    have hmem : .token .keywordEnd ∈ qs.map Piece.symbol := by
      rw [← List.count_pos_iff, ← hend, hstop]
      simp
    match qs, hne with
    | [x], _ =>
      have hx : x.symbol = .token .keywordEnd := by simpa [eq_comm] using hmem
      rw [childAt_missing (by rw [hlen]; simp)]
      simp only [phraseSlip?, List.map_cons, List.map_nil, hx, true_or, if_true]
      rfl
    | [x, y], _ =>
      -- a colon in second place announces a name in third place
      obtain ⟨v, hv⟩ := childAt_isOk (valuesOf [x, y]) (i := 1) (by rw [hlen]; simp)
      have hcolon : v = .text ":" ↔ y.symbol = .token .colon := by
        have hx : ∀ piece ∈ [x], PartOf Phrase.block.body piece := by simp [h]
        have hy : ∀ piece ∈ [y], PartOf Phrase.block.body piece := by simp [h]
        obtain ⟨a, ha⟩ := List.length_eq_one_iff.1 (length_valuesOf (by decide) hx)
        obtain ⟨b, hb⟩ := List.length_eq_one_iff.1 (length_valuesOf (by decide) hy)
        have hpair : valuesOf [x, y] = [a, b] := by
          rw [← List.singleton_append, valuesOf_append, ha, hb]
          rfl
        have hcount := count_text (x := Phrase.block.body) .colon ":" (by decide) hy
        rw [hpair] at hv
        cases hv
        rw [hb] at hcount
        rw [eq_comm, ← List.mem_singleton, ← List.count_pos_iff, hcount, List.count_pos_iff]
        simp [eq_comm]
      simp only [hv, ok_bind]
      split
      · next hc =>
        have hx : x.symbol = .token .keywordEnd := by simpa [hcolon.1 hc, eq_comm] using hmem
        rw [childAt_missing (by rw [hlen]; simp)]
        simp only [phraseSlip?, List.map_cons, List.map_nil, hx, hcolon.1 hc, or_true, if_true]
        rfl
      · next hc =>
        have hkept : phraseSlip? .block ([x, y].map Piece.symbol) = none := by
          simp [phraseSlip?, mt hcolon.2 hc]
        rw [hkept]
        exact reports_ok _
    | x :: y :: z :: rest, _ =>
      have hkept : phraseSlip? .block ((x :: y :: z :: rest).map Piece.symbol) = none := by simp [phraseSlip?]
      rw [hkept]
      refine Reports.bind (reports_childAt (by rw [hlen]; simp)) fun _ _ => ?_
      split
      · exact Reports.bind (reports_childAt (by rw [hlen]; simp)) fun _ _ => reports_ok _
      · exact reports_ok _

end Slips

/-! ## All phrases -/

section Trees

variable {p : Phrase} {locate : Nat → Position} {ps qs : List Piece} {children : List ParseTree}

theorem slip_of_isSure (hp : isSure p = true) (kept : List Pattern) : phraseSlip? p kept = none := by
  cases p <;> first | rfl | cases hp

/-- A phrase of which children were taken away, but not all, is assembled, or fails with a report or as it
is told. -/
theorem slips_assemble (hp : isSure p = false) (h : Forms Sorts p.body ps) (hqs : qs.Sublist ps)
    (hne : qs ≠ []) (pos : Position) :
    SlipsAs (phraseSlip? p (qs.map Piece.symbol)) (assemble p pos (valuesOf qs)) := by
  have hparts : ∀ piece ∈ qs, PartOf p.body piece := fun piece hq => partOf_of_forms h piece (hqs.subset hq)
  cases p with
  | qualifier => exact slips_qualifier h hqs hne
  | foreverLoop => exact slips_foreverLoop hparts
  | doWhileLoop => exact slips_doWhileLoop hparts
  | repeatLoop => exact slips_headed (.inl rfl) hparts
  | whileLoop => exact slips_headed (.inr rfl) hparts
  | forLoop => exact slips_forLoop h hqs
  | conditional => exact slips_conditional hparts
  | packedDimension => exact slips_packedDimension hparts
  | block => exact slips_block hparts hne
  | operatorAssignment => exact slips_operatorAssignment hparts hne
  | select => exact slips_select hparts
  | stepExpression => exact slips_stepExpression hparts hne
  | chain level => exact slips_chain hparts hne
  | statementOrNull => exact slips_statementOrNull h hqs hne
  | _ => cases hp

/-- The children of a node that fits when it is tidied are built, and not as nothing. -/
theorem built_of_child (h : Fits (.phrase p) [(ParseTree.node (.phrase p) children).tidy]) :
    ∀ u ∈ tidyAll children, ∃ b, buildTree locate u = .ok b ∧ (p ≠ .loopUnit → b.values ≠ []) := by
  rw [ParseTree.tidy] at h
  -- a phrase with a body, an identifier, or the sign of an assignment
  rcases h.node_cases with ⟨hp, hbody⟩ | ⟨rfl, k, start, text, hone, -, hk⟩ | ⟨rfl, start, hone⟩
  · have hspread : ∀ t ∈ Label.tidied (.phrase p) (tidyAll children), IsSpread [] locate t :=
      isSpread_of_fits hbody
    have hforms := forms_of_fits hbody fun t ht => (hspread t ht).isMade
    have hown : p ≠ .loopUnit → .endOfInput ∉ p.body.ownTokens := by
      have key : ∀ p : Phrase, p ≠ .loopUnit → .endOfInput ∉ p.body.ownTokens := by decide +kernel
      exact key p
    have hchild : ∀ u ∈ Label.tidied (.phrase p) (tidyAll children),
        ∃ b, buildTree locate u = .ok b ∧ (p ≠ .loopUnit → b.values ≠ []) := by
      intro u hu
      obtain ⟨b, hb⟩ := (hspread u hu).isMade.1
      refine ⟨b, hb, fun hne => ?_⟩
      have hvalues := (partOf_of_forms hforms _ (List.mem_map_of_mem hu)).values_ne_nil (hown hne)
      simpa [pieceOf, valuesFrom, hb] using hvalues
    by_cases hdeclaration : p = .forDeclaration
    · subst hdeclaration
      -- the comma that a declaration sheds is built as its text
      rcases withoutLastComma_cases (tidyAll children) with hsame | ⟨start, text, hsplit⟩
      · rwa [Label.tidied, hsame] at hchild
      · intro u hu
        rw [hsplit] at hu
        rcases List.mem_append.1 hu with hu | hu
        · exact hchild u hu
        · cases List.mem_singleton.1 hu
          exact ⟨.one (.text text), rfl, fun _ => List.cons_ne_nil _ _⟩
    · rwa [tidied_of_ne hdeclaration] at hchild
  · intro u hu
    rw [show tidyAll children = [.leaf k start text] from hone] at hu
    cases List.mem_singleton.1 hu
    rcases hk with ⟨rfl, -⟩ | rfl <;> exact ⟨_, rfl, fun _ => List.cons_ne_nil _ _⟩
  · intro u hu
    rw [show tidyAll children = [.leaf .equals start "="] from hone] at hu
    cases List.mem_singleton.1 hu
    exact ⟨_, rfl, fun _ => List.cons_ne_nil _ _⟩

/-- Trees that are built one by one are built. -/
theorem exists_buildAll_of_forall {c : Prop} {us : List ParseTree}
    (h : ∀ u ∈ us, ∃ b, buildTree locate u = .ok b ∧ (c → b.values ≠ [])) :
    ∃ vs, buildAll locate us = .ok vs ∧ (us ≠ [] → c → vs ≠ []) := by
  induction us with
  | nil => exact ⟨[], rfl, fun hne => absurd rfl hne⟩
  | cons u us ih =>
    obtain ⟨b, hb, hvalues⟩ := h u List.mem_cons_self
    obtain ⟨vs, hvs, -⟩ := ih fun w hw => h w (List.mem_cons_of_mem _ hw)
    exact ⟨_, buildAll_cons.2 ⟨b, vs, hb, hvs, rfl⟩,
      fun _ hc => List.append_ne_nil_of_left_ne_nil (hvalues hc) _⟩

theorem symbol_tidy (t : ParseTree) : t.tidy.symbol = t.symbol := by
  cases t with
  | leaf => rfl
  | node label children => cases label <;> rfl

/-- A node of a phrase without some of its children, but not all, is built, or building fails with a report
or as it is told. -/
theorem slips_buildTree {kept : List ParseTree}
    (h : Fits (.phrase p) [(ParseTree.node (.phrase p) children).tidy]) (hkept : kept.Sublist children)
    (hne : kept ≠ []) :
    SlipsAs (phraseSlip? p (kept.map ParseTree.symbol)) (buildTree locate (.node (.phrase p) kept)) := by
  have htidy : (tidyAll kept).Sublist (tidyAll children) := by
    simp only [tidyAll_eq_map]
    exact hkept.map _
  have hnotNil : tidyAll kept ≠ [] := by
    rw [tidyAll_eq_map]
    exact fun hnil => hne (List.map_eq_nil_iff.1 hnil)
  cases hp : isSure p with
  | true =>
    obtain ⟨vs, hvs, hvalues⟩ := exists_buildAll_of_forall fun u hu => built_of_child h u (htidy.subset hu)
    rw [slip_of_isSure hp, buildTree_phrase (buildAll_of_tidy kept hvs).1]
    exact reports_assemble hp (or_iff_not_imp_right.2 (hvalues hnotNil))
  | false =>
    have hdeclaration : p ≠ .forDeclaration := by
      rintro rfl
      cases hp
    rw [ParseTree.tidy, tidied_of_ne hdeclaration] at h
    cases h with
    | lexeme hx h => cases p <;> simp_all [isSure, Pattern.isLexeme]
    | phrase _ hbody =>
      have hmade : ∀ t ∈ tidyAll children, IsMade Sorts locate t :=
        fun t ht => (show IsSpread [] locate t from isSpread_of_fits hbody t ht).isMade
      have hvalues := buildAll_of_isMade fun t ht => hmade t (htidy.subset ht)
      have hsymbols : ((tidyAll kept).map (pieceOf locate)).map Piece.symbol = kept.map ParseTree.symbol := by
        rw [tidyAll_eq_map, List.map_map, List.map_map]
        exact List.map_congr_left fun t _ => symbol_tidy t
      rw [buildTree_phrase (buildAll_of_tidy kept hvalues).1, ← hsymbols]
      exact slips_assemble hp (forms_of_fits hbody hmade) (htidy.map _)
        (fun hnil => hnotNil (List.map_eq_nil_iff.1 hnil)) _

end Trees

end VerilogLoops.Ast

namespace VerilogLoops.Grammar

/-- The nodes of a tree that fits when it is tidied are nodes of phrases, and fit too. -/
theorem fits_of_descend {t : ParseTree} {label : Label} {children : List ParseTree} (h : IsFitting t.tidy)
    {path : List Nat} (hpath : t.descend path = some (.node label children)) :
    ∃ p, label = .phrase p ∧ Fits (.phrase p) [(ParseTree.node (.phrase p) children).tidy] := by
  induction path generalizing t with
  | nil =>
    cases hpath
    exact h.phrase
  | cons i path ih =>
    simp only [ParseTree.descend, Option.bind_eq_bind, Option.bind_eq_some_iff] at hpath
    obtain ⟨u, hu, hpath⟩ := hpath
    cases t with
    | leaf => cases hu
    | node label' children' =>
      obtain ⟨q, rfl, hfits⟩ := h.phrase
      have hmem : u ∈ children' := List.mem_of_getElem? hu
      cases u with
      | leaf => cases path <;> cases hpath
      | node label'' children'' => exact ih (IsFitting.child hfits hmem) hpath

end VerilogLoops.Grammar

namespace VerilogLoops

open VerilogLoops.Grammar VerilogLoops.Ast

/-- The other errors are no reports. -/
theorem isReport_of_slip {label : Label} {kept : List Pattern} {e : BuildError}
    (h : slipOf? label kept = some e) : e.isReport = false := by
  cases label with
  | whole => cases h
  | phrase p =>
    simp only [slipOf?] at h
    unfold phraseSlip? at h
    split at h <;> first
      | cases h
      | (split at h <;> cases h; rfl)

/-- **A tree that lacks children is built or reported, with exceptions that are told.** Of the tree of any
text that is nothing but a symbol, take any node, and away from it any of its children, but not all. Building
the node then succeeds or fails with a report of what was expected, unless `phraseSlip?` says by what is left
that it fails with another error. -/
theorem damaged_trees {symbol : Symbol} (origin : String) {text : List Char} {tree : ParseTree}
    {after : Place} {path : List Nat} (dropped : List Nat) {label : Label} {children : List ParseTree}
    (h : parseTree symbol true text = .ok (tree, after))
    (hpath : tree.descend path = some (.node label children))
    (hne : ((ParseTree.node label children).withoutChildren dropped).children ≠ []) :
    let damaged := (ParseTree.node label children).withoutChildren dropped
    match slipOf? label (damaged.children.map ParseTree.symbol) with
    | some e => e.isReport = false ∧ buildIn origin text damaged = .error (.build e)
    | none => (∃ b, buildIn origin text damaged = .ok b) ∨
        ∃ e, e.isReport = true ∧ buildIn origin text damaged = .error (.build e) := by
  obtain ⟨ts, ht, rfl⟩ := takes_of_parseTree_whole h
  have hchildren : ∀ t ∈ ts, IsFitting t.tidy := fun t ht' => by
    refine isFitting_of_fits ht.reads_whole.fits _ ?_
    rw [tidyAll_eq_map]
    exact List.mem_map_of_mem ht'
  simp only [ParseTree.withoutChildren, ParseTree.children] at hne ⊢
  have hkept : ((children.zipIdx.filter fun c => !dropped.contains c.2).map (·.1)).Sublist children := by
    have := (List.filter_sublist (p := fun c => !dropped.contains c.2) (l := children.zipIdx)).map (·.1)
    rwa [List.zipIdx_map_fst] at this
  generalize ((children.zipIdx.filter fun c => !dropped.contains c.2).map (·.1)) = kept at hne hkept ⊢
  have hslips : ∀ locate,
      SlipsAs (slipOf? label (kept.map ParseTree.symbol)) (buildTree locate (.node label kept)) := by
    intro locate
    cases path with
    | nil =>
      -- the values of a whole text are just collected
      cases hpath
      have hmade : ∀ t ∈ tidyAll kept, IsMade Sorts locate t := fun t ht' => by
        refine (show IsSpread [] locate t from isSpread_of_fits ht.reads_whole.fits t ?_).isMade
        rw [tidyAll_eq_map] at ht' ⊢
        exact (hkept.map _).subset ht'
      have hvalues := (buildAll_of_tidy kept (buildAll_of_isMade hmade)).1
      simp only [buildTree, hvalues, ok_bind]
      split <;> exact reports_ok _
    | cons i path =>
      simp only [ParseTree.descend, Option.bind_eq_bind, Option.bind_eq_some_iff] at hpath
      obtain ⟨u, hu, hpath⟩ := hpath
      obtain ⟨p, rfl, hfits⟩ := fits_of_descend (hchildren u (List.mem_of_getElem? hu)) hpath
      exact slips_buildTree hfits hkept hne
  have hslip := hslips fun offset => positionAt origin ((Text.LocationTable.of text).locate offset)
  split
  · next e heq =>
    rw [heq] at hslip
    exact ⟨isReport_of_slip heq, buildIn_eq_error.2 hslip⟩
  · next heq =>
    rw [heq] at hslip
    cases hb : buildTree (fun offset => positionAt origin ((Text.LocationTable.of text).locate offset))
        (.node label kept) with
    | ok b => exact .inl ⟨b, buildIn_eq_ok.2 hb⟩
    | error e => exact .inr ⟨e, hslip e hb, buildIn_eq_error.2 hb⟩

/-- A loop without its body: statements and null statements are a family without a name. -/
theorem damaged_trees_bodiless :
    ∃ text tree after children, text = "forever ;".toList ∧
      parseTree (.phrase .foreverLoop) true text = .ok (tree, after) ∧
        tree.descend [0] = some (.node (.phrase .foreverLoop) children) ∧
          ((ParseTree.node (.phrase .foreverLoop) children).withoutChildren [1]).children ≠ [] ∧
            buildIn "a.sv" text ((ParseTree.node (.phrase .foreverLoop) children).withoutChildren [1]) =
              .error (.build .namelessFamily) := by
  generalize htext : "forever ;".toList = text
  obtain ⟨⟨tree, after⟩, h, hsymbols⟩ : ∃ found, parseTree (.phrase .foreverLoop) true text = .ok found ∧
      ((found.1.descend [0]).map fun t => (t.symbol, t.children.map ParseTree.symbol)) =
        some (.phrase .foreverLoop, [.token .keywordForever, .phrase .statementOrNull]) := by
    rw [← htext, String.toList_ofList, parseTree_afresh]
    exact exists_of_any (by decide +kernel)
  obtain ⟨t, ht, hsymbols⟩ := Option.map_eq_some_iff.1 hsymbols
  simp only [Prod.mk.injEq] at hsymbols
  obtain ⟨children, rfl⟩ : ∃ children, t = .node (.phrase .foreverLoop) children := by
    cases t with
    | leaf => cases hsymbols.1
    | node label children =>
      cases label <;> cases hsymbols.1
      exact ⟨children, rfl⟩
  simp only [ParseTree.children, List.map_eq_cons_iff, List.map_eq_nil_iff] at hsymbols
  obtain ⟨-, keyword, _, rfl, hkeyword, body, _, rfl, -, rfl⟩ := hsymbols
  have hkept : ((ParseTree.node (.phrase .foreverLoop) [keyword, body]).withoutChildren [1]).children =
      [keyword] := by
    simp [ParseTree.withoutChildren, ParseTree.children]
  have hdamaged := damaged_trees "a.sv" [1] h ht (by rw [hkept]; simp)
  simp only [hkept, List.map_singleton, hkeyword] at hdamaged
  exact ⟨text, tree, after, _, rfl, h, ht, by rw [hkept]; simp, hdamaged.2⟩

end VerilogLoops
