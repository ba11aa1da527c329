import VerilogLoops.Proofs.Headers

/-!
# The slots of a foreach loop

The variables of a foreach loop are written between brackets with commas between them, and each may be left
out. There is one slot more than there are commas, and what stands between two commas is the variable of the
slot there.

> `composes_slots`: variables with commas between them are composed slot by slot;
> `parse_slots`: every variable of a foreach loop is in the slot that it was written for.
-/

namespace VerilogLoops

open VerilogLoops.Text VerilogLoops.Lexical VerilogLoops.Grammar VerilogLoops.Ast

variable {source origin name array body : String} {slot : Option String} {slots : List (Option String)}
  {v a b : Value} {vs : List Value}

/-! ## Slots and what they stand for -/

/-- What a slot stands for: the value of its name, or nothing if it is left out. -/
def slotValue (source : String) : Option String → Except ParseError Value
  | none => .ok .null
  | some name => valueOf .identifier source name

/-- The pieces of the slots, with commas between them. A slot that is left out has no piece. -/
def slotPieces (slots : List (Option String)) : List String := [","].intercalate (slots.map Option.toList)

/-- The value is that of the slot: the identifier with its text, up to trivia, or nothing. -/
def IsSlot : Option String → Value → Prop
  | none, v => v = .null
  | some name, v => ∃ g word h, name.toList = g ++ String.toList word ++ h ∧ IsTrivia g ∧ IsTrivia h ∧
      v = .node .identifier .unknown [.text word]

/-- A text that is an identifier stands for the node of its text. -/
theorem isSlot_of_valueOf (h : valueOf .identifier source name = .ok v) : IsSlot (some name) v := by
  obtain ⟨parsed, hparsed, hv⟩ := bind_eq_ok.1 h
  cases hv
  obtain ⟨t, m, locate, htakes, -, -, htrivia, -, hbuilt, hone⟩ := takes_of_parseSymbol hparsed
  obtain ⟨leaf, heq, -, hleaf⟩ := takes_identifier.1 htakes
  cases heq
  obtain ⟨k, hk, hfound⟩ : ∃ k, (k = .identifier ∨ k = .escapedIdentifier) ∧
      tokenAt k (.first name.toList) = some (leaf, m) := by
    rcases hleaf with hleaf | hleaf
    · exact ⟨_, .inl rfl, hleaf⟩
    · exact ⟨_, .inr rfl, hleaf⟩
  obtain ⟨word, hdrop, -, rfl, -⟩ := tokenAt_iff.1 hfound
  obtain ⟨pos, hvalues⟩ : ∃ pos, parsed.built.values = [.node .identifier pos [.text (String.ofList word)]] := by
    rcases hk with rfl | rfl <;> exact ⟨_, (Except.ok.inj hbuilt).symm⟩
  rw [hone _ hvalues]
  refine ⟨name.toList.take (triviaLength name.toList), String.ofList word, m.rest, ?_, isTrivia_take _,
    htrivia, rfl⟩
  change name.toList.drop (triviaLength name.toList) = word ++ m.rest at hdrop
  rw [String.toList_ofList, List.append_assoc, ← hdrop, List.take_append_drop]

/-- Items with a separator in front of each but the first one. -/
theorem intercalate_cons {α : Type} (sep : α) (l : List α) (ls : List (List α)) :
    [sep].intercalate (l :: ls) = l ++ ls.flatMap (sep :: ·) := by
  induction ls generalizing l with
  | nil => simp
  | cons l' ls ih => rw [List.intercalate_cons_cons, ih, List.flatMap_cons, List.append_assoc]; rfl

/-- A slot is the variable that was written, or nothing. -/
theorem composes_slot (h : slotValue source slot = .ok v) :
    ∃ ts, Composes (.opt (.phrase .indexName)) slot.toList ts (optional v) ∧
      (v = .null ∨ v.isA (.only .identifier) = true) := by
  cases slot with
  | none =>
    cases h
    exact ⟨[], composes_nothing .omitted, .inl rfl⟩
  | some name =>
    obtain ⟨_, t, -, hname, hfamily, -⟩ := composes_of_valueOf h rfl (by decide)
    have hvariable : Composes (.phrase .indexName) [name] [.node (.phrase .indexName) [t]] [v] :=
      Composes.phrase (p := .indexName) (b := .one v) hname rfl rfl rfl
    refine ⟨[.node (.phrase .indexName) [t]], ?_, .inr hfamily⟩
    rw [Ast.optional, if_neg (ne_null_of_isA hfamily)]
    exact hvariable.imp .given

/-- A variable stands in the slot that is open. -/
theorem slotsOf_optional (h : v = .null ∨ v.isA (.only .identifier) = true) (ws : List Value) :
    slotsOf .null (optional v ++ ws) = slotsOf v ws := by
  rcases h with rfl | hname
  · rfl
  · rw [Ast.optional, if_neg (ne_null_of_isA hname), List.singleton_append, slotsOf, if_neg (ne_text_of_isA hname _)]

/-- Further variables as they stand among the children, each behind its comma. -/
def behindCommas (vs : List Value) : List Value := vs.flatMap fun v => .text "," :: optional v

/-- Every comma opens a slot. -/
theorem slotsOf_behindCommas (h : ∀ v ∈ vs, v = .null ∨ v.isA (.only .identifier) = true) (current : Value) :
    slotsOf current (behindCommas vs) = current :: vs := by
  -- the slot that is open is closed by the next comma, whatever stands in it
  induction vs generalizing current with
  | nil => rfl
  | cons v vs ih =>
    have hrest : slotsOf v (behindCommas vs) = v :: vs := ih (fun w hw => h w (List.mem_cons_of_mem _ hw)) v
    change current :: slotsOf .null (optional v ++ behindCommas vs) = current :: v :: vs
    rw [slotsOf_optional (h v (List.mem_cons_self ..)), hrest]

/-- Further variables are composed slot by slot, each behind its comma. -/
theorem composes_slots (h : List.Forall₂ (fun slot v => slotValue source slot = .ok v) slots vs) :
    ∃ ts, Composes (.many (.seq (.token .comma) (.opt (.phrase .indexName))))
        ((slots.map Option.toList).flatMap ("," :: ·)) ts (behindCommas vs) ∧
      ∀ v ∈ vs, v = .null ∨ v.isA (.only .identifier) = true := by
  have hcomma : Composes (.token .comma) [","] [.leaf .comma 0 ","] [.text ","] :=
    composes_token (by decide) (by decide)
  induction h with
  | nil => exact ⟨[], composes_nothing .stop, by simp⟩
  | cons hv _ ih =>
    obtain ⟨ts, hts, hisName⟩ := composes_slot hv
    obtain ⟨us, hus, hall⟩ := ih
    have hstep := ((hcomma.seq hts).seq hus).imp fun hfits => Shape.step (hcomma.seq hts).means.fits hus.means.fits
    refine ⟨[ParseTree.leaf .comma 0 ","] ++ ts ++ us, ?_, by simpa using ⟨hisName, hall⟩⟩
    simpa [behindCommas] using hstep

/-- The value of a slot is that of its variable, or nothing. -/
theorem isSlot_of_slotValue (h : slotValue source slot = .ok v) : IsSlot slot v := by
  cases slot with
  | none =>
    cases h
    rfl
  | some name => exact isSlot_of_valueOf h

/-! ## The header of a foreach loop -/

/-- The variables of a foreach loop are the slots between the brackets. -/
theorem assemble_variables (ws : List Value) :
    assemble .loopVariables .unknown ([Value.text "["] ++ (ws ++ [Value.text "]"]))
      = .ok (.one (.node .loopVariables .unknown [.seq (slotsOf .null ws)])) := by
  simp [assemble]

/-- The variables of a foreach loop are composed of their slots. The closing bracket stands on one line with the
parenthesis behind it. -/
theorem exists_variables (h : List.Forall₂ (fun slot v => slotValue source slot = .ok v) (slot :: slots) vs) :
    ∃ t, Means (.phrase .loopVariables) [t] [.node .loopVariables .unknown [.seq vs]] ∧
      Carries ("[" :: slotPieces (slot :: slots) ++ ["] )"]) (t.leaves ++ [⟨.closeParen, 2, ")"⟩]) := by
  cases h with | @cons _ v _ ws hv hmore =>
  obtain ⟨ts, hfirst, hisName⟩ := composes_slot hv
  obtain ⟨us, hmore, hall⟩ := composes_slots hmore
  have hopen : Composes (.token .openBracket) ["["] [.leaf .openBracket 0 "["] [.text "["] :=
    composes_token (by decide) (by decide)
  have hclose : Means (.token .closeBracket) [.leaf .closeBracket 0 "]"] [.text "]"] :=
    means_token.2 ⟨0, "]", rfl, ⟨[], rfl⟩, rfl⟩
  have hends : Carries ["] )"] [⟨.closeBracket, 0, "]"⟩, ⟨.closeParen, 2, ")"⟩] :=
    carries_pair .closeBracket .closeParen "]" ")" (by decide) (by decide) (by decide) (by decide)
  -- the last piece holds the parenthesis too, so the leaves are laid out apart from what they mean
  have hbody := hopen.means.seq (hfirst.means.seq (hmore.means.seq hclose))
  have hassemble := assemble_variables (Ast.optional v ++ behindCommas ws)
  rw [slotsOf_optional hisName, slotsOf_behindCommas hall, List.append_assoc (Ast.optional v)] at hassemble
  refine ⟨_, hbody.phrase (p := .loopVariables) rfl rfl hassemble, ?_⟩
  have hpieces := (hopen.carries.append (hfirst.carries.append hmore.carries)).append hends
  rw [slotPieces, List.map_cons, intercalate_cons]
  simpa using hpieces

/-- A foreach loop is made of its array, its variables and its body. -/
theorem assemble_foreachLoop (ha : a.isA (.only .scopedIdentifier) = true) (hv : v.isA (.only .loopVariables) = true)
    (hb : b.isA (.only .statement) = true) :
    assemble .foreachLoop .unknown [.text "foreach", .text "(", a, v, .text ")", b]
      = .ok (.one (.node .loopForeach .unknown [a, v, b])) := by
  have hav : a.isA (.only .loopVariables) = false := isA_eq_false ha (by decide)
  have hab : a.isA (.only .statement) = false := isA_eq_false ha (by decide)
  have hva : v.isA (.only .scopedIdentifier) = false := isA_eq_false hv (by decide)
  have hvb : v.isA (.only .statement) = false := isA_eq_false hv (by decide)
  have hba : b.isA (.only .scopedIdentifier) = false := isA_eq_false hb (by decide)
  have hbv : b.isA (.only .loopVariables) = false := isA_eq_false hb (by decide)
  simp [assemble, theMember, ha, hv, hb, hav, hab, hva, hvb, hba, hbv]

/-- **Every variable of a foreach loop is in the slot that it was written for.** A slot that is left out has no
value, wherever it stands. -/
theorem parse_slots (ha : valueOf .arrayName source array = .ok a)
    (hslots : (slot :: slots).mapM (slotValue source) = .ok vs)
    (hb : valueOf .statement source body = .ok b) :
    (∃ v, parse origin ("\n".intercalate ("foreach (" :: array :: "[" :: slotPieces (slot :: slots) ++ ["] )", body]))
        = .ok v ∧
      v.withoutPositions = .node .loopForeach .unknown [a, .node .loopVariables .unknown [.seq vs], b]) ∧
    vs.length = (slot :: slots).length ∧ List.Forall₂ IsSlot (slot :: slots) vs := by
  have hvalues := forall₂_of_mapM hslots
  refine ⟨?_, hvalues.length_eq.symm, hvalues.imp fun _ _ => isSlot_of_slotValue⟩
  obtain ⟨_, t, -, harray, hisArray, -⟩ := composes_of_valueOf ha rfl (by decide)
  obtain ⟨u, hvariables, hpieces⟩ := exists_variables hvalues
  have hparen : Means (.token .closeParen) [.leaf .closeParen 2 ")"] [.text ")"] :=
    means_token.2 ⟨2, ")", rfl, ⟨[], rfl⟩, rfl⟩
  have hinner : Composes (.seq (.phrase .arrayName) (.seq (.phrase .loopVariables) (.token .closeParen)))
      (array :: "[" :: slotPieces (slot :: slots) ++ ["] )"]) _ _ :=
    ⟨harray.means.seq (hvariables.seq hparen), by simpa using harray.carries.append hpieces⟩
  have hheader : Composes (.row (.token .keywordForeach) [.token .openParen, .phrase .arrayName,
      .phrase .loopVariables, .token .closeParen])
      ("foreach (" :: array :: "[" :: slotPieces (slot :: slots) ++ ["] )"]) _ _ :=
    hinner.behind_pair .keywordForeach .openParen "foreach" "(" (by decide) (by decide) (by decide) (by decide)
  have hparse : ∃ v, parse origin ("\n".intercalate
      (("foreach (" :: array :: "[" :: slotPieces (slot :: slots) ++ ["] )"]) ++ [body])) = .ok v ∧
        v.withoutPositions = .node .loopForeach .unknown [a, .node .loopVariables .unknown [.seq vs], b] :=
    parse_headed (.inr ⟨rfl, rfl⟩) rfl (by decide) hheader hb fun hb => assemble_foreachLoop hisArray rfl hb
  simpa using hparse

/-- A loop over five slots, of which the first, the third and the last are left out. -/
theorem parse_slots_gaps :
    ∃ a i j b v, valueOf .arrayName "a.sv" "p::grid" = .ok a ∧ valueOf .identifier "a.sv" "i // row" = .ok i ∧
      valueOf .identifier "a.sv" "\\j " = .ok j ∧ valueOf .statement "a.sv" "x = i;" = .ok b ∧
      parse "b.sv" "foreach (\np::grid\n[\n,\ni // row\n,\n,\n\\j \n,\n] )\nx = i;" = .ok v ∧
      v.withoutPositions = .node .loopForeach .unknown
        [a, .node .loopVariables .unknown [.seq [.null, i, .null, j, .null]], b] := by
  obtain ⟨a, ha⟩ : ∃ a, valueOf .arrayName "a.sv" "p::grid" = .ok a := by
    rw [valueOf_afresh String.toList_ofList]
    exact exists_of_isOk (by decide +kernel)
  obtain ⟨i, hi⟩ : ∃ i, valueOf .identifier "a.sv" "i // row" = .ok i := by
    rw [valueOf_afresh String.toList_ofList]
    exact exists_of_isOk (by decide +kernel)
  obtain ⟨j, hj⟩ : ∃ j, valueOf .identifier "a.sv" "\\j " = .ok j := by
    rw [valueOf_afresh String.toList_ofList]
    exact exists_of_isOk (by decide +kernel)
  obtain ⟨b, hb⟩ : ∃ b, valueOf .statement "a.sv" "x = i;" = .ok b := by
    rw [valueOf_afresh String.toList_ofList]
    exact exists_of_isOk (by decide +kernel)
  have hslots : [none, some "i // row", none, some "\\j ", none].mapM (slotValue "a.sv")
      = .ok [.null, i, .null, j, .null] := by
    simp only [List.mapM_cons, List.mapM_nil, slotValue, hi, hj]
    rfl
  obtain ⟨⟨v, hv, heq⟩, -⟩ := @parse_slots _ "b.sv" _ _ _ _ _ _ _ ha hslots hb
  exact ⟨a, i, j, b, v, ha, hi, hj, hb, hv, heq⟩

end VerilogLoops
