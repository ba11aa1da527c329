import VerilogLoops.Proofs.Bindings
import VerilogLoops.Proofs.Written

/-!
# Initializers of for loops

A list of assignments to names in the header of a for loop is a list of assignments. With a data type in
front of it the list is one declaration of variables. A loop is made of a text that holds an initializer,
whatever the initializer is: its leaves lie in the text between the head of the loop and what closes it.

> `parse_loopAround`: a text that holds an initializer makes a for loop of it;
> `parse_initializer`: a data type makes a declaration of assignments.
-/

namespace VerilogLoops

open VerilogLoops.Text VerilogLoops.Lexical VerilogLoops.Grammar VerilogLoops.Ast

/-! ## Phrases that are a whole text -/

theorem built_of_whole {locate : Nat → Position} {ts : List ParseTree} {vs : List Value} {b : Built}
    (h : buildAll locate ts = .ok vs) (hb : buildTree locate (.node .whole ts) = .ok b) :
    b.values = vs ∧ ∀ v, vs = [v] → b = .one v := by
  rw [buildTree, h, ok_bind] at hb
  dsimp only at hb
  split at hb
  · next v =>
    cases hb
    refine ⟨rfl, fun w hw => ?_⟩
    cases hw
    rfl
  · next hne =>
    cases hb
    exact ⟨rfl, fun w hw => absurd hw (hne w)⟩

/-- A text that is a phrase and nothing else is taken as the phrase, and what is taken is a clear reading. -/
theorem takes_of_parseSymbol {p : Phrase} {origin text : String} {parsed : Parsed}
    (h : parseSymbol (.phrase p) true origin text = .ok parsed) :
    ∃ t a locate, Takes (.phrase p) (.first text.toList) [t] a ∧
      Reads (.phrase p) (.first text.toList) [t.tidy] a ∧ t.tidy.isClear = true ∧ IsTrivia a.rest ∧
      (∀ word, t.tidy.startsGlued word = true → parsed.tree.startsGlued word = true) ∧
      buildAll locate [t.tidy] = .ok parsed.built.values ∧
      ∀ v, parsed.built.values = [v] → parsed.built = .one v := by
  rw [parseSymbol] at h
  obtain ⟨⟨tree, after⟩, htree, h⟩ := bind_eq_ok.1 h
  obtain ⟨built, hbuilt, h⟩ := bind_eq_ok.1 h
  cases h
  rcases parseTree_whole (.phrase p) text.toList with ⟨ts, b, ht, heq⟩ | ⟨-, l, heq⟩
  · rw [htree] at heq
    cases heq
    obtain ⟨_, m, _, rfl, hphrase, hend⟩ := takes_seq.1 ht
    have hreads : Reads (.phrase p) (.first text.toList) _ m :=
      Takes.reads hphrase rfl rfl (Symbol.danglers_endOfInput (.phrase p)) (Takes.matches hend)
    obtain ⟨cs, rfl, -⟩ := takes_phrase.1 hphrase
    obtain ⟨leaf, rfl, hleaf⟩ := takes_token.1 hend
    obtain ⟨start, word, rfl⟩ := tokenAt_eq_leaf hleaf
    have hbuilt := buildIn_eq_ok.1 hbuilt
    obtain ⟨vs, hvs⟩ := exists_buildAll
      (fun offset => positionAt origin ((LocationTable.of text.toList).locate offset)) hreads.fits
    have hnothing : buildAll (fun offset => positionAt origin ((LocationTable.of text.toList).locate offset))
        [.leaf .endOfInput start word] = .ok [] := rfl
    -- the end of input is built as nothing
    have hall := buildAll_append.2 ⟨vs, [], (buildAll_of_tidy _ hvs).1, hnothing, rfl⟩
    obtain ⟨hvalues, hone⟩ := built_of_whole hall hbuilt
    rw [List.append_nil] at hvalues hone
    refine ⟨_, m, _, hphrase, hreads, ?_, ?_, ?_, by rw [hvalues]; exact hvs, by rw [hvalues]; exact hone⟩
    · simpa [tidyAll] using allClear_tidyAll _ (Takes.allClear hphrase)
    · exact stands_endOfInput.1 (stands_of_tokenAt hleaf)
    · exact fun word hword => startsGlued_tidy hword
  · rw [htree] at heq
    cases heq

/-- A text that is a phrase and nothing else is a clear reading of the phrase. -/
theorem reads_of_parseSymbol {p : Phrase} {origin text : String} {parsed : Parsed}
    (h : parseSymbol (.phrase p) true origin text = .ok parsed) :
    ∃ t a locate, Reads (.phrase p) (.first text.toList) [t] a ∧ t.isClear = true ∧ IsTrivia a.rest ∧
      (∀ word, t.startsGlued word = true → parsed.tree.startsGlued word = true) ∧
      buildAll locate [t] = .ok parsed.built.values ∧
      ∀ v, parsed.built.values = [v] → parsed.built = .one v := by
  obtain ⟨t, a, locate, -, hreads⟩ := takes_of_parseSymbol h
  exact ⟨t.tidy, a, locate, hreads⟩

/-! ## A for loop around an initializer -/

/-- A for loop with an initializer and nothing else. -/
def loopAround (init : ParseTree) : ParseTree :=
  .node (.phrase .loop) [.node (.phrase .forLoop)
    [.leaf .keywordFor 0 "for", .leaf .openParen 0 "(", init, .leaf .semicolon 0 ";",
     .leaf .semicolon 0 ";", .leaf .closeParen 0 ")",
     .node (.phrase .statementOrNull) [.node (.phrase .nullStatement) [.leaf .semicolon 0 ";"]]]]

/-- A for loop with an initializer and nothing else, without positions. -/
def forNode (init : Value) : Value :=
  .node .loopFor .unknown [init, .null, .null, .node .nullStatement .unknown [.seq []]]

section Header

variable {origin header : String} {init : ParseTree} {v : Value}

theorem fits_loopAround (h : Fits (.phrase .forInit) [init]) : Fits (.phrase .loop) [loopAround init] := by
  have hnull : Fits (.phrase .statementOrNull)
      [.node (.phrase .statementOrNull) [.node (.phrase .nullStatement) [.leaf .semicolon 0 ";"]]] :=
    .phrase rfl (.second (.phrase rfl (Fits.seq .stop (fits_leaf rfl))))
  refine .phrase rfl (.second (.second (.second (.first (.phrase rfl ?_)))))
  refine Fits.seq (fits_leaf rfl) (Fits.seq (fits_leaf rfl) (Fits.seq (.given h) ?_))
  refine Fits.seq (fits_leaf rfl) (Fits.seq .omitted (Fits.seq (fits_leaf rfl) ?_))
  exact Fits.seq .omitted (Fits.seq (fits_leaf rfl) hnull)

/-- A for loop with an initializer and nothing else is built from the initializer. -/
theorem buildTree_loopAround (h : buildAll (fun _ => .unknown) [init.bare] = .ok [v])
    (hv : v.isA .forInit = true) :
    buildTree (fun _ => .unknown) (loopAround init).bare = .ok (.one (forNode v)) := by
  have hhead : buildAll (fun _ => .unknown) [.leaf .keywordFor 0 "for", .leaf .openParen 0 "("]
      = .ok [.text "for", .text "("] := rfl
  have htail : buildAll (fun _ => .unknown) [.leaf .semicolon 0 ";", .leaf .semicolon 0 ";",
      .leaf .closeParen 0 ")", .node (.phrase .statementOrNull)
        [.node (.phrase .nullStatement) [.leaf .semicolon 0 ";"]]]
      = .ok [.text ";", .text ";", .text ")", .node .nullStatement .unknown [.seq []]] := rfl
  have hchildren := buildAll_append.2 ⟨_, _, hhead, buildAll_append.2 ⟨_, _, h, htail, rfl⟩, rfl⟩
  have hnone : ∀ step ∈ ([] : List Value), step.isA .forStep = true := by simp
  have hbody : (Value.node .nullStatement .unknown [.seq []]).isA .statementOrNull = true := rfl
  have hassemble := assemble_forLoop (.inr hv) (.inl rfl) hnone hbody .unknown
  have hinit : optional v = [v] := by rw [Ast.optional, if_neg (ne_null_of_isA hv)]
  rw [hinit] at hassemble
  have hfor := (buildTree_phrase hchildren).trans hassemble
  have hnil : buildAll (fun _ => .unknown) [] = .ok [] := rfl
  exact buildTree_phrase (p := .loop) (buildAll_cons.2 ⟨_, _, hfor, hnil, rfl⟩)

/-- The head of the loop. -/
def opening : List SpacedLeaf := [⟨"", .keywordFor, 0, "for"⟩, ⟨" ", .openParen, 0, "("⟩]

/-- What stands behind the initializer, with a gap in front of it. -/
def closing (gap : String) : List SpacedLeaf :=
  [⟨gap, .semicolon, 0, ";"⟩, ⟨" ", .semicolon, 0, ";"⟩, ⟨"", .closeParen, 0, ")"⟩, ⟨" ", .semicolon, 0, ";"⟩]

theorem holds_opening : Holds "for (".toList (opening.map SpacedLeaf.leaf) := by
  have hleaves : ∀ x ∈ opening, IsGap x.gap.toList ∧ x.leaf.IsWritten := by
    intro x hx
    have hwhole : opening.all (fun x => x.leaf.isWhole) = true := by decide
    refine ⟨?_, Leaf.isWritten_of_isWhole (List.all_eq_true.1 hwhole x hx)⟩
    simp only [opening, List.mem_cons, List.not_mem_nil, or_false] at hx
    rcases hx with rfl | rfl
    · exact .nil
    · exact .blank (by decide) .nil
  have hparts : opening.IsChain SpacedLeaf.Parts := by
    simp only [opening, List.isChain_cons_cons, List.isChain_singleton, and_true]
    exact ⟨by decide, .inl ⟨' ', [], rfl, by decide⟩⟩
  exact holds_written (by simp [opening]) hleaves hparts fun more => noTick_cons (by decide) (by decide) _

theorem lays_closing {s : Place} {gap : String} (hgap : IsGap gap.toList)
    (hs : s.rest = (written (closing gap)).toList) :
    ∃ a, Lays s (laid s.offset (closing gap)) a ∧ a.rest = [] := by
  have hwhole : ((closing gap).map SpacedLeaf.leaf).all Leaf.isWhole = true := by
    show ((closing "").map SpacedLeaf.leaf).all Leaf.isWhole = true
    decide
  have hwritten : ∀ x ∈ closing gap, x.leaf.IsWritten := fun x hx =>
    Leaf.isWritten_of_isWhole (List.all_eq_true.1 hwhole _ (List.mem_map_of_mem hx))
  have hleaves : ∀ x ∈ closing gap, IsGap x.gap.toList ∧ x.leaf.IsWritten := by
    intro x hx
    refine ⟨?_, hwritten x hx⟩
    simp only [closing, List.mem_cons, List.not_mem_nil, or_false] at hx
    rcases hx with rfl | rfl | rfl | rfl
    · exact hgap
    · exact .blank (by decide) .nil
    · exact .nil
    · exact .blank (by decide) .nil
  have hbefore : ∀ more, Leaf.Before ⟨.semicolon, 0, ";"⟩ (")".toList ++ more) := by
    intro more
    exact ⟨rfl, (hwritten _ (List.mem_cons_of_mem _ (List.mem_cons_self ..))).startsBare fun h => by cases h⟩
  have hparts : (closing gap).IsChain SpacedLeaf.Parts := by
    simp only [closing, List.isChain_cons_cons, List.isChain_singleton, and_true]
    have hmeets : Leaf.Meets ⟨.semicolon, 0, ";"⟩ ⟨.semicolon, 0, ";"⟩ := by decide
    exact ⟨⟨hmeets, .inl ⟨' ', [], rfl, by decide⟩⟩, ⟨by decide, .inr ⟨rfl, hbefore⟩⟩,
      by decide, .inl ⟨' ', [], rfl, by decide⟩⟩
  have hnone : NoTick [] := by
    intro h
    cases h
  exact lays_written hleaves hparts (.inl rfl) hnone (by rw [hs, List.append_nil])

/-- **A text with the leaves of an initializer between the head of a loop and what closes it is the loop.** -/
theorem parse_around {code : String} {ls : List Leaf} {a : Place} {gap : List Char}
    (hf : Fits (.phrase .forInit) [init]) (hclear : init.isClear = true)
    (hls : Lays (.first code.toList) ls a)
    (hbare : ls.map Leaf.bare = (opening.map SpacedLeaf.leaf ++ init.leaves).map Leaf.bare)
    (hgap : IsGap gap) (ha : a.rest = gap ++ "; ;) ;".toList)
    (hb : buildAll (fun _ => .unknown) [init.bare] = .ok [v]) (hv : v.isA .forInit = true) :
    ∃ w, parse origin code = .ok w ∧ w.withoutPositions = forNode v := by
  have hclosing : a.rest = (written (closing (String.ofList gap))).toList := by
    rw [ha]
    simp [closing, written]
  obtain ⟨d, hms, hd⟩ := lays_closing (by rwa [String.toList_ofList]) hclosing
  have hall : (ls ++ laid a.offset (closing (String.ofList gap))).map Leaf.bare
      = (loopAround init).leaves.map Leaf.bare := by
    rw [List.map_append, hbare, map_bare_laid]
    simp [loopAround, opening, closing, Leaf.bare]
  have htame : (loopAround init).isTame = true := by
    have hinit := isTame_of_fits hf (by decide)
    simpa [loopAround, ParseTree.isTame, allTame, Label.isTame] using hinit
  have hclear' : (loopAround init).isClear = true := by
    simpa [loopAround, ParseTree.isClear, Label.admits] using hclear
  obtain ⟨w, hw, hbuilt⟩ := parse_of_lays (fits_loopAround hf) hclear' (hls.append hms) hall
    (by rw [hd]; rfl) fun u _ hu _ => ordered_of_bare_isTame hu htame
  rw [buildTree_loopAround hb hv, Except.ok.injEq, Built.one.injEq] at hbuilt
  exact ⟨w, hw, hbuilt.symm⟩

/-- **A text that holds an initializer makes a for loop of it.** -/
theorem parse_loopAround (hf : Fits (.phrase .forInit) [init]) (hclear : init.isClear = true)
    (hholds : Holds header.toList init.leaves) (hb : buildAll (fun _ => .unknown) [init.bare] = .ok [v])
    (hv : v.isA .forInit = true) :
    ∃ w, parse origin ("for (\n" ++ header ++ "\n; ;) ;") = .ok w ∧ w.withoutPositions = forNode v := by
  obtain ⟨behind, hgap, hlays⟩ := (holds_opening.append hholds).lays
  have htext : ("for (\n" ++ header ++ "\n; ;) ;").toList
      = [] ++ (("for (".toList ++ '\n' :: header.toList) ++ '\n' :: "; ;) ;".toList) := by
    simp [String.toList_append]
  obtain ⟨ls, a, hls, hbare, ha⟩ := hlays (.first _) [] "; ;) ;".toList .nil
    (noTick_cons (by decide) (by decide) _) htext
  exact parse_around hf hclear hls hbare hgap (by simpa using ha) hb hv

end Header

/-! ## The two forms of initializers -/

section Forms

variable {locate locate' : Nat → Position} {t d : ParseTree} {ts us : List ParseTree} {v : Value}
  {vs : List Value} {pairs : List (Value × Value)}

/-- The node of some assignments, without positions. -/
def assignmentList (vs : List Value) : Value :=
  .node .forInitAssignmentList .unknown [.seq (vs.map Value.withoutPositions)]

/-- The node of one declaration, without positions. -/
def declarationList (var : Bool) (type : Value) (pairs : List (Value × Value)) : Value :=
  .node .forInitDeclarationList .unknown [.seq [.node .forVariableDeclaration .unknown
    [if var then .node .varKeyword .unknown [] else .null, type.withoutPositions,
     .seq (pairs.map bindingNode)]]]

/-- Assignments as an initializer. -/
def initializerOf (t : ParseTree) : ParseTree :=
  .node (.phrase .forInit) [.node (.phrase .forInitAssignments) [t]]

theorem buildAll_initializerOf (h : buildAll locate [.node (.phrase .variableAssignments) ts] = .ok vs) :
    buildAll (fun _ => .unknown) [(initializerOf (.node (.phrase .variableAssignments) ts)).bare]
      = .ok [assignmentList vs] := by
  have hmembers : membersOf (.only .variableAssignment) vs = vs := by
    obtain ⟨ws, b, -, hb, rfl⟩ := buildAll_node.1 h
    cases hb
    simp [Built.values, membersOf]
  have hlist : buildAll (fun _ => .unknown)
      [.node (.phrase .forInitAssignments) (bareAll [.node (.phrase .variableAssignments) ts])]
        = .ok [assignmentList vs] := by
    refine buildAll_node.2 ⟨_, _, buildAll_bare _ h, rfl, ?_⟩
    show _ = [Value.node .forInitAssignmentList .unknown
      [.seq (membersOf (.only .variableAssignment) (vs.map Value.withoutPositions))]]
    rw [membersOf_withoutPositions, hmembers, assignmentList]
  exact buildAll_node.2 ⟨_, _, hlist, rfl, rfl⟩

/-- The keyword in front of a declaration, if it is written. -/
def keywordOf (var : Bool) : List ParseTree := if var then [.leaf .keywordVar 0 "var"] else []

/-- A declaration as an initializer. -/
def declarationOf (var : Bool) (d : ParseTree) (us : List ParseTree) : ParseTree :=
  .node (.phrase .forInit) [.node (.phrase .forInitDeclarations)
    [.node (.phrase .forDeclaration) (keywordOf var ++ d :: us)]]

theorem buildAll_declarationOf (var : Bool) (hd : buildAll locate [d] = .ok [v]) (hv : v.isA .dataType = true)
    (hus : Rebinds locate' ts us pairs) :
    buildAll (fun _ => .unknown) [(declarationOf var d us).bare] = .ok [declarationList var v pairs] := by
  obtain ⟨ws, hws, hbindings, hnone⟩ := hus.built
  have hkeyword : buildAll (fun _ => .unknown) (bareAll (keywordOf var))
      = .ok (if var then [.text "var"] else []) := by
    cases var <;> rfl
  have hchildren := buildAll_append.2 ⟨_, _, hkeyword,
    buildAll_append.2 ⟨_, _, buildAll_bare _ hd, buildAll_bare _ hws, rfl⟩, rfl⟩
  have hother : v.isA (.only .forVariableBinding) = false := isA_eq_false hv (by decide)
  have htypes : membersOf .dataType (ws.map Value.withoutPositions) = [] := by
    rw [membersOf_withoutPositions, hnone, List.map_nil]
  have hdeclaration : assemble .forDeclaration .unknown ((if var then [Value.text "var"] else [])
      ++ ([v].map Value.withoutPositions ++ ws.map Value.withoutPositions))
        = .ok (.one (.node .forVariableDeclaration .unknown
          [if var then .node .varKeyword .unknown [] else .null, v.withoutPositions,
           .seq (pairs.map bindingNode)])) := by
    cases var <;> simp [assemble, childAt, theMember, hv, hother, hbindings, htypes, ne_text_of_isA hv]
  have htrees : bareAll (keywordOf var ++ d :: us)
      = bareAll (keywordOf var) ++ (bareAll [d] ++ bareAll us) := by
    rw [bareAll_append]
    rfl
  rw [← htrees] at hchildren
  have hlist := buildAll_node.2 ⟨_, _, hchildren, hdeclaration, rfl⟩
  have hlists : buildAll (fun _ => .unknown) [.node (.phrase .forInitDeclarations)
      [.node (.phrase .forDeclaration) (bareAll (keywordOf var ++ d :: us))]]
        = .ok [declarationList var v pairs] := buildAll_node.2 ⟨_, _, hlist, rfl, rfl⟩
  exact buildAll_node.2 ⟨_, _, hlists, rfl, rfl⟩

theorem fits_declarationOf (var : Bool) (hd : Fits (.phrase .dataType) [d])
    (hus : Fits (.separated (.phrase .forBinding) .comma) us) :
    Fits (.phrase .forInit) [declarationOf var d us] := by
  have hkeyword : Fits (.opt (.token .keywordVar)) (keywordOf var) := by
    cases var with
    | false => exact .omitted
    | true => exact .given (fits_leaf rfl)
  have hdeclaration : Fits (.phrase .forDeclaration) [.node (.phrase .forDeclaration) (keywordOf var ++ d :: us)] :=
    .phrase rfl (Fits.seq hkeyword (Fits.seq hd hus))
  exact .phrase rfl (.second (.phrase rfl (Fits.seq hdeclaration .last)))

theorem isClear_declarationOf (var : Bool) (hd : d.isClear = true) (hvar : d.startsGlued "var" = false)
    (hus : allClear us = true) : (declarationOf var d us).isClear = true := by
  have hglued : varGlued (keywordOf var ++ d :: us) = false := by
    cases var with
    | false => exact hvar
    | true =>
      show (ParseTree.leaf .keywordVar 0 "var").startsGlued "var" = false
      decide
  have hkeyword : allClear (keywordOf var) = true := by
    cases var <;> rfl
  simp [declarationOf, Label.admits, hglued, hkeyword, hd, hus]

theorem holds_keyword : Holds "var".toList [⟨.keywordVar, 0, "var"⟩] := by
  have hleaves : ∀ x ∈ [SpacedLeaf.mk "" ⟨.keywordVar, 0, "var"⟩], IsGap x.gap.toList ∧ x.leaf.IsWritten := by
    intro x hx
    cases List.mem_singleton.1 hx
    exact ⟨.nil, Leaf.isWritten_of_isWhole (by decide)⟩
  exact holds_written (by simp) hleaves (List.isChain_singleton _) fun more => noTick_cons (by decide) (by decide) _

end Forms

/-- **A data type makes a declaration of assignments.** A list of assignments to names and nothing else, in
the header of a for loop, is a list of assignments. With a data type in front of it, with or without `var`,
it is one declaration: of that type, and with the same names and values in the same order. The pieces of
the header stand on lines of their own, and the data type does not begin with an identifier that goes on
behind `var`. -/
theorem parse_initializer {origin source assignments : String} {parsed : Parsed}
    {pairs : List (Value × Value)}
    (h : parseSymbol (.phrase .variableAssignments) true source assignments = .ok parsed)
    (hnames : parsed.built.values.mapM bindingOf? = some pairs) :
    (∃ v, parse origin ("for (\n" ++ assignments ++ "\n; ;) ;") = .ok v ∧
      v.withoutPositions = forNode (assignmentList parsed.built.values)) ∧
    ∀ (type : String) (typed : Parsed) (var : Bool),
      parseSymbol (.phrase .dataType) true source type = .ok typed →
      typed.tree.startsGlued "var" = false →
        ∃ v, parse origin ("for (\n" ++ (if var then "var\n" else "") ++ type ++ "\n" ++ assignments
            ++ "\n; ;) ;") = .ok v ∧
          v.withoutPositions = forNode (declarationList var typed.built.toValue pairs) := by
  obtain ⟨t, a, locate, hreads, hclear, htrivia, -, hbuilt, -⟩ := reads_of_parseSymbol h
  have hholds : Holds assignments.toList t.leaves := holds_of_reads hreads htrivia (by decide) (by decide)
  obtain ⟨ts, heq, hbody⟩ := (shape_phrase rfl).1 hreads.fits
  cases heq
  constructor
  · refine parse_loopAround (.phrase rfl (.first (.phrase rfl hreads.fits))) ?_ ?_
      (buildAll_initializerOf hbuilt) rfl
    · simpa [Label.admits] using hclear
    · simpa using hholds
  · intro type typed var htype hvar
    obtain ⟨d, b, locate', hreads', hclear', htrivia', hstarts, hbuilt', hone⟩ := reads_of_parseSymbol htype
    have hholds' : Holds type.toList d.leaves := holds_of_reads hreads' htrivia' (by decide) (by decide)
    obtain ⟨v, hv, hfamily⟩ := single_of_fits hreads'.fits rfl hbuilt'
    rw [hv] at hbuilt'
    rw [hone v hv]
    -- the assignments as bindings
    obtain ⟨ws, c, hws, hc, hvalues⟩ := buildAll_node.1 hbuilt
    cases hc
    obtain ⟨us, hus, hrebinds⟩ := rebinds_of_fits hbody hws (by rw [bindingsOf?, ← hnames, hvalues]; rfl)
    have hclears : allClear ts = true := by simpa [Label.admits] using hclear
    have hglued : d.startsGlued "var" = false := by
      by_contra hglued
      rw [Bool.not_eq_false] at hglued
      rw [hstarts "var" hglued] at hvar
      cases hvar
    have hboth : Holds ((if var then "var\n" else "") ++ type ++ "\n" ++ assignments).toList
        (declarationOf var d us).leaves := by
      have hpieces := hholds'.append hholds
      cases var with
      | false => simpa [declarationOf, keywordOf, hrebinds.leaves] using hpieces
      | true => simpa [declarationOf, keywordOf, hrebinds.leaves] using holds_keyword.append hpieces
    obtain ⟨w, hw, heq⟩ := parse_loopAround (fits_declarationOf var hreads'.fits hus)
      (isClear_declarationOf var hclear' hglued (hrebinds.clear hclears)) hboth
      (buildAll_declarationOf var hbuilt' hfamily hrebinds) rfl
    exact ⟨w, by simpa only [String.append_assoc] using hw, heq⟩

/-- A named type with a scope and a dimension, and two assignments to names. -/
theorem parse_initializer_named :
    ∃ parsed pairs typed v,
      parseSymbol (.phrase .variableAssignments) true "a.sv" "i = p::n, j = i // last" = .ok parsed ∧
      parsed.built.values.mapM bindingOf? = some pairs ∧ pairs.length = 2 ∧
      parseSymbol (.phrase .dataType) true "a.sv" "p::t [3:0]" = .ok typed ∧
      typed.tree.startsGlued "var" = false ∧
      parse "b.sv" "for (\nvar\np::t [3:0]\ni = p::n, j = i // last\n; ;) ;" = .ok v ∧
      v.withoutPositions = forNode (declarationList true typed.built.toValue pairs) := by
  obtain ⟨parsed, h, hpairs⟩ : ∃ parsed,
      parseSymbol (.phrase .variableAssignments) true "a.sv" "i = p::n, j = i // last" = .ok parsed ∧
        (parsed.built.values.mapM bindingOf?).map List.length = some 2 := by
    rw [parseSymbol_afresh String.toList_ofList]
    exact exists_of_any (by decide +kernel)
  obtain ⟨pairs, hnames, hlength⟩ := Option.map_eq_some_iff.1 hpairs
  obtain ⟨typed, htype, hvar⟩ : ∃ typed,
      parseSymbol (.phrase .dataType) true "a.sv" "p::t [3:0]" = .ok typed ∧
        typed.tree.startsGlued "var" = false := by
    rw [parseSymbol_afresh String.toList_ofList]
    exact exists_of_any (by decide +kernel)
  obtain ⟨v, hv, heq⟩ := (@parse_initializer "b.sv" _ _ _ _ h hnames).2 _ typed true htype hvar
  exact ⟨parsed, pairs, typed, v, h, hnames, hlength, htype, hvar, hv, heq⟩

end VerilogLoops
