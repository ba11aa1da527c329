import VerilogLoops.Proofs.Pieces

/-!
# Lists of declarations

A list of declarations is written as it is meant: the bindings of a declaration with commas between them,
and the declarations with commas between them. The text does not tell the two kinds of commas apart, and the
type of a declaration may look like the name of one more binding. All the same every binding is one of the
declaration that it was written for.

> `composes_separated`: items with commas between them are composed item by item;
> `parse_declarations`: a list of declarations in the header of a for loop is the list of these declarations.
-/

namespace VerilogLoops

open VerilogLoops.Text VerilogLoops.Lexical VerilogLoops.Grammar VerilogLoops.Ast

variable {x : Pattern} {k : Token} {source origin word : String} {ps qs : List String} {d t : ParseTree}
  {ts us marks : List ParseTree} {v w : Value} {vs ws ms : List Value}

/-! ## Items with commas between them -/

/-- One item in front of items with separators between them. -/
theorem Composes.cons (hx : Composes x ps ts vs) (hk : Composes (.token k) [word] marks ms)
    (h : Composes (.separated x k) qs us ws) :
    Composes (.separated x k) (ps ++ word :: qs) (ts ++ (marks ++ us)) (vs ++ (ms ++ ws)) := by
  refine (hx.seq (hk.seq h)).imp fun hfits => ?_
  refine hx.means.fits.seq ?_
  obtain ⟨mark, rfl, hmark⟩ := (shape_lexeme rfl).1 hk.means.fits
  obtain ⟨first, _, rest, rfl, hfirst, hrest⟩ := shape_seq.1 h.means.fits
  have hnext : Fits (.tail k x) (mark :: first ++ rest) := .next hmark hfirst hrest
  exact hnext

/-- Items with commas between them are composed item by item. -/
theorem composes_separated {α : Type} {pieces : α → List String} {R : α → Value → Prop} {a : α} {as : List α}
    (hx : ∀ b ∈ a :: as, ∀ v, R b v → ∃ t, Composes x (pieces b) [t] [v])
    (h : List.Forall₂ R (a :: as) vs) :
    ∃ ts, Composes (.separated x .comma) ([","].intercalate ((a :: as).map pieces)) ts
      (vs.intersperse (.text ",")) := by
  have hcomma : Composes (.token .comma) [","] [.leaf .comma 0 ","] [.text ","] :=
    composes_token (by decide) (by decide)
  induction as generalizing a vs with
  | nil =>
    obtain - | ⟨hv, ⟨⟩⟩ := h
    obtain ⟨t, ht⟩ := hx a (List.mem_cons_self ..) _ hv
    have hone := ht.seq (composes_nothing (x := .tail .comma x) .last)
    exact ⟨_, by simpa [List.intercalate, Pattern.separated] using hone⟩
  | cons b as ih =>
    obtain - | ⟨hv, h⟩ := h
    obtain ⟨t, ht⟩ := hx a (List.mem_cons_self ..) _ hv
    obtain ⟨us, hus⟩ := ih (fun c hc => hx c (List.mem_cons_of_mem _ hc)) h
    obtain - | ⟨-, -⟩ := h
    rw [List.map_cons, List.map_cons, List.intercalate_cons_cons, List.intersperse_cons_cons]
    exact ⟨_, by simpa using ht.cons hcomma hus⟩

/-- The commas between values are no members. -/
theorem membersOf_commas (f : Family) (vs : List Value) :
    membersOf f (vs.intersperse (.text ",")) = membersOf f vs := by
  fun_induction List.intersperse (Value.text ",") vs with
  | case1 => rfl
  | case2 => rfl
  | case3 v vs hne ih => simp [ih]

/-! ## Declarations as they are written -/

/-- A binding as it is written. -/
structure BindingText where
  name : String
  init : String

/-- A declaration as it is written, with one binding or more. -/
structure DeclarationText where
  var : Bool
  type : String
  first : BindingText
  more : List BindingText

/-- The pieces of a binding. -/
def BindingText.pieces (b : BindingText) : List String := [b.name, "=", b.init]

/-- What a binding stands for, piece by piece. -/
def BindingText.value (source : String) (b : BindingText) : Except ParseError Value := do
  return .node .forVariableBinding .unknown
    [← valueOf .identifier source b.name, ← valueOf .expression source b.init]

/-- The pieces of a declaration: the type and the bindings with commas between them, perhaps behind `var`. -/
def DeclarationText.pieces (d : DeclarationText) : List String :=
  (if d.var then ["var"] else []) ++ d.type :: [","].intercalate ((d.first :: d.more).map BindingText.pieces)

/-- What a declaration stands for, piece by piece. -/
def DeclarationText.value (source : String) (d : DeclarationText) : Except ParseError Value := do
  return .node .forVariableDeclaration .unknown
    [if d.var then .node .varKeyword .unknown [] else .null, ← valueOf .dataType source d.type,
     .seq (← (d.first :: d.more).mapM (BindingText.value source))]

theorem composes_binding {b : BindingText} (h : b.value source = .ok v) :
    ∃ t, Composes (.phrase .forBinding) b.pieces [t] [v] := by
  obtain ⟨name, hname, h⟩ := bind_eq_ok.1 h
  obtain ⟨init, hinit, h⟩ := bind_eq_ok.1 h
  cases h
  obtain ⟨-, i, -, hidentifier, hisName, -⟩ := composes_of_valueOf hname rfl (by decide)
  obtain ⟨-, e, -, hexpression, hisValue, -⟩ := composes_of_valueOf hinit rfl (by decide)
  have hleaf : Composes (.token .equals) ["="] [.leaf .equals 0 "="] [.text "="] :=
    composes_token (by decide) (by decide)
  have hsign : Composes (.phrase .assignSign) ["="] [.node (.phrase .assignSign) [.leaf .equals 0 "="]] [.text "="] :=
    ⟨⟨.lexeme rfl ⟨0, rfl⟩, rfl, rfl⟩, hleaf.carries⟩
  have hvariable : Composes (.phrase .variableName) [b.name] [.node (.phrase .variableName) [i]] [name] :=
    Composes.phrase (p := .variableName) (b := .one name) hidentifier rfl rfl rfl
  have hparts : Composes Phrase.forBinding.body b.pieces _ [name, .text "=", init] :=
    hvariable.seq (hsign.seq hexpression)
  have hassemble : assemble .forBinding .unknown [name, .text "=", init]
      = .ok (.one (.node .forVariableBinding .unknown [name, init])) := by
    have hisName : name.isA (.only .identifier) = true := hisName
    have hisValue : init.isA .expression = true := hisValue
    have hnoValue : name.isA .expression = false := isA_eq_false hisName (by decide)
    have hnoName : init.isA (.only .identifier) = false := isA_eq_false hisValue (by decide)
    simp [assemble, theMember, hisName, hisValue, hnoValue, hnoName]
  exact ⟨_, hparts.phrase rfl rfl hassemble⟩

theorem composes_keyword (var : Bool) : Composes (.opt (.token .keywordVar)) (if var then ["var"] else [])
    (keywordOf var) (if var then [.text "var"] else []) := by
  cases var with
  | false => exact composes_nothing .omitted
  | true => exact (composes_token (k := .keywordVar) (by decide) (by decide)).imp .given

/-- Every value of some items is that of an item. -/
theorem exists_of_mem_forall₂ {α β : Type} {R : α → β → Prop} {as : List α} {bs : List β}
    (h : List.Forall₂ R as bs) : ∀ b ∈ bs, ∃ a, R a b := by
  induction h with
  | nil => simp
  | cons hb _ ih =>
    intro c hc
    rcases List.mem_cons.1 hc with rfl | hc
    · exact ⟨_, hb⟩
    · exact ih c hc

theorem isA_binding {b : BindingText} (h : b.value source = .ok v) :
    v.isA (.only .forVariableBinding) = true := by
  obtain ⟨name, -, h⟩ := bind_eq_ok.1 h
  obtain ⟨init, -, h⟩ := bind_eq_ok.1 h
  cases h
  rfl

theorem isA_declaration {d : DeclarationText} (h : d.value source = .ok v) :
    v.isA (.only .forVariableDeclaration) = true := by
  obtain ⟨type, -, h⟩ := bind_eq_ok.1 h
  obtain ⟨bindings, -, h⟩ := bind_eq_ok.1 h
  cases h
  rfl

/-- A declaration is made of its type and its bindings. -/
theorem assemble_declaration {type : Value} (var : Bool) (htype : type.isA .dataType = true)
    (hvs : ∀ v ∈ vs, v.isA (.only .forVariableBinding) = true) :
    assemble .forDeclaration .unknown
        ((if var then [Value.text "var"] else []) ++ ([type] ++ vs.intersperse (.text ",")))
      = .ok (.one (.node .forVariableDeclaration .unknown
        [if var then .node .varKeyword .unknown [] else .null, type, .seq vs])) := by
  have hother : type.isA (.only .forVariableBinding) = false := isA_eq_false htype (by decide)
  have htypes : membersOf .dataType (vs.intersperse (.text ",")) = [] := by
    rw [membersOf_commas]
    exact membersOf_eq_nil hvs (by decide)
  have hbindings : membersOf (.only .forVariableBinding) (vs.intersperse (.text ",")) = vs := by
    rw [membersOf_commas]
    exact membersOf_eq_self hvs rfl
  cases var <;> simp [assemble, childAt, theMember, htype, hother, hbindings, htypes, ne_text_of_isA htype]

/-- A declaration whose type is not glued to `var` is composed of its pieces. -/
theorem composes_declaration {d : DeclarationText} (h : d.value source = .ok v)
    (hglued : ∀ typed, parseSymbol (.phrase .dataType) true source d.type = .ok typed →
      typed.tree.startsGlued "var" = false) :
    ∃ t, Composes (.phrase .forDeclaration) d.pieces [t] [v] := by
  obtain ⟨type, htype, h⟩ := bind_eq_ok.1 h
  obtain ⟨bindings, hbindings, h⟩ := bind_eq_ok.1 h
  cases h
  obtain ⟨typed, t, htyped, hdata, hisType, hstarts⟩ := composes_of_valueOf htype rfl (by decide)
  have hall := forall₂_of_mapM hbindings
  obtain ⟨ts, hts⟩ := composes_separated (fun b _ v hv => composes_binding hv) hall
  have hparts : Composes Phrase.forDeclaration.body d.pieces (keywordOf d.var ++ ([t] ++ ts)) _ :=
    (composes_keyword d.var).seq (hdata.seq hts)
  -- what stands first is the keyword alone, or the type, which is glued to none
  have hnotGlued : varGlued (keywordOf d.var ++ ([t] ++ ts)) = false := by
    cases d.var with
    | true =>
      show (ParseTree.leaf .keywordVar 0 "var").startsGlued "var" = false
      decide
    | false =>
      show t.startsGlued "var" = false
      by_contra hglue
      rw [Bool.not_eq_false] at hglue
      have hstart := hglued typed htyped
      rw [hstarts "var" hglue] at hstart
      cases hstart
  have hbindings : ∀ v ∈ bindings, v.isA (.only .forVariableBinding) = true := by
    intro v hv
    obtain ⟨b, hb⟩ := exists_of_mem_forall₂ hall v hv
    exact isA_binding hb
  have hadmits : Label.admits (.phrase .forDeclaration) (keywordOf d.var ++ ([t] ++ ts)) = true := by
    rw [Label.admits, hnotGlued]
    rfl
  exact ⟨_, hparts.phrase rfl hadmits (assemble_declaration d.var hisType hbindings)⟩

/-! ## Lists of declarations in a header -/

/-- **A for loop is composed of its initializer.** -/
theorem parse_composed {init : ParseTree} (h : Composes (.phrase .forInit) ps [init] [v])
    (hv : v.isA .forInit = true) :
    ∃ w, parse origin ("\n".intercalate ("for (" :: ps ++ ["; ;) ;"])) = .ok w ∧
      w.withoutPositions = forNode v := by
  have hclear : init.isClear = true := by simpa using h.means.clear
  have hopening : Carries ["for ("] (laid 0 opening) :=
    carries_pair .keywordFor .openParen "for" "(" (by decide) (by decide) (by decide) (by decide)
  have hcarries : Carries ("for (" :: ps) (laid 0 opening ++ init.leaves) := by
    simpa using hopening.append h.carries
  have hbare : (laid 0 opening ++ init.leaves ++ laid 0 (closing "")).map Leaf.bare
      = (loopAround init).leaves.map Leaf.bare := by
    simp [map_bare_laid, loopAround, opening, closing, Leaf.bare]
  obtain ⟨hproper, hmeets⟩ := proper_of_fits (fits_loopAround h.means.fits) rfl hbare
  have htick : NoTick "; ;) ;".toList := noTick_cons (by decide) (by decide) _
  obtain ⟨ls, a, gap, hls, hleaves, hgap, ha⟩ := hcarries.lays_first hproper hmeets htick
  have hsame : ls.map Leaf.bare = (opening.map SpacedLeaf.leaf ++ init.leaves).map Leaf.bare := by
    rw [hleaves, List.map_append, map_bare_laid, List.map_append, List.map_map]
    rfl
  exact parse_around h.means.fits hclear hls hsame hgap ha h.means.built hv

/-- The pieces of a list of declarations. -/
def declarationPieces (ds : List DeclarationText) : List String := [","].intercalate (ds.map DeclarationText.pieces)

/-- **A list of declarations in the header of a for loop is the list of these declarations**, in order. Each has
the keyword, the type and the bindings that it was written with. The pieces stand on lines of their own, and
no type begins with an identifier that goes on behind `var`. -/
theorem parse_declarations {d : DeclarationText} {ds : List DeclarationText}
    (h : (d :: ds).mapM (DeclarationText.value source) = .ok vs)
    (hglued : ∀ e ∈ d :: ds, ∀ typed, parseSymbol (.phrase .dataType) true source e.type = .ok typed →
      typed.tree.startsGlued "var" = false) :
    ∃ v, parse origin ("\n".intercalate ("for (" :: declarationPieces (d :: ds) ++ ["; ;) ;"])) = .ok v ∧
      v.withoutPositions = forNode (.node .forInitDeclarationList .unknown [.seq vs]) := by
  have hvalues := forall₂_of_mapM h
  obtain ⟨ts, hts⟩ := composes_separated (fun e he v hv => composes_declaration hv (hglued e he)) hvalues
  have hall : ∀ v ∈ vs, v.isA (.only .forVariableDeclaration) = true := by
    intro v hv
    obtain ⟨e, he⟩ := exists_of_mem_forall₂ hvalues v hv
    exact isA_declaration he
  -- the commas that stand among the declarations are left out
  have hmembers : membersOf (.only .forVariableDeclaration) (vs.intersperse (.text ",")) = vs := by
    rw [membersOf_commas, membersOf_eq_self hall rfl]
  have hlist : Composes (.phrase .forInitDeclarations) (declarationPieces (d :: ds))
      [.node (.phrase .forInitDeclarations) ts]
      [.node .forInitDeclarationList .unknown [.seq vs]] := by
    refine Composes.phrase (p := .forInitDeclarations) (b := .one _) hts rfl rfl ?_
    simp only [assemble, hmembers]
    rfl
  have hinit : Composes (.phrase .forInit) (declarationPieces (d :: ds))
      [.node (.phrase .forInit) [.node (.phrase .forInitDeclarations) ts]]
      [.node .forInitDeclarationList .unknown [.seq vs]] :=
    Composes.phrase (p := .forInit) (b := .one _) (hlist.imp Shape.second) rfl rfl rfl
  exact parse_composed hinit rfl

/-- Two bindings behind `var`, and a declaration whose type may look like the name of a third one. -/
def twoDeclarations : List DeclarationText :=
  [⟨true, "p::t [3:0]", ⟨"i", "n // count"⟩, [⟨"j", "i + 1"⟩]⟩, ⟨false, "word", ⟨"k", "0"⟩, []⟩]

theorem parse_declarations_two :
    ∃ vs v, twoDeclarations.mapM (DeclarationText.value "a.sv") = .ok vs ∧ vs.length = 2 ∧
      parse "b.sv" "for (\nvar\np::t [3:0]\ni\n=\nn // count\n,\nj\n=\ni + 1\n,\nword\nk\n=\n0\n; ;) ;" = .ok v ∧
      v.withoutPositions = forNode (.node .forInitDeclarationList .unknown [.seq vs]) := by
  obtain ⟨vs, h⟩ : ∃ vs, twoDeclarations.mapM (DeclarationText.value "a.sv") = .ok vs := by
    simp only [twoDeclarations, List.mapM_cons, List.mapM_nil, DeclarationText.value, BindingText.value,
      valueOf_afresh rfl]
    exact exists_of_isOk (by decide +kernel)
  have hapart : ∀ e ∈ twoDeclarations, (parseSymbol (.phrase .dataType) true "a.sv" e.type).toOption.map
      (fun typed => typed.tree.startsGlued "var") = some false := by
    simp only [parseSymbol_afresh rfl]
    decide +kernel
  have hglued (e) (he : e ∈ twoDeclarations) (typed)
      (htyped : parseSymbol (.phrase .dataType) true "a.sv" e.type = .ok typed) :
      typed.tree.startsGlued "var" = false := by
    have hthis := hapart e he
    rw [htyped] at hthis
    exact Option.some.inj hthis
  have htext : "\n".intercalate ("for (" :: declarationPieces twoDeclarations ++ ["; ;) ;"])
      = "for (\nvar\np::t [3:0]\ni\n=\nn // count\n,\nj\n=\ni + 1\n,\nword\nk\n=\n0\n; ;) ;" := by
    decide +kernel
  obtain ⟨v, hv, heq⟩ := @parse_declarations _ "b.sv" _ _ _ h hglued
  exact ⟨vs, v, h, (forall₂_of_mapM h).length_eq.symm, htext ▸ hv, heq⟩

end VerilogLoops
