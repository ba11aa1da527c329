import VerilogLoops.Ast.Parts
import VerilogLoops.Proofs.Meaning
import VerilogLoops.Proofs.Recast

/-!
# Escaped names

An escaped identifier is the name of a node or of a scope. It is not dropped on the way from the source to
the syntax tree, nor does it become a part of anything else. This is shown by making all escaped
identifiers longer. The tree that is built then is the one that was built before with its escaped names made
longer, and it is the same if there are none. But its text would be longer if there were escaped identifiers.

> `not_escaped`: a tree without escaped names comes from leaves without escaped identifiers.
-/

namespace VerilogLoops.Ast

open VerilogLoops.Lexical VerilogLoops.Grammar

/-! ## Longer names -/

/-- The name is escaped: it begins with a backslash. -/
def isEscaped (name : String) : Bool := name.toList.head? = some '\\'

/-- The value is a name or a scope that is escaped. -/
def Value.isEscaped : Value → Bool
  | .node .identifier _ [.text name] | .node .packageScope _ [.text name] => Ast.isEscaped name
  | _ => false

/-- The name, with a letter more if it is escaped. -/
def lengthened (name : String) : String := if isEscaped name then name ++ "x" else name

mutual

/-- The value with longer escaped names. -/
def Value.lengthened : Value → Value
  | .node .identifier pos [.text name] => .node .identifier pos [.text (Ast.lengthened name)]
  | .node .packageScope pos [.text name] => .node .packageScope pos [.text (Ast.lengthened name)]
  | .node k pos fields => .node k pos (lengthenedAll fields)
  | .seq items => .seq (lengthenedAll items)
  | v => v

/-- The values with longer escaped names. -/
def lengthenedAll : List Value → List Value
  | [] => []
  | v :: rest => v.lengthened :: lengthenedAll rest

end

theorem lengthenedAll_eq_map (vs : List Value) : lengthenedAll vs = vs.map Value.lengthened := by
  induction vs with
  | nil => rfl
  | cons v vs ih => rw [lengthenedAll, ih, List.map_cons]

theorem recasts_lengthened : Recasts id Value.lengthened where
  null := by rw [Value.lengthened] <;> simp
  text s := by rw [Value.lengthened] <;> simp
  bool x := by rw [Value.lengthened] <;> simp
  int n := by rw [Value.lengthened] <;> simp
  real x := by rw [Value.lengthened] <;> simp
  seq vs := by rw [Value.lengthened, lengthenedAll_eq_map]
  node pos vs hk hk' _ := by
    rw [← lengthenedAll_eq_map]
    unfold Value.lengthened
    split <;> simp_all
  name k pos vs := by
    unfold Value.lengthened
    split <;> simp_all

mutual

/-- A value without escaped names is the same with longer ones. -/
theorem lengthened_eq : ∀ v : Value, (∀ n ∈ v.nodes, n.isEscaped = false) → v.lengthened = v
  | .null, _ => recasts_lengthened.null
  | .text s, _ => recasts_lengthened.text s
  | .bool x, _ => recasts_lengthened.bool x
  | .int n, _ => recasts_lengthened.int n
  | .real x, _ => recasts_lengthened.real x
  | .seq vs, h => by
    rw [Value.lengthened, lengthenedAll_eq vs fun n hn => h n (by rwa [Value.nodes])]
  | .node k pos vs, h => by
    have hnode := h (.node k pos vs) (by rw [Value.nodes]; exact List.mem_cons_self ..)
    have hall := lengthenedAll_eq vs fun n hn => h n (by rw [Value.nodes]; exact List.mem_cons_of_mem _ hn)
    unfold Value.lengthened
    split
    · next heq =>
      cases heq
      have hname : Ast.isEscaped _ = false := hnode
      rw [Ast.lengthened, hname]
      rfl
    · next heq =>
      cases heq
      have hname : Ast.isEscaped _ = false := hnode
      rw [Ast.lengthened, hname]
      rfl
    · next heq =>
      cases heq
      rw [hall]
    all_goals simp_all

theorem lengthenedAll_eq : ∀ vs : List Value, (∀ n ∈ nodesOfAll vs, n.isEscaped = false) → lengthenedAll vs = vs
  | [], _ => rfl
  | v :: vs, h => by
    have hv := lengthened_eq v fun n hn => h n (by rw [nodesOfAll]; exact List.mem_append_left _ hn)
    have hvs := lengthenedAll_eq vs fun n hn => h n (by rw [nodesOfAll]; exact List.mem_append_right _ hn)
    rw [lengthenedAll, hv, hvs]

end

end VerilogLoops.Ast

namespace VerilogLoops.Grammar

open VerilogLoops.Text VerilogLoops.Lexical VerilogLoops.Ast

variable {x : Pattern} {p : Phrase} {k : Token} {t u : ParseTree} {ts us : List ParseTree} {v : Value}
  {vs : List Value} {b : Built} {locate : Nat → Position} {text : String}

/-! ## Longer identifiers -/

mutual

/-- The tree with longer escaped identifiers. -/
def ParseTree.lengthened : ParseTree → ParseTree
  | .leaf .escapedIdentifier start text => .leaf .escapedIdentifier start (text ++ "x")
  | .leaf k start text => .leaf k start text
  | .node label ts => .node label (lengthenedTrees ts)

/-- The trees with longer escaped identifiers. -/
def lengthenedTrees : List ParseTree → List ParseTree
  | [] => []
  | t :: rest => t.lengthened :: lengthenedTrees rest

end

theorem lengthenedTrees_eq_map (ts : List ParseTree) : lengthenedTrees ts = ts.map ParseTree.lengthened := by
  induction ts with
  | nil => rfl
  | cons t ts ih => rw [lengthenedTrees, ih, List.map_cons]

theorem lengthened_node (label : Label) (ts : List ParseTree) :
    (ParseTree.node label ts).lengthened = .node label (ts.map ParseTree.lengthened) := by
  rw [ParseTree.lengthened, lengthenedTrees_eq_map]

/-- A leaf that is no escaped identifier stays as it is. -/
theorem lengthened_leaf (hk : k ≠ .escapedIdentifier) (start : Nat) (text : String) :
    (ParseTree.leaf k start text).lengthened = .leaf k start text := by
  unfold ParseTree.lengthened
  split <;> simp_all

theorem start_lengthened : ∀ t : ParseTree, t.lengthened.start = t.start
  | .leaf k start text => by
    by_cases hk : k = .escapedIdentifier
    · subst hk
      rfl
    · rw [lengthened_leaf hk]
  | .node _ [] => rfl
  | .node label (t :: ts) => by
    rw [lengthened_node, List.map_cons]
    exact start_lengthened t

/-- The pattern has an escaped identifier in it other than as an identifier. -/
def Pattern.escapes : Pattern → Bool
  | .token k => k = .escapedIdentifier
  | .phrase _ => false
  | .seq x y | .alt x y => x.escapes || y.escapes
  | .opt x | .many x | .absent x => x.escapes
  | .tail k x => k = .escapedIdentifier || x.escapes

theorem Phrase.escapes_body (hp : (Pattern.phrase p).isLexeme = false) : p.body.escapes = false := by
  cases p with
  | identifier => cases hp
  | chain level => cases level <;> rfl
  | _ => rfl

theorem squeezed_lengthened (text : String) : (squeezed (text ++ "x")).length = (squeezed text).length + 1 := by
  have hx : squeezed "x" = ['x'] := by decide
  rw [squeezed_append, hx, List.length_append]
  rfl

/-- How many escaped identifiers there are among the leaves. -/
def escapedCount (ls : List Leaf) : Nat := ls.countP fun l => l.token = .escapedIdentifier

mutual

/-- A tree has a character more for every escaped identifier. -/
theorem length_residue_lengthened : ∀ t : ParseTree,
    t.lengthened.residue.length = t.residue.length + escapedCount t.leaves
  | .leaf k start text => by
    by_cases hk : k = .escapedIdentifier
    · subst hk
      rw [ParseTree.lengthened, residue_leaf, residue_leaf, squeezed_lengthened]
      rfl
    · rw [lengthened_leaf hk]
      simp [escapedCount, hk]
  | .node label ts => by
    have hall := length_residue_lengthenedTrees ts
    rw [lengthenedTrees_eq_map] at hall
    rw [lengthened_node, residue_node, residue_node, leaves_node, hall]

theorem length_residue_lengthenedTrees : ∀ ts : List ParseTree,
    ((lengthenedTrees ts).flatMap ParseTree.residue).length
      = (ts.flatMap ParseTree.residue).length + escapedCount (leavesOf ts)
  | [] => rfl
  | t :: ts => by
    have ht := length_residue_lengthened t
    have hts := length_residue_lengthenedTrees ts
    rw [lengthenedTrees, List.flatMap_cons, List.flatMap_cons, List.length_append, List.length_append, ht, hts,
      leavesOf_cons, escapedCount, escapedCount, escapedCount, List.countP_append]
    omega

end

/-! ## Texts of identifiers -/

/-- An escaped identifier is a backslash and then graphic characters, one at least. -/
theorem writes_escapedIdentifier : Token.Writes .escapedIdentifier text ↔
    ∃ cs, text.toList = '\\' :: cs ∧ cs ≠ [] ∧ cs.all isGraphic = true := by
  constructor
  · rintro ⟨rest, hrest⟩
    have hown := Token.length?_take hrest (Nat.le_refl _)
    rw [List.take_left] at hown
    simp only [Token.length?, escapedIdentifier?] at hown
    split at hown
    · next cs heq =>
      split at hown
      · cases hown
      · next hne =>
        have hlength : (cs.takeWhile isGraphic).length = cs.length := by
          rw [heq, List.length_cons] at hown
          have := Option.some.inj hown
          omega
        have hall : cs.takeWhile isGraphic = cs := (List.takeWhile_prefix isGraphic).eq_of_length hlength
        refine ⟨cs, heq, ?_, List.all_eq_true.2 (List.takeWhile_eq_self_iff.1 hall)⟩
        rwa [hall] at hne
    · cases hown
  · rintro ⟨cs, htext, hne, hall⟩
    have hrun : cs.takeWhile isGraphic = cs := List.takeWhile_eq_self_iff.2 (List.all_eq_true.1 hall)
    refine ⟨[], ?_⟩
    rw [List.append_nil, htext]
    show escapedIdentifier? ('\\' :: cs) = _
    rw [escapedIdentifier?, hrun]
    split
    · exact absurd rfl hne
    · rw [List.length_cons, Nat.add_comm]

theorem isEscaped_of_escapedIdentifier (h : Token.Writes .escapedIdentifier text) : Ast.isEscaped text = true := by
  obtain ⟨cs, htext, -⟩ := writes_escapedIdentifier.1 h
  rw [Ast.isEscaped, htext]
  rfl

/-- An escaped identifier may be made longer. -/
theorem writes_lengthened (h : Token.Writes .escapedIdentifier text) :
    Token.Writes .escapedIdentifier (text ++ "x") := by
  obtain ⟨cs, htext, -, hall⟩ := writes_escapedIdentifier.1 h
  refine writes_escapedIdentifier.2 ⟨cs ++ ['x'], ?_, by simp, ?_⟩
  · rw [String.toList_append, htext]
    rfl
  · rw [List.all_append, hall]
    decide

theorem not_isEscaped_of_identifier (h : Token.Writes .identifier text) : Ast.isEscaped text = false := by
  obtain ⟨rest, hrest⟩ := h
  cases hescaped : Ast.isEscaped text with
  | false => rfl
  | true =>
    exfalso
    have hhead : text.toList.head? = some '\\' := by simpa [Ast.isEscaped] using hescaped
    obtain ⟨cs, htext⟩ := List.head?_eq_some_iff.1 hhead
    obtain ⟨c, more, heq, hc⟩ := freeTokenAt_of_length? (by decide) hrest
    rw [htext] at heq
    cases heq
    revert hc
    decide

/-! ## Longer identifiers in trees -/

/-- A lexeme with a longer identifier is a lexeme. -/
theorem lexeme_lengthened {s a : Unit} (h : LexemeForm x s t a) : LexemeForm x s t.lengthened a := by
  obtain ⟨k, start, text, rfl, rfl, hw⟩ | ⟨k, start, text, rfl, rfl, hw, hk⟩ | ⟨start, rfl, rfl⟩ := h.cases
  · by_cases hk : k = .escapedIdentifier
    · subst hk
      exact ⟨start, text ++ "x", rfl, writes_lengthened hw⟩
    · exact ⟨start, text, lengthened_leaf hk start text, hw⟩
  · rw [lengthened_node, List.map_singleton]
    rcases hk with ⟨rfl, hreserved⟩ | rfl
    · exact ⟨.identifier, start, text, by rw [lengthened_leaf (by decide)], hw, .inl ⟨rfl, hreserved⟩⟩
    · exact ⟨.escapedIdentifier, start, text ++ "x", rfl, writes_lengthened hw, .inr rfl⟩
  · exact ⟨start, rfl⟩

/-- A tree that fits still fits with longer identifiers. -/
theorem fits_lengthened {s a : Unit} (h : Shape LexemeForm x s ts a) : Fits x (ts.map ParseTree.lengthened) := by
  exact Shape.map (f := id) (fun _ ht => lexeme_lengthened ht) (fun p us _ => lengthened_node (.phrase p) us) h

/-! ## Longer names from longer identifiers -/

/-- The tree with longer escaped identifiers is built as the value with longer escaped names. -/
def Lengthens (locate : Nat → Position) (t : ParseTree) : Prop :=
  ∀ b, buildTree locate t = .ok b → buildTree locate t.lengthened = .ok (b.map Value.lengthened)

theorem buildLeaf_lengthened (k : Token) (pos : Position) (text : String) :
    (buildLeaf k pos text).map Value.lengthened = buildLeaf k pos text := by
  have hnumber : (Value.node .numberLiteral pos [.text text]).lengthened = .node .numberLiteral pos [.text text] := by
    rw [Value.lengthened, lengthenedAll_eq_map, List.map_singleton, recasts_lengthened.text] <;> simp
  cases k <;> simp [buildLeaf, Built.map, recasts_lengthened.text, recasts_lengthened.node, hnumber]

theorem lengthens_leaf (hk : k ≠ .escapedIdentifier) (start : Nat) (text : String) :
    Lengthens locate (.leaf k start text) := by
  intro b hb
  cases hb
  rw [lengthened_leaf hk, buildLeaf_lengthened]
  rfl

theorem buildTree_name (hk : k = .identifier ∨ k = .escapedIdentifier) (start : Nat) (text : String) :
    buildTree locate (.node (.phrase .identifier) [.leaf k start text])
      = .ok (.one (.node .identifier (locate start) [.text text])) := by
  rcases hk with rfl | rfl <;> rfl

theorem lengthens_lexeme {s a : Unit} (hx : x.escapes = false) (h : LexemeForm x s t a) : Lengthens locate t := by
  obtain ⟨k, start, text, rfl, rfl, -⟩ | ⟨k, start, text, -, rfl, hw, hk⟩ | ⟨start, -, rfl⟩ := h.cases
  · exact lengthens_leaf (by simpa [Pattern.escapes] using hx) start text
  · intro b hb
    rcases hk with ⟨rfl, -⟩ | rfl
    · rw [buildTree_name (.inl rfl)] at hb
      cases hb
      rw [lengthened_node, List.map_singleton, lengthened_leaf (by decide), buildTree_name (.inl rfl), Built.map,
        Value.lengthened, Ast.lengthened, not_isEscaped_of_identifier hw]
      rfl
    · rw [buildTree_name (.inr rfl)] at hb
      cases hb
      rw [lengthened_node, List.map_singleton, ParseTree.lengthened, buildTree_name (.inr rfl), Built.map,
        Value.lengthened, Ast.lengthened, isEscaped_of_escapedIdentifier hw]
      rfl
  · intro b hb
    cases hb
    rfl

theorem buildAll_lengthened (h : ∀ t ∈ ts, Lengthens locate t) (hvs : buildAll locate ts = .ok vs) :
    buildAll locate (ts.map ParseTree.lengthened) = .ok (vs.map Value.lengthened) := by
  induction ts generalizing vs with
  | nil =>
    cases hvs
    rfl
  | cons t ts ih =>
    obtain ⟨b, ws, hb, hws, rfl⟩ := buildAll_cons.1 hvs
    have hrest := ih (fun u hu => h u (List.mem_cons_of_mem _ hu)) hws
    have hfirst := h t (List.mem_cons_self ..) b hb
    exact buildAll_cons.2 ⟨_, _, hfirst, hrest, by rw [values_map, List.map_append]⟩

/-- The word in front of a scope is longer if it is escaped. -/
theorem packageScope_lengthened {pos : Position} (hts : Fits Phrase.packageScope.body ts)
    (hvs : buildAll locate ts = .ok vs) (hb : assemble .packageScope pos vs = .ok b) :
    assemble .packageScope pos (vs.map Value.lengthened) = .ok (b.map Value.lengthened) := by
  obtain ⟨us, m, rest, rfl, hfirst, hscope⟩ := shape_seq.1 hts
  obtain ⟨ws, ws', hws, -, rfl⟩ := buildAll_append.1 hvs
  have hword : ∃ w, ws = [w] ∧ wordOf w.lengthened = Ast.lengthened (wordOf w) := by
    rcases shape_alt.1 hfirst with hunit | hname
    · obtain ⟨_, rfl, start, text, rfl, hw⟩ := shape_token.1 hunit
      have htext : text = "$unit" := hw.hasForm
      subst htext
      cases hws
      exact ⟨.text "$unit", rfl, by decide⟩
    · obtain ⟨_, rfl, k, start, text, rfl, -, hk⟩ := (shape_lexeme rfl).1 hname
      have hbuilt : buildTree locate (.node (.phrase .identifier) [.leaf k start text]) = _ :=
        buildTree_name (hk.imp (fun h => h.1) fun h => h) start text
      obtain ⟨c, us, hc, hus, rfl⟩ := buildAll_cons.1 hws
      cases hbuilt.symm.trans hc
      cases hus
      refine ⟨_, rfl, ?_⟩
      rw [Value.lengthened]
      rfl
  obtain ⟨w, rfl, hw⟩ := hword
  cases hb
  have hmade : Value.lengthened (.node .packageScope pos [.text (wordOf w)])
      = .node .packageScope pos [.text (wordOf w.lengthened)] := by
    rw [Value.lengthened, hw]
  rw [Built.map, hmade]
  rfl

/-- There is no name in the handle of a class. -/
theorem classHandle_lengthened {pos : Position} (hts : Fits Phrase.classHandle.body ts)
    (hvs : buildAll locate ts = .ok vs) (hb : assemble .classHandle pos vs = .ok b) :
    assemble .classHandle pos (vs.map Value.lengthened) = .ok (b.map Value.lengthened) := by
  have hwords : vs.map Value.lengthened = vs := by
    simp only [Phrase.body, Pattern.row, Pattern.oneOf, shape_alt, shape_seq, shape_token] at hts
    rcases hts with ⟨_, _, _, rfl, ⟨_, rfl, _, _, rfl, -⟩, _, _, _, rfl, ⟨_, rfl, _, _, rfl, -⟩,
      ⟨_, rfl, _, _, rfl, -⟩⟩ | ⟨_, rfl, _, _, rfl, -⟩ | ⟨_, rfl, _, _, rfl, -⟩ <;>
    · cases hvs
      simp [buildLeaf, Built.values, recasts_lengthened.text]
  have hmade := recasts_lengthened.node (k := .classHandle) pos [.text (String.join (vs.map wordOf))]
    (by decide) (by decide) (by decide)
  cases hb
  rw [hwords, Built.map, hmade, List.map_singleton, recasts_lengthened.text]
  rfl

/-- A phrase makes of longer names what it makes of the names, made longer. -/
theorem assemble_lengthened {pos : Position} (hp : (Pattern.phrase p).isLexeme = false) (hts : Fits p.body ts)
    (hvs : buildAll locate ts = .ok vs) (hb : assemble p pos vs = .ok b) :
    assemble p pos (vs.map Value.lengthened) = .ok (b.map Value.lengthened) := by
  by_cases hscope : p = .packageScope
  · subst hscope
    exact packageScope_lengthened hts hvs hb
  · by_cases hhandle : p = .classHandle
    · subst hhandle
      exact classHandle_lengthened hts hvs hb
    · have hname : p ≠ .identifier := by
        rintro rfl
        cases hp
      exact recasts_lengthened.assemble_map ⟨hname, hscope, hhandle⟩ hb

theorem lengthens_of_fits {s a : Unit} (h : Shape LexemeForm x s ts a) (hx : x.escapes = false) :
    ∀ t ∈ ts, Lengthens locate t := by
  induction h with
  | lexeme _ ht =>
    intro u hu
    cases List.mem_singleton.1 hu
    exact lengthens_lexeme hx ht
  | @phrase p _ ts _ hp hts ih =>
    intro u hu
    cases List.mem_singleton.1 hu
    intro b hb
    unfold buildTree at hb
    obtain ⟨vs, hvs, hb⟩ := bind_eq_ok.1 hb
    -- the values that are built are lengthened, and the phrase makes the same of them
    have hall := buildAll_lengthened (ih (Phrase.escapes_body hp)) hvs
    rw [lengthened_node, buildTree_phrase hall, ← lengthened_node, start_lengthened]
    exact assemble_lengthened hp hts hvs hb
  | seq _ _ ihx ihy =>
    simp only [Pattern.escapes, Bool.or_eq_false_iff] at hx
    intro t ht
    exact (List.mem_append.1 ht).elim (ihx hx.1 t) (ihy hx.2 t)
  | step _ _ ihx ihy =>
    intro t ht
    exact (List.mem_append.1 ht).elim (ihx hx t) (ihy hx t)
  | first _ ih =>
    simp only [Pattern.escapes, Bool.or_eq_false_iff] at hx
    exact ih hx.1
  | second _ ih =>
    simp only [Pattern.escapes, Bool.or_eq_false_iff] at hx
    exact ih hx.2
  | given _ ih => exact ih hx
  | omitted | stop | last => simp
  | next hmark _ _ ihx ihr =>
    have hboth := hx
    simp only [Pattern.escapes, Bool.or_eq_false_iff, decide_eq_false_iff_not] at hboth
    intro t ht
    rw [List.cons_append, List.mem_cons, List.mem_append] at ht
    rcases ht with rfl | ht | ht
    · exact lengthens_lexeme (by simpa [Pattern.escapes] using hboth.1) hmark
    · exact ihx hboth.2 t ht
    · exact ihr hx t ht

/-! ## Escaped identifiers and escaped names -/

theorem escapedCount_eq_zero {ls : List Leaf} (h : escapedCount ls = 0) : ∀ l ∈ ls, l.token ≠ .escapedIdentifier := by
  intro l hl
  have hnot := List.countP_eq_zero.1 h l hl
  simpa using hnot

/-- What a tree that fits a plain phrase is built as is rendered as the ink of the polished tree. -/
theorem render_of_fits (h : Fits (.phrase p) [t]) (hp : isPlain p = true) (hb : buildTree locate t = .ok (.one v)) :
    v.render = .ok t.polish.ink := by
  obtain ⟨w, hw, -, hrender⟩ := built_of_fits h hp hb
  cases hw
  exact hrender

/-- **A tree without escaped names comes from leaves without escaped identifiers.** -/
theorem not_escaped (h : Fits (.phrase p) [t]) (hp : isPlain p = true) (hb : buildTree locate t = .ok (.one v))
    (hv : ∀ n ∈ v.nodes, n.isEscaped = false) : ∀ l ∈ t.leaves, l.token ≠ .escapedIdentifier := by
  have hlonger : Fits (.phrase p) [t.lengthened] := fits_lengthened h
  have hbuilt := lengthens_of_fits h rfl t (List.mem_singleton_self t) _ hb
  rw [Built.map, lengthened_eq v hv] at hbuilt
  -- both trees are rendered as the value is, so they have the same ink
  have hink : t.polish.ink = t.lengthened.polish.ink := by
    have hrender := render_of_fits h hp hb
    rw [render_of_fits hlonger hp hbuilt, Except.ok.injEq] at hrender
    exact hrender.symm
  have hresidue : t.residue = t.lengthened.residue := by
    have hsqueezed := congrArg squeezed hink
    rw [squeezed_ink, squeezed_ink] at hsqueezed
    rw [← residue_polish h t (List.mem_singleton_self t), ← residue_polish hlonger _ (List.mem_singleton_self _)]
    exact hsqueezed
  have hlength := length_residue_lengthened t
  rw [← hresidue] at hlength
  exact escapedCount_eq_zero (by omega)

end VerilogLoops.Grammar
