import VerilogLoops.Proofs.Meaning

/-!
# Assignments as bindings

An assignment to a name is written as a binding of the name is: the trees have the same leaves. So a list
of assignments to names and the list of bindings have the same leaves too, and they are built of the same
names and values.

> `rebinds_of_fits`: a list of assignments to names is a list of bindings of the names.
-/

namespace VerilogLoops.Ast

open VerilogLoops.Lexical VerilogLoops.Grammar

variable {locate : Nat → Position} {t u mark : ParseTree} {ts us : List ParseTree} {v : Value} {vs : List Value}

/-! ## Assignments to names -/

/-- The name and the value of an assignment to nothing but a name. -/
def bindingOf? : Value → Option (Value × Value)
  | .node .variableAssignment _
      [.node .variableReference _
        [.node .scopedIdentifier _
          [.null, .node .hierarchicalIdentifier _ [.bool false, .seq [name]]], .seq []], value] =>
    some (name, value)
  | _ => none

/-- The assignments to names are those of this form. -/
theorem bindingOf?_eq_some {name value : Value} (h : bindingOf? v = some (name, value)) :
    ∃ p q r s, v = .node .variableAssignment p
      [.node .variableReference q
        [.node .scopedIdentifier r
          [.null, .node .hierarchicalIdentifier s [.bool false, .seq [name]]], .seq []], value] := by
  unfold bindingOf? at h
  split at h
  · cases h
    exact ⟨_, _, _, _, rfl⟩
  · cases h

/-- An identifier is built as the node of its text. -/
theorem buildAll_identifier (locate : Nat → Position) {i : ParseTree} (h : LexemeForm (.phrase .identifier) () i ()) :
    ∃ pos text, buildAll locate [i] = .ok [.node .identifier pos [.text text]] := by
  obtain ⟨k, start, text, rfl, -, hk⟩ := h
  refine ⟨locate (ParseTree.node (.phrase .identifier) [.leaf k start text]).start, text, ?_⟩
  rcases hk with ⟨rfl, -⟩ | rfl <;> rfl

/-- A path of one name without the root is a tree of that name alone. -/
theorem name_of_path {q : Position} {name : Value} (h : Fits (.phrase .hierarchicalName) [t])
    (hb : buildAll locate [t] = .ok [.node .hierarchicalIdentifier q [.bool false, .seq [name]]]) :
    ∃ i, t = .node (.phrase .hierarchicalName) [i] ∧ LexemeForm (.phrase .identifier) () i () ∧
      buildAll locate [i] = .ok [name] := by
  obtain ⟨cs, heq, hbody⟩ := (shape_phrase rfl).1 h
  cases heq
  unfold Phrase.body at hbody
  simp only [Pattern.row, Pattern.separated, shape_seq, shape_opt, shape_token, shape_identifier] at hbody
  obtain ⟨roots, _, _, rfl, hroots, _, _, tail, rfl, ⟨i, rfl, hi⟩, htail⟩ := hbody
  obtain ⟨pos, text, hbi⟩ := buildAll_identifier locate hi
  obtain ⟨vs, b, hvs, hassemble, hvalues⟩ := buildAll_node.1 hb
  rcases hroots with ⟨rfl, -⟩ | ⟨_, _, _, rfl, ⟨root, rfl, hroot⟩, ⟨dot, rfl, hdot⟩⟩
  · rw [List.nil_append] at hvs
    obtain ⟨_, ws, hb, hws, rfl⟩ := buildAll_append.1 hvs
    rw [hbi] at hb
    cases hb
    simp [assemble, childAt, Family.kinds] at hassemble
    subst hassemble
    simp [Built.values] at hvalues
    rcases shape_tail.1 htail with ⟨rfl, -⟩ | ⟨mark, _, us, _, more, rfl, hmark, hus, -⟩
    · cases hws
      refine ⟨i, rfl, hi, ?_⟩
      simp at hvalues
      rw [hbi, hvalues.2]
    · -- a second name
      obtain ⟨i', rfl, hi'⟩ := shape_identifier.1 hus
      obtain ⟨pos', text', hbi'⟩ := buildAll_identifier locate hi'
      rw [List.cons_append, buildAll_cons] at hws
      obtain ⟨_, _, -, hws, rfl⟩ := hws
      obtain ⟨_, _, hb', -, rfl⟩ := buildAll_append.1 hws
      rw [hbi'] at hb'
      cases hb'
      simp [Family.kinds] at hvalues
  · -- with the root the first value would be true
    obtain ⟨start, word, rfl, hword⟩ := hroot
    have hroot : word = "$root" := hword.hasForm
    rw [List.append_assoc] at hvs
    obtain ⟨_, ws, hb, hws, rfl⟩ := buildAll_append.1 hvs
    cases hb
    simp [assemble, childAt, Built.values, buildLeaf, hroot] at hassemble
    subst hassemble
    simp [Built.values] at hvalues

/-- What the values are of which a reference to nothing but a name is made. -/
theorem assemble_reference {pos p q r : Position} {name : Value} {b : Built}
    (h : assemble .variableReference pos vs = .ok b)
    (hb : [.node .variableReference p [.node .scopedIdentifier q
      [.null, .node .hierarchicalIdentifier r [.bool false, .seq [name]]], .seq []]] = b.values) :
    membersOf (.only .select) vs = [] ∧ firstOrNull (membersOf .qualifier vs) = .null ∧
      theMember .variableReference (.only .hierarchicalIdentifier) vs
        = .ok (.node .hierarchicalIdentifier r [.bool false, .seq [name]]) := by
  have h : (scopedName .variableReference pos vs >>= fun n =>
      pure (Built.one (.node .variableReference pos [n, .seq (membersOf (.only .select) vs)])))
        = .ok b := h
  obtain ⟨n, hn, h⟩ := bind_eq_ok.1 h
  cases h
  obtain ⟨m, hm, hn⟩ := bind_eq_ok.1 hn
  cases hn
  simp only [Built.values, List.cons.injEq, Value.node.injEq, Value.seq.injEq, true_and, and_true] at hb
  exact ⟨hb.2.2.symm, hb.2.1.2.1.symm, hb.2.1.2.2 ▸ hm⟩

/-- A reference that is nothing but a name is a tree of that name alone. -/
theorem name_of_reference {p q r : Position} {name : Value} (h : Fits (.phrase .variableReference) [t])
    (hb : buildAll locate [t] = .ok [.node .variableReference p [.node .scopedIdentifier q
      [.null, .node .hierarchicalIdentifier r [.bool false, .seq [name]]], .seq []]]) :
    ∃ i, t = .node (.phrase .variableReference) [.node (.phrase .hierarchicalName) [i]] ∧
      LexemeForm (.phrase .identifier) () i () ∧ buildAll locate [i] = .ok [name] := by
  obtain ⟨cs, heq, hbody⟩ := (shape_phrase rfl).1 h
  cases heq
  unfold Phrase.body at hbody
  simp only [Pattern.row, shape_seq, shape_opt] at hbody
  obtain ⟨qs, _, _, rfl, hqs, hs, _, ss, rfl, hname, hss⟩ := hbody
  obtain ⟨vs, b, hvs, hassemble, hvalues⟩ := buildAll_node.1 hb
  obtain ⟨hselects, hqualifier, hmember⟩ := assemble_reference hassemble hvalues
  obtain ⟨qvs, _, hqvs, hrest, rfl⟩ := buildAll_append.1 hvs
  obtain ⟨hvs, svs, hhvs, hsvs, rfl⟩ := buildAll_append.1 hrest
  -- a qualifier would show among the values, and so would a select
  have hqs : qs = [] := by
    rcases hqs with ⟨rfl, -⟩ | hqs
    · rfl
    · obtain ⟨_, rfl, -⟩ := (shape_phrase rfl).1 hqs
      obtain ⟨v, rfl, hv⟩ := single_of_fits hqs rfl hqvs
      have hv : v.isA .qualifier = true := hv
      rw [membersOf_append, membersOf_cons, if_pos hv] at hqualifier
      exact absurd hqualifier (ne_null_of_isA hv)
  have hss : ss = [] := by
    rcases shape_many.1 hss with ⟨rfl, -⟩ | ⟨_, _, more, rfl, hselect, -⟩
    · rfl
    · obtain ⟨_, rfl, -⟩ := (shape_phrase rfl).1 hselect
      obtain ⟨_, _, hb', -, rfl⟩ := buildAll_append.1 hsvs
      obtain ⟨v, rfl, hv⟩ := single_of_fits hselect rfl hb'
      have hv : v.isA (.only .select) = true := hv
      simp [hv] at hselects
  subst hqs hss
  cases hqvs
  cases hsvs
  obtain ⟨us, rfl, -⟩ := (shape_phrase rfl).1 hname
  obtain ⟨w, rfl, hw⟩ := single_of_fits hname rfl hhvs
  have hw : w.isA (.only .hierarchicalIdentifier) = true := hw
  simp only [theMember, List.nil_append, List.append_nil, membersOf_cons, if_pos hw, membersOf_nil,
    Except.ok.injEq] at hmember
  rw [hmember] at hhvs
  obtain ⟨i, hi, hform, hbi⟩ := name_of_path hname hhvs
  rw [hi]
  exact ⟨i, rfl, hform, hbi⟩

/-- An lvalue that is nothing but a name is a tree of that name alone. -/
theorem name_of_lvalue {p q r : Position} {name : Value} (h : Fits (.phrase .lvalue) [t])
    (hb : buildAll locate [t] = .ok [.node .variableReference p [.node .scopedIdentifier q
      [.null, .node .hierarchicalIdentifier r [.bool false, .seq [name]]], .seq []]]) :
    ∃ i, t = .node (.phrase .lvalue) [.node (.phrase .variableReference)
        [.node (.phrase .hierarchicalName) [i]]] ∧
      LexemeForm (.phrase .identifier) () i () ∧ buildAll locate [i] = .ok [name] := by
  obtain ⟨cs, heq, hbody⟩ := (shape_phrase rfl).1 h
  cases heq
  unfold Phrase.body at hbody
  simp only [Pattern.oneOf, shape_alt] at hbody
  obtain ⟨vs, b, hvs, hassemble, hvalues⟩ := buildAll_node.1 hb
  rcases hbody with hbody | hbody <;> obtain ⟨us, rfl, -⟩ := (shape_phrase rfl).1 hbody <;>
    obtain ⟨v, rfl, hv⟩ := single_of_fits hbody rfl hvs
  · -- a concatenation
    have hexpression : v.isA .expression = true := isA_eq_true hv (by decide)
    simp [assemble, theMember, hexpression] at hassemble
    subst hassemble
    cases hvalues
    cases hv
  · have hexpression : v.isA .expression = true := isA_eq_true hv (by decide)
    simp [assemble, theMember, hexpression] at hassemble
    subst hassemble
    cases hvalues
    obtain ⟨i, hi, hform, hbi⟩ := name_of_reference hbody hvs
    rw [hi]
    exact ⟨i, rfl, hform, hbi⟩

/-! ## Assignments as bindings -/

/-- The assignment to a name, as a binding of the name. -/
def asBinding : ParseTree → ParseTree
  | .node (.phrase .variableAssignment)
      [.node (.phrase .lvalue) [.node (.phrase .variableReference)
        [.node (.phrase .hierarchicalName) [name]]], sign, value] =>
    .node (.phrase .forBinding) [.node (.phrase .variableName) [name], sign, value]
  | t => t

/-- The tree of a binding that has the leaves of another tree and is built of a name and a value. -/
structure Binds (locate : Nat → Position) (t u : ParseTree) (name value : Value) : Prop where
  fits : Fits (.phrase .forBinding) [u]
  leaves : u.leaves = t.leaves
  clear : t.isClear = true → u.isClear = true
  built : buildAll locate [u] = .ok [.node .forVariableBinding (locate u.start) [name, value]]

/-- An assignment to a name is a binding of it. -/
theorem binds_asBinding {name value : Value} (h : Fits (.phrase .variableAssignment) [t])
    (hb : buildAll locate [t] = .ok [v]) (hv : bindingOf? v = some (name, value)) :
    Binds locate t (asBinding t) name value := by
  obtain ⟨p, q, r, o, rfl⟩ := bindingOf?_eq_some hv
  obtain ⟨cs, heq, hbody⟩ := (shape_phrase rfl).1 h
  cases heq
  unfold Phrase.body at hbody
  simp only [Pattern.row, shape_seq, shape_assignSign] at hbody
  obtain ⟨_, _, _, rfl, hlvalue, _, _, _, rfl, ⟨sign, rfl, hsign⟩, hvalue⟩ := hbody
  obtain ⟨us, rfl, -⟩ := (shape_phrase rfl).1 hlvalue
  obtain ⟨ws, rfl, -⟩ := (shape_phrase rfl).1 hvalue
  obtain ⟨vs, b, hvs, hassemble, hvalues⟩ := buildAll_node.1 hb
  obtain ⟨_, _, hl, hrest, rfl⟩ := buildAll_append.1 hvs
  obtain ⟨_, _, hs, he, rfl⟩ := buildAll_append.1 hrest
  obtain ⟨l, rfl, -⟩ := single_of_fits hlvalue rfl hl
  obtain ⟨e, rfl, hexpression⟩ := single_of_fits hvalue rfl he
  have hexpression : e.isA .expression = true := hexpression
  obtain ⟨start, rfl⟩ := hsign
  cases hs
  -- what is built has the values of the name and of the expression
  simp [assemble, childAt, lastChild, Built.values] at hassemble
  subst hassemble
  simp only [Built.values, List.cons.injEq, Value.node.injEq, true_and, and_true] at hvalues
  obtain ⟨-, rfl, rfl⟩ := hvalues
  -- the name is a single identifier, in either of its trees
  obtain ⟨i, hi, hform, hbi⟩ := name_of_lvalue hlvalue hl
  cases hi
  obtain ⟨pos, text, hname⟩ := buildAll_identifier locate hform
  rw [hbi] at hname
  cases hname
  -- in turn: the form, the leaves, that nothing is glued, and what is built
  refine ⟨?_, ?_, ?_, ?_⟩
  · refine (shape_phrase rfl).2 ⟨_, rfl, ?_⟩
    unfold Phrase.body
    simp only [Pattern.row, shape_seq, shape_assignSign]
    refine ⟨[_], (), _, rfl, ?_, [_], (), _, rfl, ⟨_, rfl, start, rfl⟩, hvalue⟩
    exact (shape_phrase rfl).2 ⟨_, rfl, shape_identifier.2 ⟨i, rfl, hform⟩⟩
  · simp [asBinding]
  · intro hclear
    simp [asBinding, Label.admits, superGlued] at hclear ⊢
    exact hclear
  · have hname : buildAll locate [.node (.phrase .variableName) [i]]
        = .ok [.node .identifier pos [.text text]] :=
      buildAll_node.2 ⟨_, .one (.node .identifier pos [.text text]), hbi, rfl, rfl⟩
    have hvalues : buildAll locate ([ParseTree.node (.phrase .variableName) [i]] ++
        ([ParseTree.node (.phrase .assignSign) [.leaf .equals start "="]]
          ++ [ParseTree.node (.phrase .expression) ws]))
          = .ok ([Value.node .identifier pos [.text text]] ++ ([Value.text "="] ++ [value])) :=
      buildAll_append.2 ⟨_, _, hname, buildAll_append.2 ⟨_, _, rfl, he, rfl⟩, rfl⟩
    have hidentifier : value.isA (.only .identifier) = false := isA_eq_false hexpression (by decide)
    have hassemble : ∀ place, assemble .forBinding place
        ([Value.node .identifier pos [.text text]] ++ ([Value.text "="] ++ [value]))
          = .ok (.one (.node .forVariableBinding place [.node .identifier pos [.text text], value])) := by
      intro place
      simp [assemble, theMember, hidentifier, hexpression, Family.kinds, Kind.expressions]
    exact buildAll_node.2 ⟨_, _, hvalues, hassemble _, rfl⟩

/-! ## Lists of assignments -/

/-- The binding of a name to a value, without positions. -/
def bindingNode (b : Value × Value) : Value :=
  .node .forVariableBinding .unknown [b.1.withoutPositions, b.2.withoutPositions]

/-- The trees have the leaves of other trees. They are built of these bindings, up to positions, and of no
data type. -/
structure Rebinds (locate : Nat → Position) (ts us : List ParseTree) (pairs : List (Value × Value)) :
    Prop where
  leaves : leavesOf us = leavesOf ts
  clear : allClear ts = true → allClear us = true
  built : ∃ ws, buildAll locate us = .ok ws ∧
    (membersOf (.only .forVariableBinding) ws).map Value.withoutPositions = pairs.map bindingNode ∧
      membersOf .dataType ws = []

variable {pairs : List (Value × Value)} {name value : Value}

theorem rebinds_nil : Rebinds locate [] [] [] where
  leaves := rfl
  clear _ := rfl
  built := ⟨[], rfl, rfl, rfl⟩

/-- An assignment to a name in front of others. -/
theorem Rebinds.cons (hs : Rebinds locate ts us pairs) (h : Binds locate t u name value) :
    Rebinds locate (t :: ts) (u :: us) ((name, value) :: pairs) where
  leaves := by rw [leavesOf_cons, leavesOf_cons, h.leaves, hs.leaves]
  clear hclear := by
    rw [allClear_cons, Bool.and_eq_true] at hclear ⊢
    exact ⟨h.clear hclear.1, hs.clear hclear.2⟩
  built := by
    obtain ⟨ws, hws, hbindings, hnone⟩ := hs.built
    refine ⟨_, buildAll_append.2 ⟨_, _, h.built, hws, rfl⟩, ?_, ?_⟩
    · simp [hbindings, bindingNode, Family.kinds]
    · simp [hnone, Family.kinds]

/-- A comma in front of assignments. -/
theorem Rebinds.comma (hs : Rebinds locate ts us pairs) (h : IsLeaf .comma mark) :
    Rebinds locate (mark :: ts) (mark :: us) pairs where
  leaves := by rw [leavesOf_cons, leavesOf_cons, hs.leaves]
  clear hclear := by
    rw [allClear_cons, Bool.and_eq_true] at hclear ⊢
    exact ⟨hclear.1, hs.clear hclear.2⟩
  built := by
    obtain ⟨start, text, rfl, -⟩ := h
    obtain ⟨ws, hws, hbindings, hnone⟩ := hs.built
    refine ⟨_, buildAll_cons.2 ⟨.one (.text text), ws, rfl, hws, rfl⟩, ?_, ?_⟩
    · simp [hbindings, Built.values]
    · simp [hnone, Built.values]

/-- The assignments to names in a list. -/
def bindingsOf? (vs : List Value) : Option (List (Value × Value)) :=
  (membersOf (.only .variableAssignment) vs).mapM bindingOf?

/-- The first of the assignments is one to a name if all are. -/
theorem bindingsOf?_cons (hv : v.isA (.only .variableAssignment) = true)
    (h : bindingsOf? (v :: vs) = some pairs) : ∃ name value rest,
      bindingOf? v = some (name, value) ∧ bindingsOf? vs = some rest ∧ pairs = (name, value) :: rest := by
  rw [bindingsOf?, membersOf_cons, if_pos hv, List.mapM_cons, Option.bind_eq_bind,
    Option.bind_eq_some_iff] at h
  obtain ⟨⟨name, value⟩, hfirst, h⟩ := h
  rw [Option.bind_eq_bind, Option.bind_eq_some_iff] at h
  obtain ⟨rest, hrest, h⟩ := h
  cases h
  exact ⟨name, value, rest, hfirst, hrest, rfl⟩

/-- The assignments behind the first one of a list. -/
theorem rebinds_tail {s a : Unit} (h : Shape LexemeForm (.tail .comma (.phrase .variableAssignment)) s ts a)
    (hb : buildAll locate ts = .ok vs) (hvs : bindingsOf? vs = some pairs) :
    ∃ us, Fits (.tail .comma (.phrase .forBinding)) us ∧ Rebinds locate ts us pairs := by
  generalize hx : Pattern.tail .comma (.phrase .variableAssignment) = x at h
  induction h generalizing vs pairs with
  | last =>
    cases hb
    cases hvs
    exact ⟨[], .last, rebinds_nil⟩
  | next hmark hitem _ _ ih =>
    cases hx
    obtain ⟨_, rfl, -⟩ := (shape_phrase rfl).1 hitem
    obtain ⟨_, ws, hmarkb, hrest, rfl⟩ := buildAll_cons.1 hb
    obtain ⟨_, ws, hitemb, hrestb, rfl⟩ := buildAll_append.1 hrest
    obtain ⟨v, rfl, hv⟩ := single_of_fits hitem rfl hitemb
    obtain ⟨start, text, rfl, hw⟩ := hmark
    cases hmarkb
    obtain ⟨name, value, rest, hfirst, hrest, rfl⟩ := bindingsOf?_cons hv hvs
    obtain ⟨us, hus, hrebinds⟩ := ih hrestb hrest rfl
    have hbinds := binds_asBinding hitem hitemb hfirst
    exact ⟨_, .next ⟨start, text, rfl, hw⟩ hbinds.fits hus,
      (hrebinds.cons hbinds).comma ⟨start, text, rfl, hw⟩⟩
  | lexeme hlexeme =>
    rw [← hx] at hlexeme
    cases hlexeme
  | _ => cases hx

/-- **A list of assignments to names is a list of bindings of the names.** -/
theorem rebinds_of_fits (h : Fits (.separated (.phrase .variableAssignment) .comma) ts)
    (hb : buildAll locate ts = .ok vs) (hvs : bindingsOf? vs = some pairs) :
    ∃ us, Fits (.separated (.phrase .forBinding) .comma) us ∧ Rebinds locate ts us pairs := by
  obtain ⟨_, _, _, rfl, hitem, htail⟩ := shape_seq.1 h
  obtain ⟨_, rfl, -⟩ := (shape_phrase rfl).1 hitem
  obtain ⟨_, ws, hitemb, htailb, rfl⟩ := buildAll_append.1 hb
  obtain ⟨v, rfl, hv⟩ := single_of_fits hitem rfl hitemb
  obtain ⟨name, value, rest, hfirst, hrest, rfl⟩ := bindingsOf?_cons hv hvs
  obtain ⟨us, hus, hrebinds⟩ := rebinds_tail htail htailb hrest
  have hbinds := binds_asBinding hitem hitemb hfirst
  exact ⟨_, .seq hbinds.fits hus, hrebinds.cons hbinds⟩

end VerilogLoops.Ast
