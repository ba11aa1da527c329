import VerilogLoops.Proofs.Parsing

/-!
# No token is lost

The tokens of the source come out again: but for white space and parentheses, the rendered text is
what the leaves of the parse tree say, in their order. Only two sorts of leaves are left out, the
end of the input and a separator that ends its repetition because no item follows it.

> `squeezed_render`: up to white space and parentheses, the rendered text is the text of the leaves.
-/

namespace VerilogLoops.Grammar

open VerilogLoops.Text VerilogLoops.Lexical VerilogLoops.Ast

/-- The text without white space and parentheses. -/
def squeezed (text : String) : List Char :=
  text.toList.filter fun c => !(isWhiteSpace c || c = '(' || c = ')')

@[simp] theorem squeezed_append (a b : String) : squeezed (a ++ b) = squeezed a ++ squeezed b := by
  simp [squeezed]

@[simp] theorem squeezed_empty : squeezed "" = [] := rfl

@[simp] theorem squeezed_blank : squeezed " " = [] := by decide

@[simp] theorem squeezed_open : squeezed "(" = [] := by decide

@[simp] theorem squeezed_close : squeezed ")" = [] := by decide

/-! ## The leaves of a tree -/

mutual

/-- The texts of all leaves, one behind the other. -/
def ParseTree.leafText : ParseTree → String
  | .leaf _ _ text => text
  | .node _ children => leafTextAll children

/-- The texts of all leaves of some trees. -/
def leafTextAll : List ParseTree → String
  | [] => ""
  | t :: rest => t.leafText ++ leafTextAll rest

end

/-- The separators of the repetitions in a pattern. -/
def Pattern.separators : Pattern → List Token
  | .token _ | .phrase _ => []
  | .seq x y | .alt x y => x.separators ++ y.separators
  | .opt x | .many x | .absent x => x.separators
  | .tail t x => t :: x.separators

/-- The separators among the children of a node. -/
def Label.separators : Label → List Token
  | .phrase p => p.body.separators
  | .whole => []

/-- An item comes first. The items of all repetitions with separators are phrases. -/
def startsWithItem : List ParseTree → Bool
  | .node .. :: _ => true
  | _ => false

/-- The trees without the separators that no item follows. -/
def withoutDangling (separators : List Token) : List ParseTree → List ParseTree
  | [] => []
  | .leaf t start text :: rest =>
    if separators.contains t && !startsWithItem rest then withoutDangling separators rest
    else .leaf t start text :: withoutDangling separators rest
  | .node label children :: rest => .node label children :: withoutDangling separators rest

mutual

/-- The texts of the leaves, but for the end of the input and for separators that no item
follows. -/
def ParseTree.kept : ParseTree → String
  | .leaf .endOfInput _ _ => ""
  | .leaf _ _ text => text
  | .node label children => keptAll label.separators children

/-- The texts of the leaves of some trees. -/
def keptAll (separators : List Token) : List ParseTree → String
  | [] => ""
  | .leaf t start text :: rest =>
    if separators.contains t && !startsWithItem rest then keptAll separators rest
    else (ParseTree.leaf t start text).kept ++ keptAll separators rest
  | .node label children :: rest =>
    (ParseTree.node label children).kept ++ keptAll separators rest

end

/-! ## The ink is the leaves -/

theorem squeezed_gap (p : Phrase) (a b : Pattern) : squeezed (p.gap a b) = [] := by
  unfold Phrase.gap
  split <;> simp

theorem squeezed_joined (p : Phrase) (xs : List (Pattern × String)) :
    squeezed (joined p xs) = xs.flatMap fun x => squeezed x.2 := by
  induction xs with
  | nil => rfl
  | cons x xs ih =>
    cases xs with
    | nil => simp
    | cons y ys =>
      rw [joined_cons_cons, squeezed_append, squeezed_append, squeezed_gap, ih]
      simp

mutual

/-- The ink of a tree is its leaves and blanks. -/
theorem squeezed_ink : ∀ t : ParseTree, squeezed t.ink = squeezed t.leafText
  | .leaf _ _ _ => by rw [ink_leaf, ParseTree.leafText]
  | .node label children => by
    rw [ParseTree.leafText, ← squeezed_inks children]
    unfold ParseTree.ink
    split
    · next heq => cases heq
    · next op operand heq =>
      cases heq
      simp only [inks, squeezed_append, List.flatMap_cons, List.flatMap_nil, List.append_nil]
      split <;> simp
    · next heq =>
      cases heq
      exact squeezed_joined _ _
    · next heq =>
      cases heq
      exact squeezed_joined _ _

/-- The ink of some trees is their leaves and blanks. -/
theorem squeezed_inks : ∀ ts : List ParseTree,
    (inks ts).flatMap (fun x => squeezed x.2) = squeezed (leafTextAll ts)
  | [] => rfl
  | t :: rest => by
    rw [inks, leafTextAll, squeezed_append, ← squeezed_ink t, ← squeezed_inks rest]
    rfl

end

/-! ## Polishing keeps the leaves but for parentheses -/

/-- What is left of a tree of its leaves without parentheses. -/
def ParseTree.residue (t : ParseTree) : List Char := squeezed t.leafText

@[simp] theorem residue_node (label : Label) (children : List ParseTree) :
    (ParseTree.node label children).residue = children.flatMap ParseTree.residue := by
  rw [ParseTree.residue, ParseTree.leafText]
  induction children with
  | nil => rfl
  | cons t rest ih => rw [leafTextAll, squeezed_append, ih, List.flatMap_cons, ParseTree.residue]

@[simp] theorem residue_leaf (t : Token) (start : Nat) (text : String) :
    (ParseTree.leaf t start text).residue = squeezed text := by
  rw [ParseTree.residue, ParseTree.leafText]

@[simp] theorem residue_raised (levels : List Level) (t : ParseTree) :
    (raised levels t).residue = t.residue := by
  induction levels with
  | nil => rfl
  | cons level levels ih =>
    show (ParseTree.node _ [raised levels t]).residue = _
    simp [ih]

@[simp] theorem residue_settled (t : ParseTree) : t.settled.residue = t.residue := by
  unfold ParseTree.settled
  split <;> simp [expressionOf]

@[simp] theorem residue_asOperand (t : ParseTree) : t.asOperand.residue = t.residue := by
  unfold ParseTree.asOperand
  split <;> simp

@[simp] theorem residue_binary (level : Level) (left op right : ParseTree) :
    (binary level left op right).residue = left.residue ++ op.residue ++ right.residue := by
  simp [binary, expressionOf]

/-- Operands with operators between them keep their leaves when they are joined. -/
theorem residue_joinedTrees {level : Level} {s a : Unit} {ts : List ParseTree}
    (hf : Shape LexemeForm (.tail level.operator (.phrase level.operand)) s ts a)
    (h : ∀ t ∈ ts, t.polish.residue = t.residue) (left : ParseTree) :
    (joinedTrees level left (polishAll ts)).residue =
      left.residue ++ ts.flatMap ParseTree.residue := by
  generalize hx : Pattern.tail level.operator (.phrase level.operand) = x at hf
  induction hf generalizing left with
  | last => simp [polishAll, joinedTrees]
  | @next t x s mark m us n ws a _ hitem _ _ ih =>
    cases hx
    obtain ⟨cs, rfl, -⟩ := (shape_phrase (by cases level <;> rfl)).1 hitem
    have hmark := h mark (by simp)
    have hnode := h (.node (.phrase level.operand) cs) (by simp)
    simp only [List.cons_append, List.nil_append, polishAll, joinedTrees]
    rw [ih (fun t ht => h t (by simp [ht])) _ rfl, residue_binary, hmark, hnode]
    simp
  | lexeme hl => rw [← hx] at hl; cases hl
  | _ => cases hx

theorem residue_reformed_single {p : Phrase} (hp : p = .unary ∨ p = .primary) (t : ParseTree) :
    (reformed (.phrase p) [t]).residue = t.residue := by
  rcases hp with rfl | rfl
  · unfold reformed
    split <;> simp_all
  · unfold reformed
    split <;> simp_all

/-- An operation keeps its leaves when it is polished, but for parentheses. -/
theorem residue_operation {p : Phrase} (hp : p.isOperation = true) {children : List ParseTree}
    (hf : Fits p.body children) (h : ∀ t ∈ children, t.polish.residue = t.residue) :
    (ParseTree.node (.phrase p) children).polish.residue =
      (ParseTree.node (.phrase p) children).residue := by
  rw [ParseTree.polish]
  cases p with
  | expression =>
    simp only [Phrase.body, Pattern.oneOf, shape_alt, shape_phrase (p := .conditionalExpression) rfl,
      shape_phrase (p := .chain .logicalOr) rfl] at hf
    rcases hf with ⟨cs, rfl, -⟩ | ⟨cs, rfl, -⟩ <;>
    · simpa [polishAll, reformed] using h _ List.mem_cons_self
  | conditionalExpression =>
    simp only [Phrase.body, Pattern.row, shape_seq, shape_token,
      shape_phrase (p := .expression) rfl, shape_phrase (p := .chain .logicalOr) rfl] at hf
    obtain ⟨_, _, _, rfl, ⟨ccs, rfl, -⟩, _, _, _, rfl, ⟨q, rfl, -⟩, _, _, _,
      rfl, ⟨acs, rfl, -⟩, _, _, _, rfl, ⟨r, rfl, -⟩, ⟨bcs, rfl, -⟩⟩ := hf
    simp only [List.cons_append, List.nil_append, List.forall_mem_cons] at h
    simp only [List.cons_append, List.nil_append, polishAll, reformed, expressionOf, residue_node,
      residue_raised, residue_asOperand, residue_settled, List.flatMap_cons, h]
    simp
  | chain level =>
    simp only [Phrase.body, Pattern.separated, shape_seq] at hf
    obtain ⟨_, _, ts, rfl, hfirst, htail⟩ := hf
    obtain ⟨cs, rfl, -⟩ := (shape_phrase (by cases level <;> rfl)).1 hfirst
    simp only [List.cons_append, List.nil_append, List.forall_mem_cons] at h
    simp only [List.cons_append, List.nil_append, polishAll, reformed]
    -- the operations of a level lean to the left, over all its operands
    rw [residue_joinedTrees htail h.2, h.1]
    simp
  | unary =>
    simp only [Phrase.body, Pattern.row, Pattern.oneOf, shape_alt, shape_seq, shape_token,
      shape_phrase (p := .stepExpression) rfl, shape_phrase (p := .primary) rfl] at hf
    rcases hf with ⟨cs, rfl, -⟩ | ⟨_, _, _, rfl, ⟨_, rfl, -⟩, hu⟩ | ⟨cs, rfl, -⟩
    · simpa [polishAll, residue_reformed_single] using h _ List.mem_cons_self
    · obtain ⟨cs, rfl, -⟩ := (shape_phrase rfl).1 hu
      simp only [List.cons_append, List.nil_append, List.forall_mem_cons] at h
      simp only [List.cons_append, List.nil_append, polishAll, reformed, residue_node,
        residue_asOperand, List.flatMap_cons, h]
    · simpa [polishAll, residue_reformed_single] using h _ List.mem_cons_self
  | primary =>
    -- whatever a primary is, it has one child
    have hone : ∃ t, children = [t] := by
      simp only [Phrase.body, Pattern.oneOf, shape_alt, shape_token,
        shape_phrase (p := .parenthesized) rfl, shape_phrase (p := .concatenation) rfl,
        shape_phrase (p := .systemCall) rfl, shape_phrase (p := .appliedCall) rfl,
        shape_phrase (p := .variableReference) rfl] at hf
      rcases hf with ⟨_, rfl, -⟩ | ⟨_, rfl, -⟩ | ⟨_, rfl, -⟩ | ⟨_, rfl, -⟩ | ⟨_, rfl, -⟩ |
        ⟨_, rfl, -⟩ | ⟨_, rfl, -⟩ <;> exact ⟨_, rfl⟩
    obtain ⟨t, rfl⟩ := hone
    simpa [polishAll, residue_reformed_single] using h t List.mem_cons_self
  | parenthesized =>
    simp only [Phrase.body, Pattern.row, shape_seq, shape_token,
      shape_phrase (p := .expression) rfl] at hf
    obtain ⟨_, _, _, rfl, ⟨l, rfl, ⟨start, text, rfl, hl⟩⟩, _, _, _, rfl, ⟨cs, rfl, -⟩,
      ⟨r, rfl, ⟨start', text', rfl, hr⟩⟩⟩ := hf
    -- the parentheses are what the residue leaves out
    have htext : text = "(" := hl.hasForm
    have htext' : text' = ")" := hr.hasForm
    subst htext htext'
    have hnode := h (.node (.phrase .expression) cs) (by simp)
    simp only [List.cons_append, List.nil_append, polishAll, reformed, hnode]
    simp
  | _ => cases hp

/-- Trees that fit a pattern keep their leaves when they are polished, but for parentheses. -/
theorem residue_polish {x : Pattern} {s a : Unit} {ts : List ParseTree}
    (h : Shape LexemeForm x s ts a) : ∀ t ∈ ts, t.polish.residue = t.residue := by
  refine h.forall_mem (fun _ ht => ?_) fun p ts _ _ _ hbody ih => ?_
  · obtain ⟨_, _, _, -, rfl, -⟩ | ⟨_, _, _, -, rfl, -⟩ | ⟨_, -, rfl⟩ := ht.cases <;> rfl
  · cases hp : p.isOperation with
    | true => exact residue_operation hp hbody ih
    | false =>
      simp only [polish_node hp, residue_node, List.flatMap_map, residue_settled]
      rw [List.flatMap_def, List.flatMap_def, List.map_congr_left fun t ht => ih t ht]

/-! ## Only separators without an item are left out -/

/-- No separator among the trees lacks its item. -/
def NoDangling (separators : List Token) (ts : List ParseTree) : Prop :=
  withoutDangling separators ts = ts

section NoDangling

/-- Without separators none dangles. -/
theorem noDangling_nil (ts : List ParseTree) : NoDangling [] ts := by
  induction ts with
  | nil => rfl
  | cons t rest ih => cases t <;> simp_all [NoDangling, withoutDangling]

variable {separators : List Token} {ts : List ParseTree}

theorem NoDangling.node (h : NoDangling separators ts) (label : Label)
    (children : List ParseTree) : NoDangling separators (.node label children :: ts) := by
  rw [NoDangling, withoutDangling, h]

theorem NoDangling.leaf (h : NoDangling separators ts) {t : Token} {start : Nat} {text : String}
    (ht : separators.contains t = false) : NoDangling separators (.leaf t start text :: ts) := by
  rw [NoDangling, withoutDangling, ht, h]
  rfl

theorem NoDangling.mark (h : NoDangling separators ts) {t : Token} {start : Nat} {text : String}
    (hs : startsWithItem ts = true) : NoDangling separators (.leaf t start text :: ts) := by
  rw [NoDangling, withoutDangling, hs, h]
  simp

/-- A phrase is a node. -/
theorem node_of_fits {p : Phrase} {s a : Unit} (h : Shape LexemeForm (.phrase p) s ts a) :
    ∃ label children, ts = [.node label children] := by
  cases h with
  | phrase => exact ⟨_, _, rfl⟩
  | @lexeme _ _ t _ hx h =>
    have := h.symbol
    cases t with
    | leaf t start text => cases this
    | node label children => exact ⟨label, children, rfl⟩

/-- In a list of phrases every separator has its item. -/
theorem noDangling_tail {p : Phrase} {t : Token} {s a : Unit}
    (h : Shape LexemeForm (.tail t (.phrase p)) s ts a) {rest : List ParseTree}
    (hr : NoDangling separators rest) : NoDangling separators (ts ++ rest) := by
  generalize hx : Pattern.tail t (.phrase p) = x at h
  induction h with
  | last => exact hr
  | next hmark hitem _ _ ih =>
    cases hx
    obtain ⟨start, text, rfl, -⟩ := hmark
    obtain ⟨label, cs, rfl⟩ := node_of_fits hitem
    exact NoDangling.mark ((ih rfl).node label cs) rfl
  | lexeme hl => rw [← hx] at hl; cases hl
  | _ => cases hx

theorem noDangling_separated {p : Phrase} {t : Token} {s a : Unit}
    (h : Shape LexemeForm (Pattern.separated (.phrase p) t) s ts a) {rest : List ParseTree}
    (hr : NoDangling separators rest) :
    NoDangling separators (ts ++ rest) ∧ startsWithItem (ts ++ rest) = true := by
  obtain ⟨us, _, vs, rfl, hitem, htail⟩ := shape_seq.1 h
  obtain ⟨label, cs, rfl⟩ := node_of_fits hitem
  simp only [List.cons_append, List.nil_append]
  exact ⟨(noDangling_tail htail hr).node label cs, rfl⟩

end NoDangling

/-- No separator among the children of a phrase lacks its item if they fit the phrase. -/
theorem noDangling_body {p : Phrase} {children : List ParseTree} (h : Fits p.body children) :
    NoDangling p.body.separators children := by
  have hnil : ∀ separators, NoDangling separators [] := fun _ => rfl
  -- two shapes of phrases with separators: a list, and a list between two other marks
  have listed : ∀ {q : Phrase} {t : Token} {ts},
      Fits (Pattern.separated (.phrase q) t) ts → ∀ separators, NoDangling separators ts := by
    intro q t ts h separators
    simpa using (noDangling_separated h (hnil separators)).1
  have enclosed : ∀ {q : Phrase} {t o c : Token} {ts}, t ≠ o → t ≠ c →
      Fits (Pattern.row (.token o) [Pattern.separated (.phrase q) t, .token c]) ts →
        NoDangling [t] ts := by
    intro q t o c ts ho hc h
    obtain ⟨_, _, _, rfl, hopen, hrest⟩ := shape_seq.1 h
    obtain ⟨_, _, _, rfl, hlist, hclose⟩ := shape_seq.1 hrest
    obtain ⟨_, rfl, start, text, rfl, -⟩ := shape_token.1 hopen
    obtain ⟨_, rfl, start', text', rfl, -⟩ := shape_token.1 hclose
    have hend : NoDangling [t] [.leaf c start' text'] :=
      (hnil [t]).leaf (by simpa using hc.symm)
    exact (noDangling_separated hlist hend).1.leaf (by simpa using ho.symm)
  cases p with
  | forInitDeclarations | forStep | variableAssignments | arguments | chain => exact listed h _
  | concatenation | lvalueConcatenation => exact enclosed (by decide) (by decide) h
  | «attribute» => exact enclosed (by decide) (by decide) h
  | hierarchicalName =>
    obtain ⟨_, _, _, rfl, hroot, hpath⟩ := shape_seq.1 h
    obtain ⟨hlist, hitem⟩ := noDangling_separated hpath (hnil _)
    rw [List.append_nil] at hlist hitem
    simp only [shape_opt, Pattern.row, shape_seq, shape_token] at hroot
    -- the dot behind `$root` is followed by the first name
    rcases hroot with ⟨rfl, -⟩ | ⟨_, _, _, rfl, ⟨_, rfl, start, text, rfl, -⟩, _, rfl, start', text',
      rfl, -⟩
    · exact hlist
    · exact (hlist.mark hitem).leaf (by decide)
  | forDeclaration =>
    obtain ⟨_, _, _, rfl, hvar, hrest⟩ := shape_seq.1 h
    obtain ⟨_, _, _, rfl, htype, hlist⟩ := shape_seq.1 hrest
    obtain ⟨label, cs, rfl⟩ := node_of_fits htype
    -- `var` and the type stand in front of the list
    have htyped : NoDangling [.comma] (.node label cs :: _) :=
      NoDangling.node (listed hlist [.comma]) label cs
    simp only [shape_opt, shape_token] at hvar
    rcases hvar with ⟨rfl, -⟩ | ⟨_, rfl, start, text, rfl, -⟩
    · exact htyped
    · exact htyped.leaf rfl
  | _ => exact noDangling_nil _

theorem keptAll_eq (separators : List Token) (ts : List ParseTree) : keptAll separators ts =
    String.join ((withoutDangling separators ts).map ParseTree.kept) := by
  fun_induction withoutDangling separators ts with
  | case1 => rfl
  | case2 t start text rest hdrop ih => rw [keptAll, if_pos hdrop, ih]
  | case3 t start text rest hdrop ih =>
    rw [keptAll, if_neg hdrop, ih, List.map_cons, String.join_cons]
  | case4 label children rest ih => rw [keptAll, ih, List.map_cons, String.join_cons]

theorem leafTextAll_eq (ts : List ParseTree) :
    leafTextAll ts = String.join (ts.map ParseTree.leafText) := by
  induction ts with
  | nil => rfl
  | cons t rest ih => rw [leafTextAll, ih, List.map_cons, String.join_cons]

theorem mem_of_mem_withoutDangling {separators : List Token} {ts : List ParseTree} {t : ParseTree}
    (h : t ∈ withoutDangling separators ts) : t ∈ ts := by
  fun_induction withoutDangling separators ts with
  | case1 => exact h
  | case2 u start text rest _ ih => exact List.mem_cons_of_mem _ (ih h)
  | case3 u start text rest _ ih =>
    rcases List.mem_cons.1 h with rfl | h
    · exact List.mem_cons_self
    · exact List.mem_cons_of_mem _ (ih h)
  | case4 label children rest ih =>
    rcases List.mem_cons.1 h with rfl | h
    · exact List.mem_cons_self
    · exact List.mem_cons_of_mem _ (ih h)

theorem startsWithItem_tidy (ts : List ParseTree) :
    startsWithItem (tidyAll ts) = startsWithItem ts := by
  cases ts with
  | nil => rfl
  | cons t rest => cases t <;> rfl

theorem withoutDangling_tidy (separators : List Token) (ts : List ParseTree) :
    withoutDangling separators (tidyAll ts) = tidyAll (withoutDangling separators ts) := by
  fun_induction withoutDangling separators ts with
  | case1 => rfl
  | case2 t start text rest hdrop ih =>
    rw [tidyAll, ParseTree.tidy, withoutDangling, startsWithItem_tidy, if_pos hdrop, ih]
  | case3 t start text rest hdrop ih =>
    rw [tidyAll, ParseTree.tidy, withoutDangling, startsWithItem_tidy, if_neg hdrop, ih]
    rfl
  | case4 label children rest ih =>
    rw [tidyAll, ParseTree.tidy, withoutDangling, ih]
    rfl

theorem startsWithItem_append_leaf (ts : List ParseTree) (t : Token) (start : Nat) (text : String) :
    startsWithItem (ts ++ [ParseTree.leaf t start text]) = startsWithItem ts := by
  cases ts with
  | nil => rfl
  | cons u rest => cases u <;> rfl

/-- A separator at the end lacks its item. -/
theorem withoutDangling_append {separators : List Token} {t : Token}
    (ht : separators.contains t = true) (ts : List ParseTree) (start : Nat) (text : String) :
    withoutDangling separators (ts ++ [ParseTree.leaf t start text]) = withoutDangling separators ts := by
  induction ts with
  | nil =>
    simp only [List.nil_append, withoutDangling, startsWithItem, ht]
    rfl
  | cons u rest ih => cases u <;> simp [withoutDangling, startsWithItem_append_leaf, ih]

/-- Without the separators that lack an item, the children of a phrase are tidy. -/
theorem tidyAll_withoutDangling {p : Phrase} {children : List ParseTree}
    (h : Fits p.body (Label.tidied (.phrase p) (tidyAll children))) :
    tidyAll (withoutDangling p.body.separators children) =
      Label.tidied (.phrase p) (tidyAll children) := by
  have hown := noDangling_body h
  rw [NoDangling] at hown
  rw [← withoutDangling_tidy]
  by_cases hp : p = .forDeclaration
  · subst hp
    simp only [Label.tidied] at hown ⊢
    rcases withoutLastComma_cases (tidyAll children) with hsame | ⟨start, text, hsplit⟩
    · rw [hsame] at hown ⊢
      exact hown
    · rw [← hown]
      conv => lhs; rw [hsplit]
      exact withoutDangling_append rfl _ start text
  · rw [tidied_of_ne hp] at hown ⊢
    exact hown

/-- The tree is a leaf of some token or a node of some phrase. -/
def IsFitting (t : ParseTree) : Prop :=
  (∃ u, IsLeaf u t) ∨ ∃ p, Fits (.phrase p) [t]

theorem isFitting_of_fits {x : Pattern} {s a : Unit} {ts : List ParseTree}
    (h : Shape LexemeForm x s ts a) : ∀ t ∈ ts, IsFitting t := by
  refine h.forall_mem (fun hx ht => ?_) fun p ts _ _ hp h _ => Or.inr ⟨p, Shape.phrase hp h⟩
  have hshape := Shape.lexeme hx ht
  obtain ⟨k, start, text, -, rfl, hw⟩ | ⟨_, _, _, rfl, -, -⟩ | ⟨_, rfl, -⟩ := ht.cases
  · exact Or.inl ⟨k, start, text, rfl, hw⟩
  · exact Or.inr ⟨_, hshape⟩
  · exact Or.inr ⟨_, hshape⟩

/-- The children of a phrase, tidied, are the ones without dangling separators, and they fit. -/
theorem children_of_fits {p : Phrase} {children : List ParseTree}
    (h : Fits (.phrase p) [(ParseTree.node (.phrase p) children).tidy]) :
    tidyAll (withoutDangling p.body.separators children) =
      Label.tidied (.phrase p) (tidyAll children) ∧
      ∀ t ∈ Label.tidied (.phrase p) (tidyAll children), IsFitting t := by
  rw [ParseTree.tidy] at h
  rcases h.node_cases with ⟨-, hbody⟩ | ⟨rfl, k, start, text, hone, hname⟩ | ⟨rfl, start, hone⟩
  · exact ⟨tidyAll_withoutDangling hbody, isFitting_of_fits hbody⟩
  · refine ⟨congrArg tidyAll (noDangling_nil children), fun t ht => ?_⟩
    rw [hone] at ht
    cases List.mem_singleton.1 ht
    exact Or.inl ⟨k, start, text, rfl, hname.1⟩
  · refine ⟨congrArg tidyAll (noDangling_nil children), fun t ht => ?_⟩
    rw [hone] at ht
    cases List.mem_singleton.1 ht
    exact Or.inl ⟨.equals, start, "=", rfl, [], by decide⟩

/-- A leaf that is kept keeps its text; the end of the input has none. -/
theorem kept_leaf {t u : Token} {start : Nat} {text : String}
    (h : IsLeaf u (.leaf t start text)) : (ParseTree.leaf t start text).kept = text := by
  obtain ⟨start', text', heq, hw⟩ := h
  cases heq
  cases t with
  | endOfInput =>
    have : text = "" := hw.hasForm
    rw [this]
    rfl
  | _ => rfl

mutual

/-- What is kept of a tree is the leaves of the tidy tree. -/
theorem kept_of_isFitting : ∀ t : ParseTree, IsFitting t.tidy → t.kept = t.tidy.leafText
  | .leaf t start text, h => by
    rcases h with ⟨u, h⟩ | ⟨p, h⟩
    · rw [ParseTree.tidy] at h
      rw [kept_leaf h, ParseTree.tidy, ParseTree.leafText]
    · obtain ⟨label, children, heq⟩ := node_of_fits h
      cases heq
  | .node label children, h => by
    rcases h with ⟨u, start, text, heq, -⟩ | ⟨p, h⟩
    · rw [ParseTree.tidy] at heq
      cases heq
    · have hp : label = .phrase p := by
        cases h with
        | phrase => rfl
        | lexeme hx h =>
          have := h.symbol
          cases label with
          | whole => cases this
          | phrase q =>
            cases this
            rfl
      subst hp
      obtain ⟨htidy, hfit⟩ := children_of_fits h
      rw [ParseTree.kept, ParseTree.tidy, ParseTree.leafText, Label.separators, keptAll_eq,
        ← htidy, leafTextAll_eq, tidyAll_eq_map, List.map_map]
      rw [← htidy, tidyAll_eq_map] at hfit
      refine congrArg String.join (List.map_congr_left fun t ht => ?_)
      exact kept_of_mem children t (mem_of_mem_withoutDangling ht)
        (hfit _ (List.mem_map_of_mem ht))

/-- What is kept of some trees is the leaves of the tidy trees. -/
theorem kept_of_mem : ∀ ts : List ParseTree, ∀ t ∈ ts, IsFitting t.tidy →
    t.kept = t.tidy.leafText
  | [], _, h, _ => by cases h
  | u :: rest, t, h, hf => by
    rcases List.mem_cons.1 h with heq | h
    · rw [heq] at hf ⊢
      exact kept_of_isFitting u hf
    · exact kept_of_mem rest t h hf

end

end VerilogLoops.Grammar

namespace VerilogLoops

open VerilogLoops.Grammar VerilogLoops.Ast

/-- A loop statement is rendered as the ink of its polished tree. -/
theorem render_eq_ink {p : Phrase} (hp : p = .loop ∨ p = .loopUnit) {s a : Place} {t : ParseTree}
    (h : Takes (.phrase p) s [t] a) {locate : Nat → Position} {v : Value}
    (hv : buildTree locate t = .ok (.one v)) : v.render = .ok t.tidy.polish.ink := by
  have hdanglers : p.danglers = [] := by
    rcases hp with rfl | rfl <;> rfl
  obtain ⟨b, hb, hbtidy⟩ := exists_buildTree locate hdanglers h
  rw [hv] at hb
  cases hb
  have hplain : isPlain p = true := by
    rcases hp with rfl | rfl <;> rfl
  obtain ⟨u, hu, -, hrender⟩ := built_of_fits (h.reads_phrase hdanglers).fits hplain hbtidy
  cases hu
  exact hrender

/-- **No token is lost.** What is rendered is, up to white space and parentheses, what the leaves
of the parse tree say, but for separators that no item follows and the end of the input. -/
theorem squeezed_render {origin code : String} {v : Value} (h : parse origin code = .ok v) :
    ∃ tree after s, parseTree (.phrase .loopUnit) false code.toList = .ok (tree, after) ∧
      v.render = .ok s ∧ squeezed s = squeezed tree.kept := by
  obtain ⟨t, a, ht, hb⟩ := parse_eq_ok.1 h
  have hfits : Fits (.phrase .loopUnit) [t.tidy] := (ht.reads_phrase rfl).fits
  refine ⟨t, a, _, ?_, render_eq_ink (Or.inr rfl) ht (buildIn_eq_ok.1 hb), ?_⟩
  · rcases parseTree_prefix (.phrase .loopUnit) code.toList with ⟨t', a', ht', heq⟩ | ⟨hr, -⟩
    · obtain ⟨htree, rfl⟩ := ht.unique ht'
      cases htree
      exact heq
    · exact absurd ht hr.not_takes
  · rw [squeezed_ink, kept_of_isFitting t (Or.inr ⟨_, hfits⟩)]
    exact residue_polish hfits t.tidy List.mem_cons_self

/-- The comma behind the first declaration dangles, and the parentheses around `b` are not rendered. -/
theorem squeezed_render_declarations :
    ∃ v tree after s,
      parse "f" "for (int i = 0, int j = 1; i < 3; i++) a = (b);" = .ok v ∧
      parseTree (.phrase .loopUnit) false
        "for (int i = 0, int j = 1; i < 3; i++) a = (b);".toList = .ok (tree, after) ∧
      v.render = .ok s ∧ squeezed s = squeezed tree.kept := by
  obtain ⟨v, hv⟩ : ∃ v, parse "f" "for (int i = 0, int j = 1; i < 3; i++) a = (b);" = .ok v := by
    rw [parse_afresh String.toList_ofList]
    exact exists_of_isOk (by decide +kernel)
  obtain ⟨tree, after, s, h⟩ := squeezed_render hv
  exact ⟨v, tree, after, s, hv, h⟩

end VerilogLoops
