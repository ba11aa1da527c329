import VerilogLoops.Proofs.Composition.Names
import VerilogLoops.Proofs.Composition.Expressions
import VerilogLoops.Proofs.Composition.Loops
import VerilogLoops.Proofs.Building
import VerilogLoops.Proofs.Tiling

/-!
# Where values stand

The leaves of a tree tile a part of the text, so the nodes built from the tree are spread over this
part: those of one child stand in front of those of the next, and the nodes in the fields of a node
are spread over the part that belongs to the node. `Spread` says this of some values, together with
what every single node satisfies. Composing values keeps them spread (`Grown.spread`), so one
induction over the tree gives the types of all fields and the places of all nodes.

> `isSpread_of_fits`: what is built from trees that fit is spread over the text that they tile.
-/

namespace VerilogLoops.Ast

open VerilogLoops.Text VerilogLoops.Lexical VerilogLoops.Grammar

/-! ## Spread values -/

/-- What a node at an offset satisfies: its fields are as the data model says, and the text it
begins with stands there. -/
structure Stands (code : List Char) (offset : Nat) (kind : Kind) (fields : List Value) : Prop where
  admits : kind.admits fields = true
  heading : ∀ w, kind.heading fields = some w → w.toList <+: code.drop offset

/-- The values are texts and nodes that follow each other through the text between two offsets. -/
inductive Spread (code : List Char) (locate : Nat → Position) : Nat → Nat → List Value → Prop
  | nil {lo hi : Nat} (h : lo ≤ hi) : Spread code locate lo hi []
  | text {lo mid hi : Nat} {s : String} {rest : List Value} (h : lo < mid)
    (hr : Spread code locate mid hi rest) : Spread code locate lo hi (.text s :: rest)
  | node {lo o mid hi : Nat} {kind : Kind} {fields rest : List Value} (hlo : lo ≤ o) (ho : o < mid)
    (hs : Stands code o kind fields) (hf : Spread code locate o mid (headsOf fields))
    (hr : Spread code locate mid hi rest) :
    Spread code locate lo hi (.node kind (locate o) fields :: rest)

section Spread

variable {code : List Char} {locate : Nat → Position} {lo hi : Nat} {vs us : List Value}

theorem Spread.le (h : Spread code locate lo hi vs) : lo ≤ hi := by
  induction h <;> omega

theorem Spread.lt (h : Spread code locate lo hi vs) (hne : vs ≠ []) : lo < hi := by
  cases h with
  | nil => exact absurd rfl hne
  | text h hr => exact Nat.lt_of_lt_of_le h hr.le
  | node hlo ho _ _ hr => exact Nat.lt_of_le_of_lt hlo (Nat.lt_of_lt_of_le ho hr.le)

theorem Spread.widen (h : Spread code locate lo hi vs) {lo' : Nat} (hl : lo' ≤ lo) :
    Spread code locate lo' hi vs := by
  cases h with
  | nil h => exact .nil (Nat.le_trans hl h)
  | text h hr => exact .text (Nat.lt_of_le_of_lt hl h) hr
  | node hlo ho hs hf hr => exact .node (Nat.le_trans hl hlo) ho hs hf hr

theorem Spread.append {mid : Nat} (h : Spread code locate lo mid vs)
    (h' : Spread code locate mid hi us) : Spread code locate lo hi (vs ++ us) := by
  induction h with
  | nil h => exact h'.widen h
  | text h _ ih => exact .text h (ih h')
  | node hlo ho hs hf _ _ ih => exact .node hlo ho hs hf (ih h')

theorem Spread.split (h : Spread code locate lo hi (vs ++ us)) :
    ∃ mid, Spread code locate lo mid vs ∧ Spread code locate mid hi us := by
  induction vs generalizing lo with
  | nil => exact ⟨lo, .nil (Nat.le_refl lo), h⟩
  | cons v vs ih =>
    cases h with
    | text h hr =>
      obtain ⟨mid, hv, hu⟩ := ih hr
      exact ⟨mid, .text h hv, hu⟩
    | node hlo ho hs hf hr =>
      obtain ⟨mid, hv, hu⟩ := ih hr
      exact ⟨mid, .node hlo ho hs hf hv, hu⟩

theorem Spread.sublist (h : Spread code locate lo hi vs) (hs : us.Sublist vs) :
    Spread code locate lo hi us := by
  induction h generalizing us with
  | nil h =>
    rw [List.sublist_nil.1 hs]
    exact .nil h
  | text h hr ih =>
    cases hs with
    | cons _ hs => exact (ih hs).widen (Nat.le_of_lt h)
    | cons_cons _ hs => exact .text h (ih hs)
  | node hlo ho hst hf hr _ ih =>
    cases hs with
    | cons _ hs => exact (ih hs).widen (Nat.le_trans hlo (Nat.le_of_lt ho))
    | cons_cons _ hs => exact .node hlo ho hst hf (ih hs)

theorem Spread.heads (h : Spread code locate lo hi vs) :
    Spread code locate lo hi (headsOf vs) := by
  induction h with
  | nil h => exact .nil h
  | text h _ ih => exact ih.widen (Nat.le_of_lt h)
  | node hlo ho hs hf _ _ ih => exact .node hlo ho hs hf ih

/-- Composing values at the head of a part of the text keeps them spread over it. -/
theorem Grown.spread {lead : Option String} (h : Grown (locate lo) lead vs us)
    (hv : Spread code locate lo hi vs) (hl : ∀ w, lead = some w → w.toList <+: code.drop lo) :
    Spread code locate lo hi us := by
  induction h with
  | same => exact hv
  | pick _ hs ih => exact ih.sublist hs
  | node us _ hne hs ha hw ih =>
    obtain ⟨mid, hus, hrest⟩ := ih.split
    exact .node (Nat.le_refl lo) (hus.lt hne) ⟨ha, fun w hh => hl w (hw w hh)⟩
      (hus.heads.sublist hs) hrest

end Spread

/-! ## The nodes of composed values -/

theorem mem_nodesOfAll {n : Value} {vs : List Value} :
    n ∈ nodesOfAll vs ↔ ∃ v ∈ vs, n ∈ v.nodes := by
  induction vs with
  | nil => simp [nodesOfAll]
  | cons v rest ih => simp [nodesOfAll, ih]

theorem nodesOfAll_append (vs us : List Value) :
    nodesOfAll (vs ++ us) = nodesOfAll vs ++ nodesOfAll us := by
  induction vs with
  | nil => rfl
  | cons v rest ih => simp [nodesOfAll, ih]

mutual

theorem nodesOfAll_heads : ∀ v : Value, nodesOfAll v.heads = v.nodes
  | .seq items => by rw [heads_seq, nodesOfAll_headsOf items]; rfl
  | .node .. => by simp [nodesOfAll]
  | .null | .bool _ | .int _ | .real _ | .text _ => rfl

/-- The nodes of some values are those of the nodes among them. -/
theorem nodesOfAll_headsOf : ∀ vs : List Value, nodesOfAll (headsOf vs) = nodesOfAll vs
  | [] => rfl
  | v :: rest => by
    rw [headsOf_cons, nodesOfAll_append, nodesOfAll_heads v, nodesOfAll_headsOf rest]
    rfl

end

theorem mem_nodesOfAll_of_sublist {n : Value} {vs us : List Value} (h : n ∈ nodesOfAll us)
    (hs : us.Sublist vs) : n ∈ nodesOfAll vs := by
  obtain ⟨v, hv, hn⟩ := mem_nodesOfAll.1 h
  exact mem_nodesOfAll.2 ⟨v, hs.subset hv, hn⟩

/-- A node of composed values is a node of what they are composed of or stands at the position, where its
own text, if it has one, is the leading one. -/
theorem Grown.nodes {pos : Position} {lead : Option String} {vs us : List Value}
    (h : Grown pos lead vs us) {n : Value} (hn : n ∈ nodesOfAll us) :
    n ∈ nodesOfAll vs ∨ ∃ kind fields, n = .node kind pos fields ∧
      ∀ w, kind.heading fields = some w → lead = some w := by
  induction h with
  | same => exact Or.inl hn
  | pick _ hs ih => exact ih (mem_nodesOfAll_of_sublist hn hs)
  | @node _ kind fields us _ _ hs _ hl ih =>
    simp only [nodesOfAll, Value.nodes, List.cons_append, List.mem_cons, List.mem_append] at hn
    rcases hn with rfl | hn | hn
    · exact Or.inr ⟨kind, fields, rfl, hl⟩
    · rw [← nodesOfAll_headsOf] at hn
      have hus := mem_nodesOfAll_of_sublist hn hs
      rw [nodesOfAll_headsOf] at hus
      exact ih (by rw [nodesOfAll_append]; exact List.mem_append_left _ hus)
    · exact ih (by rw [nodesOfAll_append]; exact List.mem_append_right _ hn)

/-! ## From the form of a tree to its values -/

theorem mem_valuesOf {locate : Nat → Position} {ts : List ParseTree} {v : Value} :
    v ∈ valuesOf (ts.map (pieceOf locate)) ↔ ∃ t ∈ ts, v ∈ valuesFrom locate t := by
  rw [valuesOf, List.flatMap_map, List.mem_flatMap]
  rfl

/-- Every phrase but identifiers, which are lexemes, composes its values. -/
theorem grows : ∀ p : Phrase, p ≠ .identifier → Grows p
  -- one lemma for each phrase; near-identical ones share theirs
  | .comment, _ => grows_comment
  | .loopUnit, _ => grows_loopUnit
  | .assignSign, _ => grows_assignSign
  | .variableName, _ | .indexName, _ => grows_rename (by simp)
  | .hierarchicalName, _ => grows_hierarchicalName
  | .packageScope, _ => grows_packageScope
  | .classHandle, _ => grows_classHandle
  | .qualifier, _ => grows_qualifier
  | .arrayName, _ | .routineName, _ => grows_scopedName (by simp)
  | .loop, _ => grows_loop
  | .foreverLoop, _ => grows_foreverLoop
  | .repeatLoop, _ | .whileLoop, _ => grows_headed (by simp)
  | .forLoop, _ => grows_forLoop
  | .doWhileLoop, _ => grows_doWhileLoop
  | .foreachLoop, _ => grows_foreachLoop
  | .forInit, _ => grows_forInit
  | .forInitAssignments, _ => grows_forInitAssignments
  | .forInitDeclarations, _ => grows_forInitDeclarations
  | .forDeclaration, _ => grows_forDeclaration
  | .forBinding, _ => grows_forBinding
  | .forStep, _ => grows_forStep
  | .forStepItem, _ => grows_forStepItem
  | .loopVariables, _ => grows_loopVariables
  | .statementOrNull, _ => grows_statementOrNull
  | .nullStatement, _ => grows_nullStatement
  | .statement, _ => grows_statement
  | .statementLabel, _ => grows_statementLabel
  | .statementItem, _ => grows_statementItem
  | .block, _ => grows_block
  | .conditional, _ => grows_conditional
  | .jump, _ => grows_jump
  | .assignmentStatement, _ => grows_assignmentStatement
  | .stepStatement, _ => grows_stepStatement
  | .callStatement, _ => grows_callStatement
  | .attribute, _ => grows_attribute
  | .attributeEntry, _ => grows_attributeEntry
  | .dataType, _ => grows_dataType
  | .integerVectorType, _ => grows_integerVectorType
  | .integerAtomType, _ => grows_integerAtomType
  | .nonIntegerType, _ | .simpleType, _ => grows_builtinType (by simp)
  | .namedType, _ => grows_namedType
  | .packedDimension, _ => grows_packedDimension
  | .variableAssignments, _ => grows_variableAssignments
  | .variableAssignment, _ => grows_variableAssignment
  | .operatorAssignment, _ => grows_operatorAssignment
  | .stepExpression, _ => grows_stepExpression
  | .lvalue, _ => grows_lvalue
  | .lvalueConcatenation, _ => grows_lvalueConcatenation
  | .variableReference, _ => grows_variableReference
  | .select, _ => grows_select
  | .call, _ => grows_call
  | .systemCall, _ => grows_systemCall
  | .routineCall, _ => grows_routineCall
  | .appliedCall, _ => grows_appliedCall
  | .arguments, _ => grows_arguments
  | .argument, _ => grows_argument
  | .namedArgument, _ => grows_namedArgument
  | .expression, _ => grows_expression
  | .conditionalExpression, _ => grows_conditionalExpression
  | .chain level, _ => grows_chain level
  | .unary, _ => grows_unary
  | .primary, _ => grows_primary
  | .parenthesized, _ => grows_parenthesized
  | .concatenation, _ => grows_concatenation

mutual

/-- The tree and all trees in it. -/
def subtrees : ParseTree → List ParseTree
  | .leaf t start text => [.leaf t start text]
  | .node label children => .node label children :: subtreesOf children

/-- The trees and all trees in them. -/
def subtreesOf : List ParseTree → List ParseTree
  | [] => []
  | t :: rest => subtrees t ++ subtreesOf rest

end

/-- The node is in what is built from the tree, but not in what is built from a child of it, and the
first leaf of the tree starts at the offset. -/
structure MadeAt (locate : Nat → Position) (n : Value) (u : ParseTree) (offset : Nat) : Prop where
  made : n ∈ nodesOfAll (valuesFrom locate u)
  own : ∀ c ∈ u.children, n ∉ nodesOfAll (valuesFrom locate c)
  first : u.leaves.head?.map Leaf.start = some offset

variable {code : List Char} {locate : Nat → Position}

/-- What is built from the tree is of the right sort, spread over the text that the leaves of the
tree tile, and every node in it stands at the first leaf of the tree that it is made of. -/
structure IsSpread (code : List Char) (locate : Nat → Position) (t : ParseTree) : Prop where
  isMade : IsMade Sorts locate t
  ne_whole : ∀ children, t ≠ .node .whole children
  starts : ∃ l ls, t.leaves = l :: ls ∧ l.start = t.start
  spread : ∀ {offset stop : Nat}, Tiles code offset t.leaves stop →
    (∀ l ∈ t.leaves, l.IsSlice code) →
      Spread code locate t.start stop (valuesFrom locate t)
  own : ∀ n ∈ nodesOfAll (valuesFrom locate t), ∃ u ∈ subtrees t,
    MadeAt locate n u u.start ∧ ∃ kind fields, n = .node kind (locate u.start) fields

theorem mem_subtreesOf {u : ParseTree} {ts : List ParseTree} :
    u ∈ subtreesOf ts ↔ ∃ t ∈ ts, u ∈ subtrees t := by
  induction ts with
  | nil => simp [subtreesOf]
  | cons t rest ih => simp [subtreesOf, ih]

theorem isPrefix_of_isSlice {l : Leaf} (h : l.IsSlice code) :
    l.text.toList <+: code.drop l.start := by
  unfold Leaf.IsSlice at h
  rw [← h]
  exact List.take_prefix _ _

/-- A leaf is a text, or a node of its own. -/
theorem spread_leaf {t : Token} {start stop : Nat} {text : String} (h : t.HasForm text)
    (hslice : text.toList <+: code.drop start)
    (hne : t ≠ .endOfInput → start < stop) (hle : start ≤ stop) :
    Spread code locate start stop (buildLeaf t (locate start) text).values := by
  have ofNode : ∀ {kind : Kind} {fields : List Value}, start < stop → headsOf fields = [] →
      Stands code start kind fields →
      Spread code locate start stop [.node kind (locate start) fields] := by
    intro kind fields hlt hheads hs
    refine .node (Nat.le_refl start) hlt hs ?_ (.nil (Nat.le_refl stop))
    rw [hheads]
    exact .nil hle
  cases t with
  | endOfInput => exact .nil hle
  | number => exact ofNode (hne (by simp)) rfl ⟨rfl, fun w hw => by cases hw; exact hslice⟩
  | string =>
    obtain ⟨inner, rfl⟩ := h
    have hinner : String.ofList (("\"" ++ inner ++ "\"").toList.drop 1).dropLast = inner := by
      simp
    rw [buildLeaf, hinner]
    exact ofNode (hne (by simp)) rfl ⟨rfl, fun w hw => by cases hw; exact hslice⟩
  | _ => exact .text (hne (by simp)) (.nil (Nat.le_refl stop))

/-- A leaf stands where it starts. -/
theorem isSpread_leaf {t : Token} {start : Nat} {text : String} (h : t.Writes text) :
    IsSpread code locate (.leaf t start text) := by
  refine ⟨⟨⟨_, rfl⟩, fun _ hq => by cases hq⟩, by simp, ⟨_, [], rfl, rfl⟩, ?_,
    fun n hn => ⟨_, List.mem_singleton_self _, ⟨hn, by simp [ParseTree.children], rfl⟩, ?_⟩⟩
  · rintro offset stop ⟨-, -, hne, rfl⟩ hslice
    refine spread_leaf h.hasForm
      (isPrefix_of_isSlice (l := ⟨t, start, text⟩) (hslice _ List.mem_cons_self))
      (fun ht => ?_) (Nat.le_add_right _ _)
    rw [if_neg ht] at hne
    have hpos : text.length ≠ 0 := fun h0 => hne (String.length_eq_zero_iff.1 h0)
    show start < start + text.length
    omega
  · show ∃ kind fields, n = .node kind (locate start) fields
    cases t with
    | number | string =>
      cases List.mem_singleton.1 hn
      exact ⟨_, _, rfl⟩
    | _ => cases hn

/-- What is built from the trees is spread over the text that their leaves tile. -/
theorem spread_of_tiles {ts : List ParseTree} (h : ∀ t ∈ ts, IsSpread code locate t)
    {offset stop : Nat} (htiles : Tiles code offset (leavesOf ts) stop)
    (hslice : ∀ l ∈ leavesOf ts, l.IsSlice code) :
    Spread code locate offset stop (valuesOf (ts.map (pieceOf locate))) := by
  induction ts generalizing offset with
  | nil =>
    cases htiles
    exact .nil (Nat.le_refl _)
  | cons t rest ih =>
    obtain ⟨mid, hfirst, hrest⟩ := htiles.split
    have ht := h t List.mem_cons_self
    obtain ⟨l, ls, hl, hstart⟩ := ht.starts
    have hle : offset ≤ t.start := by
      rw [hl] at hfirst
      rw [← hstart]
      exact hfirst.1
    exact ((ht.spread hfirst fun l hl => hslice l (List.mem_append_left _ hl)).widen hle).append
      (ih (fun u hu => h u (List.mem_cons_of_mem t hu)) hrest
        fun l hl => hslice l (List.mem_append_right _ hl))

/-- A phrase composes what is built from its children. -/
theorem isSpread_node {p : Phrase} (hp : p ≠ .identifier) {children : List ParseTree}
    (hne : children ≠ []) (hforms : Forms Sorts p.body (children.map (pieceOf locate)))
    (hchildren : ∀ t ∈ children, IsSpread code locate t) :
    IsSpread code locate (.node (.phrase p) children) := by
  obtain ⟨b, hb, hgrown, hsorts⟩ :=
    grows p hp (locate (ParseTree.node (.phrase p) children).start) _ hforms
  have hbuild : buildTree locate (.node (.phrase p) children) = .ok b := by
    rw [buildTree_phrase (buildAll_of_isMade fun t ht => (hchildren t ht).isMade)]
    exact hb
  have hvalues : valuesFrom locate (.node (.phrase p) children) = b.values := by
    rw [valuesFrom, hbuild]
  obtain ⟨first, rest, rfl⟩ := List.exists_cons_of_ne_nil hne
  obtain ⟨l, ls, hleaves, hstart⟩ := (hchildren first List.mem_cons_self).starts
  -- in turn: what is built, where it starts, how far it is spread, and whose its nodes are
  refine ⟨⟨⟨b, hbuild⟩, fun q hq => ?_⟩, by simp,
    ⟨l, ls ++ leavesOf rest, by simp [hleaves], hstart⟩, fun htiles hslice => ?_, fun n hn => ?_⟩
  · cases hq
    rw [hvalues]
    exact hsorts
  · rw [hvalues]
    refine hgrown.spread ?_ fun w hw => ?_
    · -- the children tile the text of the node, which starts where the first leaf does
      refine spread_of_tiles hchildren ?_ hslice
      simp only [leaves_node, leavesOf_cons, hleaves, List.cons_append] at htiles ⊢
      obtain ⟨-, -, hends, hrest⟩ := htiles
      refine ⟨Nat.le_of_eq hstart.symm, ?_, hends, hrest⟩
      rw [show l.start - (ParseTree.node (.phrase p) (first :: rest)).start = 0 from
        Nat.sub_eq_zero_of_le (Nat.le_of_eq hstart), List.take_zero]
      rfl
    · -- only a leaf in front is a text that a node may begin with
      cases first with
      | leaf t start text =>
        cases hw
        exact isPrefix_of_isSlice (l := ⟨t, start, text⟩) (hslice _ (by simp))
      | node label cs =>
        cases label with
        | phrase q => cases hw
        | whole => exact absurd rfl ((hchildren _ List.mem_cons_self).ne_whole cs)
  · by_cases hchild : ∃ c ∈ first :: rest, n ∈ nodesOfAll (valuesFrom locate c)
    · obtain ⟨c, hc, hn⟩ := hchild
      obtain ⟨u, hu, hmade⟩ := (hchildren c hc).own n hn
      exact ⟨u, List.mem_cons_of_mem _ (mem_subtreesOf.2 ⟨c, hc, hu⟩), hmade⟩
    · -- a node that is in no child is the own one of the phrase, made at its first leaf
      refine ⟨_, List.mem_cons_self, ⟨hn, fun c hc hm => hchild ⟨c, hc, hm⟩, ?_⟩, ?_⟩
      · simp only [leaves_node, leavesOf_cons, hleaves, List.cons_append, List.head?_cons,
          Option.map_some, hstart]
        rfl
      · rw [hvalues] at hn
        rcases hgrown.nodes hn with hn | ⟨kind, fields, rfl, -⟩
        · obtain ⟨v, hv, hn⟩ := mem_nodesOfAll.1 hn
          obtain ⟨c, hc, hv⟩ := mem_valuesOf.1 hv
          exact absurd ⟨c, hc, mem_nodesOfAll.2 ⟨v, hv, hn⟩⟩ hchild
        · exact ⟨kind, fields, rfl⟩

theorem takeWhile_of_append {p : Char → Bool} {cs rest : List Char}
    (h : (cs ++ rest).takeWhile p = cs) : cs.takeWhile p = cs := by
  have hall : ∀ c ∈ cs, p c = true := by
    rw [← h]
    exact List.all_eq_true.1 List.all_takeWhile
  have htake : (cs ++ []).takeWhile p = cs ++ [].takeWhile p := List.takeWhile_append_of_pos hall
  simpa using htake

theorem identifier?_of_append {cs rest : List Char}
    (h : identifier? (cs ++ rest) = some cs.length) : identifier? cs = some cs.length := by
  have hall := takeWhile_of_append (takeWhile_of_identifier? h)
  cases cs with
  | nil =>
    obtain ⟨hpos, -⟩ := identifier?_within h
    exact absurd hpos (by simp)
  | cons c more =>
    simp only [List.cons_append, identifier?] at h ⊢
    split at h
    · next hc =>
      rw [List.takeWhile_cons_of_pos (isIdentifierCharacter_of_isIdentifierStart hc),
        List.cons.injEq] at hall
      rw [if_pos hc, hall.2, List.length_cons, Nat.add_comm]
    · cases h

theorem escapedIdentifier?_of_append {cs rest : List Char}
    (h : escapedIdentifier? (cs ++ rest) = some cs.length) :
    escapedIdentifier? cs = some cs.length := by
  cases cs with
  | nil =>
    obtain ⟨hpos, -⟩ := escapedIdentifier?_within h
    exact absurd hpos (by simp)
  | cons c more =>
    unfold escapedIdentifier? at h
    split at h
    · next name heq =>
      rw [List.cons_append, List.cons.injEq] at heq
      obtain ⟨rfl, rfl⟩ := heq
      split at h
      · cases h
      · next hne =>
        have hlen := Option.some.inj h
        rw [List.length_cons, Nat.add_comm, Nat.add_right_cancel_iff] at hlen
        have hmore : (more ++ rest).takeWhile isGraphic = more :=
          (List.prefix_of_prefix_length_le (List.takeWhile_prefix _) (List.prefix_append _ _)
            (Nat.le_of_eq hlen)).eq_of_length hlen
        rw [hmore] at hne
        rw [escapedIdentifier?, takeWhile_of_append hmore]
        cases more with
        | nil => exact absurd rfl hne
        | cons d more => simp [Nat.add_comm]
    · cases h

/-- The text of a name is a whole identifier or a whole escaped identifier. -/
theorem isNameText_of_writes {t : Token} {text : String} (h : IsNameText t text) :
    isNameText text = true := by
  obtain ⟨⟨rest, hlen⟩, ⟨rfl, hr⟩ | rfl⟩ := h
  · simp [isNameText, identifier?_of_append hlen, hr]
  · simp [isNameText, escapedIdentifier?_of_append hlen]

/-- A lexeme stands where it starts. -/
theorem isSpread_lexeme {x : Pattern} {t : ParseTree} (h : LexemeForm x () t ()) :
    IsSpread code locate t := by
  obtain ⟨_, _, _, -, rfl, hw⟩ | ⟨t, start, text, -, rfl, hname⟩ | ⟨start, -, rfl⟩ := h.cases
  · exact isSpread_leaf hw
  · have hbuild : buildTree locate (.node (.phrase .identifier) [.leaf t start text]) =
        .ok (.one (.node .identifier (locate start) [.text text])) := by
      obtain ⟨-, ⟨rfl, -⟩ | rfl⟩ := hname <;> rfl
    have hvalues : valuesFrom locate (.node (.phrase .identifier) [.leaf t start text]) =
        [.node .identifier (locate start) [.text text]] := by
      rw [valuesFrom, hbuild]
      rfl
    refine ⟨⟨⟨_, hbuild⟩, fun q hq => ?_⟩, by simp, ⟨_, [], rfl, rfl⟩, ?_,
      fun n hn => ⟨_, List.mem_cons_self, ⟨hn, fun c hc hm => ?_, rfl⟩, ?_⟩⟩
    · cases hq
      rw [hvalues]
      exact ⟨_, rfl, rfl, rfl⟩
    · rintro offset stop ⟨-, -, hne, rfl⟩ hslice
      -- a name is not empty, whatever the tiling allows other tokens
      have hpos : text.length ≠ 0 := by
        intro h0
        rw [if_neg (by obtain ⟨-, ⟨rfl, -⟩ | rfl⟩ := hname <;> simp)] at hne
        exact hne (String.length_eq_zero_iff.1 h0)
      have hstands : Stands code start .identifier [.text text] :=
        ⟨by simp [Kind.admits, Kind.types, FieldType.holds, Kind.agrees,
            isNameText_of_writes hname], fun w hw => by
          cases hw
          exact isPrefix_of_isSlice (l := ⟨t, start, text⟩) (hslice _ (by simp))⟩
      rw [hvalues]
      refine .node (Nat.le_refl start) ?_ hstands (.nil ?_) (.nil (Nat.le_refl _)) <;>
        show _ ≤ start + text.length <;> omega
    · cases List.mem_singleton.1 hc
      obtain ⟨-, ⟨rfl, -⟩ | rfl⟩ := hname <;> cases hm
    · rw [hvalues] at hn
      cases List.mem_singleton.1 hn
      exact ⟨_, _, rfl⟩
  · refine isSpread_node (by simp) (by simp) ⟨_, [], rfl, rfl, rfl⟩ fun t ht => ?_
    rw [List.mem_singleton.1 ht]
    exact isSpread_leaf ⟨[], by decide⟩

/-- **What is built from trees that fit a pattern** is of the right sorts, and spread over the text
that the leaves tile. -/
theorem isSpread_of_fits {x : Pattern} {s a : Unit} {ts : List ParseTree}
    (h : Shape LexemeForm x s ts a) : ∀ t ∈ ts, IsSpread code locate t := by
  refine h.forall_mem (fun _ ht => isSpread_lexeme ht) fun p ts _ _ hp hbody ih => ?_
  have hne : p ≠ .identifier := by
    rintro rfl
    cases hp
  exact isSpread_node hne (hbody.ne_nil p.body_nullable) (forms_of_fits hbody fun t ht => (ih t ht).isMade) ih

end VerilogLoops.Ast
