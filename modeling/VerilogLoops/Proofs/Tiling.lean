import VerilogLoops.Proofs.Leaves
import VerilogLoops.Proofs.Lookahead
import VerilogLoops.Proofs.Token.Trivia

/-!
# The leaves tile the source

The leaves of a parse tree are pieces of the text, each where it says. Backtracking gives a place
back but not the leaves that were collected on the way, so a separator may stand in the tree though
the text was given back and taken again. This happens to one separator only: the comma behind a
declaration in the header of a for loop, when another declaration follows. Without these commas the
leaves follow each other through the text, and between them is nothing but trivia.

> `leaves_tile`: the leaves are slices, the separators that no item follows are the commas behind
> declarations, and the other leaves tile the text.
-/

namespace VerilogLoops.Grammar

open VerilogLoops.Text VerilogLoops.Lexical

/-! ## Leaves -/

/-- A leaf of a parse tree. -/
structure Leaf where
  token : Token
  start : Nat
  text : String
deriving DecidableEq, Repr

/-- The offset behind a leaf. -/
def Leaf.stop (l : Leaf) : Nat := l.start + l.text.length

mutual

/-- The leaves of a tree from left to right. -/
def ParseTree.leaves : ParseTree → List Leaf
  | .leaf t start text => [⟨t, start, text⟩]
  | .node _ children => leavesOf children

/-- The leaves of some trees. -/
def leavesOf : List ParseTree → List Leaf
  | [] => []
  | t :: rest => t.leaves ++ leavesOf rest

end

mutual

/-- The tree without the separators that no item follows. -/
def ParseTree.pruned : ParseTree → ParseTree
  | .leaf t start text => .leaf t start text
  | .node label children => .node label (withoutDangling label.separators (prunedAll children))

/-- The trees without the separators that no item follows. -/
def prunedAll : List ParseTree → List ParseTree
  | [] => []
  | t :: rest => t.pruned :: prunedAll rest

end

mutual

/-- The separators that no item follows. -/
def ParseTree.dangling : ParseTree → List ParseTree
  | .leaf .. => []
  | .node label children => danglingAmong label.separators children

/-- The separators among some trees that no item follows, and those inside the trees. -/
def danglingAmong (separators : List Token) : List ParseTree → List ParseTree
  | [] => []
  | .leaf t start text :: rest =>
    if separators.contains t && !startsWithItem rest then
      .leaf t start text :: danglingAmong separators rest
    else danglingAmong separators rest
  | .node label children :: rest =>
    (ParseTree.node label children).dangling ++ danglingAmong separators rest

end

mutual

/-- The last child of every declaration that is not the last one of its list. -/
def ParseTree.declarationEnds : ParseTree → List ParseTree
  | .leaf .. => []
  | .node (.phrase .forInitDeclarations) children => endsOfDeclarations children
  | .node _ children => endsOfAll children

/-- The last child of every declaration in a list of declarations, but for the last one. -/
def endsOfDeclarations : List ParseTree → List ParseTree
  | [] => []
  | [last] => last.declarationEnds
  | declaration :: _ :: rest =>
    declaration.declarationEnds ++ declaration.children.getLast?.toList ++ endsOfDeclarations rest

/-- The last child of every declaration inside some trees that is not the last one of its list. -/
def endsOfAll : List ParseTree → List ParseTree
  | [] => []
  | t :: rest => t.declarationEnds ++ endsOfAll rest

end

/-- The leaves follow each other through the text from one offset to another, with trivia between
them. Only the end of the input may be empty, and it is the end of the text. -/
def Tiles (text : List Char) (offset : Nat) : List Leaf → Nat → Prop
  | [], stop => stop = offset
  | l :: rest, stop =>
    offset ≤ l.start ∧ IsTrivia ((text.drop offset).take (l.start - offset)) ∧
      (if l.token = .endOfInput then l.start = text.length else l.text ≠ "") ∧
        Tiles text l.stop rest stop

@[simp] theorem leavesOf_nil : leavesOf [] = [] := rfl

@[simp] theorem leavesOf_cons (t : ParseTree) (ts : List ParseTree) :
    leavesOf (t :: ts) = t.leaves ++ leavesOf ts := rfl

@[simp] theorem leaves_leaf (t : Token) (start : Nat) (text : String) :
    (ParseTree.leaf t start text).leaves = [⟨t, start, text⟩] := rfl

@[simp] theorem leaves_node (label : Label) (children : List ParseTree) :
    (ParseTree.node label children).leaves = leavesOf children := rfl

@[simp] theorem leavesOf_append (ts us : List ParseTree) :
    leavesOf (ts ++ us) = leavesOf ts ++ leavesOf us := by
  induction ts with
  | nil => rfl
  | cons t rest ih => simp [ih]

theorem mem_leavesOf {ts : List ParseTree} {l : Leaf} : l ∈ leavesOf ts ↔ ∃ t ∈ ts, l ∈ t.leaves := by
  induction ts with
  | nil => simp
  | cons t rest ih => simp [ih]

/-! ## Leaves are slices -/

/-- The leaf is the piece of the text that stands at its offset. -/
def Leaf.IsSlice (text : List Char) (l : Leaf) : Prop :=
  (text.drop l.start).take l.text.length = l.text.toList

theorem isSlice_of_tokenAt {t : Token} {s a : Place} {leaf : ParseTree} {text : List Char}
    (h : tokenAt t s = some (leaf, a)) (hs : s.In text) :
    ∀ l ∈ leaf.leaves, l.IsSlice text := by
  obtain ⟨cs, hrest, -, rfl, -⟩ := tokenAt_iff.1 h
  intro l hl
  cases List.mem_singleton.1 hl
  have hdrop : text.drop (s.offset + triviaLength s.rest) = cs ++ a.rest := by
    rw [← hrest, hs.2, List.drop_drop]
  simp [Leaf.IsSlice, hdrop, String.length_ofList]

/-- Whatever is taken, its leaves are slices of the text, also those that are given back. -/
theorem Takes.isSlice {x : Pattern} {s a : Place} {ts : List ParseTree} {text : List Char}
    (h : Takes x s ts a) (hs : s.In text) : ∀ l ∈ leavesOf ts, l.IsSlice text := by
  have join : ∀ (us : List ParseTree) {vs : List ParseTree}, (∀ l ∈ leavesOf us, l.IsSlice text) →
      (∀ l ∈ leavesOf vs, l.IsSlice text) → ∀ l ∈ leavesOf (us ++ vs), l.IsSlice text := by
    intro us vs hus hvs l hl
    rw [leavesOf_append] at hl
    exact (List.mem_append.1 hl).elim (hus l) (hvs l)
  induction h using Takes.induct with
  | token h => simpa using isSlice_of_tokenAt h hs
  | phrase _ ih => simpa using ih hs
  | seq hx _ ihx ihy | manyStep hx _ ihx ihy => exact join _ (ihx hs) (ihy ((Takes.ahead hx).inText hs))
  | altFirst _ ih | altSecond _ _ ih | opt _ ih => exact ih hs
  | tailDangling h _ => simpa using isSlice_of_tokenAt h hs
  | tailStep h hx _ ihx ihr =>
    have hm := (tokenAt_ahead h).inText hs
    refine join _ (join [_] ?_ (ihx hm)) (ihr ((Takes.ahead hx).inText hm))
    simpa using isSlice_of_tokenAt h hs
  | optNone | manyStop | tailStop | absent => simp

/-! ## Without danglers the tree is tidy -/

/-- Only leaves are left out. -/
theorem node_mem_withoutDangling {separators : List Token} {ts : List ParseTree} {label : Label}
    {children : List ParseTree} (h : .node label children ∈ ts) :
    .node label children ∈ withoutDangling separators ts := by
  induction ts with
  | nil => cases h
  | cons t rest ih =>
    cases t with
    | leaf u start text =>
      have hrest : .node label children ∈ rest := by simpa using h
      rw [withoutDangling]
      split
      · exact ih hrest
      · exact List.mem_cons_of_mem _ (ih hrest)
    | node label' children' =>
      rw [withoutDangling]
      rcases List.mem_cons.1 h with heq | hrest
      · rw [heq]
        exact List.mem_cons_self
      · exact List.mem_cons_of_mem _ (ih hrest)

/-- A node that fits a phrase when it is tidied is a node of the phrase. -/
theorem label_of_fits {label : Label} {children : List ParseTree} {p : Phrase}
    (h : Fits (.phrase p) [(ParseTree.node label children).tidy]) : label = .phrase p := by
  rw [ParseTree.tidy] at h
  cases h with
  | phrase => rfl
  | lexeme hx h =>
    have := h.symbol
    cases label with
    | whole => cases this
    | phrase q =>
      cases this
      rfl

/-- A node that fits is a node of some phrase. -/
theorem IsFitting.phrase {label : Label} {children : List ParseTree}
    (h : IsFitting (ParseTree.node label children).tidy) :
    ∃ p, label = .phrase p ∧ Fits (.phrase p) [(ParseTree.node (.phrase p) children).tidy] := by
  rcases h with ⟨u, start, text, heq, -⟩ | ⟨p, h⟩
  · rw [ParseTree.tidy] at heq
    cases heq
  · have hp := label_of_fits h
    rw [hp] at h
    exact ⟨p, hp, h⟩

/-- The nodes among the children of a tree that fits fit too. -/
theorem IsFitting.child {p : Phrase} {children cs : List ParseTree} {label : Label}
    (h : Fits (.phrase p) [(ParseTree.node (.phrase p) children).tidy])
    (hc : .node label cs ∈ children) : IsFitting (ParseTree.node label cs).tidy := by
  obtain ⟨htidy, hfit⟩ := children_of_fits h
  refine hfit _ ?_
  rw [← htidy, tidyAll_eq_map]
  exact List.mem_map_of_mem (node_mem_withoutDangling hc)

mutual

/-- A tree that fits when it is tidied is tidied by leaving out the separators without an item. -/
theorem pruned_eq_tidy : ∀ t : ParseTree, IsFitting t.tidy → t.pruned = t.tidy
  | .leaf .., _ => rfl
  | .node label children, h => by
    obtain ⟨p, rfl, hfit⟩ := h.phrase
    have hall := prunedAll_eq_tidyAll children fun label' cs hc => IsFitting.child hfit hc
    rw [ParseTree.pruned, ParseTree.tidy, hall, Label.separators, withoutDangling_tidy,
      (children_of_fits hfit).1]

/-- The same for some trees whose nodes fit. -/
theorem prunedAll_eq_tidyAll : ∀ ts : List ParseTree,
    (∀ label cs, .node label cs ∈ ts → IsFitting (ParseTree.node label cs).tidy) →
      prunedAll ts = tidyAll ts
  | [], _ => rfl
  | .leaf t start text :: rest, h => by
    rw [prunedAll, tidyAll,
      prunedAll_eq_tidyAll rest fun label cs hc => h label cs (List.mem_cons_of_mem _ hc)]
    rfl
  | .node label children :: rest, h => by
    rw [prunedAll, tidyAll, pruned_eq_tidy _ (h label children List.mem_cons_self),
      prunedAll_eq_tidyAll rest fun label cs hc => h label cs (List.mem_cons_of_mem _ hc)]

end

/-! ## Which separators dangle -/

/-- The trees end in a comma. -/
def endsInComma (ts : List ParseTree) : Bool :=
  match ts.getLast? with
  | some (.leaf .comma _ _) => true
  | _ => false

/-- In a list of declarations with commas between them, a comma ends every declaration that is not
the last one, and the last one if a comma stands behind it. -/
def commasDangle : List ParseTree → Bool
  | [] => true
  | [declaration] => !endsInComma declaration.children
  | declaration :: _ :: rest => endsInComma declaration.children && commasDangle rest

mutual

/-- In every list of declarations in the tree the commas dangle. -/
def ParseTree.declares : ParseTree → Bool
  | .leaf .. => true
  | .node label children =>
    (label ≠ .phrase .forInitDeclarations || commasDangle children) && allDeclare children

/-- In every list of declarations in the trees the commas dangle. -/
def allDeclare : List ParseTree → Bool
  | [] => true
  | t :: rest => t.declares && allDeclare rest

end

theorem allDeclare_append (ts us : List ParseTree) :
    allDeclare (ts ++ us) = (allDeclare ts && allDeclare us) := by
  induction ts with
  | nil => rfl
  | cons t rest ih => simp [allDeclare, ih, Bool.and_assoc]

/-- A list with separators ends in a dangling one exactly if a separator stands behind it. -/
theorem Takes.tail_ends {t : Token} {p : Phrase} {s a : Place} {ts : List ParseTree}
    (h : Takes (.tail t (.phrase p)) s ts a) :
    (¬Stands t a ∧ (ts = [] ∨ ∃ us cs, ts = us ++ [ParseTree.node (.phrase p) cs])) ∨
      (Stands t a ∧ ∃ us start text, ts = us ++ [ParseTree.leaf t start text]) := by
  generalize hx : Pattern.tail t (.phrase p) = x at h
  induction h using Takes.induct with
  | tailStop h =>
    cases hx
    exact Or.inl ⟨not_stands_iff.2 h, Or.inl rfl⟩
  | tailDangling h _ =>
    cases hx
    obtain ⟨start, text, rfl⟩ := tokenAt_eq_leaf h
    exact Or.inr ⟨stands_of_tokenAt h, [], start, text, rfl⟩
  | @tailStep _ _ _ mark _ ts₁ _ ts₂ b h hitem _ _ ihr =>
    cases hx
    obtain ⟨cs, rfl, -⟩ := takes_phrase.1 hitem
    rcases ihr rfl with ⟨hno, rfl | ⟨us, ds, rfl⟩⟩ | ⟨hs, us, start, text, rfl⟩
    · exact Or.inl ⟨hno, Or.inr ⟨[mark], cs, rfl⟩⟩
    · exact Or.inl ⟨hno, Or.inr ⟨mark :: [ParseTree.node (.phrase p) cs] ++ us, ds, by simp⟩⟩
    · exact Or.inr ⟨hs, mark :: [ParseTree.node (.phrase p) cs] ++ us, start, text, by simp⟩
  | _ => cases hx

theorem endsInComma_leaf (us : List ParseTree) (start : Nat) (text : String) :
    endsInComma (us ++ [ParseTree.leaf .comma start text]) = true := by
  simp [endsInComma]

theorem endsInComma_node (us : List ParseTree) (label : Label) (cs : List ParseTree) :
    endsInComma (us ++ [ParseTree.node label cs]) = false := by
  simp [endsInComma]

/-- A declaration ends in a comma exactly if a comma stands behind it. -/
theorem endsInComma_iff {s a : Place} {t : ParseTree}
    (h : Takes (.phrase .forDeclaration) s [t] a) :
    endsInComma t.children = true ↔ Stands .comma a := by
  obtain ⟨us, heq, hbody⟩ := takes_phrase.1 h
  cases heq
  simp only [Phrase.body, Pattern.row, Pattern.separated, takes_seq] at hbody
  obtain ⟨us, m, _, rfl, -, vs, n, _, rfl, -, ws, k, xs, rfl, hfirst, htail⟩ := hbody
  obtain ⟨cs, rfl, -⟩ := takes_phrase.1 hfirst
  show endsInComma (us ++ (vs ++ ([ParseTree.node (.phrase .forBinding) cs] ++ xs))) = true ↔ _
  rcases htail.tail_ends with ⟨hno, rfl | ⟨ys, ds, rfl⟩⟩ | ⟨hs, ys, start, text, rfl⟩
  · have := endsInComma_node (us ++ vs) (.phrase .forBinding) cs
    simp_all
  · have := endsInComma_node (us ++ (vs ++ ([ParseTree.node (.phrase .forBinding) cs] ++ ys)))
      (.phrase .forBinding) ds
    simp_all
  · have := endsInComma_leaf (us ++ (vs ++ ([ParseTree.node (.phrase .forBinding) cs] ++ ys))) start text
    simp_all

/-- The rest of a list of declarations, behind its first declaration. -/
theorem commasDangle_of_tail {s a : Place} {ts : List ParseTree}
    (h : Takes (.tail .comma (.phrase .forDeclaration)) s ts a) :
    ∀ {s' : Place} {t : ParseTree}, Takes (.phrase .forDeclaration) s' [t] s →
      commasDangle (t :: ts) = true := by
  generalize hx : Pattern.tail .comma (.phrase .forDeclaration) = x at h
  induction h using Takes.induct with
  | tailStop h =>
    cases hx
    intro s' t ht
    have hno : ¬endsInComma t.children = true :=
      fun hc => not_stands_iff.2 h ((endsInComma_iff ht).1 hc)
    simpa [commasDangle] using hno
  | tailDangling h _ =>
    cases hx
    intro s' t ht
    simpa [commasDangle] using (endsInComma_iff ht).2 (stands_of_tokenAt h)
  | @tailStep _ _ _ mark _ ts₁ _ ts₂ b h hitem _ _ ihr =>
    cases hx
    intro s' t ht
    obtain ⟨cs, rfl, -⟩ := takes_phrase.1 hitem
    have hrest := ihr rfl hitem
    have hfirst := (endsInComma_iff ht).2 (stands_of_tokenAt h)
    simpa [commasDangle, hfirst] using hrest
  | _ => cases hx

/-- In whatever is taken, the commas of declarations dangle. -/
theorem Takes.allDeclare {x : Pattern} {s a : Place} {ts : List ParseTree} (h : Takes x s ts a) :
    allDeclare ts = true := by
  have ofLeaf : ∀ {t : Token} {s a : Place} {leaf : ParseTree},
      tokenAt t s = some (leaf, a) → leaf.declares = true := by
    intro t s a leaf h
    obtain ⟨start, text, rfl⟩ := tokenAt_eq_leaf h
    rfl
  induction h using Takes.induct with
  | token h => simp [Grammar.allDeclare, ofLeaf h]
  | @phrase p s us b h ih =>
    have hown : p = .forInitDeclarations → commasDangle us = true := by
      rintro rfl
      obtain ⟨vs, m, ws, rfl, hfirst, htail⟩ := takes_seq.1 h
      obtain ⟨cs, rfl, -⟩ := takes_phrase.1 hfirst
      exact commasDangle_of_tail htail hfirst
    simp only [Grammar.allDeclare, ParseTree.declares, ih, Bool.and_true, Bool.or_eq_true,
      decide_eq_true_eq]
    by_cases hp : p = .forInitDeclarations
    · exact Or.inr (hown hp)
    · exact Or.inl (fun heq => hp (Label.phrase.inj heq))
  | seq _ _ ihx ihy | manyStep _ _ ihx ihy =>
    rw [allDeclare_append, ihx, ihy]
    rfl
  | altFirst _ ih | altSecond _ _ ih | opt _ ih => exact ih
  | tailDangling h _ => simp [Grammar.allDeclare, ofLeaf h]
  | tailStep h _ _ ihx ihr =>
    rw [allDeclare_append, ihr, Grammar.allDeclare, ihx, ofLeaf h]
    rfl
  | optNone | manyStop | tailStop | absent => rfl

/-! ## The danglers are the commas behind declarations -/

theorem withoutDangling_sublist (separators : List Token) (ts : List ParseTree) :
    (withoutDangling separators ts).Sublist ts := by
  induction ts with
  | nil => exact List.Sublist.refl _
  | cons t rest ih =>
    cases t with
    | leaf u start text =>
      rw [withoutDangling]
      split
      · exact ih.cons _
      · exact ih.cons_cons _
    | node label children => exact ih.cons_cons _

/-- If as many trees are left as there were, none was left out. -/
theorem noDangling_of_tidy {separators : List Token} {ts : List ParseTree}
    (h : tidyAll (withoutDangling separators ts) = tidyAll ts) : NoDangling separators ts := by
  have hlen := congrArg List.length h
  rw [tidyAll_eq_map, tidyAll_eq_map, List.length_map, List.length_map] at hlen
  exact (withoutDangling_sublist separators ts).eq_of_length hlen

/-- If no separator dangles among some trees, the danglers are those inside. -/
theorem danglingAmong_of_noDangling {separators : List Token} {ts : List ParseTree}
    (h : NoDangling separators ts) :
    danglingAmong separators ts = ts.flatMap ParseTree.dangling := by
  induction ts with
  | nil => rfl
  | cons t rest ih =>
    cases t with
    | leaf u start text =>
      rw [NoDangling, withoutDangling] at h
      split at h
      · have hle := (withoutDangling_sublist separators rest).length_le
        rw [h, List.length_cons] at hle
        omega
      · next hkeep =>
        rw [danglingAmong, if_neg hkeep, ih (List.cons.inj h).2]
        rfl
    | node label children =>
      rw [NoDangling, withoutDangling] at h
      rw [danglingAmong, ih (List.cons.inj h).2, List.flatMap_cons]

theorem danglingAmong_append {separators : List Token} {t : Token}
    (ht : separators.contains t = true) (ts : List ParseTree) (start : Nat) (text : String) :
    danglingAmong separators (ts ++ [ParseTree.leaf t start text]) =
      danglingAmong separators ts ++ [ParseTree.leaf t start text] := by
  induction ts with
  | nil => simp [danglingAmong, startsWithItem, List.contains_iff_mem.1 ht]
  | cons u rest ih =>
    cases u with
    | leaf u start' text' =>
      rw [List.cons_append, danglingAmong, danglingAmong, startsWithItem_append_leaf, ih]
      split <;> rfl
    | node label children =>
      rw [List.cons_append, danglingAmong, danglingAmong, ih, List.append_assoc]

/-- The comma that ends a declaration. -/
def ParseTree.ownComma : ParseTree → List ParseTree
  | .node (.phrase .forDeclaration) children =>
    if endsInComma children then children.getLast?.toList else []
  | _ => []

theorem ownComma_of_ne {p : Phrase} (hp : p ≠ .forDeclaration) (children : List ParseTree) :
    (ParseTree.node (.phrase p) children).ownComma = [] := by
  cases p <;> first | rfl | exact absurd rfl hp

theorem eq_append_of_endsInComma {ts : List ParseTree} (h : endsInComma ts = true) :
    ∃ us start text, ts = us ++ [ParseTree.leaf .comma start text] := by
  unfold endsInComma at h
  split at h
  · next start text hlast =>
    obtain ⟨us, hus⟩ := List.getLast?_eq_some_iff.1 hlast
    exact ⟨us, start, text, hus⟩
  · cases h

theorem eq_leaf_of_tidy {t : ParseTree} {u : Token} {start : Nat} {text : String}
    (h : t.tidy = .leaf u start text) : t = .leaf u start text := by
  cases t with
  | leaf => exact h
  | node => cases h

theorem eq_node_of_tidy {t : ParseTree} {label : Label} {cs : List ParseTree}
    (h : t.tidy = .node label cs) : ∃ ds, t = .node label ds := by
  cases t with
  | leaf => cases h
  | node label' ds =>
    rw [ParseTree.tidy] at h
    cases h
    exact ⟨ds, rfl⟩

theorem endsInComma_tidyAll {ts us : List ParseTree} {start : Nat} {text : String}
    (h : tidyAll ts = us ++ [ParseTree.leaf .comma start text]) : endsInComma ts = true := by
  rw [tidyAll_eq_map] at h
  obtain ⟨vs, ws, rfl, -, hws⟩ := List.map_eq_append_iff.1 h
  obtain ⟨t, rfl, ht⟩ := List.map_eq_singleton_iff.1 hws
  rw [eq_leaf_of_tidy ht]
  exact endsInComma_leaf vs start text

/-- The danglers of a declaration are those of its parts and the comma that ends it. -/
theorem dangling_forDeclaration {children : List ParseTree}
    (h : Fits (.phrase .forDeclaration)
      [(ParseTree.node (.phrase .forDeclaration) children).tidy]) :
    (ParseTree.node (.phrase .forDeclaration) children).dangling =
      children.flatMap ParseTree.dangling ++
        (ParseTree.node (.phrase .forDeclaration) children).ownComma := by
  have htidy := (children_of_fits h).1
  rw [Label.tidied] at htidy
  rw [ParseTree.dangling, Label.separators, ParseTree.ownComma]
  by_cases hcomma : endsInComma children = true
  · obtain ⟨cs, start, text, rfl⟩ := eq_append_of_endsInComma hcomma
    rw [withoutDangling_append rfl, tidyAll_append] at htidy
    have hcs : NoDangling Phrase.forDeclaration.body.separators cs :=
      noDangling_of_tidy (htidy.trans (withoutLastComma_append (tidyAll cs) start text))
    rw [if_pos hcomma, danglingAmong_append rfl, danglingAmong_of_noDangling hcs]
    simp [ParseTree.dangling]
  · have hsame : withoutLastComma (tidyAll children) = tidyAll children := by
      rcases withoutLastComma_cases (tidyAll children) with hsame | ⟨start, text, hsplit⟩
      · exact hsame
      · exact absurd (endsInComma_tidyAll hsplit) hcomma
    rw [if_neg hcomma, List.append_nil,
      danglingAmong_of_noDangling (noDangling_of_tidy (htidy.trans hsame))]

/-- The danglers of any other phrase are those of its parts. -/
theorem dangling_of_ne {p : Phrase} (hp : p ≠ .forDeclaration) {children : List ParseTree}
    (h : Fits (.phrase p) [(ParseTree.node (.phrase p) children).tidy]) :
    (ParseTree.node (.phrase p) children).dangling = children.flatMap ParseTree.dangling := by
  have htidy := (children_of_fits h).1
  rw [tidied_of_ne hp] at htidy
  rw [ParseTree.dangling, Label.separators, danglingAmong_of_noDangling (noDangling_of_tidy htidy)]

/-- The ends of declarations in some trees with a comma that ends the tree itself. -/
def endsWithComma (t : ParseTree) : List ParseTree := t.declarationEnds ++ t.ownComma

theorem endsOfAll_eq (ts : List ParseTree) :
    endsOfAll ts = ts.flatMap ParseTree.declarationEnds := by
  induction ts with
  | nil => rfl
  | cons t rest ih => rw [endsOfAll, ih, List.flatMap_cons]

/-- In a list of declarations the commas that end declarations are the ends of all declarations but
the last one. -/
theorem endsOfDeclarations_eq {ts : List ParseTree} {cs : List ParseTree} {s a : Unit}
    (h : Shape LexemeForm (.tail .comma (.phrase .forDeclaration)) s (tidyAll ts) a)
    (hd : commasDangle (.node (.phrase .forDeclaration) cs :: ts) = true) :
    endsOfDeclarations (.node (.phrase .forDeclaration) cs :: ts) =
      (ParseTree.node (.phrase .forDeclaration) cs :: ts).flatMap endsWithComma := by
  generalize hus : tidyAll ts = us at h
  generalize hx : Pattern.tail .comma (.phrase .forDeclaration) = x at h
  induction h generalizing ts cs with
  | last =>
    have hnil : ts = [] := by
      rw [tidyAll_eq_map] at hus
      exact List.map_eq_nil_iff.1 hus
    subst hnil
    have hno : endsInComma cs = false := by simpa [commasDangle, ParseTree.children] using hd
    simp [endsOfDeclarations, endsWithComma, ParseTree.ownComma, hno]
  | @next _ _ _ mark _ ws _ vs _ hmark hitem _ _ ih =>
    cases hx
    obtain ⟨t, rest, rfl, ht, hrest⟩ := cons_of_tidyAll hus
    obtain ⟨start, text, rfl, -⟩ := hmark
    cases eq_leaf_of_tidy ht
    obtain ⟨ds, rfl, -⟩ := (shape_phrase rfl).1 hitem
    obtain ⟨u, more, rfl, hu, hmore⟩ := cons_of_tidyAll hrest
    obtain ⟨es, rfl⟩ := eq_node_of_tidy hu
    simp only [commasDangle, Bool.and_eq_true] at hd
    obtain ⟨hcomma, hd⟩ := hd
    rw [endsOfDeclarations, ih hd hmore rfl]
    simp only [ParseTree.children] at hcomma ⊢
    simp [endsWithComma, ParseTree.ownComma, hcomma, ParseTree.declarationEnds]
  | lexeme hl => rw [← hx] at hl; cases hl
  | _ => cases hx

/-- Declarations stand in lists of declarations only. -/
theorem calls_forDeclaration {p : Phrase} (h : .forDeclaration ∈ p.body.calls) :
    p = .forInitDeclarations := by
  revert p
  decide

/-- The children of a phrase that is no list of declarations are no declarations. -/
theorem ownComma_child {p : Phrase} (hp : p ≠ .forInitDeclarations) {children : List ParseTree}
    (h : Fits (.phrase p) [(ParseTree.node (.phrase p) children).tidy]) :
    ∀ t ∈ children, t.ownComma = [] := by
  intro t ht
  cases t with
  | leaf => rfl
  | node label cs =>
    obtain ⟨htidy, -⟩ := children_of_fits h
    have hmem : (ParseTree.node label cs).tidy ∈ Label.tidied (.phrase p) (tidyAll children) := by
      rw [← htidy, tidyAll_eq_map]
      exact List.mem_map_of_mem (node_mem_withoutDangling ht)
    cases label with
    | whole => rfl
    | phrase q =>
      refine ownComma_of_ne ?_ cs
      rintro rfl
      rw [ParseTree.tidy] at h hmem
      rcases h.node_cases with ⟨-, hbody⟩ | ⟨rfl, _, _, _, hone, -⟩ | ⟨rfl, _, hone⟩
      · exact hp (calls_forDeclaration (mem_calls_of_fits hbody _ hmem _ rfl))
      · rw [hone] at hmem
        cases List.mem_singleton.1 hmem
      · rw [hone] at hmem
        cases List.mem_singleton.1 hmem

mutual

/-- The danglers of a tree that fits are the ends of declarations inside it, and the comma that
ends the tree itself if it is a declaration. -/
theorem dangling_eq : ∀ t : ParseTree, IsFitting t.tidy → t.declares = true →
    t.dangling = endsWithComma t
  | .leaf .., _, _ => rfl
  | .node label children, h, hd => by
    obtain ⟨p, rfl, hfit⟩ := h.phrase
    simp only [ParseTree.declares, Bool.and_eq_true] at hd
    have hall := flatMap_dangling children
      (fun label' cs hc => IsFitting.child hfit hc) hd.2
    -- a list of declarations gives the commas of all but the last one, which is its own comma
    by_cases hlist : p = .forInitDeclarations
    · subst hlist
      rw [dangling_of_ne (by simp) hfit, hall]
      have hbody : Fits Phrase.forInitDeclarations.body (tidyAll children) := by
        obtain ⟨us, heq, hbody⟩ := (shape_phrase rfl).1 hfit
        rw [ParseTree.tidy] at heq
        cases heq
        exact hbody
      obtain ⟨us, m, vs, heq, hfirst, htail⟩ := shape_seq.1 hbody
      obtain ⟨cs, rfl, -⟩ := (shape_phrase rfl).1 hfirst
      obtain ⟨t, rest, rfl, ht, hrest⟩ := cons_of_tidyAll heq
      obtain ⟨ds, rfl⟩ := eq_node_of_tidy ht
      have htail : Shape LexemeForm (.tail .comma (.phrase .forDeclaration)) m (tidyAll rest) () := by
        rw [show tidyAll rest = vs from hrest]
        exact htail
      rw [endsWithComma, ParseTree.declarationEnds, ownComma_of_ne (by simp), List.append_nil]
      exact (endsOfDeclarations_eq htail (by simpa using hd.1)).symm
    · -- any other node gives what its children give
      have hends : children.flatMap endsWithComma = endsOfAll children := by
        rw [endsOfAll_eq, List.flatMap_def, List.flatMap_def]
        refine congrArg List.flatten (List.map_congr_left fun t ht => ?_)
        rw [endsWithComma, ownComma_child hlist hfit t ht, List.append_nil]
      have hnode : (ParseTree.node (.phrase p) children).declarationEnds = endsOfAll children := by
        cases p <;> first | rfl | exact absurd rfl hlist
      rw [endsWithComma, hnode, ← hends, ← hall]
      by_cases hdecl : p = .forDeclaration
      · subst hdecl
        exact dangling_forDeclaration hfit
      · rw [dangling_of_ne hdecl hfit, ownComma_of_ne hdecl, List.append_nil]

/-- The same for some trees whose nodes fit. -/
theorem flatMap_dangling : ∀ ts : List ParseTree,
    (∀ label cs, .node label cs ∈ ts → IsFitting (ParseTree.node label cs).tidy) →
      allDeclare ts = true → ts.flatMap ParseTree.dangling = ts.flatMap endsWithComma
  | [], _, _ => rfl
  | .leaf t start text :: rest, h, hd => by
    simp only [allDeclare, Bool.and_eq_true] at hd
    rw [List.flatMap_cons, List.flatMap_cons,
      flatMap_dangling rest (fun label cs hc => h label cs (List.mem_cons_of_mem _ hc)) hd.2]
    rfl
  | .node label children :: rest, h, hd => by
    simp only [allDeclare, Bool.and_eq_true] at hd
    rw [List.flatMap_cons, List.flatMap_cons,
      dangling_eq _ (h label children List.mem_cons_self) hd.1,
      flatMap_dangling rest (fun label cs hc => h label cs (List.mem_cons_of_mem _ hc)) hd.2]

end

mutual

/-- The ends of declarations in a tree that was taken are commas. -/
theorem declarationEnds_comma : ∀ t : ParseTree, t.declares = true →
    ∀ u ∈ t.declarationEnds, ∃ start text, u = .leaf .comma start text
  | .leaf .., _, u, hu => by cases hu
  | .node label children, h, u, hu => by
    simp only [ParseTree.declares, Bool.and_eq_true, Bool.or_eq_true, decide_eq_true_eq] at h
    unfold ParseTree.declarationEnds at hu
    split at hu
    · next heq => cases heq
    · next heq =>
      cases heq
      exact endsOfDeclarations_comma children (h.1.resolve_left fun hne => hne rfl) h.2 u hu
    · next heq =>
      cases heq
      exact endsOfAll_comma children h.2 u hu

theorem endsOfDeclarations_comma : ∀ ts : List ParseTree, commasDangle ts = true →
    allDeclare ts = true → ∀ u ∈ endsOfDeclarations ts, ∃ start text, u = .leaf .comma start text
  | [], _, _, u, hu => by cases hu
  | [t], _, h, u, hu => by
    simp only [allDeclare, Bool.and_true] at h
    exact declarationEnds_comma t h u hu
  | t :: m :: rest, hd, h, u, hu => by
    simp only [commasDangle, allDeclare, Bool.and_eq_true] at hd h
    simp only [endsOfDeclarations, List.mem_append] at hu
    rcases hu with (hu | hu) | hu
    · exact declarationEnds_comma t h.1 u hu
    · obtain ⟨us, start, text, heq⟩ := eq_append_of_endsInComma hd.1
      rw [heq, List.getLast?_concat, Option.toList_some, List.mem_singleton] at hu
      exact ⟨start, text, hu⟩
    · exact endsOfDeclarations_comma rest hd.2 h.2.2 u hu

theorem endsOfAll_comma : ∀ ts : List ParseTree, allDeclare ts = true →
    ∀ u ∈ endsOfAll ts, ∃ start text, u = .leaf .comma start text
  | [], _, u, hu => by cases hu
  | t :: rest, h, u, hu => by
    simp only [allDeclare, Bool.and_eq_true] at h
    simp only [endsOfAll, List.mem_append] at hu
    rcases hu with hu | hu
    · exact declarationEnds_comma t h.1 u hu
    · exact endsOfAll_comma rest h.2 u hu

end

/-! ## Readings tile the text -/

theorem Tiles.append {text : List Char} {ls ms : List Leaf} {o m e : Nat}
    (h : Tiles text o ls m) (h' : Tiles text m ms e) : Tiles text o (ls ++ ms) e := by
  induction ls generalizing o with
  | nil =>
    cases h
    exact h'
  | cons l rest ih =>
    obtain ⟨hle, htrivia, hne, hrest⟩ := h
    exact ⟨hle, htrivia, hne, ih hrest⟩

theorem Tiles.split {text : List Char} {ls ms : List Leaf} {o e : Nat}
    (h : Tiles text o (ls ++ ms) e) : ∃ m, Tiles text o ls m ∧ Tiles text m ms e := by
  induction ls generalizing o with
  | nil => exact ⟨o, rfl, h⟩
  | cons l rest ih =>
    obtain ⟨hle, htrivia, hne, hrest⟩ := h
    obtain ⟨m, hls, hms⟩ := ih hrest
    exact ⟨m, ⟨hle, htrivia, hne, hls⟩, hms⟩

/-- A token stands behind trivia and takes its text. -/
theorem tiles_of_tokenAt {t : Token} {s a : Place} {leaf : ParseTree} {text : List Char}
    (h : tokenAt t s = some (leaf, a)) (hs : s.In text) :
    Tiles text s.offset leaf.leaves a.offset := by
  have ha := (tokenAt_ahead h).inText hs
  obtain ⟨cs, hrest, hlen, rfl, hoff⟩ := tokenAt_iff.1 h
  have hcount := congrArg List.length hrest
  have hle := triviaLength_le s.rest
  simp only [List.length_drop, List.length_append] at hcount
  refine ⟨Nat.le_add_right _ _, ?_, ?_, ?_⟩
  · have htake := isTrivia_take s.rest
    rw [hs.2] at htake ⊢
    rwa [Nat.add_sub_cancel_left]
  · show (if t = .endOfInput then _ else _)
    split
    · next ht =>
      subst ht
      have hend := length?_endOfInput.1 hlen
      have hlength := congrArg List.length hs.2
      have hle' := hs.1
      rw [List.length_drop] at hlength
      rw [← List.length_append, hend.1, List.length_nil] at hcount
      show s.offset + triviaLength s.rest = text.length
      omega
    · next ht =>
      intro hnil
      have hcs : cs = [] := String.ofList_eq_empty_iff.1 hnil
      have hwithin := Token.length?_within ht hlen
      rw [hcs] at hwithin
      exact absurd hwithin.1 (by simp)
  · show a.offset = _
    rw [hoff, Leaf.stop, String.length_ofList]

/-- The leaves of a reading tile the text between its places. -/
theorem Reads.tiles {x : Pattern} {s a : Place} {ts : List ParseTree} {text : List Char}
    (h : Reads x s ts a) (hs : s.In text) : Tiles text s.offset (leavesOf ts) a.offset := by
  have ofLexeme : ∀ {x : Pattern} {s a : Place} {t : ParseTree}, x.isLexeme = true →
      LexemeAt x s t a → s.In text → Tiles text s.offset (leavesOf [t]) a.offset := by
    intro x s a t hx h hs
    unfold Pattern.isLexeme at hx
    split at hx
    · obtain ⟨leaf, heq, hleaf⟩ := takes_token.1 h
      cases heq
      simpa using tiles_of_tokenAt hleaf hs
    · obtain ⟨leaf, heq, -, hleaf⟩ := takes_identifier.1 h
      cases heq
      rcases hleaf with hleaf | hleaf <;> simpa using tiles_of_tokenAt hleaf hs
    · obtain ⟨leaf, heq, hleaf, -⟩ := takes_assignSign.1 h
      cases heq
      simpa using tiles_of_tokenAt hleaf hs
    · cases hx
  induction h with
  | lexeme hx h => exact ofLexeme hx h hs
  | phrase _ _ ih => simpa using ih hs
  | seq hx _ ihx ihy | step hx _ ihx ihy =>
    rw [leavesOf_append]
    exact (ihx hs).append (ihy ((Reads.ahead hx).inText hs))
  | first _ ih | second _ ih | given _ ih => exact ih hs
  | omitted | stop | last => rfl
  | next hm hx _ ihx ihr =>
    have hin := (Takes.ahead hm).inText hs
    have hmark := ofLexeme rfl hm hs
    rw [List.cons_append, leavesOf_cons, leavesOf_append]
    rw [leavesOf_cons, leavesOf_nil, List.append_nil] at hmark
    exact hmark.append ((ihx hin).append (ihr ((Reads.ahead hx).inText hin)))

end VerilogLoops.Grammar

namespace VerilogLoops

open VerilogLoops.Grammar VerilogLoops.Lexical

/-- **The leaves tile the source.** Every leaf is the piece of the text that stands at its offset.
The separators that no item follows are the commas that end declarations, those of every list of
declarations but for the last declaration. Without them the leaves are disjoint, in the order of the
text, with nothing but blanks and comments in front of them, between them and, if the whole text has
to match, behind them. -/
theorem leaves_tile {p : Phrase} (hp : p = .loop ∨ p = .loopUnit) {code : List Char}
    {tree : ParseTree} {after : Place} (h : parseTree (.phrase p) false code = .ok (tree, after)) :
    (∀ l ∈ tree.leaves, l.IsSlice code) ∧
      tree.dangling = tree.declarationEnds ∧
      (∀ t ∈ tree.declarationEnds, ∃ start text, t = .leaf .comma start text) ∧
      (∃ stop, Tiles code 0 tree.pruned.leaves stop) ∧
      (p = .loopUnit → tree.pruned.leaves.getLast?.map Leaf.token = some .endOfInput) := by
  have ht : Takes (.phrase p) (.first code) [tree] after := by
    rcases parseTree_prefix (.phrase p) code with ⟨t, a, ht, heq⟩ | ⟨-, l, heq⟩
    · rw [h] at heq
      cases heq
      exact ht
    · rw [h] at heq
      cases heq
  -- tidied, the tree is a reading, and a reading tiles what it is read of
  have hreads := ht.reads_phrase (by rcases hp with rfl | rfl <;> rfl)
  have hfitting : IsFitting tree.tidy := Or.inr ⟨p, hreads.fits⟩
  have hdeclares : tree.declares = true := by
    simpa [allDeclare] using ht.allDeclare
  obtain ⟨us, heq, hbody⟩ := takes_phrase.1 ht
  cases heq
  have hends := dangling_eq _ hfitting hdeclares
  rw [endsWithComma, ownComma_of_ne (by rcases hp with rfl | rfl <;> simp), List.append_nil] at hends
  refine ⟨?_, hends, declarationEnds_comma _ hdeclares, ⟨after.offset, ?_⟩, ?_⟩
  · simpa using ht.isSlice (Place.in_first code)
  · rw [pruned_eq_tidy _ hfitting]
    have htiles : Tiles code 0 _ after.offset := hreads.tiles (Place.in_first code)
    simpa [tidyAll] using htiles
  · rintro rfl
    rw [pruned_eq_tidy _ hfitting]
    obtain ⟨ls, m, es, rfl, hloop, hend⟩ := takes_seq.1 hbody
    obtain ⟨leaf, rfl, hleaf⟩ := takes_token.1 hend
    obtain ⟨start, text, rfl⟩ := tokenAt_eq_leaf hleaf
    simp [ParseTree.tidy, tidied_of_ne, tidyAll]

/-- The comma between two declarations is taken twice: once it dangles, once it separates. -/
theorem leaves_tile_declarations :
    ∃ tree after,
      parseTree (.phrase .loopUnit) false "for (int i = 0, int j = 1;;) ; // end".toList =
        .ok (tree, after) ∧
      tree.dangling = tree.declarationEnds ∧
      ∃ stop, Tiles "for (int i = 0, int j = 1;;) ; // end".toList 0 tree.pruned.leaves stop := by
  obtain ⟨⟨tree, after⟩, h⟩ : ∃ found, parseTree (.phrase .loopUnit) false
      "for (int i = 0, int j = 1;;) ; // end".toList = .ok found := by
    rw [String.toList_ofList, parseTree_afresh]
    exact exists_of_isOk (by decide +kernel)
  obtain ⟨-, hends, -, htiles, -⟩ := leaves_tile (Or.inr rfl) h
  exact ⟨tree, after, h, hends, htiles⟩

end VerilogLoops
