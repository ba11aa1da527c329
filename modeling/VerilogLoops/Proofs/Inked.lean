import VerilogLoops.Proofs.Neighbours

/-!
# Leaves in canonical style

The ink of a tree is its leaves with blanks between some of them. Leaf by leaf, the blank in front of
a leaf is there exactly where the leaf would otherwise run together with the one in front of it, or
where style asks for it.

> `written_inked`: the leaves with the blanks in front of them are the ink;
> `chain_inked`: two leaves side by side meet in a way that the grammar admits.
-/

namespace VerilogLoops.Grammar

open VerilogLoops.Text VerilogLoops.Lexical

/-! ## Leaves with blanks in front of them -/

/-- A leaf and what is written in front of it. -/
structure SpacedLeaf where
  gap : String
  leaf : Leaf

/-- The first leaf with something more in front of it. -/
def widened (gap : String) : List SpacedLeaf → List SpacedLeaf
  | [] => []
  | x :: rest => ⟨gap ++ x.gap, x.leaf⟩ :: rest

/-- The leaves of the children of a phrase, with the blanks between the children. -/
def linked (p : Phrase) : List (Pattern × List SpacedLeaf) → List SpacedLeaf
  | [] => []
  | [x] => x.2
  | x :: y :: rest => x.2 ++ widened (p.gap x.1 y.1) (linked p (y :: rest))

mutual

/-- The leaves of a tree in canonical style. -/
def ParseTree.inked : ParseTree → List SpacedLeaf
  | .leaf t start text => [⟨"", t, start, text⟩]
  | .node (.phrase .unary) [op, operand] =>
    op.inked ++
      widened (if operand.isStacked && startsClashing operand.ink then " " else "") operand.inked
  | .node (.phrase p) children => linked p (inkedAll children)
  | .node .whole children => linked .comment (inkedAll children)

/-- Some trees with what they match and their leaves in canonical style. -/
def inkedAll : List ParseTree → List (Pattern × List SpacedLeaf)
  | [] => []
  | t :: rest => (t.symbol, t.inked) :: inkedAll rest

end

/-- The second leaf may be written behind the first one, with what is in front of it. -/
def SpacedLeaf.Meets (x y : SpacedLeaf) : Prop :=
  x.leaf.Meets y.leaf ∧ (y.gap = "" → x.leaf.Abuts y.leaf)

/-- The leaves meet, and they begin and end with one of some tokens. -/
structure Meeting (firsts lasts : List Token) (ls : List SpacedLeaf) : Prop where
  first : ∃ l rest, ls = l :: rest ∧ l.gap = "" ∧ l.leaf.token ∈ firsts
  last : ∃ l, ls.getLast? = some l ∧ l.leaf.token ∈ lasts
  chain : ls.IsChain SpacedLeaf.Meets

section Linking

variable {p : Phrase} {fs es fs' es' : List Token} {ls ms : List SpacedLeaf}
  {xs : List (Pattern × List SpacedLeaf)}

theorem Meeting.mono (h : Meeting fs es ls) (hf : ∀ t ∈ fs, t ∈ fs') (he : ∀ t ∈ es, t ∈ es') :
    Meeting fs' es' ls where
  first := by
    obtain ⟨l, rest, hl, hgap, ht⟩ := h.first
    exact ⟨l, rest, hl, hgap, hf _ ht⟩
  last := by
    obtain ⟨l, hl, ht⟩ := h.last
    exact ⟨l, hl, he _ ht⟩
  chain := h.chain

/-- Leaves behind others, if the first of them meets the last of the others across the gap. -/
theorem Meeting.append (h : Meeting fs es ls) (h' : Meeting fs' es' ms) {gap : String}
    (hcross : ∀ l m : Leaf, l.token ∈ es → m.token ∈ fs' →
      ms.head?.map SpacedLeaf.leaf = some m → l.Meets m ∧ (gap = "" → l.Abuts m)) :
    Meeting fs es' (ls ++ widened gap ms) := by
  obtain ⟨m, rest, rfl, hgap, hm⟩ := h'.first
  obtain ⟨l, hl, hltoken⟩ := h.last
  have hwide : widened gap (m :: rest) = ⟨gap, m.leaf⟩ :: rest := by
    rw [widened, hgap, String.append_empty]
  rw [hwide]
  refine ⟨?_, ?_, ?_⟩
  · obtain ⟨k, more, rfl, hk⟩ := h.first
    exact ⟨k, more ++ ⟨gap, m.leaf⟩ :: rest, rfl, hk⟩
  · obtain ⟨n, hn, hntoken⟩ := h'.last
    cases rest with
    | nil =>
      cases hn
      exact ⟨⟨gap, m.leaf⟩, by simp, hntoken⟩
    | cons k rest =>
      refine ⟨n, ?_, hntoken⟩
      rw [List.getLast?_cons_cons] at hn
      rw [List.getLast?_append, List.getLast?_cons_cons, hn, Option.some_or]
  · have hchain : (⟨gap, m.leaf⟩ :: rest).IsChain SpacedLeaf.Meets := by
      have := h'.chain
      rw [List.isChain_cons] at this ⊢
      exact this
    refine List.isChain_append.2 ⟨h.chain, hchain, ?_⟩
    intro k hk n hn
    rw [hl, Option.mem_some] at hk
    cases hk
    cases hn
    exact hcross _ _ hltoken hm rfl

/-- The leaves of neighbouring children meet. -/
theorem meeting_linked (h : ∀ x ∈ xs, Meeting x.1.firstTokens x.1.lastTokens x.2)
    (hchain : xs.IsChain fun x y => p.meets x.1 y.1 = true) {x y : Pattern × List SpacedLeaf}
    (hx : xs.head? = some x) (hy : xs.getLast? = some y) :
    Meeting x.1.firstTokens y.1.lastTokens (linked p xs) := by
  induction xs generalizing x with
  | nil => cases hx
  | cons z xs ih =>
    cases hx
    have hz := h _ (List.mem_cons_self ..)
    cases xs with
    | nil =>
      cases hy
      exact hz
    | cons w rest =>
      rw [List.isChain_cons_cons] at hchain
      rw [List.getLast?_cons_cons] at hy
      have hrest := ih (fun z hz => h z (List.mem_cons_of_mem _ hz)) hchain.2 rfl hy
      exact hz.append hrest fun l m hl hm _ => meets_of_meets hchain.1 hl hm

end Linking

theorem inkedAll_eq_map (ts : List ParseTree) :
    inkedAll ts = ts.map fun t => (t.symbol, t.inked) := by
  induction ts with
  | nil => rfl
  | cons t rest ih => rw [inkedAll, ih, List.map_cons]

/-- The leaves of the tree meet, from such as it may begin with to such as it may end with. -/
def ParseTree.IsMeeting (t : ParseTree) : Prop :=
  Meeting t.symbol.firstTokens t.symbol.lastTokens t.inked

/-- The leaves of a node meet if those of its children do and the children may stand side by side. -/
theorem isMeeting_node {p : Phrase} {ts : List ParseTree} (hts : ts ≠ [])
    (hstrung : Strung p.body.starts p.body.ends p.body.neighbours ts)
    (hchain : ts.IsChain fun t u => p.meets t.symbol u.symbol = true)
    (hinked : (ParseTree.node (.phrase p) ts).inked = linked p (inkedAll ts))
    (h : ∀ t ∈ ts, t.IsMeeting) : (ParseTree.node (.phrase p) ts).IsMeeting := by
  obtain ⟨t, ht⟩ : ∃ t, ts.head? = some t := by
    cases ts with
    | nil => exact absurd rfl hts
    | cons t rest => exact ⟨t, rfl⟩
  obtain ⟨u, hu⟩ : ∃ u, ts.getLast? = some u := ⟨_, List.getLast?_eq_some_getLast hts⟩
  have hlinked : Meeting t.symbol.firstTokens u.symbol.lastTokens (linked p (inkedAll ts)) := by
    rw [inkedAll_eq_map]
    refine meeting_linked (x := (t.symbol, t.inked)) (y := (u.symbol, u.inked)) ?_ ?_
      (by simp [ht]) (by simp [hu])
    · intro x hx
      obtain ⟨t, ht, rfl⟩ := List.mem_map.1 hx
      exact h t ht
    · rw [List.isChain_map]
      exact hchain
  rw [ParseTree.IsMeeting, hinked]
  exact hlinked.mono ((p.tokens_body).1 _ (hstrung.start t ht))
    ((p.tokens_body).2 _ (hstrung.stop u hu))

theorem inked_node {p : Phrase} (hp : p ≠ .unary) (children : List ParseTree) :
    (ParseTree.node (.phrase p) children).inked = linked p (inkedAll children) := by
  unfold ParseTree.inked
  split <;> simp_all

theorem inked_singleton (p : Phrase) (t : ParseTree) :
    (ParseTree.node (.phrase p) [t]).inked = t.inked := by
  by_cases hp : p = .unary
  · subst hp
    rfl
  · rw [inked_node hp]
    rfl

/-- A lexeme has a leaf whose text its token may write. -/
theorem LexemeForm.writes {x : Pattern} {t : ParseTree} (h : LexemeForm x () t ()) :
    ∀ l ∈ t.leaves, l.token.Writes l.text := by
  intro l hl
  obtain ⟨_, _, _, -, rfl, hw⟩ | ⟨_, _, _, -, rfl, hw⟩ | ⟨_, -, rfl⟩ := h.cases <;>
    cases List.mem_singleton.1 hl
  · exact hw
  · exact hw.1
  · have hw : Token.Writes .equals "=" := ⟨[], by decide⟩
    exact hw

/-- The leaves of trees that fit have texts that their tokens may write. -/
theorem writes_of_fits {x : Pattern} {s a : Unit} {ts : List ParseTree}
    (h : Shape LexemeForm x s ts a) : ∀ l ∈ leavesOf ts, l.token.Writes l.text := by
  have htrees : ∀ t ∈ ts, ∀ l ∈ t.leaves, l.token.Writes l.text := by
    refine h.forall_mem (fun _ ht => LexemeForm.writes ht) fun p us _ _ _ _ ih l hl => ?_
    rw [leaves_node] at hl
    obtain ⟨u, hu, hl⟩ := mem_leavesOf.1 hl
    exact ih u hu l hl
  intro l hl
  obtain ⟨t, ht, hl⟩ := mem_leavesOf.1 hl
  exact htrees t ht l hl

/-! ## The leaves of canonical text -/

/-- Leaves with what stands in front of them, as a text. -/
def written (ls : List SpacedLeaf) : String :=
  String.join (ls.map fun l => l.gap ++ l.leaf.text)

@[simp] theorem written_nil : written [] = "" := rfl

@[simp] theorem written_append (ls ms : List SpacedLeaf) :
    written (ls ++ ms) = written ls ++ written ms := by
  simp [written]

theorem written_cons (l : SpacedLeaf) (ls : List SpacedLeaf) :
    written (l :: ls) = l.gap ++ l.leaf.text ++ written ls := by
  simp [written]

theorem written_widened {ls : List SpacedLeaf} (h : ls ≠ []) (gap : String) :
    written (widened gap ls) = gap ++ written ls := by
  cases ls with
  | nil => exact absurd rfl h
  | cons l ls => simp [widened, written_cons, String.append_assoc]

theorem map_leaf_widened (gap : String) (ls : List SpacedLeaf) :
    (widened gap ls).map SpacedLeaf.leaf = ls.map SpacedLeaf.leaf := by
  cases ls <;> rfl

theorem map_leaf_linked (p : Phrase) (xs : List (Pattern × List SpacedLeaf)) :
    (linked p xs).map SpacedLeaf.leaf = xs.flatMap fun x => x.2.map SpacedLeaf.leaf := by
  induction xs with
  | nil => rfl
  | cons x xs ih =>
    cases xs with
    | nil => simp [linked]
    | cons y rest =>
      rw [linked, List.map_append, map_leaf_widened, ih]
      simp only [List.flatMap_cons]

/-- A phrase is written as its children one behind the other, but for a unary operator with its
operand. -/
theorem inked_cases (p : Phrase) (children : List ParseTree) :
    (∃ op operand, p = .unary ∧ children = [op, operand]) ∨
      ((ParseTree.node (.phrase p) children).inked = linked p (inkedAll children) ∧
        (ParseTree.node (.phrase p) children).ink = joined p (inks children)) := by
  by_cases hp : p = .unary
  · subst hp
    rcases children with _ | ⟨op, _ | ⟨operand, _ | ⟨u, rest⟩⟩⟩
    · exact Or.inr ⟨rfl, rfl⟩
    · exact Or.inr ⟨rfl, rfl⟩
    · exact Or.inl ⟨op, operand, rfl, rfl⟩
    · exact Or.inr ⟨rfl, rfl⟩
  · exact Or.inr ⟨inked_node hp children, ink_node hp children⟩

mutual

/-- The leaves are those of the tree. -/
theorem map_leaf_inked : ∀ t : ParseTree, t.inked.map SpacedLeaf.leaf = t.leaves
  | .leaf .. => rfl
  | .node .whole children => by
    rw [ParseTree.inked, map_leaf_linked, flatMap_leaf_inkedAll children, leaves_node]
  | .node (.phrase p) children => by
    have hall := flatMap_leaf_inkedAll children
    rcases inked_cases p children with ⟨op, operand, rfl, rfl⟩ | ⟨hinked, -⟩
    · rw [ParseTree.inked, List.map_append, map_leaf_widened]
      simpa [inkedAll] using hall
    · rw [hinked, map_leaf_linked, hall, leaves_node]

theorem flatMap_leaf_inkedAll : ∀ ts : List ParseTree,
    (inkedAll ts).flatMap (fun x => x.2.map SpacedLeaf.leaf) = leavesOf ts
  | [] => rfl
  | t :: rest => by
    rw [inkedAll, List.flatMap_cons, map_leaf_inked t, flatMap_leaf_inkedAll rest, leavesOf_cons]

end

theorem written_linked (p : Phrase) (xs : List (Pattern × List SpacedLeaf))
    (h : ∀ x ∈ xs, x.2 ≠ []) :
    written (linked p xs) = joined p (xs.map fun x => (x.1, written x.2)) := by
  induction xs with
  | nil => rfl
  | cons x xs ih =>
    cases xs with
    | nil => rfl
    | cons y rest =>
      have hne : linked p (y :: rest) ≠ [] := by
        have hy := h y (by simp)
        cases rest with
        | nil => exact hy
        | cons z rest => simp [linked, hy]
      have hrest := ih fun z hz => h z (List.mem_cons_of_mem _ hz)
      rw [List.map_cons] at hrest
      rw [linked, written_append, written_widened hne, hrest, List.map_cons, List.map_cons,
        joined_cons_cons, String.append_assoc]

theorem inked_ne_nil {t : ParseTree} (h : t.leaves ≠ []) : t.inked ≠ [] := by
  intro hnil
  have := map_leaf_inked t
  rw [hnil] at this
  exact h this.symm

/-- The leaves of a tree that fits, with what stands in front of them, are its ink. -/
theorem written_inked {x : Pattern} {s a : Unit} {ts : List ParseTree}
    (h : Shape LexemeForm x s ts a) : ∀ t ∈ ts, t.leaves ≠ [] ∧ written t.inked = t.ink := by
  have leaf : ∀ (k : Token) (start : Nat) (text : String),
      written (ParseTree.leaf k start text).inked = (ParseTree.leaf k start text).ink := by
    intro k start text
    rw [ParseTree.inked, written_cons, written_nil, String.empty_append, String.append_empty]
    rfl
  refine h.forall_mem (fun _ ht => ?_) fun p ts _ _ _ h ih => ?_
  · obtain ⟨_, _, _, -, rfl, -⟩ | ⟨_, _, _, -, rfl, -⟩ | ⟨_, -, rfl⟩ := ht.cases
    · exact ⟨List.cons_ne_nil _ _, leaf _ _ _⟩
    · exact ⟨List.cons_ne_nil _ _, by rw [inked_singleton, ink_singleton, leaf]⟩
    · exact ⟨List.cons_ne_nil _ _, by rw [inked_singleton, ink_singleton, leaf]⟩
  · have hne := Shape.ne_nil h p.body_nullable
    refine ⟨?_, ?_⟩
    · cases ts with
      | nil => exact absurd rfl hne
      | cons t rest =>
        intro hnil
        rw [leaves_node, leavesOf_cons] at hnil
        exact (ih t (by simp)).1 (List.append_eq_nil_iff.1 hnil).1
    · -- an operator widens the gap of its operand, everything else is linked
      rcases inked_cases p ts with ⟨op, operand, rfl, rfl⟩ | ⟨hinked, hink⟩
      · have hop := ih op (by simp)
        have hoperand := ih operand (by simp)
        rw [ParseTree.inked, written_append, written_widened (inked_ne_nil hoperand.1), hop.2,
          hoperand.2, ← String.append_assoc]
        rfl
      · rw [hinked, hink, written_linked, inkedAll_eq_map, inks_eq_map, List.map_map]
        · refine congrArg _ (List.map_congr_left fun t ht => ?_)
          exact congrArg _ (ih t ht).2
        · rw [inkedAll_eq_map]
          intro x hx
          obtain ⟨t, ht, rfl⟩ := List.mem_map.1 hx
          exact inked_ne_nil (ih t ht).1

/-- A token that may be written and is not the end of the input has a text. -/
theorem Token.Writes.ne_empty {t : Token} {text : String} (h : t.Writes text)
    (ht : t ≠ .endOfInput) : text ≠ "" := by
  rintro rfl
  obtain ⟨rest, hrest⟩ := h
  exact absurd (Token.length?_within ht hrest).1 (Nat.lt_irrefl 0)

/-- The leaves of a lexeme meet. -/
theorem LexemeForm.isMeeting {x : Pattern} {t : ParseTree} (h : LexemeForm x () t ()) : t.IsMeeting ∧ ∀ c ∈ t.children, c.IsMeeting := by
  have leaf : ∀ (k : Token) (start : Nat) (text : String),
      (ParseTree.leaf k start text).IsMeeting := fun k start text =>
    ⟨⟨_, [], rfl, rfl, by simp [Pattern.firstTokens]⟩,
      ⟨_, rfl, by simp [Pattern.lastTokens]⟩, .singleton _⟩
  have node : ∀ (p : Phrase) (k : Token) (start : Nat) (text : String),
      k ∈ (Pattern.phrase p).firstTokens → k ∈ p.closers →
        (ParseTree.node (.phrase p) [.leaf k start text]).IsMeeting := by
    intro p k start text hf hl
    rw [ParseTree.IsMeeting, inked_singleton]
    exact ⟨⟨_, [], rfl, rfl, hf⟩, ⟨_, rfl, hl⟩, .singleton _⟩
  obtain ⟨_, _, _, -, rfl, -⟩ | ⟨k, _, _, -, rfl, -, hk⟩ | ⟨_, -, rfl⟩ := h.cases
  · exact ⟨leaf _ _ _, by simp [ParseTree.children]⟩
  · have hmem : k ∈ nameClosers := by rcases hk with ⟨rfl, -⟩ | rfl <;> decide
    exact ⟨node _ _ _ _ hmem hmem, by simpa [ParseTree.children] using leaf _ _ _⟩
  · exact ⟨node _ _ _ _ (by decide) (by decide), by simpa [ParseTree.children] using leaf _ _ _⟩

/-- The forms of a unary expression. -/
theorem unary_forms {cs : List ParseTree} (h : Fits Phrase.unary.body cs) :
    (∃ us, cs = [.node (.phrase .stepExpression) us]) ∨
    (∃ start op ds, cs = [.leaf .unaryOperator start op, .node (.phrase .unary) ds] ∧
      Fits (.phrase .unary) [.node (.phrase .unary) ds]) ∨
    ∃ us, cs = [.node (.phrase .primary) us] := by
  rcases shape_alt.1 h with hstep | hrest
  · obtain ⟨us, rfl, -⟩ := (shape_phrase rfl).1 hstep
    exact Or.inl ⟨us, rfl⟩
  · rcases shape_alt.1 hrest with hpair | hprimary
    · obtain ⟨us, m, vs, rfl, hx, hy⟩ := shape_seq.1 hpair
      obtain ⟨o, rfl, start, op, rfl, -⟩ := shape_token.1 hx
      obtain ⟨ds, rfl, -⟩ := (shape_phrase rfl).1 hy
      exact Or.inr (Or.inl ⟨start, op, ds, rfl, hy⟩)
    · obtain ⟨us, rfl, -⟩ := (shape_phrase rfl).1 hprimary
      exact Or.inr (Or.inr ⟨us, rfl⟩)

/-- The leaves of a unary operator and its operand meet: either a blank parts them, or the operand
does not begin with an operator that runs together with others. -/
theorem isMeeting_unary {start : Nat} {op : String} {cs : List ParseTree}
    (hf : Fits (.phrase .unary) [.node (.phrase .unary) cs])
    (h : (ParseTree.node (.phrase .unary) cs).IsMeeting) (hcs : ∀ c ∈ cs, c.IsMeeting) :
    (ParseTree.node (.phrase .unary)
      [.leaf .unaryOperator start op, .node (.phrase .unary) cs]).IsMeeting := by
  have hop : Meeting [.unaryOperator] [.unaryOperator]
      (ParseTree.leaf .unaryOperator start op).inked :=
    ⟨⟨_, [], rfl, rfl, by simp⟩, ⟨_, rfl, by simp⟩, .singleton _⟩
  have hfirst : ∀ t ∈ [Token.unaryOperator], t ∈ (Pattern.phrase .unary).firstTokens := by decide
  refine (Meeting.append hop h fun l m hl hm hhead => ⟨?_, fun hgap => ?_⟩).mono hfirst
    fun _ ht => ht
  · rw [Leaf.Meets, List.mem_singleton.1 hl]
    exact List.not_mem_nil
  · have hink := (written_inked hf _ (List.mem_singleton_self _)).2
    by_cases hstacked : (ParseTree.node (.phrase .unary) cs).isStacked = true
    · -- the operand begins with the text of its first leaf
      -- a blank would stand between the operators if they ran together
      have hclash : startsClashing (ParseTree.node (.phrase .unary) cs).ink = false := by
        by_contra hclash
        simp [hstacked, hclash] at hgap
      obtain ⟨n, rest, hn, hngap, htoken⟩ := h.first
      rw [hn, List.head?_cons, Option.map_some, Option.some.injEq] at hhead
      subst hhead
      have hmem : n.leaf ∈ (ParseTree.node (.phrase .unary) cs).leaves := by
        rw [← map_leaf_inked, hn]
        simp
      have hnoend : Token.endOfInput ∉ (Pattern.phrase .unary).firstTokens := by decide
      have hne := Token.Writes.ne_empty (writes_of_fits hf n.leaf (by simpa using hmem))
        fun hend => hnoend (hend ▸ htoken)
      refine Or.inr (Or.inr ⟨List.mem_singleton.1 hl, htoken, ?_⟩)
      rw [← hink, hn, written_cons, hngap, String.empty_append] at hclash
      unfold startsClashing at hclash ⊢
      rw [String.toList_append] at hclash
      cases htext : n.leaf.text.toList with
      | nil => exact absurd (String.toList_eq_nil_iff.1 htext) hne
      | cons c more => rwa [htext, List.cons_append] at hclash
    · -- the operand is a primary expression
      obtain ⟨ds, heq, hbody⟩ := (shape_phrase rfl).1 hf
      cases heq
      obtain ⟨us, rfl⟩ : ∃ us, cs = [.node (.phrase .primary) us] := by
        rcases unary_forms hbody with ⟨us, rfl⟩ | ⟨_, _, _, rfl, -⟩ | hprimary
        · exact absurd rfl hstacked
        · exact absurd rfl hstacked
        · exact hprimary
      obtain ⟨n, rest, hn, -, htoken⟩ := (hcs _ (List.mem_singleton_self _)).first
      rw [inked_singleton, hn, List.head?_cons, Option.map_some, Option.some.injEq] at hhead
      subst hhead
      refine Or.inr (Or.inl ?_)
      rw [List.mem_singleton.1 hl]
      have hall : ((Pattern.phrase .primary).firstTokens.all
        fun t => Token.unaryOperator.joins t) = true := by decide +kernel
      exact List.all_eq_true.1 hall _ htoken

/-- The leaves of trees that fit meet. -/
theorem isMeeting_of_fits {x : Pattern} {s a : Unit} {ts : List ParseTree}
    (h : Shape LexemeForm x s ts a) : ∀ t ∈ ts, t.IsMeeting ∧ ∀ c ∈ t.children, c.IsMeeting := by
  refine h.forall_mem (fun _ ht => LexemeForm.isMeeting ht) fun p ts _ _ _ h ih => ?_
  refine ⟨?_, fun t ht => (ih t ht).1⟩
  have hne := Shape.ne_nil h p.body_nullable
  have hstrung := strung_of_fits h
  by_cases hunary : p = .unary
  · subst hunary
    have single : ∀ t, ts = [t] → (ParseTree.node (.phrase .unary) ts).IsMeeting := by
      rintro t rfl
      exact isMeeting_node hne hstrung (.singleton _) rfl fun t ht => (ih t ht).1
    rcases unary_forms h with ⟨us, rfl⟩ | ⟨start, op, ds, rfl, hoperand⟩ | ⟨us, rfl⟩
    · exact single _ rfl
    · obtain ⟨hmeeting, hchildren⟩ := ih (.node (.phrase .unary) ds) (by simp)
      exact isMeeting_unary hoperand hmeeting hchildren
    · exact single _ rfl
  · refine isMeeting_node hne hstrung ?_ (inked_node hunary ts) fun t ht => (ih t ht).1
    exact hstrung.chain.imp fun t u htu => List.all_eq_true.1 (Phrase.meets_body hunary) _ htu

/-- **Two leaves side by side meet in a way that the grammar admits**, as they are written in canonical
style. -/
theorem chain_inked {p : Phrase} {t : ParseTree} (h : Fits (.phrase p) [t]) :
    t.inked.IsChain SpacedLeaf.Meets :=
  (isMeeting_of_fits h t (List.mem_singleton_self t)).1.chain

/-- Two leaves side by side may stand there. -/
theorem chain_leaves {p : Phrase} {t : ParseTree} (h : Fits (.phrase p) [t]) :
    t.leaves.IsChain Leaf.Meets := by
  rw [← map_leaf_inked, List.isChain_map]
  exact (chain_inked h).imp fun _ _ hmeets => hmeets.1

/-- The first leaf of a phrase is of a token with which the phrase may begin. -/
theorem head_mem_firstTokens {p : Phrase} {t : ParseTree} (h : Fits (.phrase p) [t]) :
    ∃ l ls, t.leaves = l :: ls ∧ l.token ∈ (Pattern.phrase p).firstTokens := by
  obtain ⟨x, xs, hx, -, htoken⟩ := (isMeeting_of_fits h t (List.mem_singleton_self t)).1.first
  rw [symbol_of_fits h] at htoken
  exact ⟨x.leaf, xs.map SpacedLeaf.leaf, by rw [← map_leaf_inked, hx, List.map_cons], htoken⟩

/-- The last leaf of a phrase is of a token with which the phrase may end. -/
theorem last_mem_closers {p : Phrase} {t : ParseTree} (h : Fits (.phrase p) [t]) :
    ∀ l, t.leaves.getLast? = some l → l.token ∈ p.closers := by
  intro l hl
  obtain ⟨x, hx, htoken⟩ := (isMeeting_of_fits h t (List.mem_singleton_self t)).1.last
  rw [← map_leaf_inked, List.getLast?_map, hx, Option.map_some, Option.some.injEq] at hl
  rw [symbol_of_fits h] at htoken
  exact hl ▸ htoken

end VerilogLoops.Grammar
