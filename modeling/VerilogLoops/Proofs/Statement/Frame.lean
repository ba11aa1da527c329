import VerilogLoops.Proofs.Leaves
import VerilogLoops.Proofs.Statement.Accepted
import VerilogLoops.Proofs.Transcript

/-!
# The frame of a statement

Whether a statement is ordered is told by its *frame*: the statements in it, how each of them begins, and
nothing of the expressions. Offsets play a part in one point, which is a dollar sign directly behind a
keyword. A tree is *parted* if it has none.

> `ordered_of_frame`: a parted tree is ordered if it has the frame of an ordered one.
-/

namespace VerilogLoops.Grammar

open VerilogLoops.Text VerilogLoops.Lexical

variable {word : String} {p : Phrase} {further : Bool} {t u w : ParseTree} {ts us : List ParseTree}
  {ls ms : List Leaf} {l : Leaf}

/-! ## Frames -/

/-- The identifier with which the leaves begin, and the token behind it. -/
def openingOf : List Leaf → Option (String × Token)
  | ⟨.identifier, _, text⟩ :: l :: _ => some (text, l.token)
  | _ => none

/-- Whether leaves detach from a keyword is told by how they begin. -/
theorem detaches_iff : Detaches word ls ↔ ∃ z k,
    openingOf ls = some (String.ofList (word.toList ++ '$' :: z), k) ∧ k ∈ dollarFollow z := by
  constructor
  · rintro ⟨z, start, l, rest, rfl, hl⟩
    exact ⟨z, l.token, rfl, hl⟩
  · rintro ⟨z, k, h, hk⟩
    unfold openingOf at h
    split at h
    · next start text l rest =>
      cases h
      exact ⟨z, start, l, rest, rfl, hk⟩
    · cases h

theorem openingOf_bare (h : ls.map Leaf.bare = ms.map Leaf.bare) : openingOf ls = openingOf ms := by
  have key : ∀ ls : List Leaf, openingOf (ls.map Leaf.bare) = openingOf ls := by
    intro ls
    rcases ls with _ | ⟨⟨k, start, text⟩, _ | ⟨m, ls⟩⟩
    · rfl
    · simp [openingOf]
    · by_cases hk : k = .identifier
      · subst hk
        rfl
      · unfold openingOf
        simp [Leaf.bare, hk]
  rw [← key ls, h, key ms]

/-- What is told about a statement by its frame. -/
inductive Frame where
  | leaf (token : Token)
  | node (label : Label) (opening : Option (String × Token)) (children : List Frame)

/-- The phrases whose children stand in the frame. -/
def Phrase.isFramed (p : Phrase) : Bool := p.isCompound || p = .nullStatement

mutual

/-- The frame of a tree. -/
def ParseTree.frame : ParseTree → Frame
  | .leaf k _ _ => .leaf k
  | .node .whole _ => .node .whole none []
  | .node (.phrase p) children =>
    if p.isFramed then .node (.phrase p) (openingOf (leavesOf children)) (frameAll children)
    else .node (.phrase p) none []

/-- The frames of some trees. -/
def frameAll : List ParseTree → List Frame
  | [] => []
  | t :: rest => t.frame :: frameAll rest

end

theorem frameAll_eq_map (ts : List ParseTree) : frameAll ts = ts.map ParseTree.frame := by
  induction ts with
  | nil => rfl
  | cons t ts ih => rw [frameAll, List.map_cons, ih]

mutual

/-- The frame has nothing to do with offsets. -/
@[simp] theorem frame_bare : ∀ t : ParseTree, t.bare.frame = t.frame
  | .leaf .. => rfl
  | .node .whole _ => rfl
  | .node (.phrase p) children => by
    rw [ParseTree.bare, ParseTree.frame, ParseTree.frame, frameAll_bare,
      openingOf_bare (show (leavesOf (bareAll children)).map Leaf.bare = _ from ?_)]
    rw [leavesOf_bare, List.map_map]
    rfl

@[simp] theorem frameAll_bare : ∀ ts : List ParseTree, frameAll (bareAll ts) = frameAll ts
  | [] => rfl
  | t :: ts => by rw [bareAll, frameAll, frameAll, frame_bare, frameAll_bare]

end

theorem frame_framed (hp : p.isFramed = true) : (ParseTree.node (.phrase p) ts).frame
    = .node (.phrase p) (openingOf (leavesOf ts)) (frameAll ts) := by
  rw [ParseTree.frame, if_pos hp]

theorem frame_unframed (hp : p.isFramed = false) :
    (ParseTree.node (.phrase p) ts).frame = .node (.phrase p) none [] := by
  rw [ParseTree.frame, hp]
  rfl

/-- A frame is that of a leaf or of a node with the same name. -/
theorem frame_cases (t : ParseTree) : (∃ k start text, t = .leaf k start text ∧ t.frame = .leaf k) ∨
    ∃ label ts o fs, t = .node label ts ∧ t.frame = .node label o fs := by
  cases t with
  | leaf k start text => exact .inl ⟨k, start, text, rfl, rfl⟩
  | node label ts =>
    refine .inr ⟨label, ts, ?_⟩
    cases label with
    | whole => exact ⟨_, _, rfl, rfl⟩
    | phrase p =>
      cases hp : p.isFramed with
      | true => exact ⟨_, _, rfl, frame_framed hp⟩
      | false => exact ⟨_, _, rfl, frame_unframed hp⟩

/-- A tree with the frame of a node is a node of the same name. -/
theorem node_of_frame (h : t.frame = (ParseTree.node (.phrase p) us).frame) :
    ∃ ts, t = .node (.phrase p) ts ∧
      (p.isFramed = true → openingOf (leavesOf ts) = openingOf (leavesOf us) ∧ frameAll ts = frameAll us) := by
  have hnode : ∃ o fs, (ParseTree.node (.phrase p) us).frame = .node (.phrase p) o fs := by
    cases hp : p.isFramed with
    | true => exact ⟨_, _, frame_framed hp⟩
    | false => exact ⟨_, _, frame_unframed hp⟩
  obtain ⟨o, fs, hnode⟩ := hnode
  rcases frame_cases t with ⟨k', start', text', rfl, hframe⟩ | ⟨label, ts, o', fs', rfl, hframe⟩
  · rw [h, hnode] at hframe
    cases hframe
  · rw [h, hnode] at hframe
    cases hframe
    refine ⟨ts, rfl, fun hp => ?_⟩
    rw [frame_framed hp, frame_framed hp, Frame.node.injEq] at h
    exact h.2

theorem frameAll_eq_nil (h : frameAll ts = []) : ts = [] := by
  rw [frameAll_eq_map] at h
  exact List.map_eq_nil_iff.1 h

theorem frameAll_eq_cons (h : frameAll ts = frameAll (u :: us)) :
    ∃ t vs, ts = t :: vs ∧ t.frame = u.frame ∧ frameAll vs = frameAll us := by
  cases ts with
  | nil => cases h
  | cons t vs =>
    rw [frameAll, frameAll, List.cons.injEq] at h
    exact ⟨t, vs, rfl, h⟩

theorem frameAll_eq_append {vs : List ParseTree} (h : frameAll ts = frameAll (us ++ vs)) :
    ∃ ts₁ ts₂, ts = ts₁ ++ ts₂ ∧ frameAll ts₁ = frameAll us ∧ frameAll ts₂ = frameAll vs := by
  simp only [frameAll_eq_map, List.map_append] at h ⊢
  obtain ⟨ts₁, ts₂, rfl, h₁, h₂⟩ := List.map_eq_append_iff.1 h
  exact ⟨ts₁, ts₂, rfl, h₁, h₂⟩

/-- A tree with the frame of a node with one child. -/
theorem single_of_frame (hp : p.isFramed = true) (h : t.frame = (ParseTree.node (.phrase p) [u]).frame) :
    ∃ v, t = .node (.phrase p) [v] ∧ v.frame = u.frame := by
  obtain ⟨ts, rfl, hts⟩ := node_of_frame h
  obtain ⟨v, vs, rfl, hv, hvs⟩ := frameAll_eq_cons (hts hp).2
  cases frameAll_eq_nil hvs
  exact ⟨v, rfl, hv⟩

/-- A while loop whose body is a semicolon is told by its frame. -/
theorem bareWhile_of_frame {o e c l : ParseTree} (h : t.frame = (bareWhile w o e c l).frame) :
    ∃ w' o' e' c' l', t = bareWhile w' o' e' c' l' := by
  obtain ⟨statement, rfl, hstatement⟩ := single_of_frame rfl h
  obtain ⟨item, rfl, hitem⟩ := single_of_frame rfl hstatement
  obtain ⟨loop, rfl, hloop⟩ := single_of_frame rfl hitem
  obtain ⟨while', rfl, hwhile⟩ := single_of_frame rfl hloop
  obtain ⟨ts, rfl, hts⟩ := node_of_frame hwhile
  obtain ⟨w', ts₁, rfl, -, h₁⟩ := frameAll_eq_cons (hts rfl).2
  obtain ⟨o', ts₂, rfl, -, h₂⟩ := frameAll_eq_cons h₁
  obtain ⟨e', ts₃, rfl, -, h₃⟩ := frameAll_eq_cons h₂
  obtain ⟨c', ts₄, rfl, -, h₄⟩ := frameAll_eq_cons h₃
  obtain ⟨body, ts₅, rfl, hbody, h₅⟩ := frameAll_eq_cons h₄
  cases frameAll_eq_nil h₅
  obtain ⟨null, rfl, hnull⟩ := single_of_frame rfl hbody
  obtain ⟨l', rfl, -⟩ := single_of_frame rfl hnull
  exact ⟨w', o', e', c', l', rfl⟩

/-! ## Parted trees -/

/-- No dollar sign stands directly behind the keyword if the first leaf is `else` or `end`. -/
def Leaf.Parted (l m : Leaf) : Prop :=
  l.token = .keywordElse ∨ l.token = .keywordEnd → m.text.toList.head? = some '$' → m.start ≠ l.stop

/-- A tree begins with its first leaf and stops with its last one. -/
theorem ends_of_fits {x : Pattern} {s a : Unit} (h : Shape LexemeForm x s ts a) : ∀ t ∈ ts,
    (∃ l, t.leaves.head? = some l ∧ l.start = t.start ∧ l.text = t.firstText) ∧
      ∃ l, t.leaves.getLast? = some l ∧ l.stop = t.stop := by
  have leaf : ∀ (k : Token) (start : Nat) (text : String),
      (∃ l, (ParseTree.leaf k start text).leaves.head? = some l ∧
        l.start = (ParseTree.leaf k start text).start ∧ l.text = (ParseTree.leaf k start text).firstText) ∧
      ∃ l, (ParseTree.leaf k start text).leaves.getLast? = some l ∧
        l.stop = (ParseTree.leaf k start text).stop :=
    fun k start text => ⟨⟨_, rfl, rfl, rfl⟩, _, rfl, rfl⟩
  refine h.forall_mem (fun _ ht => ?_) fun p ts _ _ hp h ih => ?_
  · obtain ⟨k, start, text, -, rfl, -⟩ | ⟨k, start, text, -, rfl, -⟩ | ⟨start, -, rfl⟩ := ht.cases
    · exact leaf k start text
    · exact leaf k start text
    · exact leaf .equals start "="
  · have hne : ts ≠ [] := by
      rintro rfl
      have := (written_inked (Shape.phrase hp h) _ (List.mem_singleton_self _)).1
      simp at this
    constructor
    · obtain ⟨t, rest, rfl⟩ := List.exists_cons_of_ne_nil hne
      obtain ⟨⟨l, hl, hstart, htext⟩, -⟩ := ih t (List.mem_cons_self ..)
      refine ⟨l, ?_, hstart, htext⟩
      rw [leaves_node, leavesOf_cons, List.head?_append, hl]
      rfl
    · obtain ⟨front, t, rfl⟩ := (List.eq_nil_or_concat' ts).resolve_left hne
      obtain ⟨-, l, hl, hstop⟩ := ih t (List.mem_append_right _ (List.mem_singleton_self t))
      refine ⟨l, ?_, ?_⟩
      · rw [leaves_node, leavesOf_append, leavesOf_cons, leavesOf_nil, List.append_nil,
          List.getLast?_append, hl]
        rfl
      · rw [hstop, ParseTree.stop, stopOfLast_append _ (by simp), ParseTree.stop.stopOfLast]

theorem IsFitting.ends (h : IsFitting t) :
    (∃ l, t.leaves.head? = some l ∧ l.start = t.start ∧ l.text = t.firstText) ∧
      ∃ l, t.leaves.getLast? = some l ∧ l.stop = t.stop := by
  rcases h with ⟨k, start, text, rfl, -⟩ | ⟨p, h⟩
  · exact ⟨⟨_, rfl, rfl, rfl⟩, _, rfl, rfl⟩
  · exact ends_of_fits h t (List.mem_singleton_self t)

/-- A node that fits is a node of a phrase, and its children fit. -/
theorem IsFitting.body (h : IsFitting (.node (.phrase p) ts)) (hp : (Pattern.phrase p).isLexeme = false) :
    Fits (.phrase p) [.node (.phrase p) ts] ∧ Fits p.body ts ∧ ∀ t ∈ ts, IsFitting t := by
  rcases h with ⟨k, start, text, heq, -⟩ | ⟨q, h⟩
  · cases heq
  · have hsymbol := symbol_of_fits h
    cases hsymbol
    obtain ⟨us, heq, hbody⟩ := (shape_phrase hp).1 h
    cases heq
    exact ⟨h, hbody, isFitting_of_fits hbody⟩

/-- The second branch of a conditional stands behind its `else`. -/
theorem else_of_fits {i o e c k : ParseTree} (h : Fits Phrase.conditional.body [i, o, e, c, t, k, u]) :
    (∃ start text, k = .leaf .keywordElse start text) ∧ Fits (.phrase .statementOrNull) [u] := by
  unfold Phrase.body at h
  simp only [Pattern.row, shape_seq, shape_token, shape_opt] at h
  obtain ⟨_, _, _, heq, ⟨i', rfl, -⟩, _, _, _, rfl, ⟨o', rfl, -⟩, es, _, _, rfl, he, _, _, _, rfl,
    ⟨c', rfl, -⟩, ss, _, _, rfl, hs, hopt⟩ := h
  obtain ⟨_, rfl, -⟩ := (shape_phrase rfl).1 he
  obtain ⟨_, rfl, -⟩ := (shape_phrase rfl).1 hs
  rcases hopt with ⟨rfl, -⟩ | ⟨_, _, _, rfl, ⟨k', rfl, hk⟩, hu⟩
  · cases heq
  · obtain ⟨_, rfl, -⟩ := (shape_phrase rfl).1 hu
    cases heq
    obtain ⟨start, text, rfl, -⟩ := hk
    exact ⟨⟨start, text, rfl⟩, hu⟩

/-- Of two trees side by side the second does not adjoin the first, if the leaves are parted and the first
tree ends in one of the two keywords. -/
theorem not_adjoins (ht : IsFitting t) (hu : IsFitting u) (h : (t.leaves ++ u.leaves).IsChain Leaf.Parted)
    (hlast : ∀ l, t.leaves.getLast? = some l → l.token = .keywordElse ∨ l.token = .keywordEnd) :
    ¬Adjoins t u := by
  rintro ⟨hstart, hdollar⟩
  obtain ⟨-, l, hl, hlstop⟩ := ht.ends
  obtain ⟨⟨m, hm, hmstart, hmtext⟩, -⟩ := hu.ends
  obtain ⟨front, hfront⟩ := List.getLast?_eq_some_iff.1 hl
  obtain ⟨rest, hrest⟩ := List.head?_eq_some_iff.1 hm
  rw [hfront, hrest, List.append_assoc] at h
  have hlm := (List.isChain_cons_cons.1 h.right_of_append).1
  rw [← hmtext] at hdollar
  exact hlm (hlast l hl) hdollar (by rw [hmstart, hstart, hlstop])

/-- The tails of a parted tree are those of a tree with its frame. -/
theorem Tail.of_frame (h : Tail further u w) (hu : IsFitting u) (hparted : u.leaves.IsChain Leaf.Parted)
    (ht : t.frame = u.frame) : ∃ w', Tail further t w' ∧ w'.frame = w.frame := by
  induction h generalizing t with
  | here => exact ⟨t, .here, ht⟩
  | @last p ts v w hp _ ih =>
    have hframed : p.isFramed = true := by
      cases p <;> first | rfl | cases hp
    have hlexeme : (Pattern.phrase p).isLexeme = false := by
      cases p <;> first | rfl | cases hp
    obtain ⟨us, rfl, hus⟩ := node_of_frame ht
    obtain ⟨us₁, us₂, rfl, -, hlast⟩ := frameAll_eq_append (hus hframed).2
    obtain ⟨v', us₃, rfl, hv, hnil⟩ := frameAll_eq_cons hlast
    cases frameAll_eq_nil hnil
    rw [leaves_node, leavesOf_append, leavesOf_cons, leavesOf_nil, List.append_nil] at hparted
    obtain ⟨w', hw, hframe⟩ := ih ((hu.body hlexeme).2.2 v (by simp)) hparted.right_of_append hv
    exact ⟨w', .last hp hw, hframe⟩
  | @body d v rest w hf _ ih =>
    obtain ⟨us, rfl, hus⟩ := node_of_frame ht
    obtain ⟨d', us₁, rfl, -, hrest⟩ := frameAll_eq_cons (hus rfl).2
    obtain ⟨v', us₂, rfl, hv, -⟩ := frameAll_eq_cons hrest
    rw [leaves_node, leavesOf_cons, leavesOf_cons] at hparted
    obtain ⟨w', hw, hframe⟩ := ih ((hu.body rfl).2.2 v (by simp)) hparted.right_of_append.left_of_append hv
    exact ⟨w', .body hf hw, hframe⟩
  | @branch i o e c v k other w hf ha _ _ =>
    -- the second branch does not adjoin its keyword
    obtain ⟨-, hbody, hfitting⟩ := hu.body rfl
    obtain ⟨⟨start, text, rfl⟩, -⟩ := else_of_fits hbody
    refine absurd ha (not_adjoins (hfitting _ (by simp)) (hfitting other (by simp)) ?_ fun l hl => ?_)
    · rw [leaves_node] at hparted
      simp only [leavesOf_cons, leavesOf_nil, List.append_nil] at hparted
      exact hparted.right_of_append.right_of_append.right_of_append.right_of_append.right_of_append
    · cases hl
      exact .inl rfl

/-! ## Order -/

/-- How the leaves of two trees with the same frame begin is the same, if the frame tells it. -/
theorem detaches_of_opening (h : openingOf ls = openingOf ms) : Detaches word ls ↔ Detaches word ms := by
  rw [detaches_iff, detaches_iff, h]

section Parted

variable (hu : IsFitting u) (hparted : u.leaves.IsChain Leaf.Parted) (ht : t.frame = u.frame)

include hu hparted ht

theorem IsOpen.of_frame (h : IsOpen u) : IsOpen t := by
  obtain ⟨ts, htail, hlength⟩ := h
  obtain ⟨w, hw, hframe⟩ := htail.of_frame hu hparted ht
  obtain ⟨us, rfl, hus⟩ := node_of_frame hframe
  have hall := congrArg List.length (hus rfl).2
  rw [frameAll_eq_map, frameAll_eq_map, List.length_map, List.length_map] at hall
  exact ⟨us, hw, by rw [hall, hlength]⟩

theorem Exposes.of_frame (h : Exposes further word u) : Exposes further word t := by
  obtain ⟨ts, htail, hdetaches⟩ := h
  obtain ⟨w, hw, hframe⟩ := htail.of_frame hu hparted ht
  obtain ⟨us, rfl, hus⟩ := node_of_frame hframe
  exact ⟨us, hw, (detaches_of_opening (hus rfl).1).2 hdetaches⟩

end Parted

/-- The last leaf of a statement that ends in a block without a name is `end`. -/
theorem EndsInBlock.getLast? (h : EndsInBlock t) :
    ∃ l, t.leaves.getLast? = some l ∧ l.token = .keywordEnd := by
  obtain ⟨ts, start, text, htail⟩ := h
  generalize hw : ParseTree.node (.phrase .block)
    (ts ++ [ParseTree.leaf .keywordEnd start text]) = w at htail
  induction htail with
  | here =>
    subst hw
    exact ⟨⟨.keywordEnd, start, text⟩, by simp, rfl⟩
  | last _ _ ih =>
    obtain ⟨l, hl, hk⟩ := ih hw
    refine ⟨l, ?_, hk⟩
    rw [leaves_node, leavesOf_append, leavesOf_cons, leavesOf_nil, List.append_nil, List.getLast?_append, hl]
    rfl
  | body hf | branch hf => cases hf

/-- The children of a block are statements and single leaves. -/
theorem block_children (h : Fits Phrase.block.body us) : ∀ u ∈ us, (∃ l, u.leaves = [l]) ∨
    ∃ cs, u = .node (.phrase .statementOrNull) cs := by
  intro u hu
  rcases isFitting_of_fits h u hu with ⟨k, start, text, rfl, -⟩ | ⟨q, hq⟩
  · exact .inl ⟨_, rfl⟩
  · have hcalls := mem_calls_of_fits h u hu q (symbol_of_fits hq)
    have hcases : q = .identifier ∨ q = .statementOrNull := by
      simp only [Phrase.body, Pattern.row, Pattern.calls, List.mem_append, List.mem_singleton,
        List.not_mem_nil, false_or] at hcalls
      rcases hcalls with rfl | rfl | rfl <;> simp
    rcases hcases with rfl | rfl
    · obtain ⟨w, heq, k, start, text, rfl, -⟩ := shape_identifier.1 hq
      cases heq
      exact .inl ⟨_, rfl⟩
    · obtain ⟨cs, heq, -⟩ := (shape_phrase rfl).1 hq
      cases heq
      exact .inr ⟨cs, rfl⟩

/-- If a child of a block detaches from a keyword, so does a tree with its frame. -/
theorem detaches_child (h : Fits Phrase.block.body us) (hu : u ∈ us) (ht : t.frame = u.frame)
    (hd : Detaches word u.leaves) : Detaches word t.leaves := by
  rcases block_children h u hu with ⟨l, hl⟩ | ⟨cs, rfl⟩
  · rw [hl] at hd
    obtain ⟨z, start, l', rest, heq, -⟩ := hd
    cases heq
  · obtain ⟨ts, rfl, hts⟩ := node_of_frame ht
    rw [leaves_node] at hd ⊢
    exact (detaches_of_opening (hts rfl).1).2 hd

/-- Neighbours are in order if those in trees with the same frames are. -/
theorem precedes_of_frame {t' u' : ParseTree} (hu : IsFitting u) (hu' : IsFitting u')
    (hparted : (u.leaves ++ u'.leaves).IsChain Leaf.Parted) (ht : t.frame = u.frame)
    (ht' : t'.frame = u'.frame) (hd : Detaches "else" u'.leaves → Detaches "else" t'.leaves)
    (h : Precedes t t') : Precedes u u' where
  branch hopen hdetaches := h.branch (hopen.of_frame hu hparted.left_of_append ht) (hd hdetaches)
  body hexposes w o e c l heq := by
    rw [heq] at ht'
    obtain ⟨w', o', e', c', l', rfl⟩ := bareWhile_of_frame ht'
    exact h.body (hexposes.of_frame hu hparted.left_of_append ht) _ _ _ _ _ rfl
  close hends := by
    obtain ⟨l, hl, hk⟩ := hends.getLast?
    refine not_adjoins hu hu' hparted fun m hm => ?_
    rw [hl] at hm
    cases hm
    exact .inr hk

/-- The children of a block are in order if those in trees with the same frames are. -/
theorem isChain_precedes (hd : ∀ t u : ParseTree, u ∈ us → t.frame = u.frame → Detaches "else" u.leaves →
      Detaches "else" t.leaves) (hfitting : ∀ u ∈ us, IsFitting u)
    (hparted : (leavesOf us).IsChain Leaf.Parted) (hts : frameAll ts = frameAll us)
    (h : ts.IsChain Precedes) : us.IsChain Precedes := by
  induction us generalizing ts with
  | nil => exact List.isChain_nil
  | cons u us ih =>
    obtain ⟨t, ts, rfl, ht, hrest⟩ := frameAll_eq_cons hts
    rw [List.isChain_cons] at h ⊢
    rw [leavesOf_cons] at hparted
    refine ⟨fun u' hu' => ?_, ih (fun t u hu => hd t u (List.mem_cons_of_mem _ hu))
      (fun u hu => hfitting u (List.mem_cons_of_mem _ hu)) hparted.right_of_append hrest h.2⟩
    cases us with
    | nil => cases hu'
    | cons v us =>
      cases hu'
      obtain ⟨t', ts', rfl, ht', -⟩ := frameAll_eq_cons hrest
      rw [leavesOf_cons, ← List.append_assoc] at hparted
      exact precedes_of_frame (hfitting u (by simp)) (hfitting u' (by simp)) hparted.left_of_append ht ht'
        (hd t' u' (by simp) ht') (h.1 t' rfl)

theorem isChain_of_mem_leavesOf (h : (leavesOf us).IsChain Leaf.Parted) (hu : u ∈ us) :
    u.leaves.IsChain Leaf.Parted := by
  obtain ⟨us₁, us₂, rfl⟩ := List.append_of_mem hu
  rw [leavesOf_append, leavesOf_cons] at h
  exact h.right_of_append.left_of_append

/-- The children of a parted node are in order if those of a node with its frame are. -/
theorem orders_of_frame (hp : (Pattern.phrase p).isLexeme = false)
    (hu : IsFitting (.node (.phrase p) us)) (hparted : (leavesOf us).IsChain Leaf.Parted)
    (ht : (ParseTree.node (.phrase p) ts).frame = (ParseTree.node (.phrase p) us).frame)
    (h : Label.Orders (.phrase p) ts) : Label.Orders (.phrase p) us := by
  obtain ⟨-, hbody, hfitting⟩ := hu.body hp
  obtain ⟨_, heq, hus⟩ := node_of_frame ht
  cases heq
  cases p with
  | statementItem =>
    -- whether an item detaches is seen from its first leaves, which the frame keeps
    have hopening := (hus rfl).1
    refine ⟨fun hd => h.1 ((detaches_of_opening hopening).2 hd), fun hd => ?_⟩
    obtain ⟨cs, rfl⟩ := h.2 ((detaches_of_opening hopening).2 hd)
    obtain ⟨u, us', rfl, hframe, hnil⟩ := frameAll_eq_cons (hus rfl).2.symm
    cases frameAll_eq_nil hnil
    obtain ⟨cs', rfl, -⟩ := node_of_frame hframe
    exact ⟨cs', rfl⟩
  | conditional =>
    -- a frame has as many children, and it keeps which of them are open and what they expose
    rintro i o e c u k v rfl hopen
    obtain ⟨i', ts₁, rfl, -, h₁⟩ := frameAll_eq_cons (hus rfl).2
    obtain ⟨o', ts₂, rfl, -, h₂⟩ := frameAll_eq_cons h₁
    obtain ⟨e', ts₃, rfl, -, h₃⟩ := frameAll_eq_cons h₂
    obtain ⟨c', ts₄, rfl, -, h₄⟩ := frameAll_eq_cons h₃
    obtain ⟨u', ts₅, rfl, hframe, h₅⟩ := frameAll_eq_cons h₄
    obtain ⟨k', ts₆, rfl, -, h₆⟩ := frameAll_eq_cons h₅
    obtain ⟨v', ts₇, rfl, -, h₇⟩ := frameAll_eq_cons h₆
    cases frameAll_eq_nil h₇
    have hparted' : u.leaves.IsChain Leaf.Parted := isChain_of_mem_leavesOf hparted (by simp)
    exact h _ _ _ _ _ _ _ rfl (hopen.of_frame (hfitting u (by simp)) hparted' hframe)
  | doWhileLoop =>
    rintro d u rest rfl hexposes
    obtain ⟨d', ts₁, rfl, -, h₁⟩ := frameAll_eq_cons (hus rfl).2
    obtain ⟨u', ts₂, rfl, hframe, -⟩ := frameAll_eq_cons h₁
    have hparted' : u.leaves.IsChain Leaf.Parted := isChain_of_mem_leavesOf hparted (by simp)
    exact h _ _ _ rfl (hexposes.of_frame (hfitting u (by simp)) hparted' hframe)
  | block =>
    refine ⟨fun u hmem hexposes => ?_, isChain_precedes
      (fun t u hmem hframe hd => detaches_child hbody hmem hframe hd) hfitting hparted (hus rfl).2 h.2⟩
    obtain ⟨us₁, us₂, rfl⟩ := List.append_of_mem hmem
    obtain ⟨ts₁, ts₂, rfl, -, hrest⟩ := frameAll_eq_append (hus rfl).2
    obtain ⟨u', ts₃, rfl, hframe, -⟩ := frameAll_eq_cons hrest
    exact h.1 u' (by simp) (hexposes.of_frame (hfitting u hmem) (isChain_of_mem_leavesOf hparted hmem) hframe)
  | _ => trivial

mutual

/-- **A parted tree is ordered if it has the frame of an ordered one.** -/
theorem ordered_of_frame : ∀ {t : ParseTree} (u : ParseTree), t.frame = u.frame → IsFitting u →
    u.leaves.IsChain Leaf.Parted → Ordered t → Ordered u
  | _, .leaf .., _, _, _, _ => .leaf
  | t, .node label us, ht, hu, hparted, h => by
    rcases hu with ⟨k, start, text, heq, -⟩ | ⟨p, hfits⟩
    · cases heq
    have hsymbol := symbol_of_fits hfits
    have hlabel : label = .phrase p := by
      cases label with
      | whole => cases hsymbol
      | phrase q =>
        cases hsymbol
        rfl
    subst hlabel
    cases hframed : p.isFramed with
    | false =>
      -- there is no statement in it
      have hcompound : p.isCompound = false := (Bool.or_eq_false_iff.1 hframed).1
      have htame := isTame_of_fits hfits (by simp [Pattern.calls, hcompound])
      exact ordered_of_allTame _ htame _ (List.mem_singleton_self _)
    | true =>
      have hlexeme : (Pattern.phrase p).isLexeme = false := by
        cases p <;> first | rfl | cases hframed
      have hu : IsFitting (.node (.phrase p) us) := .inr ⟨p, hfits⟩
      obtain ⟨ts, rfl, hus⟩ := node_of_frame ht
      rw [leaves_node] at hparted
      exact .node (orders_of_frame hlexeme hu hparted ht h.orders)
        (ordered_of_frameAll us (hus hframed).2 (hu.body hlexeme).2.2 hparted fun t ht => h.child ht)

theorem ordered_of_frameAll : ∀ {ts : List ParseTree} (us : List ParseTree), frameAll ts = frameAll us →
    (∀ u ∈ us, IsFitting u) → (leavesOf us).IsChain Leaf.Parted → (∀ t ∈ ts, Ordered t) →
      ∀ u ∈ us, Ordered u
  | _, [], _, _, _, _ => by simp
  | ts, u :: us, hts, hus, hparted, h => by
    obtain ⟨t, ts, rfl, ht, hrest⟩ := frameAll_eq_cons hts
    rw [leavesOf_cons] at hparted
    intro v hv
    rcases List.mem_cons.1 hv with heq | hv
    · rw [heq]
      exact ordered_of_frame u ht (hus u (by simp)) hparted.left_of_append (h t (by simp))
    · exact ordered_of_frameAll us hrest (fun u hu => hus u (List.mem_cons_of_mem _ hu))
        hparted.right_of_append (fun t ht => h t (List.mem_cons_of_mem _ ht)) v hv

end

end VerilogLoops.Grammar
