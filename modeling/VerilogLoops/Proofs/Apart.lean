import VerilogLoops.Proofs.Laying
import VerilogLoops.Proofs.Polish

/-!
# Canonical text keeps its tokens apart

In canonical text some leaves stand directly behind others. A blank parts two leaves wherever they would run
together, as two operators do that make a longer one. So every leaf stays what it is in front of the next
one, unless it is an escaped identifier, which only white space ends.

> `leaves_polish`: polishing adds no leaves but parentheses;
> `parts_inked`: the leaves of a tree in canonical style stay what they are.
-/

namespace VerilogLoops.Lexical

open VerilogLoops.Text

variable {cs rest : List Char} {c : Char}

/-- A unary operator is barred by an equals sign and by the characters of operators only. -/
theorem unaryOperator_bars {s : Spelling} (hs : s ∈ Token.unaryOperator.spellings) {d : Char}
    (hd : s.barrier.bars d = true) : d = '=' ∨ Ast.clashing.contains d = true := by
  have key : ∀ s ∈ Token.unaryOperator.spellings, s.barrier = .nothing ∨ s.barrier = .among ['='] ∨
      s.barrier ∈ Ast.clashing.map fun c => .among [c] := by decide
  rcases key s hs with hnothing | hequals | hclashing
  · rw [hnothing] at hd
    cases hd
  · exact .inl (by simpa [hequals, Barrier.bars] using hd)
  · obtain ⟨c, hc, hamong⟩ := List.mem_map.1 hclashing
    obtain rfl : d = c := by simpa [← hamong, Barrier.bars] using hd
    exact .inr (List.contains_iff_mem.2 hc)

/-- Behind its first character a unary operator has characters of operators only. -/
theorem unaryOperator_goesOn {s : Spelling} (hs : s ∈ Token.unaryOperator.spellings) {d : Char}
    {more : List Char} (htext : s.text = d :: more) : ∀ c ∈ more, Ast.clashing.contains c = true := by
  have key : ∀ s ∈ Token.unaryOperator.spellings, (s.text.drop 1).all Ast.clashing.contains = true := by
    decide
  have hall := key s hs
  rw [htext] at hall
  exact List.all_eq_true.1 hall

/-- A unary operator stays what it is in front of a character with which no operator goes on. -/
theorem unaryOperator_apart (hclash : Ast.clashing.contains c = false) (hequals : c ≠ '=')
    (h : Token.unaryOperator.length? cs = some cs.length) :
    Token.unaryOperator.length? (cs ++ c :: rest) = some cs.length := by
  rw [Token.length?_of_isSpelled (by decide)] at h ⊢
  refine firstFit_apart (fun s hs => ?_) (fun s hs s' hs' d more htext hd => ?_) h
  · cases hbar : s.barrier.bars c with
    | false => rfl
    | true =>
      rcases unaryOperator_bars hs hbar with hc | hc
      · exact absurd hc hequals
      · rw [hclash] at hc
        cases hc
  · -- the rest of the longer spelling is one of clashing characters
    obtain ⟨b, bs, hb⟩ := List.exists_cons_of_ne_nil (Token.text_ne_nil .unaryOperator hs)
    rw [hb, List.cons_append] at htext
    have hclashes := unaryOperator_goesOn hs' htext d (by simp)
    rw [hd, hclash] at hclashes
    cases hclashes

end VerilogLoops.Lexical

namespace VerilogLoops.Grammar

open VerilogLoops.Text VerilogLoops.Lexical

variable {x : Pattern} {p : Phrase} {label : Label} {level : Level} {t u op : ParseTree} {ts us : List ParseTree}
  {l m : Leaf} {ls : List SpacedLeaf} {gap : String}

/-! ## The leaves of polished trees -/

theorem leaves_raised (levels : List Level) (t : ParseTree) : (raised levels t).leaves = t.leaves := by
  induction levels with
  | nil => rfl
  | cons level levels ih =>
    show (ParseTree.node (.phrase (.chain level)) [raised levels t]).leaves = t.leaves
    rw [leaves_node, leavesOf_cons, leavesOf_nil, List.append_nil, ih]

theorem leaves_expressionOf (t : ParseTree) : (expressionOf t).leaves = t.leaves := by
  rw [expressionOf, leaves_node, leavesOf_cons, leavesOf_nil, List.append_nil]

theorem leaves_settled (t : ParseTree) : t.settled.leaves = t.leaves := by
  unfold ParseTree.settled
  split
  · rw [leaves_expressionOf, leaves_raised]
  · rfl

section Leaves

variable {P : Leaf → Prop} (hopen : P ⟨.openParen, 0, "("⟩) (hclose : P ⟨.closeParen, 0, ")"⟩)
include hopen hclose

theorem leaves_asOperand (h : ∀ l ∈ t.leaves, P l) : ∀ l ∈ t.asOperand.leaves, P l := by
  unfold ParseTree.asOperand
  split
  · intro l hl
    simp only [leaves_node, leavesOf_cons, leavesOf_nil, leaves_leaf, List.append_nil, List.cons_append,
      List.nil_append, List.mem_cons, List.mem_append, List.not_mem_nil, or_false] at hl
    rcases hl with rfl | hl | rfl
    · exact hopen
    · exact h l (by rwa [leaves_node])
    · exact hclose
  · exact h

theorem leaves_binary (ht : ∀ l ∈ t.leaves, P l) (hop : ∀ l ∈ op.leaves, P l) (hu : ∀ l ∈ u.leaves, P l) :
    ∀ l ∈ (binary level t op u).leaves, P l := by
  intro l hl
  rw [binary, leaves_expressionOf, leaves_raised] at hl
  simp only [leaves_node, leavesOf_cons, leavesOf_nil, leaves_raised, List.append_nil, List.mem_append] at hl
  rcases hl with hl | hl | hl
  · exact leaves_asOperand hopen hclose ht l hl
  · exact hop l hl
  · exact leaves_asOperand hopen hclose hu l hl

theorem leaves_joinedTrees (ht : ∀ l ∈ t.leaves, P l) (h : ∀ l ∈ leavesOf ts, P l) :
    ∀ l ∈ (joinedTrees level t ts).leaves, P l := by
  fun_induction joinedTrees level t ts with
  | case1 t op u rest ih =>
    have hop : ∀ l ∈ op.leaves, P l := fun l hl => h l (by simp [hl])
    have hu : ∀ l ∈ u.leaves, P l := fun l hl => h l (by simp [hl])
    exact ih (leaves_binary hopen hclose ht hop hu) fun l hl => h l (by simp [hl])
  | case2 => exact ht

theorem leaves_reformed (h : ∀ l ∈ leavesOf ts, P l) : ∀ l ∈ (reformed label ts).leaves, P l := by
  have hall : ∀ us : List ParseTree, leavesOf (us.map ParseTree.settled) = leavesOf us := by
    intro us
    induction us with
    | nil => rfl
    | cons u us ih => rw [List.map_cons, leavesOf_cons, leavesOf_cons, leaves_settled, ih]
  unfold reformed
  split
  · simpa using h
  · next condition question yes colon no =>
    have hcondition := leaves_asOperand hopen hclose (t := condition) fun l hl => h l (by simp [hl])
    intro l hl
    simp only [leaves_expressionOf, leaves_node, leavesOf_cons, leavesOf_nil, leaves_raised, leaves_settled,
      List.append_nil, List.mem_append] at hl
    rcases hl with hl | hl
    · exact hcondition l hl
    · exact h l (by simp [hl])
  · next first rest =>
    exact leaves_joinedTrees hopen hclose (fun l hl => h l (by simp [hl])) fun l hl => h l (by simp [hl])
  · next op operand =>
    have hoperand := leaves_asOperand hopen hclose (t := operand) fun l hl => h l (by simp [hl])
    intro l hl
    simp only [leaves_node, leavesOf_cons, leavesOf_nil, List.append_nil, List.mem_append] at hl
    rcases hl with hl | hl
    · exact h l (by simp [hl])
    · exact hoperand l hl
  all_goals try simpa using h
  · next opening t closing =>
    intro l hl
    exact h l (by simp [hl])
  · rw [leaves_node, hall]
    exact h

end Leaves

mutual

/-- Polishing adds no leaves but parentheses. -/
theorem leaves_polish {P : Leaf → Prop} (hopen : P ⟨.openParen, 0, "("⟩) (hclose : P ⟨.closeParen, 0, ")"⟩) :
    ∀ t : ParseTree, (∀ l ∈ t.leaves, P l) → ∀ l ∈ t.polish.leaves, P l
  | .leaf .., h => h
  | .node _ ts, h => by
    rw [ParseTree.polish]
    rw [leaves_node] at h
    exact leaves_reformed hopen hclose (leaves_polishAll hopen hclose ts h)

theorem leaves_polishAll {P : Leaf → Prop} (hopen : P ⟨.openParen, 0, "("⟩) (hclose : P ⟨.closeParen, 0, ")"⟩) :
    ∀ ts : List ParseTree, (∀ l ∈ leavesOf ts, P l) → ∀ l ∈ leavesOf (polishAll ts), P l
  | [], h => h
  | t :: ts, h => by
    rw [leavesOf_cons] at h
    intro l hl
    rw [polishAll, leavesOf_cons, List.mem_append] at hl
    rcases hl with hl | hl
    · exact leaves_polish hopen hclose t (fun l hl => h l (List.mem_append_left _ hl)) l hl
    · exact leaves_polishAll hopen hclose ts (fun l hl => h l (List.mem_append_right _ hl)) l hl

end

/-! ## Gaps of canonical text -/

/-- What stands in front of the leaves is blanks. -/
def AllBlank (ls : List SpacedLeaf) : Prop := ∀ x ∈ ls, ∀ c ∈ x.gap.toList, c = ' '

theorem allBlank_widened (hgap : ∀ c ∈ gap.toList, c = ' ') (h : AllBlank ls) : AllBlank (widened gap ls) := by
  cases ls with
  | nil => exact h
  | cons y ys =>
    intro x hx
    rw [widened, List.mem_cons] at hx
    rcases hx with rfl | hx
    · intro c hc
      rw [String.toList_append, List.mem_append] at hc
      exact hc.elim (hgap c) (h y (List.mem_cons_self ..) c)
    · exact h x (List.mem_cons_of_mem _ hx)

theorem AllBlank.append {ms : List SpacedLeaf} (h : AllBlank ls) (h' : AllBlank ms) : AllBlank (ls ++ ms) := by
  intro x hx
  exact (List.mem_append.1 hx).elim (h x) (h' x)

theorem allBlank_linked {xs : List (Pattern × List SpacedLeaf)} (h : ∀ x ∈ xs, AllBlank x.2) :
    AllBlank (linked p xs) := by
  induction xs with
  | nil => simp [linked, AllBlank]
  | cons x xs ih =>
    have hx := h x (List.mem_cons_self ..)
    cases xs with
    | nil => exact hx
    | cons y rest =>
      have hgap : ∀ c ∈ (p.gap x.1 y.1).toList, c = ' ' := by
        unfold Phrase.gap
        split <;> simp
      rw [linked]
      exact hx.append (allBlank_widened hgap (ih fun z hz => h z (List.mem_cons_of_mem _ hz)))

mutual

/-- Nothing but blanks stands between the leaves of a tree in canonical style. -/
theorem allBlank_inked : ∀ t : ParseTree, AllBlank t.inked
  | .leaf .. => by simp [ParseTree.inked, AllBlank]
  | .node .whole ts => by
    rw [ParseTree.inked]
    exact allBlank_linked (allBlank_inkedAll ts)
  | .node (.phrase p) ts => by
    rcases inked_cases p ts with ⟨op, operand, rfl, rfl⟩ | ⟨hinked, -⟩
    · have hgap : ∀ c ∈ (if operand.isStacked && startsClashing operand.ink then " " else "").toList, c = ' ' := by
        split <;> simp
      rw [ParseTree.inked]
      exact (allBlank_inked op).append (allBlank_widened hgap (allBlank_inked operand))
    · rw [hinked]
      exact allBlank_linked (allBlank_inkedAll ts)

theorem allBlank_inkedAll : ∀ ts : List ParseTree, ∀ x ∈ inkedAll ts, AllBlank x.2
  | [], x, hx => by simp [inkedAll] at hx
  | t :: ts, x, hx => by
    rw [inkedAll, List.mem_cons] at hx
    rcases hx with rfl | hx
    · exact allBlank_inked t
    · exact allBlank_inkedAll ts x hx

end

/-- Blanks are a gap, and there are none or they begin with white space. -/
theorem isGap_blanks (h : ∀ c ∈ gap.toList, c = ' ') : IsGap gap.toList ∧ (gap = "" ∨ BeginsWhite gap.toList) := by
  have hgap : ∀ cs : List Char, (∀ c ∈ cs, c = ' ') → IsGap cs := by
    intro cs hcs
    induction cs with
    | nil => exact .nil
    | cons c cs ih =>
      have hc := hcs c (List.mem_cons_self ..)
      exact .blank (by rw [hc]; decide) (ih fun d hd => hcs d (List.mem_cons_of_mem _ hd))
  refine ⟨hgap _ h, ?_⟩
  cases hcs : gap.toList with
  | nil => exact .inl (String.toList_eq_nil_iff.1 hcs)
  | cons c cs =>
    have hc := h c (by rw [hcs]; exact List.mem_cons_self ..)
    exact .inr ⟨c, cs, rfl, by rw [hc]; decide⟩

/-! ## Leaves directly behind others -/

/-- A leaf stays what it is in front of a leaf that may stand directly behind it. -/
theorem Leaf.Abuts.before (h : l.Abuts m) (hmeets : l.Meets m) (hl : l.IsWritten) (hm : m.IsWritten)
    (hescaped : l.token ≠ .escapedIdentifier) (more : List Char) : l.Before (m.text.toList ++ more) := by
  obtain ⟨c, cs, htext, hc, -⟩ := hm.cons
  rw [htext, List.cons_append]
  refine ⟨?_, hl.startsBare fun hslash => ?_⟩
  · -- the leaf is joined by its kind, or it is an operator that does not clash
    rcases h with htoken | hjoins | ⟨htoken, hfirst, hclash⟩
    · exact absurd htoken hescaped
    · exact Token.length?_joined hjoins (length?_of_writes hl.text) hc
    · have hequals : c ≠ '=' := by
        have key : ∀ k ∈ (Pattern.phrase .unary).firstTokens, k.mayBegin '=' = false := by decide
        rintro rfl
        rw [key _ hfirst] at hc
        cases hc
      have hnone : Ast.clashing.contains c = false := by
        simpa only [startsClashing, htext] using hclash
      have hlength := length?_of_writes hl.text
      rw [htoken] at hlength ⊢
      exact unaryOperator_apart hnone hequals hlength
  · -- a slash or a star begins tokens that never stand behind a slash
    have hnot : ∀ d, d = '/' ∨ d = '*' → m.token.mayBegin d = false := by
      have key : ∀ k : Token, k ∉ shunned .multiplicative → k.isSpelled || k.isFree →
          k.mayBegin '/' = false ∧ k.mayBegin '*' = false := by decide +kernel
      rw [Leaf.Meets, hslash] at hmeets
      have hboth := key m.token hmeets hm.token
      rintro d (rfl | rfl)
      · exact hboth.1
      · exact hboth.2
    refine ⟨fun heq => ?_, fun heq => ?_⟩
    · cases heq
      rw [hnot _ (.inl rfl)] at hc
      cases hc
    · cases heq
      rw [hnot _ (.inr rfl)] at hc
      cases hc

/-- A leaf that may stand directly behind a keyword does not begin with a dollar sign. -/
theorem Leaf.Abuts.not_dollar (h : l.Abuts m) (hk : l.token = .keywordElse ∨ l.token = .keywordEnd)
    (hm : m.IsWritten) : m.text.toList.head? ≠ some '$' := by
  obtain ⟨c, cs, htext, hc, -⟩ := hm.cons
  have hjoins : l.token.joins m.token = true := by
    rcases h with htoken | hjoins | ⟨htoken, -⟩
    · rcases hk with hk | hk <;> cases hk.symm.trans htoken
    · exact hjoins
    · rcases hk with hk | hk <;> cases hk.symm.trans htoken
  have houtside : m.token.beginsOutside (fun c => isWordCharacter c || c = '$') = true := by
    rcases hk with hk | hk <;>
    · rw [hk] at hjoins
      simp only [Token.joins, Token.spelled_eq, Token.spellings, List.all_cons, List.all_nil,
        Bool.and_eq_true] at hjoins
      exact hjoins.2.1.1
  intro hdollar
  rw [htext, List.head?_cons, Option.some.injEq] at hdollar
  rw [hdollar] at hc
  have hfalse := Token.beginsOutside.eq_false houtside hc
  simp at hfalse

/-- **The leaves of a tree in canonical style stay what they are**, if none of them is an escaped identifier. -/
theorem parts_inked (h : Fits (.phrase p) [u]) (hwritten : ∀ l ∈ u.leaves, l.IsWritten)
    (hescaped : ∀ l ∈ u.leaves, l.token ≠ .escapedIdentifier) : u.inked.IsChain SpacedLeaf.Parts := by
  refine (chain_inked h).imp_of_mem_imp fun x y hx hy hmeets => ⟨hmeets.1, ?_⟩
  have hmem : ∀ z ∈ u.inked, z.leaf ∈ u.leaves := by
    intro z hz
    rw [← map_leaf_inked]
    exact List.mem_map_of_mem hz
  rcases (isGap_blanks (allBlank_inked u y hy)).2 with hnil | hwhite
  · exact .inr ⟨hnil, (hmeets.2 hnil).before hmeets.1 (hwritten _ (hmem x hx)) (hwritten _ (hmem y hy))
      (hescaped _ (hmem x hx))⟩
  · exact .inl hwhite

/-- In canonical style a gap stands between a keyword and a dollar sign. -/
theorem dollars_inked (h : Fits (.phrase p) [u]) (hwritten : ∀ l ∈ u.leaves, l.IsWritten) :
    u.inked.IsChain fun x y => x.leaf.token = .keywordElse ∨ x.leaf.token = .keywordEnd →
      y.leaf.text.toList.head? = some '$' → y.gap ≠ "" := by
  refine (chain_inked h).imp_of_mem_imp fun x y hx hy hmeets hk hdollar hnil => ?_
  have hmem : y.leaf ∈ u.leaves := by
    rw [← map_leaf_inked]
    exact List.mem_map_of_mem hy
  exact (hmeets.2 hnil).not_dollar hk (hwritten _ hmem) hdollar

end VerilogLoops.Grammar
