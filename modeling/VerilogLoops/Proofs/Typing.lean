import VerilogLoops.Proofs.Spread

/-!
# Trees from source text are well typed

> `parsed_isTyped`: every node that parsing gives has the fields that the data model asks for.

The values that are built from a parse tree are spread over the text of the tree, and every node of
them satisfies the data model; this module brings both to the trees that parsing gives.
-/

namespace VerilogLoops.Ast

open VerilogLoops.Text VerilogLoops.Lexical VerilogLoops.Grammar

variable {code : List Char} {locate : Nat → Position}

/-! ## The nodes of spread values -/

/-- Every node of spread values stands between the offsets, and so do the nodes in its fields behind
it. -/
theorem Spread.nodes {lo hi : Nat} {vs : List Value} (h : Spread code locate lo hi vs) {n : Value}
    (hn : n ∈ nodesOfAll vs) :
    ∃ o mid kind fields, n = .node kind (locate o) fields ∧ lo ≤ o ∧ o < mid ∧ mid ≤ hi ∧
      Stands code o kind fields ∧ Spread code locate o mid (headsOf fields) := by
  induction h with
  | nil => cases hn
  | text hlt hr ih =>
    obtain ⟨o, mid, kind, fields, hnode, hle, hrest⟩ := ih hn
    exact ⟨o, mid, kind, fields, hnode, by omega, hrest⟩
  | @node lo o mid hi kind fields rest hlo ho hs hf hr ihf ihr =>
    have hmid := hr.le
    simp only [nodesOfAll, Value.nodes, List.cons_append, List.mem_cons, List.mem_append] at hn
    rcases hn with rfl | hn | hn
    · exact ⟨o, mid, kind, fields, rfl, hlo, ho, hmid, hs, hf⟩
    · rw [← nodesOfAll_headsOf] at hn
      obtain ⟨o', mid', kind', fields', hnode, hle, hlt, hle', hrest⟩ := ihf hn
      exact ⟨o', mid', kind', fields', hnode, by omega, hlt, by omega, hrest⟩
    · obtain ⟨o', mid', kind', fields', hnode, hle, hrest⟩ := ihr hn
      exact ⟨o', mid', kind', fields', hnode, by omega, hrest⟩

/-! ## From a text to its values -/

mutual

/-- Tidying a tree takes leaves away and nothing else. -/
theorem mem_leaves_of_tidy {l : Leaf} : ∀ t : ParseTree, l ∈ t.tidy.leaves → l ∈ t.leaves
  | .leaf .., h => h
  | .node label children, h => by
    rw [ParseTree.tidy, leaves_node] at h
    have hsub : l ∈ leavesOf (tidyAll children) := by
      cases label with
      | whole => exact h
      | phrase p =>
        by_cases hp : p = .forDeclaration
        · subst hp
          rcases withoutLastComma_cases (tidyAll children) with hsame | ⟨start, text, hsplit⟩
          · simpa [Label.tidied, hsame] using h
          · rw [hsplit, leavesOf_append]
            exact List.mem_append_left _ h
        · rwa [tidied_of_ne hp] at h
    exact mem_leavesOf_of_tidyAll children hsub

theorem mem_leavesOf_of_tidyAll {l : Leaf} : ∀ ts : List ParseTree,
    l ∈ leavesOf (tidyAll ts) → l ∈ leavesOf ts
  | [], h => h
  | t :: rest, h => by
    rw [tidyAll, leavesOf_cons, List.mem_append] at h
    rw [leavesOf_cons, List.mem_append]
    exact h.imp (mem_leaves_of_tidy t) (mem_leavesOf_of_tidyAll rest)

end

/-- What a loop statement at the head of a text is built as is spread over the text. -/
theorem exists_spread {p : Phrase} (hp : p = .loop ∨ p = .loopUnit) {tree : ParseTree} {a : Place}
    (ht : Takes (.phrase p) (.first code) [tree] a) {v : Value}
    (hb : buildTree locate tree = .ok (.one v)) :
    IsSpread code locate tree.tidy ∧ valuesFrom locate tree.tidy = [v] ∧
      ∃ stop ≤ code.length, Spread code locate 0 stop [v] := by
  have hreads := ht.reads_phrase (by rcases hp with rfl | rfl <;> rfl)
  have hspread : IsSpread code locate tree.tidy :=
    isSpread_of_fits hreads.fits _ List.mem_cons_self
  have hvalues : valuesFrom locate tree.tidy = [v] := by
    obtain ⟨b, hb'⟩ := hspread.isMade.1
    have := (buildTree_of_tidy tree hb').1
    rw [hb] at this
    cases this
    rw [valuesFrom, hb']
    rfl
  have hin := ht.ahead.inText (Place.in_first code)
  have htiles : Tiles code 0 (leavesOf (tidyAll [tree])) a.offset :=
    hreads.tiles (Place.in_first code)
  rw [tidyAll, tidyAll, leavesOf_cons, leavesOf_nil, List.append_nil] at htiles
  have hslice : ∀ l ∈ tree.tidy.leaves, l.IsSlice code := fun l hl =>
    ht.isSlice (Place.in_first code) l (by simpa using mem_leaves_of_tidy tree hl)
  have hv := hspread.spread htiles hslice
  rw [hvalues] at hv
  exact ⟨hspread, hvalues, a.offset, hin.1, hv.widen (Nat.zero_le _)⟩

/-- A node of a loop that is built from a text satisfies the data model. -/
theorem isTyped_of_spread {origin : String} {lo hi : Nat} {v : Value}
    (h : Spread code (fun offset => positionAt origin ((LocationTable.of code).locate offset)) lo hi
      [v]) : v.isTyped = true := by
  refine List.all_eq_true.2 fun n hn => ?_
  obtain ⟨o, mid, kind, fields, rfl, -, -, -, hs, -⟩ :=
    h.nodes (mem_nodesOfAll.2 ⟨v, List.mem_cons_self, hn⟩)
  simp [Value.isWellFormed, hs.admits, positionAt, Position.isPlace]

end VerilogLoops.Ast

namespace VerilogLoops

open VerilogLoops.Ast VerilogLoops.Grammar

/-- A tree from source text, and the node that is built from it. -/
theorem isTyped_of_takes {p : Phrase} (hp : p = .loop ∨ p = .loopUnit) {origin : String}
    {code : List Char} {tree : ParseTree} {a : Place}
    (ht : Takes (.phrase p) (.first code) [tree] a) {v : Value}
    (hb : buildIn origin code tree = .ok (.one v)) : v.isA .loop = true ∧ v.isTyped = true := by
  have hb := buildIn_eq_ok.1 hb
  obtain ⟨u, hu, hloop⟩ := exists_buildTree_loop hp ht
  rw [hb] at hu
  cases hu
  obtain ⟨-, -, stop, -, hspread⟩ := exists_spread hp ht hb
  exact ⟨hloop, isTyped_of_spread hspread⟩

/-- **Trees from source text are well typed.** What parsing gives, for a whole text or for the head
of one, is a loop statement in which every field of every node holds a value of its type, the fields
of a node go together, and a call goes without parentheses only where one may. -/
theorem parsed_isTyped (origin code : String) :
    (∀ v, parse origin code = .ok v → v.isA .loop = true ∧ v.isTyped = true) ∧
      ∀ v rest, parsePrefix origin code = .ok (v, rest) → v.isA .loop = true ∧ v.isTyped = true := by
  refine ⟨fun v h => ?_, fun v rest h => ?_⟩
  · obtain ⟨tree, a, ht, hb⟩ := parse_eq_ok.1 h
    exact isTyped_of_takes (Or.inr rfl) ht hb
  · obtain ⟨tree, a, ht, hb, -⟩ := parsePrefix_eq_ok.1 h
    exact isTyped_of_takes (Or.inl rfl) ht hb

/-- The types say something about a tree with an escaped name, a part select, an increment of a
concatenation and a call without parentheses. -/
theorem parsed_isTyped_calls :
    ∃ v rest,
      parsePrefix "a.sv" "for (i = 0; ; tick, \x7ba, b[3+:2]\x7d++) \\x! = c ? f() : -1; end" =
        .ok (v, rest) ∧ v.isA .loop = true ∧ v.isTyped = true := by
  obtain ⟨⟨v, rest⟩, h⟩ : ∃ found, parsePrefix "a.sv"
      "for (i = 0; ; tick, \x7ba, b[3+:2]\x7d++) \\x! = c ? f() : -1; end" =
        .ok found := by
    rw [parsePrefix_afresh String.toList_ofList]
    exact exists_of_isOk (by decide +kernel)
  exact ⟨v, rest, h, (parsed_isTyped _ _).2 v rest h⟩

end VerilogLoops
