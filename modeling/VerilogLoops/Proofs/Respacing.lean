import VerilogLoops.Proofs.Tiling
import VerilogLoops.Proofs.Written

/-!
# Loop statements with other trivia

What stands between the tokens of a loop statement means nothing. The tokens may be written with any blanks
and complete comments between them, as long as white space stands directly behind each of them. Then no
token runs together with the next one, and nothing adjoins a keyword.

> `parse_respaced`: a loop statement with other trivia between its tokens is the same loop statement.
-/

namespace VerilogLoops.Grammar

open VerilogLoops.Text VerilogLoops.Lexical

/-- The texts of the tokens of a tree in order, without the separators that no item follows and without the
end of the input. -/
def ParseTree.terminals (t : ParseTree) : List String :=
  (t.pruned.leaves.filter fun l => l.token ≠ .endOfInput).map Leaf.text

end VerilogLoops.Grammar

namespace VerilogLoops

open VerilogLoops.Text VerilogLoops.Lexical VerilogLoops.Grammar VerilogLoops.Ast

/-- The terminals of a loop statement are the texts of the leaves of its tidy tree. -/
theorem terminals_of_loop {t leaf : ParseTree} {s m a : Place} (ht : Takes (.phrase .loop) s [t] m)
    (hleaf : tokenAt .endOfInput m = some (leaf, a)) :
    (ParseTree.node (.phrase .loopUnit) [t, leaf]).terminals = t.tidy.leaves.map Leaf.text := by
  have hfitting : IsFitting (ParseTree.node (.phrase .loopUnit) [t, leaf]).tidy :=
    .inr ⟨.loopUnit, by simpa [tidyAll] using ((takes_loopUnit ht hleaf).reads_phrase rfl).fits⟩
  have hplain : ∀ l ∈ t.tidy.leaves, (l.token.isSpelled || l.token.isFree) = true := by
    simpa [tidyAll] using tokens_of_fits (ht.reads_phrase rfl).fits (by decide)
  have hkept : t.tidy.leaves.filter (fun l => l.token ≠ .endOfInput) = t.tidy.leaves := by
    refine List.filter_eq_self.2 fun l hl => ?_
    have hl := hplain l hl
    simp only [decide_eq_true_eq]
    intro hend
    rw [hend] at hl
    cases hl
  obtain ⟨start, text, rfl⟩ := tokenAt_eq_leaf hleaf
  rw [ParseTree.terminals, pruned_eq_tidy _ hfitting]
  simp only [ParseTree.tidy, tidyAll, Label.tidied, leaves_node, leavesOf_cons, leavesOf_nil, leaves_leaf,
    List.append_nil, List.filter_append, hkept]
  simp

/-- **Trivia is irrelevant.** The tokens of a loop statement may be written with any blanks and complete
comments in front of them and between them, as long as white space stands directly behind every token: the
text is the same loop statement, but for the positions. -/
theorem parse_respaced {origin source code : String} {v : Value} {tree : ParseTree} {after : Place}
    {first : String} {gaps : List String} (h : parse source code = .ok v)
    (htree : parseTree (.phrase .loopUnit) false code.toList = .ok (tree, after))
    (hlength : gaps.length = tree.terminals.length) (hfirst : IsGap first.toList)
    (hgaps : ∀ gap ∈ gaps, IsGap gap.toList ∧ BeginsWhite gap.toList) :
    ∃ w, parse origin (first ++ String.join (List.zipWith (· ++ ·) tree.terminals gaps)) = .ok w ∧
      w.withoutPositions = v.withoutPositions := by
  obtain ⟨t, m, leaf, a, ht, htrivia, hleaf, hloop⟩ := exists_loop h
  have hunit : Takes (Symbol.phrase .loopUnit).pattern (.first code.toList) _ a := takes_loopUnit ht hleaf
  rw [parseTree_of_takes hunit] at htree
  cases htree
  rw [terminals_of_loop ht hleaf] at hlength ⊢
  rw [List.length_map] at hlength
  have hfits := hloop.fits
  have hlays : Lays (.first code.toList) t.tidy.leaves m := by
    simpa [tidyAll] using Reads.lays (ht.reads_phrase rfl)
  have hplain : ∀ l ∈ t.tidy.leaves, (l.token.isSpelled || l.token.isFree) = true := by
    simpa using tokens_of_fits hfits (by decide)
  have hwritten := hlays.isWritten hplain
  -- the last gap stands behind the last leaf
  have hlast : gaps.getLastD first ∈ gaps := by
    obtain ⟨l, ls, hls, -⟩ := head_mem_firstTokens hfits
    cases gaps with
    | nil =>
      rw [hls] at hlength
      cases hlength
    | cons g gaps =>
      rw [List.getLastD_cons]
      exact List.getLastD_mem_cons ..
  have hcode : (first ++ String.join (List.zipWith (· ++ ·) (t.tidy.leaves.map Leaf.text) gaps)).toList
      = (written (spaced first t.tidy.leaves gaps)).toList ++ (gaps.getLastD first).toList := by
    rw [written_spaced hlength, String.toList_append]
  have hchain : (spaced first t.tidy.leaves gaps).IsChain fun x y =>
      x.leaf.Meets y.leaf ∧ BeginsWhite y.gap.toList :=
    isChain_spaced (chain_leaves hfits) fun g hg => (hgaps g hg).2
  have hleaves : ∀ x ∈ spaced first t.tidy.leaves gaps, IsGap x.gap.toList ∧ x.leaf.IsWritten := by
    intro x hx
    obtain ⟨hgap | hgap, hleaf⟩ := gap_of_mem_spaced hx
    · exact ⟨by rw [hgap]; exact hfirst, hwritten _ hleaf⟩
    · exact ⟨(hgaps _ hgap).1, hwritten _ hleaf⟩
  have hparts : (spaced first t.tidy.leaves gaps).IsChain SpacedLeaf.Parts :=
    hchain.imp fun x y hxy => ⟨hxy.1, .inl hxy.2⟩
  have hapart : (spaced first t.tidy.leaves gaps).IsChain fun x y =>
      x.leaf.token = .keywordElse ∨ x.leaf.token = .keywordEnd → y.leaf.text.toList.head? = some '$' →
        y.gap ≠ "" := by
    refine hchain.imp fun x y hxy _ _ hnil => ?_
    obtain ⟨c, cs, hc, -⟩ := hxy.2
    rw [hnil] at hc
    cases hc
  obtain ⟨w, hw, hbuilt⟩ := parse_written hfits hloop.clear hloop.ordered rfl (map_leaf_spaced hlength)
    hleaves hparts hapart hcode (hgaps _ hlast).1 (.inr (hgaps _ hlast).2)
  rw [hloop.built, Except.ok.injEq, Built.one.injEq] at hbuilt
  exact ⟨w, hw, hbuilt.symm⟩

/-- The tokens of a loop on lines of their own, with comments. -/
theorem parse_respaced_comments :
    ∃ v w, parse "a.sv" "forever$x;" = .ok v ∧ parse "b.sv" "forever\n//\n$x /**/;\t" = .ok w ∧
      w.withoutPositions = v.withoutPositions := by
  obtain ⟨v, h⟩ : ∃ v, parse "a.sv" "forever$x;" = .ok v := by
    rw [parse_afresh String.toList_ofList]
    exact exists_of_isOk (by decide +kernel)
  obtain ⟨⟨tree, after⟩, htree, hterminals⟩ : ∃ found,
      parseTree (.phrase .loopUnit) false "forever$x;".toList = .ok found ∧
        found.1.terminals = ["forever", "$x", ";"] := by
    rw [String.toList_ofList, parseTree_afresh]
    exact exists_of_any (by decide +kernel)
  have hgaps : ∀ gap ∈ ["\n//\n", " /**/", "\t"], IsGap gap.toList ∧ BeginsWhite gap.toList := by
    intro gap hgap
    simp only [List.mem_cons, List.not_mem_nil, or_false] at hgap
    rcases hgap with rfl | rfl | rfl
    · exact ⟨.blank (by decide) (@IsGap.line [] _ (by decide) .nil), '\n', _, rfl, by decide⟩
    · exact ⟨.blank (by decide) (@IsGap.block ['*', '/'] _ (by decide) .nil), ' ', _, rfl, by decide⟩
    · exact ⟨.blank (by decide) .nil, '\t', _, rfl, by decide⟩
  obtain ⟨w, hw, hvalue⟩ := @parse_respaced "b.sv" "a.sv" _ v tree after "" ["\n//\n", " /**/", "\t"] h htree
    (by rw [hterminals]; rfl) .nil hgaps
  rw [hterminals] at hw
  exact ⟨v, w, h, hw, hvalue⟩

end VerilogLoops
