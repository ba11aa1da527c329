import VerilogLoops.Proofs.Positions
import VerilogLoops.Proofs.Standalone

/-!
# The span of a loop statement

What stands behind a loop statement has no part in its tree, and the tree is taken of the text without
it. Nor has it a part in what the tree stands for, since the positions in a text do not depend on what
comes later.

> `spans_exact`: the text that a loop statement spans is that loop statement.
-/

namespace VerilogLoops.Grammar

open VerilogLoops.Text VerilogLoops.Lexical

variable {s a : Place} {t : ParseTree} {ls : List Leaf}

/-- What is taken of a text is taken of the text that is cut behind it, but for dangling commas. -/
theorem takes_cut (h : Takes (.phrase .loop) s [t] a) :
    ∃ u, Takes (.phrase .loop) (s.cut a.rest.length) [u] (a.cut a.rest.length) ∧ u.tidy = t.tidy :=
  takes_alone rfl h

/-- Leaves start in front of the place where they end. -/
theorem Lays.start_le (h : Lays s ls a) : ∀ l ∈ ls, l.start ≤ a.offset := by
  induction ls generalizing s with
  | nil => simp
  | cons l ls ih =>
    obtain ⟨m, hm, hls⟩ := h
    have hle := (Lays.ahead hls).le
    have hsum := (Lays.ahead hls).sum
    have hstop := stop_of_tokenAt hm
    simp only [ParseTree.stop] at hstop
    simp only [List.mem_cons, forall_eq_or_imp]
    exact ⟨by omega, ih hls⟩

end VerilogLoops.Grammar

namespace VerilogLoops.Ast

open VerilogLoops.Grammar VerilogLoops.Document

variable {locate locate' : Nat → Position}

mutual

/-- A tree starts with one of its leaves. -/
theorem start_mem_leaves : ∀ t : ParseTree, t.start = 0 ∨ ∃ l ∈ t.leaves, l.start = t.start
  | .leaf t start text => Or.inr ⟨_, List.mem_singleton_self _, rfl⟩
  | .node _ [] => Or.inl rfl
  | .node _ (t :: rest) => by
    rcases start_mem_leaves t with h | ⟨l, hl, h⟩
    · exact Or.inl h
    · exact Or.inr ⟨l, by simp [hl], h⟩

end

mutual

/-- A tree stands for the same wherever its leaves have the same positions. -/
theorem buildTree_congr (h0 : locate 0 = locate' 0) : ∀ t : ParseTree,
    (∀ l ∈ t.leaves, locate l.start = locate' l.start) → buildTree locate t = buildTree locate' t
  | .leaf t start text, h => by
    have := h ⟨t, start, text⟩ (by simp)
    rw [buildTree, buildTree, this]
  | .node label children, h => by
    have hstart : locate (ParseTree.node label children).start =
        locate' (ParseTree.node label children).start := by
      rcases start_mem_leaves (.node label children) with h' | ⟨l, hl, h'⟩
      · rw [h', h0]
      · rw [← h', h l hl]
    rw [buildTree, buildTree, hstart, buildAll_congr h0 children (by simpa using h)]

theorem buildAll_congr (h0 : locate 0 = locate' 0) : ∀ ts : List ParseTree,
    (∀ l ∈ leavesOf ts, locate l.start = locate' l.start) → buildAll locate ts = buildAll locate' ts
  | [], _ => rfl
  | t :: rest, h => by
    rw [buildAll, buildAll, buildTree_congr h0 t fun l hl => h l (by simp [hl]),
      buildAll_congr h0 rest fun l hl => h l (by simp [hl])]

end

/-- The positions in a text are those in every text that begins with it. -/
theorem placed_append (origin : String) (code more : List Char) {offset : Nat}
    (h : offset ≤ code.length) : placed origin (code ++ more) offset = placed origin code offset := by
  rw [placed_eq, placed_eq, List.take_append_of_le_length h]

end VerilogLoops.Ast

namespace VerilogLoops

open VerilogLoops.Text VerilogLoops.Grammar VerilogLoops.Ast

/-- **Spans are exact.** If a text begins with a loop statement, then it is made of what the statement
spans and the rest. What the statement spans is a loop statement on its own, with the same nodes and
positions, and nothing is left of it. It is as long as the tree says, and matching ended there. -/
theorem spans_exact {origin text rest : String} {v : Value}
    (h : parsePrefix origin text = .ok (v, rest)) :
    ∃ consumed, text = consumed ++ rest ∧ parse origin consumed = .ok v ∧
      parsePrefix origin consumed = .ok (v, "") ∧
      ∃ tree after, parseTree (.phrase .loop) false text.toList = .ok (tree, after) ∧
        tree.stop = consumed.length ∧ after.offset = consumed.length := by
  obtain ⟨t, a, ht, hb, rfl⟩ := parsePrefix_eq_ok.1 h
  have hb : buildTree (placed origin text.toList) t = .ok (.one v) := buildIn_eq_ok.1 hb
  have hstop := stop_of_loop ht
  obtain ⟨hle, hrest⟩ := ht.ahead.inText (Place.in_first text.toList)
  -- what the statement spans
  obtain ⟨consumed, hconsumed⟩ : ∃ consumed : String, consumed.toList = text.toList.take a.offset :=
    ⟨String.ofList _, String.toList_ofList⟩
  have hlen : consumed.length = a.offset := by
    rw [← String.length_toList, hconsumed, List.length_take, Nat.min_eq_left hle]
  have htext : text.toList = consumed.toList ++ a.rest := by
    rw [hconsumed, hrest, List.take_append_drop]
  -- the statement is taken of it
  obtain ⟨u, hu, htidy⟩ := takes_cut ht
  have hfirst : (Place.first text.toList).cut a.rest.length = .first consumed.toList := by
    show (⟨0, text.toList.take (text.toList.length - a.rest.length)⟩ : Place) = ⟨0, consumed.toList⟩
    rw [htext, List.length_append, Nat.add_sub_cancel, List.take_left]
  have hnil : (a.cut a.rest.length).rest = [] := by
    show a.rest.take (a.rest.length - a.rest.length) = []
    rw [Nat.sub_self, List.take_zero]
  rw [hfirst] at hu
  have hstopu : u.stop = a.offset := (stop_of_loop hu :)
  -- it stands for the same there
  have hbuilt : buildTree (placed origin consumed.toList) u = .ok (.one v) := by
    obtain ⟨b, hb', htidyb⟩ := exists_buildTree (placed origin text.toList) rfl ht
    rw [hb] at hb'
    cases hb'
    refine (buildTree_of_tidy u ?_).1
    rw [htidy, ← htidyb]
    have hlays : Lays (.first text.toList) t.tidy.leaves a := by
      simpa [tidyAll] using Reads.lays (ht.reads_phrase rfl)
    refine buildTree_congr ?_ _ fun l hl => ?_
    · rw [htext, placed_append _ _ _ (Nat.zero_le _)]
    · have := Lays.start_le hlays l hl
      rw [htext, placed_append _ _ _ (by rw [String.length_toList]; omega)]
  have hv : v.isA .loop = true := by
    obtain ⟨v', hv', hisA⟩ : ∃ v', buildTree (placed origin text.toList) t = .ok (.one v') ∧
        v'.isA .loop = true := exists_buildTree_loop (Or.inl rfl) ht
    rw [hb] at hv'
    cases hv'
    exact hisA
  refine ⟨consumed, ?_, ?_, ?_, t, a, ?_, by rw [hstop, hlen], hlen.symm⟩
  · rw [← String.toList_inj, String.toList_append, String.toList_ofList, hstop, ← hrest, htext]
  · exact (parse_of_takes hu (buildIn_eq_ok.2 hbuilt) hv).1 (by rw [hnil]; rfl)
  · refine parsePrefix_eq_ok.2 ⟨u, _, hu, buildIn_eq_ok.2 hbuilt, ?_⟩
    rw [hstopu, List.drop_of_length_le (by rw [String.length_toList]; omega)]
  · exact parseTree_of_takes ht

/-- An `else` without a statement is no part of the conditional, and a colon without a name no part
of the block. -/
theorem spans_exact_unfinished :
    ∃ v consumed, parsePrefix "a.sv" "forever begin if (a) b; end : 1 else" = .ok (v, " : 1 else") ∧
      "forever begin if (a) b; end : 1 else" = consumed ++ " : 1 else" ∧
      parse "a.sv" consumed = .ok v := by
  obtain ⟨⟨v, rest⟩, h, hrest⟩ : ∃ found,
      parsePrefix "a.sv" "forever begin if (a) b; end : 1 else" = .ok found ∧
        found.2 = " : 1 else" := by
    rw [parsePrefix_afresh String.toList_ofList]
    exact exists_of_any (by decide +kernel)
  cases hrest
  obtain ⟨consumed, htext, hparse, -⟩ := spans_exact h
  exact ⟨v, consumed, h, htext, hparse⟩

end VerilogLoops
