import VerilogLoops.Proofs.Agreement
import VerilogLoops.Proofs.Laying
import VerilogLoops.Proofs.Statement.Frame
import VerilogLoops.Proofs.Statement.Taken
import VerilogLoops.Proofs.Unplaced

/-!
# Loop statements in texts of their own

A loop statement may be put together as a tree and then be written down. The tree is clear or not, and
ordered or not, whatever offsets it has, as long as it has nothing in it that adjoins something else. So
wherever its leaves lie from one end of a text to the other, the text is the loop statement.

> `parse_of_lays`: a text in which the leaves of a loop statement lie is that loop statement.
-/

namespace VerilogLoops.Grammar

open VerilogLoops.Text VerilogLoops.Lexical

variable {s a : Place} {t u : ParseTree} {ts us : List ParseTree} {x : Pattern} {label : Label}
  {k : Token} {n : Nat} {text : String}

/-! ## Trees that differ in their offsets -/

theorem bare_eq_node (h : u.bare = .node label us) : ∃ ts, u = .node label ts ∧ bareAll ts = us := by
  cases u with
  | leaf k start text =>
    rw [ParseTree.bare] at h
    cases h
  | node label' ts =>
    rw [ParseTree.bare] at h
    cases h
    exact ⟨ts, rfl, rfl⟩

theorem bare_eq_leaf (h : u.bare = .leaf k n text) : ∃ start, u = .leaf k start text := by
  cases u with
  | leaf k' start text' =>
    rw [ParseTree.bare] at h
    cases h
    exact ⟨start, rfl⟩
  | node label ts =>
    rw [ParseTree.bare] at h
    cases h

theorem bareAll_eq_cons (h : bareAll us = t :: ts) : ∃ v vs, us = v :: vs ∧ v.bare = t ∧ bareAll vs = ts := by
  cases us with
  | nil => cases h
  | cons v vs =>
    cases h
    exact ⟨v, vs, rfl, rfl, rfl⟩

theorem bareAll_eq_nil (h : bareAll us = []) : us = [] := by
  cases us with
  | nil => rfl
  | cons v vs => cases h

@[simp] theorem firstText_bare : ∀ t : ParseTree, t.bare.firstText = t.firstText
  | .leaf .. => rfl
  | .node _ [] => rfl
  | .node _ (t :: _) => firstText_bare t

@[simp] theorem startsGlued_bare (word : String) (t : ParseTree) :
    t.bare.startsGlued word = t.startsGlued word := by
  simp [ParseTree.startsGlued]

@[simp] theorem isThis_bare (t : ParseTree) : t.bare.isThis = t.isThis := by
  rw [Bool.eq_iff_iff, isThis_iff, isThis_iff]
  constructor
  · rintro ⟨start, text, v, h⟩
    obtain ⟨ts, rfl, hts⟩ := bare_eq_node h
    obtain ⟨q, ts, rfl, hq, hts⟩ := bareAll_eq_cons hts
    obtain ⟨w, ts, rfl, -, hts⟩ := bareAll_eq_cons hts
    cases bareAll_eq_nil hts
    obtain ⟨cs, rfl, hcs⟩ := bare_eq_node hq
    obtain ⟨c, cs, rfl, hc, hcs⟩ := bareAll_eq_cons hcs
    cases bareAll_eq_nil hcs
    obtain ⟨place, rfl⟩ := bare_eq_leaf hc
    exact ⟨place, text, w, rfl⟩
  · rintro ⟨start, text, v, rfl⟩
    exact ⟨0, text, v.bare, rfl⟩

/-- What a node admits has nothing to do with offsets. -/
theorem admits_bare (label : Label) (ts : List ParseTree) :
    label.admits (bareAll ts) = label.admits ts := by
  have hvar : varGlued (bareAll ts) = varGlued ts := by
    cases ts <;> simp [bareAll, varGlued]
  have hsuper : superGlued (bareAll ts) = superGlued ts := by
    rcases ts with _ | ⟨t, _ | ⟨u, ts⟩⟩ <;> simp [bareAll, superGlued]
  unfold Label.admits
  split <;> simp [hvar, hsuper]

mutual

/-- Whether a tree is clear has nothing to do with offsets. -/
@[simp] theorem isClear_bare : ∀ t : ParseTree, t.bare.isClear = t.isClear
  | .leaf .. => rfl
  | .node label ts => by rw [ParseTree.bare, isClear_node, isClear_node, admits_bare, allClear_bare]

@[simp] theorem allClear_bare : ∀ ts : List ParseTree, allClear (bareAll ts) = allClear ts
  | [] => rfl
  | t :: ts => by rw [bareAll, allClear_cons, allClear_cons, isClear_bare, allClear_bare]

end

mutual

theorem isTame_bare : ∀ t : ParseTree, t.bare.isTame = t.isTame
  | .leaf .. => rfl
  | .node label ts => by rw [ParseTree.bare, ParseTree.isTame, ParseTree.isTame, allTame_bare]

theorem allTame_bare : ∀ ts : List ParseTree, allTame (bareAll ts) = allTame ts
  | [] => rfl
  | t :: ts => by rw [bareAll, allTame, allTame, isTame_bare, allTame_bare]

end

/-- A tree is ordered if there is nothing to order in a tree that differs in its offsets. -/
theorem ordered_of_bare_isTame (h : u.bare = t.bare) (ht : t.isTame = true) : Ordered u :=
  ordered_of_isTame u (by rw [← isTame_bare, h, isTame_bare, ht])

/-- Leaves are parted in a text if a gap stands between a keyword and a dollar sign behind it. -/
theorem isChain_parted {xs : List SpacedLeaf} (h : xs.IsChain fun x y =>
      x.leaf.token = .keywordElse ∨ x.leaf.token = .keywordEnd → y.leaf.text.toList.head? = some '$' →
        y.gap ≠ "") (n : Nat) : (laid n xs).IsChain Leaf.Parted := by
  induction xs generalizing n with
  | nil => exact List.isChain_nil
  | cons x xs ih =>
    rw [List.isChain_cons] at h
    rw [laid, List.isChain_cons]
    refine ⟨fun m hm => ?_, ih h.2 _⟩
    cases xs with
    | nil => cases hm
    | cons y ys =>
      cases hm
      intro hk hdollar hstart
      have hgap := h.1 y rfl hk hdollar
      have hlength : y.gap.toList.length = 0 := by
        have htext : x.leaf.text.toList.length = x.leaf.text.length := by rw [String.length_toList]
        simp only [Leaf.stop] at hstart
        omega
      exact hgap (String.toList_injective (by rw [List.length_eq_zero_iff.1 hlength]; rfl))

end VerilogLoops.Grammar

namespace VerilogLoops

open VerilogLoops.Text VerilogLoops.Lexical VerilogLoops.Grammar VerilogLoops.Ast

/-- What is known about the tidy tree of a loop statement. -/
structure IsLoop (t : ParseTree) (v : Value) : Prop where
  fits : Fits (.phrase .loop) [t]
  clear : t.isClear = true
  ordered : Ordered t
  leaves : ∀ l ∈ t.leaves, l.IsWritten
  placed : ∃ locate, buildTree locate t = .ok (.one v)

theorem IsLoop.built {t : ParseTree} {v : Value} (h : IsLoop t v) :
    buildTree (fun _ => .unknown) t.bare = .ok (.one v.withoutPositions) := by
  obtain ⟨locate, hplaced⟩ := h.placed
  exact buildTree_bare t hplaced

/-- A text that is a loop statement has a tree of it, with nothing but trivia behind. -/
theorem exists_loop {origin code : String} {v : Value} (h : parse origin code = .ok v) :
    ∃ t m leaf a, Takes (.phrase .loop) (.first code.toList) [t] m ∧ IsTrivia m.rest ∧
      tokenAt .endOfInput m = some (leaf, a) ∧ IsLoop t.tidy v := by
  obtain ⟨tree, a, htree, hb⟩ := parse_eq_ok.1 h
  obtain ⟨us, heq, hbody⟩ := takes_phrase.1 htree
  cases heq
  obtain ⟨_, m, _, rfl, ht, hend⟩ := takes_seq.1 hbody
  obtain ⟨cs, rfl, -⟩ := takes_phrase.1 ht
  obtain ⟨leaf, rfl, hleaf⟩ := takes_token.1 hend
  have htrivia : IsTrivia m.rest := stands_endOfInput.1 (stands_of_tokenAt hleaf)
  have hfits := (ht.reads_phrase rfl).fits
  refine ⟨_, m, leaf, a, ht, htrivia, hleaf, hfits, ?_, ?_, ?_, ?_⟩
  · simpa [tidyAll] using allClear_tidyAll _ (Takes.allClear ht)
  · exact ordered_of_takes ht _ (by simp [tidyAll])
  · have hlays : Lays (.first code.toList) (ParseTree.node (.phrase .loop) cs).tidy.leaves m := by
      simpa [tidyAll] using Reads.lays (ht.reads_phrase rfl)
    have hplain := tokens_of_fits hfits (by decide)
    exact hlays.isWritten (by simpa [tidyAll] using hplain)
  · obtain ⟨b, hb, hbtidy⟩ := exists_buildTree
      (fun offset => positionAt origin ((LocationTable.of code.toList).locate offset)) rfl ht
    obtain ⟨w, hw, hloop⟩ := exists_buildTree_loop (.inl rfl) ht
    rw [hb] at hw
    cases hw
    have hwhole := (parse_of_takes ht (buildIn_eq_ok.2 hb) hloop).1 htrivia
    rw [h] at hwhole
    cases hwhole
    exact ⟨_, hbtidy⟩

/-- **A text in which the leaves of a loop statement lie is that loop statement.** -/
theorem parse_of_lays {origin code : String} {t : ParseTree} {ls : List Leaf} {a : Place}
    (ht : Fits (.phrase .loop) [t]) (hclear : t.isClear = true)
    (hlays : Lays (.first code.toList) ls a) (hbare : ls.map Leaf.bare = t.leaves.map Leaf.bare)
    (htrivia : IsTrivia a.rest)
    (hordered : ∀ u, Fits (.phrase .loop) [u] → u.bare = t.bare → u.leaves = ls → Ordered u) :
    ∃ v, parse origin code = .ok v ∧
      buildTree (fun _ => .unknown) t.bare = .ok (.one v.withoutPositions) := by
  obtain ⟨u, hu, hubare, huleaves⟩ := Fits.reads ht (by decide) hlays hbare
  have huclear : u.isClear = true := by rw [← isClear_bare, hubare, isClear_bare, hclear]
  have hclosed : Closed u a := closed_of_endOfInput (stands_endOfInput.2 htrivia)
  obtain ⟨ws, hws, htidy⟩ := accepts_loop hu huclear (hordered u hu.fits hubare huleaves) hclosed
  obtain ⟨cs, rfl, -⟩ := takes_phrase.1 hws
  obtain ⟨b, hb, hbtidy⟩ := exists_buildTree
    (fun offset => positionAt origin ((LocationTable.of code.toList).locate offset)) rfl hws
  obtain ⟨v, hv, hloop⟩ := exists_buildTree_loop (.inl rfl) hws
  rw [hb] at hv
  cases hv
  refine ⟨v, (parse_of_takes hws (buildIn_eq_ok.2 hb) hloop).1 htrivia, ?_⟩
  have heq : (ParseTree.node (.phrase .loop) cs).tidy = u := by simpa [tidyAll] using htidy
  rw [heq] at hbtidy
  rw [← hubare, buildTree_bare u hbtidy]
  rfl

/-- **A text that is written leaf by leaf is the loop statement with these leaves.** -/
theorem parse_written {origin code : String} {t u : ParseTree} {xs : List SpacedLeaf} {rest : List Char}
    (hu : Fits (.phrase .loop) [u]) (hclear : u.isClear = true) (ht : Ordered t) (hframe : t.frame = u.frame)
    (hxs : xs.map SpacedLeaf.leaf = u.leaves)
    (hleaves : ∀ x ∈ xs, IsGap x.gap.toList ∧ x.leaf.IsWritten) (hparts : xs.IsChain SpacedLeaf.Parts)
    (hgaps : xs.IsChain fun x y => x.leaf.token = .keywordElse ∨ x.leaf.token = .keywordEnd →
      y.leaf.text.toList.head? = some '$' → y.gap ≠ "")
    (hcode : code.toList = (written xs).toList ++ rest) (hgap : IsGap rest)
    (hrest : rest = [] ∨ BeginsWhite rest) :
    ∃ w, parse origin code = .ok w ∧ buildTree (fun _ => .unknown) u.bare = .ok (.one w.withoutPositions) := by
  have hnone : NoTick [] := by
    intro h
    cases h
  have htick : NoTick rest := by simpa using IsGap.noTick hgap hnone
  have hfirst : (Place.first code.toList).rest = (written xs).toList ++ rest := hcode
  obtain ⟨a, hlays, ha⟩ := lays_written hleaves hparts hrest htick hfirst
  refine parse_of_lays hu hclear hlays ?_ (by rw [ha]; exact hgap.isTrivia) fun w hw hbare hwleaves => ?_
  · rw [map_bare_laid, ← hxs, List.map_map]
    rfl
  · refine ordered_of_frame w ?_ (.inr ⟨_, hw⟩) (by rw [hwleaves]; exact isChain_parted hgaps _) ht
    rw [hframe, ← frame_bare u, ← hbare, frame_bare]

end VerilogLoops
