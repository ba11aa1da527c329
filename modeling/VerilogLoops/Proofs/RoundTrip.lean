import VerilogLoops.Proofs.Apart
import VerilogLoops.Proofs.Escaped
import VerilogLoops.Proofs.Polished
import VerilogLoops.Proofs.Written

/-!
# Rendering is undone by parsing

A loop statement is rendered as the ink of its polished tree. The polished tree means what the tree means, and
its leaves stay what they are where the ink puts them. So the text is read as the polished tree and is the
loop statement again.

> `parse_render`: the text of a loop statement without escaped names is the loop statement, but for the
> positions.
-/

namespace VerilogLoops

open VerilogLoops.Text VerilogLoops.Lexical VerilogLoops.Grammar VerilogLoops.Ast

variable {t : ParseTree} {v : Value}

/-- The polished tree of a loop statement means what the loop statement means. -/
theorem means_polished (h : IsLoop t v) : Means (.phrase .loop) [t.polish] [v.withoutPositions] := by
  refine means_polish rfl ⟨h.fits, ?_, buildAll_cons.2 ⟨_, [], h.built, rfl, rfl⟩⟩
  simpa using h.clear

/-- The polished tree of a loop statement has the frame of the loop statement. -/
theorem frame_of_isLoop (h : IsLoop t v) : t.frame = t.polish.frame := by
  have hsettled : t.polish.settled = t.polish := by
    obtain ⟨ts, heq, -⟩ := (shape_phrase rfl).1 h.fits
    cases heq
    rw [settled_polish_node rfl, polish_node rfl]
  have hframe := frame_polished h.fits t (List.mem_singleton_self t) fun q hq ho => by
    rw [symbol_of_fits h.fits] at hq
    cases hq
    cases ho
  rw [hsettled] at hframe
  exact hframe.symm

/-- The leaves of a polished tree are written ones, if those of the tree are. -/
theorem isWritten_polish (h : ∀ l ∈ t.leaves, l.IsWritten) : ∀ l ∈ t.polish.leaves, l.IsWritten :=
  leaves_polish (Leaf.isWritten_of_isWhole (by decide)) (Leaf.isWritten_of_isWhole (by decide)) t h

/-- The ink of the polished tree of a loop statement is the loop statement. -/
theorem parse_polished {origin text : String} (h : IsLoop t v)
    (hescaped : ∀ l ∈ t.leaves, l.token ≠ .escapedIdentifier) (htext : text = t.polish.ink) :
    ∃ w, parse origin text = .ok w ∧ w.withoutPositions = v.withoutPositions := by
  have hmeans := means_polished h
  have hleaves := isWritten_polish h.leaves
  have hnone : ∀ l ∈ t.polish.leaves, l.token ≠ .escapedIdentifier :=
    leaves_polish (P := fun l => l.token ≠ .escapedIdentifier) (by decide) (by decide) t hescaped
  have hclear : t.polish.isClear = true := by simpa using hmeans.clear
  have hspaced : ∀ x ∈ t.polish.inked, IsGap x.gap.toList ∧ x.leaf.IsWritten := by
    intro x hx
    refine ⟨(isGap_blanks (allBlank_inked _ x hx)).1, hleaves _ ?_⟩
    rw [← map_leaf_inked]
    exact List.mem_map_of_mem hx
  have hcode : text.toList = (written t.polish.inked).toList ++ [] := by
    rw [htext, (written_inked hmeans.fits _ (List.mem_singleton_self _)).2, List.append_nil]
  have hparts := parts_inked hmeans.fits hleaves hnone
  have hdollars := dollars_inked hmeans.fits hleaves
  have hparse : ∃ w, parse origin text = .ok w ∧
      buildTree (fun _ => .unknown) t.polish.bare = .ok (.one w.withoutPositions) :=
    parse_written hmeans.fits hclear h.ordered (frame_of_isLoop h) (map_leaf_inked _) hspaced hparts hdollars
      hcode .nil (.inl rfl)
  obtain ⟨w, hw, hbuilt⟩ := hparse
  have hsame := hmeans.built
  rw [bareAll, bareAll, buildAll_cons.2 ⟨_, [], hbuilt, rfl, rfl⟩] at hsame
  exact ⟨w, hw, (List.cons.inj (Except.ok.inj hsame)).1⟩

/-- A loop statement is rendered as the ink of the polished tree, with positions or without. -/
theorem render_of_isLoop (h : IsLoop t v) :
    v.render = .ok t.polish.ink ∧ v.withoutPositions.render = .ok t.polish.ink := by
  obtain ⟨locate, hplaced⟩ := h.placed
  exact ⟨render_of_fits h.fits rfl hplaced, render_of_fits h.fits rfl (buildTree_unplaced t hplaced)⟩

/-- Positions have no part in how a loop statement is rendered. -/
theorem render_withoutPositions {origin code : String} (h : parse origin code = .ok v) :
    v.withoutPositions.render = v.render := by
  obtain ⟨t, _, _, _, -, -, -, hloop⟩ := exists_loop h
  obtain ⟨hrender, hwithout⟩ := render_of_isLoop hloop
  rw [hrender, hwithout]

/-- **Rendering is undone by parsing.** What a loop statement without escaped names is rendered as is the same
loop statement, but for the positions, and so it is rendered in the same way again. -/
theorem parse_render {origin source code : String} (h : parse source code = .ok v)
    (hnames : ∀ n ∈ v.nodes, n.isEscaped = false) :
    ∃ text w, v.render = .ok text ∧ parse origin text = .ok w ∧ w.withoutPositions = v.withoutPositions ∧
      w.render = .ok text := by
  obtain ⟨t, _, _, _, -, -, -, hloop⟩ := exists_loop h
  obtain ⟨locate, hplaced⟩ := hloop.placed
  have hrender := (render_of_isLoop hloop).1
  have hescaped := not_escaped hloop.fits rfl hplaced hnames
  have hparse : ∃ w, parse origin t.tidy.polish.ink = .ok w ∧ w.withoutPositions = v.withoutPositions :=
    parse_polished hloop hescaped rfl
  obtain ⟨w, hw, hsame⟩ := hparse
  refine ⟨_, w, hrender, hw, hsame, ?_⟩
  calc
    w.render = w.withoutPositions.render := (render_withoutPositions hw).symm
    _ = v.withoutPositions.render := by rw [hsame]
    _ = v.render := render_withoutPositions h
    _ = .ok t.tidy.polish.ink := hrender

/-- Operators that would run together, parentheses that are dropped and others that are kept. -/
theorem parse_render_operators :
    ∃ v text w, parse "a.sv" "while(- -x)a[i+++:4]=((b+c))*(d);" = .ok v ∧ v.render = .ok text ∧
      parse "b.sv" text = .ok w ∧ w.withoutPositions = v.withoutPositions ∧ w.render = .ok text := by
  obtain ⟨v, h, hnames⟩ : ∃ v, parse "a.sv" "while(- -x)a[i+++:4]=((b+c))*(d);" = .ok v ∧
      ∀ n ∈ v.nodes, n.isEscaped = false := by
    rw [parse_afresh String.toList_ofList]
    exact exists_of_any (by decide +kernel)
  obtain ⟨text, w, hrender⟩ := parse_render h hnames
  exact ⟨v, text, w, h, hrender⟩

end VerilogLoops
