import VerilogLoops.Proofs.Extension
import VerilogLoops.Proofs.Inked
import VerilogLoops.Proofs.Token.Cut

/-!
# Laying leaves in a text

A text may be written leaf by leaf, with gaps of one's own between the leaves. The leaves lie in it if
every one of them stays what it is in front of the next, and no gap runs together with a leaf. White
space at the head of the gap is enough for this, as long as the leaves are such as may stand side by
side.

> `lays_written`: leaves that are written with gaps between them lie in the text;
> `Lays.moved`: leaves that lie in a text lie in every text in which the text stands behind a gap.
-/

namespace VerilogLoops.Grammar

open VerilogLoops.Text VerilogLoops.Lexical

variable {s a b : Place} {k : Token} {l : Leaf} {ls : List Leaf} {x y : SpacedLeaf}
  {xs ys : List SpacedLeaf} {g text rest more : List Char}

/-! ## A leaf in front of a text -/

/-- The leaf stays what it is in front of the text, and no comment begins with it. -/
structure Leaf.Before (l : Leaf) (more : List Char) : Prop where
  length : l.token.length? (l.text.toList ++ more) = some l.text.toList.length
  bare : StartsBare (l.text.toList ++ more)

/-- A token is found where its text stands behind the trivia. -/
theorem tokenAt_of_drop (hdrop : s.rest.drop (triviaLength s.rest) = text ++ more)
    (hlen : k.length? (text ++ more) = some text.length) :
    tokenAt k s = some (.leaf k (s.offset + triviaLength s.rest) (String.ofList text),
      ⟨s.offset + triviaLength s.rest + text.length, more⟩) :=
  tokenAt_iff.2 ⟨text, hdrop, hlen, rfl, rfl⟩

/-- A leaf is found behind a gap, if it stays what it is in front of what stands behind it. -/
theorem Leaf.Before.tokenAt (h : l.Before more) (hg : IsGap g)
    (hs : s.rest = g ++ (l.text.toList ++ more)) :
    Grammar.tokenAt l.token s = some (.leaf l.token (s.offset + g.length) l.text,
      ⟨s.offset + g.length + l.text.toList.length, more⟩) := by
  have htrivia : triviaLength s.rest = g.length := by
    rw [hs, triviaLength_gap hg, triviaLength_of_startsBare h.bare, Nat.add_zero]
  have hdrop : s.rest.drop (triviaLength s.rest) = l.text.toList ++ more := by
    rw [htrivia, hs, List.drop_left]
  have hfound := tokenAt_of_drop hdrop h.length
  rwa [String.ofList_toList, htrivia] at hfound

/-- A text that a token may write is one of the token on its own. -/
theorem length?_of_writes {text : String} (h : k.Writes text) :
    k.length? text.toList = some text.toList.length := by
  obtain ⟨rest, hrest⟩ := h
  have := Token.length?_take hrest (Nat.le_refl _)
  rwa [List.take_left] at this

/-- A leaf of a text: its token may write it, and it does not begin with a blank. -/
structure Leaf.IsWritten (l : Leaf) : Prop where
  token : (l.token.isSpelled || l.token.isFree) = true
  text : l.token.Writes l.text
  blank : ∀ c, l.text.toList.head? = some c → isBlank c = false

/-- A leaf that its token takes as a whole, and that does not begin with a blank. -/
def Leaf.isWhole (l : Leaf) : Bool :=
  (l.token.isSpelled || l.token.isFree) && l.token.length? l.text.toList = some l.text.toList.length &&
    l.text.toList.head?.all fun c => !isBlank c

theorem Leaf.isWritten_of_isWhole {l : Leaf} (h : l.isWhole = true) : l.IsWritten := by
  simp only [Leaf.isWhole, Bool.and_eq_true, decide_eq_true_eq] at h
  refine ⟨h.1.1, ⟨[], by rw [List.append_nil, h.1.2]⟩, fun c hc => ?_⟩
  have hblank := h.2
  rw [hc] at hblank
  simpa using hblank

/-- A leaf has a text, and it begins as its token may. -/
theorem Leaf.IsWritten.cons (h : l.IsWritten) :
    ∃ c cs, l.text.toList = c :: cs ∧ l.token.mayBegin c = true ∧ isBlank c = false := by
  obtain ⟨c, cs, heq, hc⟩ := Token.mayBegin_of_length? h.token (length?_of_writes h.text)
  exact ⟨c, cs, heq, hc, h.blank c (by rw [heq]; rfl)⟩

/-- A leaf begins without trivia, unless a slash and what stands behind it open a comment. -/
theorem Leaf.IsWritten.startsBare (h : l.IsWritten)
    (hslash : l.token = .multiplicative → more.head? ≠ some '/' ∧ more.head? ≠ some '*') :
    StartsBare (l.text.toList ++ more) := by
  obtain ⟨c, cs, heq, -, hblank⟩ := h.cons
  have hlen : l.token.length? (l.text.toList ++ []) = some l.text.toList.length := by
    rw [List.append_nil]
    exact length?_of_writes h.text
  refine ⟨fun d hd => ?_, ?_⟩
  · rw [heq] at hd
    cases hd
    exact hblank
  · cases hcomment : comment? (l.text.toList ++ more) with
    | none => rfl
    | some n =>
      exfalso
      obtain ⟨r, hr⟩ := head_of_comment? hcomment
      have hhead : l.text.toList.head? = some '/' := by
        rw [heq] at hr ⊢
        cases hr
        rfl
      rcases text_of_slash h.token hlen hhead with ⟨htext, hk⟩ | htext
      · obtain ⟨hslash, hstar⟩ := hslash hk
        rw [htext] at hcomment
        rcases comment?_eq_some hcomment with ⟨r, hr, -⟩ | ⟨r, _, hr, -⟩ <;> cases hr
        · exact hslash rfl
        · exact hstar rfl
      · rw [htext] at hcomment
        rcases comment?_eq_some hcomment with ⟨r, hr, -⟩ | ⟨r, _, hr, -⟩ <;> cases hr

/-- A leaf stays what it is at the end of a text and in front of white space. -/
theorem Leaf.IsWritten.before (h : l.IsWritten) (hmore : more = [] ∨ BeginsWhite more)
    (hnumber : l.token = .number → NoTick more) : l.Before more where
  length := by
    rcases hmore with rfl | hmore
    · rw [List.append_nil]
      exact length?_of_writes h.text
    · refine Token.length?_spaced h.token (length?_of_writes h.text) hmore fun hn => ?_
      rw [List.drop_length, List.nil_append]
      exact hnumber hn
  bare := by
    refine h.startsBare fun _ => ?_
    rcases hmore with rfl | ⟨c, cs, rfl, hc⟩
    · simp
    · refine ⟨fun heq => ?_, fun heq => ?_⟩ <;> cases heq <;> exact absurd hc (by decide)

/-! ## Leaves with gaps between them -/

/-- The second leaf may be written behind the first one: behind white space, or directly behind it if the
first leaf stays what it is in front of the second. -/
def SpacedLeaf.Parts (x y : SpacedLeaf) : Prop :=
  x.leaf.Meets y.leaf ∧
    (BeginsWhite y.gap.toList ∨
      (y.gap = "" ∧ ∀ more, x.leaf.Before (y.leaf.text.toList ++ more)))

/-- The leaves as they lie in a text that is written from an offset on. -/
def laid : Nat → List SpacedLeaf → List Leaf
  | _, [] => []
  | n, x :: xs =>
    ⟨x.leaf.token, n + x.gap.toList.length, x.leaf.text⟩ ::
      laid (n + x.gap.toList.length + x.leaf.text.toList.length) xs

theorem map_bare_laid (n : Nat) (xs : List SpacedLeaf) :
    (laid n xs).map Leaf.bare = xs.map fun x => x.leaf.bare := by
  induction xs generalizing n with
  | nil => rfl
  | cons x xs ih => rw [laid, List.map_cons, ih, List.map_cons, Leaf.bare, Leaf.bare]

/-- No tick stands behind white space at the head of a gap, if none stands behind the gap. -/
theorem IsGap.noTick (h : IsGap g) (hmore : NoTick more) : NoTick (g ++ more) := by
  induction h with
  | nil => exact hmore
  | blank hc _ ih =>
    rw [NoTick] at ih ⊢
    rwa [List.cons_append, List.dropWhile_cons_of_pos (isWhiteSpace_of_isBlank hc)]
  | line | block => exact noTick_cons (by decide) (by decide) _

/-- **Leaves that are written with gaps between them lie in the text.** -/
theorem lays_written (hleaves : ∀ x ∈ xs, IsGap x.gap.toList ∧ x.leaf.IsWritten)
    (hparts : xs.IsChain SpacedLeaf.Parts) (hrest : rest = [] ∨ BeginsWhite rest)
    (htick : NoTick rest) (hs : s.rest = (written xs).toList ++ rest) :
    ∃ a, Lays s (laid s.offset xs) a ∧ a.rest = rest := by
  induction xs generalizing s with
  | nil => exact ⟨s, rfl, by simpa using hs⟩
  | cons x xs ih =>
    obtain ⟨hgap, hleaf⟩ := hleaves x (List.mem_cons_self ..)
    have htail : ∀ y ∈ xs, IsGap y.gap.toList ∧ y.leaf.IsWritten :=
      fun y hy => hleaves y (List.mem_cons_of_mem _ hy)
    rw [List.isChain_cons] at hparts
    have hwhole : s.rest = x.gap.toList ++ (x.leaf.text.toList ++ ((written xs).toList ++ rest)) := by
      rw [hs, written_cons]
      simp
    -- what the leaf has behind it: the rest of the text, a gap, or the next leaf directly
    have hbefore : x.leaf.Before ((written xs).toList ++ rest) := by
      cases xs with
      | nil => exact hleaf.before (by simpa using hrest) fun _ => by simpa using htick
      | cons y xs =>
        obtain ⟨hmeets, hwhite | ⟨hnil, hdirect⟩⟩ := hparts.1 y rfl
        · obtain ⟨hygap, hyleaf⟩ := htail y (List.mem_cons_self ..)
          obtain ⟨c, cs, htext, hc, -⟩ := hyleaf.cons
          have hsplit : (written (y :: xs)).toList ++ rest
              = y.gap.toList ++ (c :: (cs ++ ((written xs).toList ++ rest))) := by
            rw [written_cons]
            simp [htext]
          rw [hsplit]
          refine hleaf.before (.inr ?_) fun hnumber => ?_
          · obtain ⟨w, ws, hw, hwhite⟩ := hwhite
            exact ⟨w, _, by rw [hw]; rfl, hwhite⟩
          · -- behind a number comes no number, and nothing else begins with a tick
            have hy : y.leaf.token ≠ .number := by
              intro hy
              rw [Leaf.Meets, hnumber, hy] at hmeets
              exact hmeets (by decide)
            obtain ⟨hwhite, htick⟩ := mayBegin_ink hy hc
            exact IsGap.noTick hygap (noTick_cons hwhite htick _)
        · have := hdirect ((written xs).toList ++ rest)
          rw [written_cons, hnil]
          simpa using this
    have hfound := hbefore.tokenAt hgap hwhole
    obtain ⟨a, hlays, ha⟩ := ih htail hparts.2
      (show (Place.mk (s.offset + x.gap.toList.length + x.leaf.text.toList.length) _).rest = _ from rfl)
    exact ⟨a, ⟨_, hfound, hlays⟩, ha⟩

/-! ## Gaps in front of leaves -/

/-- Leaves with a gap in front of the first one and a gap behind every one. -/
def spaced : String → List Leaf → List String → List SpacedLeaf
  | gap, l :: ls, behind :: gaps => ⟨gap, l⟩ :: spaced behind ls gaps
  | _, _, _ => []

variable {gap : String} {gaps : List String}

theorem map_leaf_spaced (h : gaps.length = ls.length) : (spaced gap ls gaps).map SpacedLeaf.leaf = ls := by
  induction ls generalizing gap gaps with
  | nil =>
    cases List.length_eq_zero_iff.1 h
    rfl
  | cons l ls ih =>
    cases gaps with
    | nil => cases h
    | cons behind gaps =>
      rw [spaced, List.map_cons, ih (by simpa using h)]

/-- The gap behind the last leaf is no part of the leaves. -/
theorem written_spaced (h : gaps.length = ls.length) :
    gap ++ String.join (List.zipWith (· ++ ·) (ls.map Leaf.text) gaps)
      = written (spaced gap ls gaps) ++ gaps.getLastD gap := by
  induction ls generalizing gap gaps with
  | nil =>
    cases List.length_eq_zero_iff.1 h
    simp [spaced]
  | cons l ls ih =>
    cases gaps with
    | nil => cases h
    | cons behind gaps =>
      have hrest : behind ++ String.join (List.zipWith (· ++ ·) (ls.map Leaf.text) gaps)
          = written (spaced behind ls gaps) ++ gaps.getLastD behind := ih (by simpa using h)
      rw [spaced, written_cons, List.map_cons, List.zipWith_cons_cons, String.join_cons, List.getLastD_cons]
      simp only [String.append_assoc] at hrest ⊢
      rw [hrest]

/-- What stands in front of a leaf is the first gap or one of the others. -/
theorem gap_of_mem_spaced {x : SpacedLeaf} (hx : x ∈ spaced gap ls gaps) :
    (x.gap = gap ∨ x.gap ∈ gaps) ∧ x.leaf ∈ ls := by
  induction ls generalizing gap gaps with
  | nil => simp [spaced] at hx
  | cons l ls ih =>
    cases gaps with
    | nil => simp [spaced] at hx
    | cons behind gaps =>
      rw [spaced] at hx
      rcases List.mem_cons.1 hx with rfl | hx
      · exact ⟨.inl rfl, List.mem_cons_self ..⟩
      · obtain ⟨hgap | hgap, hleaf⟩ := ih hx
        · exact ⟨.inr (hgap ▸ List.mem_cons_self ..), List.mem_cons_of_mem _ hleaf⟩
        · exact ⟨.inr (List.mem_cons_of_mem _ hgap), List.mem_cons_of_mem _ hleaf⟩

/-- Leaves that meet may be written with white space between them. -/
theorem isChain_spaced (hls : ls.IsChain Leaf.Meets) (hgaps : ∀ g ∈ gaps, BeginsWhite g.toList) :
    (spaced gap ls gaps).IsChain fun x y => x.leaf.Meets y.leaf ∧ BeginsWhite y.gap.toList := by
  induction ls generalizing gap gaps with
  | nil => exact List.isChain_nil
  | cons l ls ih =>
    cases gaps with
    | nil => exact List.isChain_nil
    | cons behind gaps =>
      rw [List.isChain_cons] at hls
      rw [spaced, List.isChain_cons]
      refine ⟨fun y hy => ?_, ih hls.2 fun g hg => hgaps g (List.mem_cons_of_mem _ hg)⟩
      cases ls with
      | nil => cases hy
      | cons m ls =>
        cases gaps with
        | nil => cases hy
        | cons _ _ =>
          cases hy
          exact ⟨hls.1 m rfl, hgaps behind (List.mem_cons_self ..)⟩

/-! ## Leaves of another text -/

/-- The leaves of a text are written ones. -/
theorem Lays.isWritten (h : Lays s ls a)
    (hls : ∀ l ∈ ls, (l.token.isSpelled || l.token.isFree) = true) : ∀ l ∈ ls, l.IsWritten := by
  induction ls generalizing s with
  | nil => simp
  | cons l ls ih =>
    obtain ⟨m, hm, hrest⟩ := h
    intro k hk
    rcases List.mem_cons.1 hk with rfl | hk
    · obtain ⟨text, hdrop, hlen, heq, -⟩ := tokenAt_iff.1 hm
      have htext : k.text.toList = text := by
        rw [ParseTree.leaf.injEq] at heq
        rw [heq.2.2, String.toList_ofList]
      refine ⟨hls k (List.mem_cons_self ..), ⟨m.rest, by rwa [htext]⟩, fun c hc => ?_⟩
      have hbare := startsBare_drop s.rest
      rw [hdrop] at hbare
      refine hbare.1 c ?_
      rw [htext] at hc
      obtain ⟨cs, rfl⟩ := List.head?_eq_some_iff.1 hc
      rfl
    · exact ih hrest (fun l hl => hls l (List.mem_cons_of_mem _ hl)) k hk

/-- **Leaves that lie in a text lie in every text in which the text stands behind a gap.** -/
theorem Lays.moved (h : Lays s ls a) (hls : ls ≠ []) (hg : IsGap g) (hb : b.rest = g ++ s.rest) :
    ∃ ms d, Lays b ms d ∧ ms.map Leaf.bare = ls.map Leaf.bare ∧ d.rest = a.rest := by
  induction ls generalizing s b g with
  | nil => exact absurd rfl hls
  | cons l ls ih =>
    obtain ⟨m, hm, hrest⟩ := h
    obtain ⟨text, hdrop, hlen, heq, -⟩ := tokenAt_iff.1 hm
    rw [ParseTree.leaf.injEq] at heq
    have htext : l.text.toList = text := by rw [heq.2.2, String.toList_ofList]
    have htrivia : triviaLength b.rest = g.length + triviaLength s.rest := by
      rw [hb, triviaLength_gap hg]
    have hdropb : b.rest.drop (triviaLength b.rest) = text ++ m.rest := by
      rw [htrivia, hb, ← List.drop_drop, List.drop_left, hdrop]
    have hfound := tokenAt_of_drop hdropb hlen
    rw [← htext, String.ofList_toList] at hfound
    cases ls with
    | nil =>
      cases hrest
      exact ⟨[⟨l.token, b.offset + triviaLength b.rest, l.text⟩], _, ⟨_, hfound, rfl⟩,
        by simp [Leaf.bare], rfl⟩
    | cons k ls =>
      obtain ⟨ms, d, hlays, hbare, hd⟩ := ih hrest (by simp) .nil
        (show (Place.mk (b.offset + triviaLength b.rest + l.text.toList.length) m.rest).rest = [] ++ m.rest from rfl)
      exact ⟨⟨l.token, b.offset + triviaLength b.rest, l.text⟩ :: ms, d, ⟨_, hfound, hlays⟩,
        by simp [hbare, Leaf.bare], hd⟩

/-! ## Pieces of a text -/

/-- The piece of text has these leaves wherever it stands behind a gap, with a line feed behind it. What is
left of the piece and the line feed are a gap. -/
structure Holds (piece : List Char) (ls : List Leaf) : Prop where
  tick : ∀ more, NoTick (piece ++ more)
  lays : ∃ behind, IsGap (behind ++ ['\n']) ∧ ∀ (b : Place) (g more : List Char), IsGap g → NoTick more →
    b.rest = g ++ (piece ++ '\n' :: more) →
      ∃ ms d, Lays b ms d ∧ ms.map Leaf.bare = ls.map Leaf.bare ∧ d.rest = behind ++ '\n' :: more

/-- Two pieces with a line feed between them have the leaves of both. -/
theorem Holds.append {piece piece' : List Char} {ls ls' : List Leaf} (h : Holds piece ls)
    (h' : Holds piece' ls') : Holds (piece ++ '\n' :: piece') (ls ++ ls') := by
  obtain ⟨behind, hgap, hlays⟩ := h.lays
  obtain ⟨behind', hgap', hlays'⟩ := h'.lays
  refine ⟨fun more => ?_, behind', hgap', fun b g more hg hmore hb => ?_⟩
  · rw [List.append_assoc]
    exact h.tick _
  · obtain ⟨ms, d, hms, hbare, hd⟩ := hlays b g (piece' ++ '\n' :: more) hg (h'.tick _) (by simpa using hb)
    obtain ⟨ns, e, hns, hbare', he⟩ := hlays' d (behind ++ ['\n']) more hgap hmore (by simpa using hd)
    exact ⟨ms ++ ns, e, hms.append hns, by simp [hbare, hbare'], he⟩

/-- Leaves with gaps between them are those of the piece that they are written as. -/
theorem holds_written (hne : xs ≠ []) (hleaves : ∀ x ∈ xs, IsGap x.gap.toList ∧ x.leaf.IsWritten)
    (hparts : xs.IsChain SpacedLeaf.Parts) (htick : ∀ more, NoTick ((written xs).toList ++ more)) :
    Holds (written xs).toList (xs.map SpacedLeaf.leaf) := by
  refine ⟨htick, [], .blank (by decide) .nil, fun b g more hg hmore hb => ?_⟩
  have hwhite : BeginsWhite ('\n' :: more) := ⟨'\n', more, rfl, by decide⟩
  have hnot : NoTick ('\n' :: more) := IsGap.noTick (.blank (by decide) .nil) hmore
  obtain ⟨a, hlays, ha⟩ := lays_written (s := .first ((written xs).toList ++ '\n' :: more))
    hleaves hparts (.inr hwhite) hnot rfl
  have hls : laid 0 xs ≠ [] := by
    intro hnil
    have hbare := map_bare_laid 0 xs
    rw [hnil] at hbare
    exact hne (List.map_eq_nil_iff.1 hbare.symm)
  obtain ⟨ms, d, hms, hbare, hd⟩ := hlays.moved hls hg hb
  refine ⟨ms, d, hms, ?_, by rw [hd, ha, List.nil_append]⟩
  rw [hbare, map_bare_laid, List.map_map]
  rfl

/-- The leaves of a phrase that is a whole piece are those of the piece. -/
theorem holds_of_reads {p : Phrase} {t : ParseTree} (h : Reads (.phrase p) (.first text) [t] a)
    (ha : IsTrivia a.rest)
    (hp : p.isPlain = true ∧ .equals ∉ p.closers ∧ .multiplicative ∉ p.closers)
    (hfirst : .number ∉ (Pattern.phrase p).firstTokens) : Holds text t.leaves := by
  have hlays : Lays (.first text) t.leaves a := by simpa using Reads.lays h
  obtain ⟨l, ls, hls, htoken⟩ := head_mem_firstTokens h.fits
  have hplain : ∀ l ∈ t.leaves, (l.token.isSpelled || l.token.isFree) = true := by
    simpa using tokens_of_fits h.fits (Phrase.isPlain_phrase hp.1)
  have hgap := (isGap_trivia a.rest).2 ha
  refine ⟨fun more => ?_, a.rest, hgap, fun b g more hg hmore hb => ?_⟩
  · rw [hls] at hlays hplain
    obtain ⟨m, hm, -⟩ := hlays
    exact noTick_of_tokenAt (hplain l (List.mem_cons_self ..)) (fun hn => hfirst (hn ▸ htoken)) hm more
  · have hwhite : BeginsWhite ('\n' :: more) := ⟨'\n', more, rfl, by decide⟩
    have hnot : NoTick (a.rest ++ '\n' :: more) := by simpa using IsGap.noTick hgap hmore
    have hextend : Lays ((Place.first text).extend ('\n' :: more)) t.leaves (a.extend ('\n' :: more)) := by
      simpa using Reads.lays (h.extend hp hwhite fun _ => hnot)
    obtain ⟨ms, d, hms, hbare, hd⟩ := hextend.moved (by rw [hls]; simp) hg hb
    exact ⟨ms, d, hms, hbare, hd⟩

end VerilogLoops.Grammar
