import VerilogLoops.Proofs.Initializers
import VerilogLoops.Proofs.Meaning

/-!
# Texts that are put together from pieces

A text may be put together from pieces that stand on lines of their own: keywords and signs as they are
written, and texts that are nothing but a phrase. A piece may also be trivia, such as a comment. The leaves of
the pieces lie in the text one behind the other, and the trees of the pieces are the parts of the tree of the
text. What a pattern is composed of goes by its operators, as its meaning does.

> `Carries.lays`: the leaves of pieces lie in a text in which the pieces stand on lines of their own;
> `composes_of_valueOf`: a text that is nothing but a phrase is a piece with the value of the phrase.
-/

namespace VerilogLoops.Grammar

open VerilogLoops.Text VerilogLoops.Lexical

variable {s a b : Place} {piece : String} {ps qs : List String} {ls ms : List Leaf} {g rest : List Char}
  {xs : List SpacedLeaf}

/-! ## Pieces and their leaves -/

/-- The pieces with a line feed behind each of them, and then something else. -/
def linesBefore (rest : List Char) : List String → List Char
  | [] => rest
  | piece :: ps => piece.toList ++ '\n' :: linesBefore rest ps

/-- The pieces have these leaves, one piece behind the other. A piece that has leaves does not end with a
slash, which could open a comment together with what stands behind it. -/
inductive Carries : List String → List Leaf → Prop
  | nil : Carries [] []
  | blank {piece : String} {ps : List String} {ls : List Leaf} (hpiece : IsTrivia piece.toList)
      (h : Carries ps ls) : Carries (piece :: ps) ls
  | piece {piece : String} {ps : List String} {ms ls : List Leaf} {a : Place}
      (hms : Lays (.first piece.toList) ms a) (ha : IsTrivia a.rest) (hne : ms ≠ [])
      (hslash : ∀ l, ms.getLast? = some l → l.token ≠ .multiplicative) (h : Carries ps ls) :
      Carries (piece :: ps) (ms ++ ls)

theorem Carries.append (h : Carries ps ls) (h' : Carries qs ms) : Carries (ps ++ qs) (ls ++ ms) := by
  induction h with
  | nil => exact h'
  | blank hpiece _ ih => exact .blank hpiece ih
  | piece hms ha hne hslash _ ih =>
    rw [List.append_assoc]
    exact .piece hms ha hne hslash ih

/-- Leaves with gaps between them are a piece. -/
theorem carries_written (hne : laid 0 xs ≠ []) (hleaves : ∀ x ∈ xs, IsGap x.gap.toList ∧ x.leaf.IsWritten)
    (hparts : xs.IsChain SpacedLeaf.Parts)
    (hslash : ∀ l, (laid 0 xs).getLast? = some l → l.token ≠ .multiplicative) :
    Carries [written xs] (laid 0 xs) := by
  have hnone : NoTick [] := by
    intro h
    cases h
  obtain ⟨a, hlays, ha⟩ := lays_written (s := .first (written xs).toList) hleaves hparts (.inl rfl) hnone
    (by rw [List.append_nil]; rfl)
  have hpieces := Carries.piece hlays (by rw [ha]; rfl) hne hslash .nil
  rwa [List.append_nil] at hpieces

/-- Two tokens with a blank between them are a piece. -/
theorem carries_pair (k k' : Token) (word word' : String) (h : (Leaf.mk k 0 word).isWhole = true)
    (h' : (Leaf.mk k' 0 word').isWhole = true) (hmeets : k' ∉ shunned k) (hslash : k' ≠ .multiplicative) :
    Carries [word ++ " " ++ word'] [⟨k, 0, word⟩, ⟨k', word.toList.length + 1, word'⟩] := by
  have hpieces : Carries [written [⟨"", k, 0, word⟩, ⟨" ", k', 0, word'⟩]]
      (laid 0 [⟨"", k, 0, word⟩, ⟨" ", k', 0, word'⟩]) := by
    refine carries_written (by simp [laid]) (fun x hx => ?_) ?_ fun l hl => ?_
    · simp only [List.mem_cons, List.not_mem_nil, or_false] at hx
      rcases hx with rfl | rfl
      · exact ⟨.nil, Leaf.isWritten_of_isWhole h⟩
      · have hblank : IsGap " ".toList := .blank (by decide) .nil
        exact ⟨hblank, Leaf.isWritten_of_isWhole h'⟩
    · have hwhite : BeginsWhite " ".toList := ⟨' ', [], rfl, by decide⟩
      simp only [List.isChain_cons_cons, List.isChain_singleton, and_true]
      exact ⟨hmeets, .inl hwhite⟩
    · cases hl
      exact hslash
  simpa [written, laid, Nat.add_comm, String.append_assoc] using hpieces

/-- The first leaves of a tree that fits are such as may lie in a text, at whatever offsets. -/
theorem proper_of_fits {p : Phrase} {t : ParseTree} (h : Fits (.phrase p) [t]) (hp : p.isPlain = true)
    (hbare : (ls ++ ms).map Leaf.bare = t.leaves.map Leaf.bare) :
    (∀ l ∈ ls, (l.token.isSpelled || l.token.isFree) = true) ∧ ls.IsChain Leaf.Meets := by
  have htokens : ∀ l ∈ t.leaves, (l.token.isSpelled || l.token.isFree) = true := by
    simpa using tokens_of_fits h (Phrase.isPlain_phrase hp)
  refine ⟨fun l hl => ?_, (List.isChain_append.1 ((isChain_of_bare hbare.symm).2 (chain_leaves h))).1⟩
  have hmem : l.bare ∈ t.leaves.map Leaf.bare := by
    rw [← hbare, List.map_append]
    exact List.mem_append_left _ (List.mem_map_of_mem hl)
  obtain ⟨m, hm, heq⟩ := List.mem_map.1 hmem
  have htoken : m.bare.token = l.bare.token := congrArg Leaf.token heq
  change m.token = l.token at htoken
  rw [← htoken]
  exact htokens m hm

/-- The white space in front of the first leaf is not followed by a tick, unless the leaf is a number. -/
theorem Carries.noTick (h : Carries ps ls) (hls : ∀ l ∈ ls, (l.token.isSpelled || l.token.isFree) = true)
    (hfirst : ∀ l, ls.head? = some l → l.token ≠ .number) (hrest : NoTick rest) :
    NoTick (linesBefore rest ps) := by
  induction h with
  | nil => exact hrest
  | @blank piece ps ls hpiece _ ih =>
    have hgap := IsGap.noTick ((isGap_trivia piece.toList).2 hpiece) (ih hls hfirst)
    simpa [linesBefore] using hgap
  | @piece piece ps ms ls a hms _ hne _ _ _ =>
    obtain ⟨l, ms, rfl⟩ := List.exists_cons_of_ne_nil hne
    obtain ⟨m, hm, -⟩ := hms
    exact noTick_of_tokenAt (hls l (by simp)) (hfirst l rfl) hm _

/-- **The leaves of pieces lie in a text in which the pieces stand on lines of their own.** -/
theorem Carries.lays (h : Carries ps ls) (hls : ∀ l ∈ ls, (l.token.isSpelled || l.token.isFree) = true)
    (hmeets : ls.IsChain Leaf.Meets) (hrest : NoTick rest) (hg : IsGap g)
    (hb : b.rest = g ++ linesBefore rest ps) :
    ∃ ms d gap, Lays b ms d ∧ ms.map Leaf.bare = ls.map Leaf.bare ∧ IsGap gap ∧ d.rest = gap ++ rest := by
  induction h generalizing b g with
  | nil => exact ⟨[], b, g, rfl, rfl, hg, hb⟩
  | @blank piece ps ls hpiece _ ih =>
    refine ih hls hmeets (hg.append ((isGap_trivia piece.toList).2 hpiece)) ?_
    simpa [linesBefore] using hb
  | @piece piece ps ms ls a hms ha hne hslash h ih =>
    have hproper : ∀ l ∈ ms, (l.token.isSpelled || l.token.isFree) = true :=
      fun l hl => hls l (List.mem_append_left _ hl)
    have hothers : ∀ l ∈ ls, (l.token.isSpelled || l.token.isFree) = true :=
      fun l hl => hls l (List.mem_append_right _ hl)
    obtain ⟨hchain, hchain', hmeet⟩ := List.isChain_append.1 hmeets
    have hgap : IsGap (a.rest ++ ['\n']) := (isGap_trivia a.rest).2 ha
    have hend : EndsApart (a.rest ++ '\n' :: linesBefore rest ps) ms := by
      intro l hl
      refine ⟨hslash l hl, fun hnumber => ?_⟩
      -- behind a number comes no number, so no tick comes either
      have hnext : NoTick (linesBefore rest ps) := by
        refine h.noTick hothers (fun m hm hn => ?_) hrest
        have hshunned : m.token ∉ shunned l.token := hmeet l hl m hm
        rw [hnumber, hn] at hshunned
        exact hshunned (by decide)
      simpa using IsGap.noTick hgap hnext
    have hextend := hms.extend hproper hchain ⟨'\n', linesBefore rest ps, rfl, by decide⟩ hend
    obtain ⟨ns, d, hns, hbare, hd⟩ := hextend.moved hne hg hb
    obtain ⟨ns', d', gap, hns', hbare', hgap', hd'⟩ :=
      ih hothers hchain' hgap (b := d) (by rw [hd]; simp [Place.extend])
    exact ⟨ns ++ ns', d', gap, hns.append hns', by simp [hbare, hbare'], hgap', hd'⟩

/-- A text of several lines is the first lines and the last one. -/
theorem toList_intercalate (ps : List String) (last : String) :
    ("\n".intercalate (ps ++ [last])).toList = linesBefore last.toList ps := by
  induction ps with
  | nil => simp [linesBefore]
  | cons piece ps ih =>
    obtain ⟨q, qs, hq⟩ := List.exists_cons_of_ne_nil (l := ps ++ [last]) (by simp)
    rw [hq] at ih
    rw [List.cons_append, hq, String.intercalate_cons_cons, String.toList_append, String.toList_append, ih,
      linesBefore, List.append_assoc]
    rfl

/-- The leaves of pieces lie in a text of several lines in front of the last one. -/
theorem Carries.lays_first {last : String} (h : Carries ps ls)
    (hls : ∀ l ∈ ls, (l.token.isSpelled || l.token.isFree) = true) (hmeets : ls.IsChain Leaf.Meets)
    (hlast : NoTick last.toList) :
    ∃ ms d gap, Lays (.first ("\n".intercalate (ps ++ [last])).toList) ms d ∧
      ms.map Leaf.bare = ls.map Leaf.bare ∧ IsGap gap ∧ d.rest = gap ++ last.toList :=
  h.lays hls hmeets hlast .nil (toList_intercalate ps last)

end VerilogLoops.Grammar

namespace VerilogLoops

open VerilogLoops.Text VerilogLoops.Lexical VerilogLoops.Grammar VerilogLoops.Ast

variable {x y : Pattern} {k : Token} {p : Phrase} {source text piece word : String} {ps qs : List String}
  {t : ParseTree} {ts us : List ParseTree} {v : Value} {vs ws : List Value} {b : Built} {parsed : Parsed}

/-! ## Composing a pattern -/

/-- The leaves of the pieces are those of trees that mean the values. -/
structure Composes (x : Pattern) (ps : List String) (ts : List ParseTree) (vs : List Value) : Prop where
  means : Means x ts vs
  carries : Carries ps (leavesOf ts)

theorem composes_nothing (h : Fits x []) : Composes x [] [] [] := ⟨means_nil h, .nil⟩

theorem Composes.seq (hx : Composes x ps ts vs) (hy : Composes y qs us ws) :
    Composes (.seq x y) (ps ++ qs) (ts ++ us) (vs ++ ws) := by
  refine ⟨hx.means.seq hy.means, ?_⟩
  rw [leavesOf_append]
  exact hx.carries.append hy.carries

theorem Composes.imp (h : Composes x ps ts vs) (hxy : Fits x ts → Fits y ts) : Composes y ps ts vs :=
  ⟨h.means.imp hxy, h.carries⟩

/-- Trivia in front does not change what is composed. -/
theorem Composes.blank (h : Composes x ps ts vs) (hpiece : IsTrivia piece.toList) :
    Composes x (piece :: ps) ts vs := ⟨h.means, .blank hpiece h.carries⟩

/-- A phrase is composed of what its body is composed of. -/
theorem Composes.phrase (h : Composes p.body ps ts vs) (hp : (Pattern.phrase p).isLexeme = false)
    (hadmits : Label.admits (.phrase p) ts = true) (hb : assemble p .unknown vs = .ok b) :
    Composes (.phrase p) ps [.node (.phrase p) ts] b.values :=
  ⟨h.means.phrase hp hadmits hb, by simpa using h.carries⟩

/-- A token that is written as a piece of its own. -/
theorem composes_token (h : (Leaf.mk k 0 word).isWhole = true) (hslash : k ≠ .multiplicative) :
    Composes (.token k) [word] [.leaf k 0 word] (buildLeaf k .unknown word).values := by
  have hwritten := Leaf.isWritten_of_isWhole h
  refine ⟨means_token.2 ⟨0, word, rfl, hwritten.text, rfl⟩, ?_⟩
  have hpiece : Carries [written [⟨"", k, 0, word⟩]] (laid 0 [⟨"", k, 0, word⟩]) := by
    refine carries_written (by simp [laid]) (fun x hx => ?_) (List.isChain_singleton _) fun l hl => ?_
    · cases List.mem_singleton.1 hx
      exact ⟨.nil, hwritten⟩
    · cases hl
      exact hslash
  simpa [written, laid] using hpiece

/-- Two tokens in a row that are written as one piece, with a blank between them. -/
theorem Composes.behind_pair (h : Composes x ps ts vs) (k k' : Token) (word word' : String)
    (hk : (Leaf.mk k 0 word).isWhole = true) (hk' : (Leaf.mk k' 0 word').isWhole = true)
    (hmeets : k' ∉ shunned k) (hslash : k' ≠ .multiplicative) :
    Composes (.seq (.token k) (.seq (.token k') x)) ((word ++ " " ++ word') :: ps)
      (.leaf k 0 word :: .leaf k' (word.toList.length + 1) word' :: ts)
      ((buildLeaf k .unknown word).values ++ ((buildLeaf k' .unknown word').values ++ vs)) := by
  have hfirst : Means (.token k) [.leaf k 0 word] _ :=
    means_token.2 ⟨0, word, rfl, (Leaf.isWritten_of_isWhole hk).text, rfl⟩
  have hsecond : Means (.token k') [.leaf k' (word.toList.length + 1) word'] _ :=
    means_token.2 ⟨_, word', rfl, (Leaf.isWritten_of_isWhole hk').text, rfl⟩
  refine ⟨hfirst.seq (hsecond.seq h.means), ?_⟩
  simpa using (carries_pair k k' word word' hk hk' hmeets hslash).append h.carries

/-- A text that is nothing but a phrase is a piece. -/
theorem composes_of_parseSymbol (h : parseSymbol (.phrase p) true source text = .ok parsed)
    (hslash : .multiplicative ∉ p.closers) :
    ∃ t, Composes (.phrase p) [text] [t] (parsed.built.values.map Value.withoutPositions) ∧
      (∀ word, t.startsGlued word = true → parsed.tree.startsGlued word = true) ∧
      ∀ v, parsed.built.values = [v] → parsed.built = .one v := by
  obtain ⟨t, a, locate, hreads, hclear, htrivia, hstarts, hbuilt, hone⟩ := reads_of_parseSymbol h
  obtain ⟨l, ls, hls, -⟩ := head_mem_firstTokens hreads.fits
  have hlays : Lays (.first text.toList) t.leaves a := by simpa using Reads.lays hreads
  have hpiece := Carries.piece hlays htrivia (by rw [hls]; simp)
    (fun l hl heq => hslash (heq ▸ last_mem_closers hreads.fits l hl)) .nil
  have hmeans : Means (.phrase p) [t] _ := ⟨hreads.fits, by simpa using hclear, buildAll_bare [t] hbuilt⟩
  exact ⟨t, ⟨hmeans, by simpa using hpiece⟩, hstarts, hone⟩

/-! ## Values of pieces -/

/-- What a text that is nothing but a phrase stands for, without positions. -/
def valueOf (p : Phrase) (source text : String) : Except ParseError Value := do
  return (← parseSymbol (.phrase p) true source text).built.toValue.withoutPositions

theorem valueOf_afresh {p : Phrase} {source text : String} {cs : List Char} (h : text.toList = cs) :
    valueOf p source text = do
      return (← parseSymbolAfresh (.phrase p) true source cs).built.toValue.withoutPositions := by
  rw [valueOf, parseSymbol_afresh h]

/-- The values of some items are those of the items one by one. -/
theorem forall₂_of_mapM {α ε β : Type} {f : α → Except ε β} {as : List α} {bs : List β}
    (h : as.mapM f = .ok bs) : List.Forall₂ (fun a b => f a = .ok b) as bs := by
  induction as generalizing bs with
  | nil =>
    cases h
    exact .nil
  | cons a as ih =>
    rw [List.mapM_cons] at h
    obtain ⟨b, hb, h⟩ := bind_eq_ok.1 h
    obtain ⟨bs, hbs, h⟩ := bind_eq_ok.1 h
    cases h
    exact .cons hb (ih hbs)

/-- A text that is nothing but a plain phrase is a piece with the value of the phrase. -/
theorem composes_of_valueOf (h : valueOf p source text = .ok v) (hp : isPlain p = true)
    (hslash : .multiplicative ∉ p.closers) :
    ∃ parsed t, parseSymbol (.phrase p) true source text = .ok parsed ∧ Composes (.phrase p) [text] [t] [v] ∧
      v.isA (familyOf p) = true ∧ ∀ word, t.startsGlued word = true → parsed.tree.startsGlued word = true := by
  obtain ⟨parsed, hparsed, hv⟩ := bind_eq_ok.1 h
  cases hv
  obtain ⟨t, hcomposes, hstarts, hone⟩ := composes_of_parseSymbol hparsed hslash
  obtain ⟨w, hw, hfamily⟩ := hcomposes.means.single hp
  obtain ⟨u, hvalues, rfl⟩ : ∃ u, parsed.built.values = [u] ∧ u.withoutPositions = w := by
    simpa [List.map_eq_cons_iff] using hw
  rw [hone u hvalues]
  rw [hw] at hcomposes
  exact ⟨parsed, t, hparsed, hcomposes, hfamily, hstarts⟩

end VerilogLoops
