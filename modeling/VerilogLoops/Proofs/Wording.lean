import VerilogLoops.Proofs.Meaning
import VerilogLoops.Proofs.Written

/-!
# Words and what they stand for

Words spell a pattern if there are trees that fit the pattern and have the words as leaves. What the trees
are built to is what the words stand for. A phrase is spelled from its parts, without a word on the trees,
and a text that is written word by word with blanks between the words is what the words spell.

> `parseSymbol_of_spells`: words with blanks between them are a text of the phrase that they spell.
-/

namespace VerilogLoops

open VerilogLoops.Text VerilogLoops.Lexical VerilogLoops.Grammar VerilogLoops.Ast

variable {x y : Pattern} {k : Token} {p : Phrase} {word : String} {ws ws' : List String} {v : Value}
  {vs vs' : List Value} {b : Built}

/-! ## Spelling a pattern -/

/-- The words are the leaves of trees that mean the values. -/
def Spells (x : Pattern) (ws : List String) (vs : List Value) : Prop :=
  ∃ ts, Means x ts vs ∧ (leavesOf ts).map Leaf.text = ws ∧ ∀ l ∈ leavesOf ts, l.IsWritten

theorem spells_token (h : (Leaf.mk k 0 word).isWhole = true) :
    Spells (.token k) [word] (buildLeaf k .unknown word).values := by
  have hwritten := Leaf.isWritten_of_isWhole h
  refine ⟨[.leaf k 0 word], means_token.2 ⟨0, word, rfl, hwritten.text, rfl⟩, rfl, fun l hl => ?_⟩
  cases List.mem_singleton.1 hl
  exact hwritten

theorem spells_nothing (h : Fits x []) : Spells x [] [] :=
  ⟨[], means_nil h, rfl, by simp⟩

theorem Spells.seq (hx : Spells x ws vs) (hy : Spells y ws' vs') :
    Spells (.seq x y) (ws ++ ws') (vs ++ vs') := by
  obtain ⟨ts, hts, htexts, htwritten⟩ := hx
  obtain ⟨us, hus, hutexts, huwritten⟩ := hy
  refine ⟨ts ++ us, hts.seq hus, ?_, fun l hl => ?_⟩
  · rw [leavesOf_append, List.map_append, htexts, hutexts]
  · rw [leavesOf_append, List.mem_append] at hl
    exact hl.elim (htwritten l) (huwritten l)

/-- What spells a pattern spells every pattern that the same trees fit. -/
theorem Spells.imp (h : Spells x ws vs) (hxy : ∀ ts, Fits x ts → Fits y ts) : Spells y ws vs := by
  obtain ⟨ts, hts, hleaves⟩ := h
  exact ⟨ts, hts.imp (hxy ts), hleaves⟩

theorem Spells.first (h : Spells x ws vs) : Spells (.alt x y) ws vs := h.imp fun _ => .first

theorem Spells.second (h : Spells y ws vs) : Spells (.alt x y) ws vs := h.imp fun _ => .second

/-- A phrase that admits all children stands for what it makes of the values of its parts. -/
theorem Spells.phrase (h : Spells p.body ws vs) (hp : (Pattern.phrase p).isLexeme = false)
    (hadmits : ∀ ts, Label.admits (.phrase p) ts = true) (hb : assemble p .unknown vs = .ok b) :
    Spells (.phrase p) ws b.values := by
  obtain ⟨ts, hts, htexts, hwritten⟩ := h
  exact ⟨_, hts.phrase hp (hadmits ts) hb, by simpa using htexts, by simpa using hwritten⟩

/-! ## Separated items -/

/-- One more item behind items with separators in front of them. -/
theorem Grammar.Shape.snoc {item : Pattern} {s a : Unit} {ts mark us : List ParseTree}
    (h : Shape LexemeForm (.tail k item) s ts a) (hmark : Fits (.token k) mark) (hitem : Fits item us) :
    Fits (.tail k item) (ts ++ (mark ++ us)) := by
  obtain ⟨m, rfl, hm⟩ := (shape_lexeme rfl).1 hmark
  generalize hx : Pattern.tail k item = x at h
  induction h with
  | last =>
    cases hx
    have hnext : Fits (.tail k item) (m :: us ++ []) := .next hm hitem .last
    simpa using hnext
  | @next t x _ sign _ ts _ rest _ hsign hfirst _ _ ih =>
    cases hx
    have hnext : Fits (.tail k item) (sign :: ts ++ (rest ++ ([m] ++ us))) := .next hsign hfirst (ih rfl)
    simpa using hnext
  | lexeme hlexeme =>
    rw [← hx] at hlexeme
    cases hlexeme
  | _ => cases hx

theorem spells_separated (h : Spells x ws vs) : Spells (.separated x k) ws vs := by
  have hseq := h.seq (spells_nothing (x := .tail k x) .last)
  rwa [List.append_nil, List.append_nil] at hseq

/-- One more item behind items with separators between them. -/
theorem Spells.snoc {mark : List String} {ms : List Value} (h : Spells (.separated x k) ws vs)
    (hmark : Spells (.token k) mark ms) (hx : Spells x ws' vs') :
    Spells (.separated x k) (ws ++ (mark ++ ws')) (vs ++ (ms ++ vs')) := by
  refine (h.seq (hmark.seq hx)).imp fun ts hts => ?_
  obtain ⟨_, _, _, rfl, hitems, hlast⟩ := shape_seq.1 hts
  obtain ⟨first, _, rest, rfl, hfirst, hrest⟩ := shape_seq.1 hitems
  obtain ⟨sign, _, last, rfl, hsign, hitem⟩ := shape_seq.1 hlast
  rw [List.append_assoc]
  exact Fits.seq hfirst (hrest.snoc hsign hitem)

/-! ## Names and numbers -/

/-- A plain name: an identifier without a dollar sign that is no reserved word. -/
def IsPlainName (text : String) : Prop :=
  identifier? text.toList = some text.toList.length ∧ '$' ∉ text.toList ∧ text ∉ reservedWords

instance (text : String) : Decidable (IsPlainName text) :=
  inferInstanceAs (Decidable (_ ∧ _ ∧ _))

/-- A decimal number without a size. -/
def IsDecimal (text : String) : Prop := decimal? text.toList = some text.toList.length

instance (text : String) : Decidable (IsDecimal text) :=
  inferInstanceAs (Decidable (_ = _))

/-- A variable that is nothing but a name, without positions. -/
def nameNode (text : String) : Value :=
  .node .variableReference .unknown
    [.node .scopedIdentifier .unknown
      [.null, .node .hierarchicalIdentifier .unknown
        [.bool false, .seq [.node .identifier .unknown [.text text]]]], .seq []]

/-- A number, without its position. -/
def numberNode (text : String) : Value := .node .numberLiteral .unknown [.text text]

theorem spells_name (h : IsPlainName word) : Spells (.phrase .primary) [word] [nameNode word] := by
  have hlength : Token.identifier.length? (word.toList ++ []) = some word.toList.length := by
    rw [List.append_nil]
    exact h.1
  have hname : Fits (.phrase .identifier) [.node (.phrase .identifier) [.leaf .identifier 0 word]] :=
    .lexeme rfl ⟨_, 0, word, rfl, ⟨[], hlength⟩, .inl ⟨rfl, h.2.2⟩⟩
  have hpath : Fits (.phrase .hierarchicalName) [.node (.phrase .hierarchicalName)
      [.node (.phrase .identifier) [.leaf .identifier 0 word]]] :=
    .phrase rfl (Fits.seq .omitted (Fits.seq hname .last))
  have hreference : Fits (.phrase .variableReference) [.node (.phrase .variableReference)
      [.node (.phrase .hierarchicalName) [.node (.phrase .identifier) [.leaf .identifier 0 word]]]] :=
    .phrase rfl (Fits.seq .omitted (Fits.seq hpath .stop))
  have hprimary : Fits (.phrase .primary) [.node (.phrase .primary) [.node (.phrase .variableReference)
      [.node (.phrase .hierarchicalName) [.node (.phrase .identifier) [.leaf .identifier 0 word]]]]] :=
    .phrase rfl (.second (.second (.second (.second (.second (.second hreference))))))
  refine ⟨_, ⟨hprimary, rfl, rfl⟩, rfl, ?_⟩
  intro l hl
  cases List.mem_singleton.1 hl
  refine ⟨rfl, ⟨[], hlength⟩, fun c hc => ?_⟩
  obtain ⟨d, rest, hword, hd⟩ := Token.mayBegin_of_length? rfl (by simpa using hlength)
  replace hc : d = c := by simpa [hword] using hc
  subst hc
  cases hblank : isBlank d with
  | false => rfl
  | true =>
    have hink := (mayBegin_ink (by decide) hd).1
    rw [isWhiteSpace_of_isBlank hblank] at hink
    cases hink

/-- A decimal number and nothing else is a number as it stands. -/
theorem number?_of_decimal? {cs : List Char} (h : decimal? cs = some cs.length) :
    number? cs = some cs.length := by
  simp [number?, basedNumber?, scientificNumber?, fractionalNumber?, h, runLength, base?, fraction?, exponent?]

theorem spells_number (h : IsDecimal word) : Spells (.phrase .primary) [word] [numberNode word] := by
  have hwhole : (Leaf.mk .number 0 word).isWhole = true := by
    simp only [Leaf.isWhole, Bool.and_eq_true, decide_eq_true_eq]
    refine ⟨⟨rfl, number?_of_decimal? h⟩, ?_⟩
    unfold IsDecimal decimal? at h
    split at h
    · next c rest heq =>
      rw [heq]
      split at h
      · next hc =>
        simp only [List.head?_cons, Option.all_some, Bool.not_eq_true']
        cases hblank : isBlank c with
        | false => rfl
        | true =>
          simp only [isBlank, Bool.or_eq_true, decide_eq_true_eq] at hblank
          rcases hblank with ((rfl | rfl) | rfl) | rfl <;> exact absurd hc (by decide)
      · cases h
    · cases h
  have hprimary := Spells.phrase (p := .primary) (spells_token hwhole).first rfl (fun _ => rfl) rfl
  exact hprimary

/-! ## Texts of words -/

/-- A reading of a phrase that ends a text makes what the tree of it stands for. -/
theorem parseSymbol_of_reads {origin text : String} {t : ParseTree} {a : Place}
    (h : Reads (.phrase p) (.first text.toList) [t] a) (hp : covers p.follow (some [.token .endOfInput]) = true)
    (hclear : t.isClear = true) (htrivia : IsTrivia a.rest)
    (hb : buildAll (fun _ => .unknown) [t.bare] = .ok [v]) :
    ∃ parsed, parseSymbol (.phrase p) true origin text = .ok parsed ∧
      parsed.built.withoutPositions = .one v := by
  obtain ⟨leaf, b, hleaf⟩ := exists_of_stands (stands_endOfInput.2 htrivia)
  have hbehind : Behind (some [.token .endOfInput]) a :=
    behind_some.2 ⟨_, List.mem_singleton_self _, Takes.matches (.token hleaf)⟩
  have hdecides : ((Pattern.phrase p).decides (some [.token .endOfInput]) && (Pattern.phrase p).steady) = true := by
    simp [Pattern.decides, Pattern.steady, hp]
  have hall : allClear [t] = true := by simpa using hclear
  -- what is read in front of the end of input is taken there, up to dangling separators
  obtain ⟨us, hus, htidy⟩ := h.taken _ hdecides hall hbehind
  have hwhole : Takes (.seq (.phrase p) (.token .endOfInput)) (.first text.toList) (us ++ [leaf]) b :=
    .seq hus (.token hleaf)
  rcases parseTree_whole (.phrase p) text.toList with ⟨ts, c, hts, heq⟩ | ⟨hrefused, -⟩
  · obtain ⟨rfl, rfl⟩ := hwhole.unique hts
    let locate : Nat → Position := fun offset => positionAt origin ((LocationTable.of text.toList).locate offset)
    obtain ⟨vs, hvs⟩ := exists_buildAll locate h.fits
    -- built with positions, the tree gives the same but for them
    have hbare := buildAll_bare [t] hvs
    rw [bareAll, bareAll, hb, Except.ok.injEq] at hbare
    obtain ⟨w, rfl, hw⟩ : ∃ w, vs = [w] ∧ w.withoutPositions = v := by
      cases vs with
      | nil => cases hbare
      | cons w ws =>
        cases ws with
        | nil => exact ⟨w, rfl, by simpa using hbare.symm⟩
        | cons _ _ => cases hbare
    have hnothing : buildAll locate [leaf] = .ok [] := by
      obtain ⟨start, word, rfl⟩ := tokenAt_eq_leaf hleaf
      rfl
    have hbuilt := buildAll_append.2
      ⟨_, _, (buildAll_of_tidy us (by rw [htidy]; exact hvs)).1, hnothing, rfl⟩
    have htree : buildTree locate (.node .whole (us ++ [leaf])) = .ok (.one w) := by
      rw [buildTree, hbuilt, ok_bind]
      rfl
    refine ⟨⟨.one w, .node .whole (us ++ [leaf]), b.rest⟩, ?_, by rw [← hw]; rfl⟩
    rw [parseSymbol, heq, ok_bind]
    dsimp only
    rw [buildIn_eq_ok.2 htree, ok_bind]
    rfl
  · exact absurd hwhole hrefused.not_takes

/-- Leaves with a blank between each two are written as their texts are. -/
theorem written_blanks {gap : String} (l : Leaf) (ls : List Leaf) :
    written (spaced gap (l :: ls) (List.replicate (ls.length + 1) " "))
      = gap ++ " ".intercalate ((l :: ls).map Leaf.text) := by
  induction ls generalizing gap l with
  | nil => simp [spaced, written_cons]
  | cons m ls ih =>
    rw [List.length_cons, List.replicate_succ, spaced, written_cons, ih, List.map_cons, List.map_cons,
      List.map_cons, String.intercalate_cons_cons]
    simp [String.append_assoc]

/-- **Words with blanks between them are a text of the phrase that they spell.** -/
theorem parseSymbol_of_spells {origin : String} (h : Spells (.phrase p) ws [v])
    (hp : covers p.follow (some [.token .endOfInput]) = true) (hclosers : .equals ∉ p.closers) :
    ∃ parsed, parseSymbol (.phrase p) true origin (" ".intercalate ws) = .ok parsed ∧
      parsed.built.withoutPositions = .one v := by
  obtain ⟨ts, hts, htexts, hwrites⟩ := h
  obtain ⟨t, rfl⟩ : ∃ t, ts = [t] := by cases hts.fits <;> exact ⟨_, rfl⟩
  have hleaves : t.leaves.map Leaf.text = ws := by simpa using htexts
  have hwritten : ∀ l ∈ t.leaves, l.IsWritten := by simpa using hwrites
  -- the text is the leaves of the tree, with a blank in front of each but the first
  let xs : List SpacedLeaf := spaced "" t.leaves (List.replicate t.leaves.length " ")
  have hlength : (List.replicate t.leaves.length " ").length = t.leaves.length := List.length_replicate
  have hblank : ∀ g ∈ List.replicate t.leaves.length " ", IsGap g.toList ∧ BeginsWhite g.toList := by
    intro g hg
    rw [List.eq_of_mem_replicate hg]
    exact ⟨.blank (by decide) .nil, ' ', [], rfl, by decide⟩
  have hxs : ∀ x ∈ xs, IsGap x.gap.toList ∧ x.leaf.IsWritten := by
    intro x hx
    obtain ⟨hgap | hgap, hleaf⟩ := gap_of_mem_spaced hx
    · exact ⟨by rw [hgap]; exact .nil, hwritten _ hleaf⟩
    · exact ⟨(hblank _ hgap).1, hwritten _ hleaf⟩
  have hparts : xs.IsChain SpacedLeaf.Parts :=
    (isChain_spaced (chain_leaves hts.fits) fun g hg => (hblank g hg).2).imp fun x y hxy => ⟨hxy.1, .inl hxy.2⟩
  have htext : (" ".intercalate ws).toList = (written xs).toList ++ [] := by
    rw [List.append_nil, ← hleaves]
    cases hls : t.leaves with
    | nil => simp [xs, hls, spaced]
    | cons l ls => simp only [xs, hls, List.length_cons, written_blanks, String.empty_append]
  have hnone : NoTick [] := by
    intro h
    cases h
  obtain ⟨a, hlays, ha⟩ := lays_written (s := .first (" ".intercalate ws).toList) hxs hparts (.inl rfl) hnone htext
  have hbare : (laid 0 xs).map Leaf.bare = t.leaves.map Leaf.bare := by
    rw [map_bare_laid, ← map_leaf_spaced hlength, List.map_map]
    rfl
  -- where the leaves lie in the text, the tree is read
  obtain ⟨u, hu, hubare, -⟩ := hts.fits.reads hclosers hlays hbare
  refine parseSymbol_of_reads hu hp ?_ (by rw [ha]; rfl) ?_
  · rw [← isClear_bare, hubare, isClear_bare]
    simpa using hts.clear
  · rw [hubare]
    exact hts.built

end VerilogLoops
