import VerilogLoops.Proofs.Glue
import VerilogLoops.Proofs.Inked
import VerilogLoops.Proofs.Layout
import VerilogLoops.Proofs.Token.Cut

/-!
# Texts of the same tokens

Where a token stands in a text does not matter to a reading, only which tokens come one behind the
other. So wherever the leaves of a tree that fits lie in a text, at whatever offsets, the tree is read
in that text, but for the offsets.

> `Fits.transcribe`: trees that fit are read in every text in which their leaves lie;
> `Reads.cut`: a reading of a text is one of the text that is cut behind it.
-/

namespace VerilogLoops.Grammar

open VerilogLoops.Text VerilogLoops.Lexical

variable {s a b c d e m : Place} {t leaf : ParseTree} {ts us : List ParseTree} {ls ms ns : List Leaf}
  {x : Pattern} {k : Token} {n : Nat}

/-! ## Trees without offsets -/

/-- The leaf without its offset. -/
def Leaf.bare (l : Leaf) : Leaf := { l with start := 0 }

mutual

/-- The tree without its offsets. -/
def ParseTree.bare : ParseTree → ParseTree
  | .leaf t _ text => .leaf t 0 text
  | .node label children => .node label (bareAll children)

/-- The trees without their offsets. -/
def bareAll : List ParseTree → List ParseTree
  | [] => []
  | t :: rest => t.bare :: bareAll rest

end

theorem bareAll_eq_map (ts : List ParseTree) : bareAll ts = ts.map ParseTree.bare := by
  induction ts with
  | nil => rfl
  | cons t rest ih => rw [bareAll, List.map_cons, ih]

@[simp] theorem bareAll_append (ts us : List ParseTree) :
    bareAll (ts ++ us) = bareAll ts ++ bareAll us := by
  simp [bareAll_eq_map]

mutual

theorem leaves_bare : ∀ t : ParseTree, t.bare.leaves = t.leaves.map Leaf.bare
  | .leaf .. => rfl
  | .node _ children => by
    rw [ParseTree.bare, leaves_node, leaves_node, leavesOf_bare children]

theorem leavesOf_bare : ∀ ts : List ParseTree, leavesOf (bareAll ts) = (leavesOf ts).map Leaf.bare
  | [] => rfl
  | t :: rest => by
    rw [bareAll, leavesOf_cons, leavesOf_cons, List.map_append, leaves_bare t, leavesOf_bare rest]

end

theorem length_leavesOf (h : bareAll ts = bareAll us) :
    (leavesOf ts).length = (leavesOf us).length := by
  have := congrArg (fun ts => (leavesOf ts).length) h
  simpa [leavesOf_bare] using this

mutual

/-- A tree is told by its leaves and what it is without offsets. -/
theorem eq_of_bare : ∀ {t u : ParseTree}, t.bare = u.bare → t.leaves = u.leaves → t = u
  | .leaf .., .leaf .., _, hl => by
    simp only [leaves_leaf, List.cons.injEq, Leaf.mk.injEq, and_true] at hl
    obtain ⟨rfl, rfl, rfl⟩ := hl
    rfl
  | .node _ ts, .node _ us, hb, hl => by
    simp only [ParseTree.bare, ParseTree.node.injEq] at hb
    rw [hb.1, eq_of_bareAll hb.2 (by simpa using hl)]
  | .leaf .., .node .., hb, _ => by cases hb
  | .node .., .leaf .., hb, _ => by cases hb

theorem eq_of_bareAll : ∀ {ts us : List ParseTree}, bareAll ts = bareAll us →
    leavesOf ts = leavesOf us → ts = us
  | [], [], _, _ => rfl
  | t :: ts, u :: us, hb, hl => by
    simp only [bareAll, List.cons.injEq] at hb
    have hlen : t.leaves.length = u.leaves.length := by
      have := congrArg (fun t => t.leaves.length) hb.1
      simpa [leaves_bare] using this
    obtain ⟨ht, hts⟩ := List.append_inj (by simpa using hl) hlen
    rw [eq_of_bare hb.1 ht, eq_of_bareAll hb.2 hts]
  | [], _ :: _, hb, _ => by cases hb
  | _ :: _, [], hb, _ => by cases hb

end

/-- Which leaves may stand side by side has nothing to do with offsets. -/
theorem isChain_of_bare (h : ls.map Leaf.bare = ms.map Leaf.bare) :
    ms.IsChain Leaf.Meets ↔ ls.IsChain Leaf.Meets := by
  have hbare : ∀ ls : List Leaf, (ls.map Leaf.bare).IsChain Leaf.Meets ↔ ls.IsChain Leaf.Meets := by
    intro ls
    rw [List.isChain_map]
    exact Iff.rfl
  rw [← hbare ls, ← hbare ms, h]

/-! ## Lexemes of another text -/

/-- If the last of the leaves is an equals sign, no other stands behind it. -/
def EndsAssigned (ls : List Leaf) (a : Place) : Prop :=
  ∀ l, ls.getLast? = some l → l.token = .equals → ¬Stands .equals a

theorem EndsAssigned.behind (h : EndsAssigned (ls ++ ms) a) : EndsAssigned ms a := by
  intro l hl
  refine h l ?_
  rw [List.getLast?_append, hl, Option.some_or]

/-- No equals sign stands in front of leaves that may stand behind an equals sign. -/
theorem not_stands_equals {l : Leaf} (h : (l :: ls).IsChain Leaf.Meets) (hl : l.token = .equals)
    (hls : Lays b ls d) (hend : EndsAssigned (l :: ls) d) : ¬Stands .equals b := by
  cases ls with
  | nil =>
    cases hls
    exact hend l rfl hl
  | cons m ls =>
    obtain ⟨c, hc, -⟩ := hls
    have hmeets : m.token ∉ shunned l.token := (List.isChain_cons_cons.1 h).1
    rw [hl] at hmeets
    have hexcludes : ∀ k : Token, k ∉ shunned .equals → k.excludes .equals = true := by
      decide +kernel
    exact not_stands_of_excludes (hexcludes _ hmeets) (stands_of_tokenAt hc)

/-- No reserved word stands where the text of a name does. -/
theorem not_stands_reservedWord {start : Nat} {text : String} (h : IsNameText k text)
    (hb : tokenAt k b = some (.leaf k start text, c)) : ¬Stands .reservedWord b := by
  rw [stands_reservedWord_iff]
  obtain ⟨cs, hrest, hlen, heq, -⟩ := tokenAt_iff.1 hb
  simp only [ParseTree.leaf.injEq, true_and] at heq
  rw [hrest]
  rcases h.2 with ⟨rfl, hword⟩ | rfl
  · rwa [takeWhile_of_identifier? hlen, ← heq.2]
  · -- the backslash is no identifier character
    simp only [Token.length?, escapedIdentifier?] at hlen
    split at hlen
    · next rest heq =>
      rw [heq, List.takeWhile_cons_of_neg (by decide)]
      decide +kernel
    · cases hlen

/-- A lexeme is taken of every text in which its leaf and those behind it lie. -/
theorem LexemeForm.transcribe (h : LexemeForm x () t ())
    (hmeets : (t.leaves ++ ms).IsChain Leaf.Meets) (hls : Lays b ls d)
    (hbare : ls.map Leaf.bare = (t.leaves ++ ms).map Leaf.bare) (hend : EndsAssigned ls d) :
    ∃ u c ns, LexemeAt x b u c ∧ u.bare = t.bare ∧ ls = u.leaves ++ ns ∧ Lays c ns d := by
  -- the leaf of the lexeme, found in the text
  have found : ∀ {k start text}, t.leaves = [⟨k, start, text⟩] → ∃ o c ns,
      ls = ⟨k, o, text⟩ :: ns ∧ tokenAt k b = some (.leaf k o text, c) ∧ Lays c ns d ∧
      ns.map Leaf.bare = ms.map Leaf.bare := by
    intro k start text ht
    rw [ht] at hbare
    cases ls with
    | nil => cases hbare
    | cons l ns =>
      obtain ⟨c, hc, hns⟩ := hls
      simp only [List.cons_append, List.nil_append, List.map_cons, List.cons.injEq, Leaf.bare,
        Leaf.mk.injEq, true_and] at hbare
      obtain ⟨⟨rfl, rfl⟩, hrest⟩ := hbare
      exact ⟨l.start, c, ns, rfl, hc, hns, hrest⟩
  obtain ⟨_, _, _, rfl, rfl, -⟩ | ⟨k, start, text, rfl, rfl, hname⟩ | ⟨_, rfl, rfl⟩ := h.cases
  · obtain ⟨o, c, ns, rfl, hc, hns, -⟩ := found rfl
    exact ⟨_, c, ns, .token hc, rfl, rfl, hns⟩
  · obtain ⟨o, c, ns, rfl, hc, hns, -⟩ := found rfl
    refine ⟨.node (.phrase .identifier) [.leaf k o text], c, ns, ?_, rfl, rfl, hns⟩
    refine takes_identifier.2 ⟨_, rfl, not_stands_reservedWord hname hc, ?_⟩
    rcases hname.2 with ⟨rfl, -⟩ | rfl
    · exact Or.inl hc
    · exact Or.inr hc
  · obtain ⟨o, c, ns, rfl, hc, hns, hsame⟩ := found rfl
    refine ⟨.node (.phrase .assignSign) [.leaf .equals o "="], c, ns, ?_, rfl, rfl, hns⟩
    refine takes_assignSign.2 ⟨_, rfl, hc, ?_⟩
    refine not_stands_equals (l := ⟨.equals, o, "="⟩) ?_ rfl hns hend
    exact (isChain_of_bare (by simpa [Leaf.bare] using hbare)).1 hmeets

/-- **A tree that fits is read in every text in which its leaves lie.** -/
theorem Fits.transcribe {s a : Unit} (h : Shape LexemeForm x s ts a)
    (hmeets : (leavesOf ts ++ ms).IsChain Leaf.Meets) (hls : Lays b ls d)
    (hbare : ls.map Leaf.bare = (leavesOf ts ++ ms).map Leaf.bare) (hend : EndsAssigned ls d) :
    ∃ us c ns, Reads x b us c ∧ bareAll us = bareAll ts ∧ ls = leavesOf us ++ ns ∧ Lays c ns d := by
  -- what is left of the leaves behind some of the trees
  have rest : ∀ (us ts : List ParseTree) {ns ms : List Leaf}, bareAll us = bareAll ts →
      (leavesOf us ++ ns).map Leaf.bare = (leavesOf ts ++ ms).map Leaf.bare →
        ns.map Leaf.bare = ms.map Leaf.bare := by
    intro us ts ns ms hsame h
    rw [List.map_append, List.map_append] at h
    exact (List.append_inj h (by simpa using length_leavesOf hsame)).2
  induction h generalizing b ls ms with
  | @lexeme x _ t _ hx h =>
    obtain ⟨u, c, ns, hu, hsame, rfl, hns⟩ :=
      LexemeForm.transcribe h (by simpa using hmeets) hls (by simpa using hbare) hend
    exact ⟨[u], c, ns, .lexeme hx hu, by simp [bareAll, hsame], by simp, hns⟩
  | @phrase p _ ts _ hp h ih =>
    obtain ⟨us, c, ns, hus, hsame, rfl, hns⟩ :=
      ih (by simpa using hmeets) hls (by simpa using hbare) hend
    exact ⟨_, c, ns, .phrase hp hus, by simp [bareAll, ParseTree.bare, hsame], by simp, hns⟩
  | @seq x y _ ts _ us _ hx hy ihx ihy | @step x _ ts _ us _ hx hy ihx ihy =>
    rw [leavesOf_append, List.append_assoc] at hbare hmeets
    obtain ⟨ts', c, ns, hts, hsame, rfl, hns⟩ := ihx hmeets hls hbare hend
    obtain ⟨us', c', ns', hus, hsame', rfl, hns'⟩ := ihy (List.isChain_append.1 hmeets).2.1 hns
      (rest _ _ hsame hbare) hend.behind
    refine ⟨ts' ++ us', c', ns', ?_, by simp [hsame, hsame'], by simp, hns'⟩
    first | exact .seq hts hus | exact .step hts hus
  | first _ ih =>
    obtain ⟨us, c, ns, hus, hrest⟩ := ih hmeets hls hbare hend
    exact ⟨us, c, ns, Shape.first hus, hrest⟩
  | second _ ih =>
    obtain ⟨us, c, ns, hus, hrest⟩ := ih hmeets hls hbare hend
    exact ⟨us, c, ns, .second hus, hrest⟩
  | given _ ih =>
    obtain ⟨us, c, ns, hus, hrest⟩ := ih hmeets hls hbare hend
    exact ⟨us, c, ns, .given hus, hrest⟩
  | omitted => exact ⟨[], b, ls, .omitted, rfl, rfl, hls⟩
  | stop => exact ⟨[], b, ls, Shape.stop, rfl, rfl, hls⟩
  | last => exact ⟨[], b, ls, .last, rfl, rfl, hls⟩
  | @next k x _ mark _ ts _ us _ hm hx hr ihx ihr =>
    rw [List.cons_append, leavesOf_cons, leavesOf_append, List.append_assoc, List.append_assoc]
      at hbare hmeets
    obtain ⟨mark', c, ns, hmark, hsame, rfl, hns⟩ :=
      LexemeForm.transcribe hm hmeets hls hbare hend
    have hbare : (ns.map Leaf.bare) = (leavesOf ts ++ (leavesOf us ++ ms)).map Leaf.bare :=
      rest [mark'] [mark] (by simp [bareAll, hsame]) (by simpa using hbare)
    have hmeets := (List.isChain_append.1 hmeets).2.1
    obtain ⟨ts', c', ns', hts, hsame', rfl, hns'⟩ := ihx hmeets hns hbare hend.behind
    obtain ⟨us', c'', ns'', hus, hsame'', rfl, hns''⟩ := ihr (List.isChain_append.1 hmeets).2.1 hns'
      (rest _ _ hsame' hbare) hend.behind.behind
    exact ⟨mark' :: ts' ++ us', c'', ns'', .next hmark hts hus,
      by simp [bareAll, hsame, hsame', hsame''], by simp, hns''⟩

/-- A phrase is read where its leaves lie. -/
theorem Fits.reads {p : Phrase} (h : Fits (.phrase p) [t]) (hp : .equals ∉ p.closers)
    (hls : Lays b ls d) (hbare : ls.map Leaf.bare = t.leaves.map Leaf.bare) :
    ∃ u, Reads (.phrase p) b [u] d ∧ u.bare = t.bare ∧ u.leaves = ls := by
  have hmeets : (leavesOf [t] ++ []).IsChain Leaf.Meets := by simpa using chain_leaves h
  have hend : EndsAssigned ls d := by
    intro l hl hequals
    exfalso
    have hlast := congrArg List.getLast? hbare
    rw [List.getLast?_map, List.getLast?_map, hl] at hlast
    obtain ⟨m, hm, hsame⟩ := Option.map_eq_some_iff.1 hlast.symm
    have htoken : m.bare.token = l.bare.token := congrArg Leaf.token hsame
    change m.token = l.token at htoken
    rw [hequals] at htoken
    exact hp (htoken ▸ last_mem_closers h m hm)
  obtain ⟨us, c, ns, hus, hsame, rfl, hns⟩ :=
    Fits.transcribe h hmeets hls (by simpa using hbare) hend
  have hnil : ns = [] := by
    have hlen := congrArg List.length hbare
    simp only [List.length_map, List.length_append, length_leavesOf hsame] at hlen
    simp only [leavesOf_cons, leavesOf_nil, List.append_nil] at hlen
    exact List.length_eq_zero_iff.1 (by omega)
  subst hnil
  cases hns
  cases us with
  | nil => cases hsame
  | cons u us =>
    simp only [bareAll, List.cons.injEq] at hsame
    cases us with
    | nil => exact ⟨u, hus, hsame.1, by simp⟩
    | cons v us => cases hsame.2

/-! ## A text that is cut -/

/-- The place in the text without its last characters. -/
def Place.cut (n : Nat) (s : Place) : Place := ⟨s.offset, s.rest.take (s.rest.length - n)⟩

/-- A token is found in the text that is cut behind it. -/
theorem tokenAt_cut (h : tokenAt k s = some (leaf, a)) (hn : n ≤ a.rest.length) :
    tokenAt k (s.cut n) = some (leaf, a.cut n) := by
  obtain ⟨text, hrest, hlen, rfl, hoff⟩ := tokenAt_iff.1 h
  have hle := triviaLength_le s.rest
  have hlength := congrArg List.length hrest
  rw [List.length_drop, List.length_append] at hlength
  have htrivia : triviaLength (s.cut n).rest = triviaLength s.rest :=
    triviaLength_take (by omega)
  have hcut : (s.cut n).rest.drop (triviaLength (s.cut n).rest) = text ++ (a.cut n).rest := by
    rw [htrivia]
    show (s.rest.take (s.rest.length - n)).drop _ = text ++ a.rest.take (a.rest.length - n)
    rw [List.drop_take, hrest, List.take_append, List.take_of_length_le (by omega)]
    congr 2
    omega
  refine tokenAt_iff.2 ⟨text, hcut, ?_, ?_, ?_⟩
  · have := Token.length?_take (m := text.length + (a.rest.length - n)) hlen (by omega)
    rwa [List.take_length_add_append] at this
  · rw [htrivia]
    rfl
  · rw [htrivia]
    exact hoff

theorem Lays.cut (h : Lays s ls a) (hn : n ≤ a.rest.length) : Lays (s.cut n) ls (a.cut n) := by
  induction ls generalizing s with
  | nil =>
    cases h
    rfl
  | cons l ls ih =>
    obtain ⟨m, hm, hls⟩ := h
    have hle := (Lays.ahead hls).le
    exact ⟨m.cut n, tokenAt_cut hm (by omega), ih hls⟩

/-- **A reading is one of the text that is cut behind it.** -/
theorem Reads.cut {p : Phrase} (h : Reads (.phrase p) s [t] a) (hp : .equals ∉ p.closers) :
    Reads (.phrase p) (s.cut a.rest.length) [t] (a.cut a.rest.length) := by
  have hlays := Lays.cut (n := a.rest.length) (Reads.lays h) (Nat.le_refl _)
  obtain ⟨u, hu, hbare, hleaves⟩ := Fits.reads h.fits hp hlays (by simp)
  rwa [eq_of_bare hbare (by simpa using hleaves)] at hu

end VerilogLoops.Grammar
