import VerilogLoops.Proofs.Spans

/-!
# Where keywords end

Two tests tell that a word ends. A type keyword and a scope bar every character with which an identifier may
go on; the other keywords bar letters, digits and underscores only, and so one of them may stand in front
of a dollar sign though an identifier would go on there. Behind most of them the grammar asks for a mark,
such as the parenthesis of a condition, and then no dollar sign comes. Behind the others a name may come, and
a name may begin with a dollar sign: `forever$display(x);` is a loop with a call, and not the name
`forever$display`.

> `keywords_end`: a keyword in the tree of a loop statement is a whole word, unless it is one of seven and
> a dollar sign stands behind it;
> `keywords_end_glued`: all of the seven are met in front of a dollar sign.
-/

namespace VerilogLoops.Grammar

open VerilogLoops.Text VerilogLoops.Lexical

variable {x y : Pattern} {s m a b : Place} {ts : List ParseTree} {t : Token} {leaf : ParseTree}
  {code : List Char}

/-! ## Keywords -/

/-- The keywords, those of data types and scopes among them. -/
def keywords : List Token :=
  [.keywordForever, .keywordRepeat, .keywordWhile, .keywordFor, .keywordDo, .keywordForeach,
   .keywordVar, .keywordIf, .keywordElse, .keywordBegin, .keywordEnd, .keywordBreak,
   .keywordContinue, .keywordReturn, .keywordThis, .keywordSuper, .unitScope, .rootScope, .signing,
   .integerVectorKeyword, .integerAtomKeyword, .nonIntegerKeyword, .simpleTypeKeyword]

/-- The keywords behind which a name may come, in the tree or behind it. -/
def looseKeywords : List Token :=
  [.keywordForever, .keywordDo, .keywordVar, .keywordElse, .keywordBegin, .keywordEnd, .keywordReturn]

/-- The keywords behind which a mark comes that the grammar asks for. -/
def boundKeywords : List Token :=
  [.keywordRepeat, .keywordWhile, .keywordFor, .keywordForeach, .keywordIf, .keywordBreak,
   .keywordContinue, .keywordThis, .keywordSuper]

/-- A keyword bars every character of an identifier, or every one but the dollar sign; then it is loose or
bound. -/
theorem barrier_of_keyword (ht : t ∈ keywords) : t.isSpelled = true ∧ ∀ sp ∈ t.spellings,
    sp.barrier = .identifier ∨ (sp.barrier = .word ∧ (t ∈ looseKeywords ∨ t ∈ boundKeywords)) := by
  revert t
  decide

/-- An identifier goes on behind a keyword only with a dollar sign. -/
theorem glued_of_keyword (ht : t ∈ keywords) (h : tokenAt t s = some (leaf, a)) {c : Char}
    (hc : a.rest.head? = some c) (hid : isIdentifierCharacter c = true) :
    c = '$' ∧ Glued a ∧ (t ∈ looseKeywords ∨ t ∈ boundKeywords) := by
  obtain ⟨hspelled, hbarrier⟩ := barrier_of_keyword ht
  obtain ⟨text, -, hlen, -⟩ := tokenAt_iff.1 h
  rw [Token.length?_of_isSpelled hspelled] at hlen
  obtain ⟨sp, hsp, hfit, hsplen⟩ := firstFit_eq_some hlen
  obtain ⟨rest, hsplit, hbar⟩ := Spelling.fits_iff.1 hfit
  obtain ⟨rfl, rfl⟩ := List.append_inj hsplit hsplen.symm
  -- the character has passed the barrier of the spelling
  have hfree := hbar c hc
  rcases hbarrier sp hsp with hid' | ⟨hword, hloose⟩
  · rw [hid', Barrier.bars, hid] at hfree
    cases hfree
  · rw [hword, Barrier.bars] at hfree
    have hdollar : c = '$' := by
      by_contra hne
      rw [isWordCharacter_of_isIdentifierCharacter hid hne] at hfree
      cases hfree
    subst hdollar
    obtain ⟨tail, htail⟩ := List.head?_eq_some_iff.1 hc
    exact ⟨rfl, ⟨tail, htail⟩, hloose⟩

/-! ## What comes behind a bound keyword -/

/-- The pattern may end in a bound keyword. -/
def Pattern.endsBound : Pattern → Bool
  | .token t => boundKeywords.contains t
  | .phrase p => p = .classHandle
  | .seq x y => y.endsBound || (y.nullable && x.endsBound)
  | .alt x y => x.endsBound || y.endsBound
  | .opt x | .many x | .tail _ x => x.endsBound
  | .absent _ => false

/-- The pattern begins with something that does not begin with a dollar sign. -/
def Pattern.avoidsDollar (x : Pattern) : Bool :=
  !x.nullable && x.openers.all fun f => match f with
    | .token t => (t.isSpelled || t.isFree || t = .endOfInput) && !Token.opensDollar t
    | _ => false

/-- Behind a bound keyword within the pattern no dollar sign comes. -/
def Pattern.guardsBound : Pattern → Bool
  | .token _ | .phrase _ | .absent _ => true
  | .seq x y => x.guardsBound && y.guardsBound && (!x.endsBound || y.avoidsDollar)
  | .alt x y => x.guardsBound && y.guardsBound
  | .opt x => x.guardsBound
  | .many x => x.guardsBound && !x.endsBound
  | .tail t x => x.guardsBound && !x.endsBound && !boundKeywords.contains t

/-- Behind a bound keyword within a phrase no dollar sign comes, and only `this` and `super` end a phrase. -/
theorem Phrase.body_guardsBound (p : Phrase) :
    p.body.guardsBound = true ∧ (p.body.endsBound = true → p = .classHandle) := by
  revert p
  decide +kernel

/-- Where a pattern is taken that begins with a mark no dollar sign stands. -/
theorem not_glued_of_avoidsDollar (h : Takes x s ts a) (hx : x.avoidsDollar = true) : ¬Glued s := by
  simp only [Pattern.avoidsDollar, Bool.and_eq_true, Bool.not_eq_true', List.all_eq_true] at hx
  intro hg
  rcases h.opened with rfl | ⟨f, hf, hm⟩
  · have := Takes.lt h hx.1
    omega
  · have hmark := hx.2 f hf
    split at hmark
    · simp only [Bool.and_eq_true, Bool.not_eq_true'] at hmark
      exact hg.not_stands hmark.1 hmark.2 (matches_token.1 hm)
    · cases hmark

/-- The leaf is found at a place of the text, and if it is a bound keyword no dollar sign comes behind it,
unless it ends the pattern at the place `a`. -/
def Leaf.IsFound (code : List Char) (bound : Bool) (a : Place) (l : Leaf) : Prop :=
  ∃ s m, s.In code ∧ tokenAt l.token s = some (.leaf l.token l.start l.text, m) ∧
    (l.token ∈ boundKeywords → Glued m → bound = true ∧ m = a)

theorem Leaf.IsFound.mono {l : Leaf} {bound bound' : Bool} (h : l.IsFound code bound m)
    (hbound : bound = true → Glued m → bound' = true ∧ m = a) : l.IsFound code bound' a := by
  obtain ⟨s, n, hs, htoken, hn⟩ := h
  refine ⟨s, n, hs, htoken, fun hl hg => ?_⟩
  obtain ⟨hb, rfl⟩ := hn hl hg
  exact hbound hb hg

/-- A leaf is found where its token is. -/
theorem isFound_of_tokenAt (h : tokenAt t s = some (leaf, a)) (hs : s.In code) :
    ∀ l ∈ leaf.leaves, l.IsFound code (boundKeywords.contains t) a := by
  obtain ⟨start, text, rfl⟩ := tokenAt_eq_leaf h
  intro l hl
  cases List.mem_singleton.1 hl
  exact ⟨s, a, hs, h, fun hbound _ => ⟨by simpa using hbound, rfl⟩⟩

/-- Behind the bound keywords that a pattern takes no dollar sign comes, unless one ends the pattern. -/
theorem Takes.isFound (h : Takes x s ts a) (hs : s.In code) (hx : x.guardsBound = true) :
    ∀ l ∈ leavesOf ts, l.IsFound code x.endsBound a := by
  induction h using Takes.induct with
  | token h =>
    rw [leavesOf_cons, leavesOf_nil, List.append_nil]
    exact isFound_of_tokenAt h hs
  | @phrase p s ts a h ih =>
    obtain ⟨hguards, hends⟩ := p.body_guardsBound
    intro l hl
    rw [leavesOf_cons, leavesOf_nil, List.append_nil, leaves_node] at hl
    refine (ih hs hguards l hl).mono fun hbound _ => ⟨?_, rfl⟩
    simpa [Pattern.endsBound] using hends hbound
  | @seq x y s ts m us a hx' hy' ihx ihy =>
    simp only [Pattern.guardsBound, Bool.and_eq_true, Bool.or_eq_true, Bool.not_eq_true'] at hx
    intro l hl
    rw [leavesOf_append, List.mem_append] at hl
    rcases hl with hl | hl
    · -- what ends the first part has the beginning of the second part behind it
      refine (ihx hs hx.1.1 l hl).mono fun hbound hg => ?_
      rcases hx.2 with hno | havoids
      · rw [hbound] at hno
        cases hno
      · exact absurd hg (not_glued_of_avoidsDollar hy' havoids)
    · refine (ihy ((Takes.ahead hx').inText hs) hx.1.2 l hl).mono fun hbound _ => ⟨?_, rfl⟩
      simp [Pattern.endsBound, hbound]
  | altFirst _ ih =>
    simp only [Pattern.guardsBound, Bool.and_eq_true] at hx
    intro l hl
    exact (ih hs hx.1 l hl).mono fun hbound _ => ⟨by simp [Pattern.endsBound, hbound], rfl⟩
  | altSecond _ _ ih =>
    simp only [Pattern.guardsBound, Bool.and_eq_true] at hx
    intro l hl
    exact (ih hs hx.2 l hl).mono fun hbound _ => ⟨by simp [Pattern.endsBound, hbound], rfl⟩
  | opt _ ih => exact ih hs hx
  | @manyStep x s ts m us a hx' _ ihx ihr =>
    have hmany := hx
    simp only [Pattern.guardsBound, Bool.and_eq_true, Bool.not_eq_true'] at hx
    intro l hl
    rw [leavesOf_append, List.mem_append] at hl
    rcases hl with hl | hl
    · -- no item ends with a bound keyword, so none of its leaves can be one that ends it
      refine (ihx hs hx.1 l hl).mono fun hbound _ => ?_
      rw [hx.2] at hbound
      cases hbound
    · exact ihr ((Takes.ahead hx').inText hs) hmany l hl
  | tailDangling h _ =>
    simp only [Pattern.guardsBound, Bool.and_eq_true, Bool.not_eq_true'] at hx
    intro l hl
    rw [leavesOf_cons, leavesOf_nil, List.append_nil] at hl
    -- a separator is no bound keyword
    refine (isFound_of_tokenAt h hs l hl).mono fun hbound _ => ?_
    rw [hx.2] at hbound
    cases hbound
  | tailStep h hx' _ ihx ihr =>
    have htail := hx
    simp only [Pattern.guardsBound, Bool.and_eq_true, Bool.not_eq_true'] at hx
    have hm := (tokenAt_ahead h).inText hs
    intro l hl
    rw [List.cons_append, leavesOf_cons, leavesOf_append, List.mem_append, List.mem_append] at hl
    rcases hl with hl | hl | hl
    · refine (isFound_of_tokenAt h hs l hl).mono fun hbound _ => ?_
      rw [hx.2] at hbound
      cases hbound
    · refine (ihx hm hx.1.1 l hl).mono fun hbound _ => ?_
      rw [hx.1.2] at hbound
      cases hbound
    · exact ihr ((Takes.ahead hx').inText hm) htail l hl
  | optNone | manyStop | tailStop | absent => simp

/-- The text goes on behind a leaf that is found where its token ends. -/
theorem rest_of_tokenAt {l : Leaf} (h : tokenAt l.token s = some (.leaf l.token l.start l.text, a))
    (hs : s.In code) : a.rest = code.drop l.stop := by
  have hstop : l.start + l.text.length = a.offset := stop_of_tokenAt h
  rw [((tokenAt_ahead h).inText hs).2, Leaf.stop, hstop]

end VerilogLoops.Grammar

namespace VerilogLoops

open VerilogLoops.Text VerilogLoops.Lexical VerilogLoops.Grammar

/-- **Keywords are whole words, but for a dollar sign.** Behind a keyword in the tree of a loop statement
the text ends, or a character comes with which no identifier goes on, or a dollar sign. The last happens to
seven keywords only, those behind which no mark has to come. -/
theorem keywords_end {p : Phrase} (hp : p = .loop ∨ p = .loopUnit) {code : List Char}
    {tree : ParseTree} {after : Place} (h : parseTree (.phrase p) false code = .ok (tree, after)) :
    ∀ l ∈ tree.leaves, l.token ∈ keywords → ∀ c, (code.drop l.stop).head? = some c →
      isIdentifierCharacter c = true → c = '$' ∧ l.token ∈ looseKeywords := by
  have ht : Takes (.phrase p) (.first code) [tree] after := takes_of_parseTree h
  intro l hl hkeyword c hc hid
  obtain ⟨s, m, hs, htoken, hbound⟩ := ht.isFound (Place.in_first code) rfl l (by simpa using hl)
  rw [← rest_of_tokenAt htoken hs] at hc
  obtain ⟨hdollar, hglued, hloose | htied⟩ := glued_of_keyword hkeyword htoken hc hid
  · exact ⟨hdollar, hloose⟩
  · -- a loop statement does not end in a keyword of this sort
    have hends : (Pattern.phrase p).endsBound = false := by
      rcases hp with rfl | rfl <;> rfl
    rw [hends] at hbound
    cases (hbound htied hglued).1

/-- All seven keywords are met in front of a dollar sign, `end` behind the statements of a block. -/
theorem keywords_end_glued :
    ∃ code tree after,
      code = "for (var$unit::t i=1;;) begin$f; if (a) b; else$f; do$f; while (a); return$f; forever$f; end$f".toList ∧
      parseTree (.phrase .loop) false code = .ok (tree, after) ∧
      (∀ k ∈ looseKeywords, ∃ l ∈ tree.leaves, l.token = k ∧ (code.drop l.stop).head? = some '$') ∧
      ∀ l ∈ tree.leaves, l.token ∈ keywords → ∀ c, (code.drop l.stop).head? = some c →
        isIdentifierCharacter c = true → c = '$' ∧ l.token ∈ looseKeywords := by
  generalize hcode : "for (var$unit::t i=1;;) begin$f; if (a) b; else$f; do$f; while (a); return$f; forever$f; end$f".toList = code
  obtain ⟨⟨tree, after⟩, h, hmet⟩ : ∃ found, parseTree (.phrase .loop) false code = .ok found ∧
      ∀ k ∈ looseKeywords, ∃ l ∈ found.1.leaves, l.token = k ∧ (code.drop l.stop).head? = some '$' := by
    rw [← hcode, String.toList_ofList, parseTree_afresh]
    exact exists_of_any (by decide +kernel)
  exact ⟨code, tree, after, rfl, h, hmet, keywords_end (Or.inl rfl) h⟩

end VerilogLoops
