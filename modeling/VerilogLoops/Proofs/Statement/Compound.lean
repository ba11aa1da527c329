import VerilogLoops.Proofs.Statement.Accepted

/-!
# Compound statements are accepted

Behind the body of a do-while loop stands its condition, behind the first branch of a conditional its
`else`, and behind a statement of a block the next one. Each of them has to be shown not to belong to
the statement in front.
-/

namespace VerilogLoops.Grammar

open VerilogLoops.Text VerilogLoops.Lexical

variable {word : String} {p q : Phrase} {s b c a e m n : Place} {t u : ParseTree} {z : List Char}
  {ts us vs es : List ParseTree}

/-! ## Do-while loops -/

theorem not_glued_of_stands {k : Token} (hk : (k.isSpelled || k.isFree || k = .endOfInput) = true)
    (hd : Token.opensDollar k = false) (h : Stands k a) : ¬Glued a :=
  fun hg => hg.not_stands hk hd h

/-- The rest of a block is refused in front of a statement if it is behind the statement. -/
theorem refuses_blockEnd (h : Accepts (.phrase .statementOrNull) m us a)
    (ha : Refuses blockEnd a) : Refuses blockEnd m := by
  obtain ⟨us', h, -⟩ := h
  refine refuses_of_not_takes rfl fun vs c hm => ?_
  obtain ⟨xs, d, ys, rfl, hmany, hend⟩ := takes_seq.1 hm
  cases hmany with
  | manyStop hno => exact Refuses.not_takes hno h
  | @manyStep _ _ ws n zs _ hfirst hmore =>
    obtain ⟨-, rfl⟩ := Takes.unique h hfirst
    exact ha.not_takes (Derives.seq hmore hend)

/-- The rest of a do-while loop is also a while loop whose body is a semicolon. -/
theorem reads_loopEnd (h : Reads loopEnd m ts a) : ∃ start text o e c l,
    ts = [.leaf .keywordWhile start text, o, e, c, l] ∧
      Reads (.phrase .statementOrNull) m [bareWhile (.leaf .keywordWhile start text) o e c l] a := by
  obtain ⟨_, b, _, rfl, hw, hrest⟩ := shape_seq.1 h
  obtain ⟨_, c, _, rfl, ho, hrest⟩ := shape_seq.1 hrest
  obtain ⟨_, d, _, rfl, he, hrest⟩ := shape_seq.1 hrest
  obtain ⟨_, f, _, rfl, hc, hl⟩ := shape_seq.1 hrest
  obtain ⟨w, rfl, hw'⟩ := shape_token.1 hw
  obtain ⟨o, rfl, -⟩ := shape_token.1 ho
  obtain ⟨es, rfl, -⟩ := (shape_phrase rfl).1 he
  obtain ⟨k, rfl, -⟩ := shape_token.1 hc
  obtain ⟨l, rfl, -⟩ := shape_token.1 hl
  obtain ⟨leaf, heq, hleaf⟩ := takes_token.1 hw'
  cases heq
  obtain ⟨start, text, rfl⟩ := tokenAt_eq_leaf hleaf
  refine ⟨start, text, o, _, k, l, rfl, ?_⟩
  have hnull : Reads Phrase.nullStatement.body f ([] ++ [l]) a := .seq .stop hl
  have hwhile : Reads Phrase.whileLoop.body m ([ParseTree.leaf .keywordWhile start text] ++ ([o] ++
      ([ParseTree.node (.phrase .expression) es] ++ ([k] ++
        [ParseTree.node (.phrase .statementOrNull) [.node (.phrase .nullStatement) [l]]])))) a :=
    .seq hw (.seq ho (.seq he (.seq hc (.phrase rfl (.second (.phrase rfl hnull))))))
  have hitem : Reads Phrase.statementItem.body m [.node (.phrase .loop) [.node (.phrase .whileLoop)
      [.leaf .keywordWhile start text, o, .node (.phrase .expression) es, k,
        .node (.phrase .statementOrNull) [.node (.phrase .nullStatement) [l]]]]] a :=
    .second (.second (.first (.phrase rfl (.second (.second (.first (.phrase rfl hwhile)))))))
  have hstatement : Reads Phrase.statement.body m ([] ++ ([] ++ [ParseTree.node (.phrase .statementItem)
      [.node (.phrase .loop) [.node (.phrase .whileLoop)
        [.leaf .keywordWhile start text, o, .node (.phrase .expression) es, k,
          .node (.phrase .statementOrNull) [.node (.phrase .nullStatement) [l]]]]]])) a :=
    .seq .omitted (.seq .stop (.phrase rfl hitem))
  exact .phrase rfl (.first (.phrase rfl hstatement))

/-- A while loop whose body is a semicolon has no tail that takes up anything. -/
theorem tail_bareWhile {further : Bool} {w o e c l : ParseTree}
    (h : Tail further (bareWhile w o e c l) u) :
    (∀ ts, u ≠ .node (.phrase .conditional) ts) ∧ (∀ ts, u ≠ .node (.phrase .block) ts) ∧
      ∀ ts, u = .node (.phrase .statementItem) ts → leavesOf ts = w.leaves ++ leavesOf [o, e, c, l] := by
  rcases tail_single h with rfl | ⟨-, h⟩
  · simp
  rcases tail_single h with rfl | ⟨-, h⟩
  · simp
  rcases tail_single h with rfl | ⟨-, h⟩
  · simp
  rcases tail_single h with rfl | ⟨-, h⟩
  · simp
  rcases tail_append (by simp) (by simp)
    (show Tail further (.node (.phrase .whileLoop) ([w, o, e, c] ++ [_])) u from h)
    with rfl | ⟨-, h⟩
  · simp
  rcases tail_single h with rfl | ⟨-, h⟩
  · simp
  rcases tail_single h with rfl | ⟨htrailing, -⟩
  · simp
  · cases htrailing

/-- The rest of a do-while loop is accepted as a while loop. -/
theorem accepts_bareWhile (hs : Phrase.statementOrNull.AcceptedAt m) (h : Reads loopEnd m ts a)
    (hc : allClear ts = true) : ∃ w o e c l, ts = [w, o, e, c, l] ∧
      Accepts (.phrase .statementOrNull) m [bareWhile w o e c l] a := by
  have hordered := ordered_of_reads h (by decide)
  obtain ⟨start, text, o, e, c, l, rfl, hwhile⟩ := reads_loopEnd h
  -- it is clear, in order, and closed: nothing behind it is taken up
  refine ⟨_, o, e, c, l, rfl, hs _ a hwhile ?_ ?_ ?_⟩
  · simp only [allClear_cons, Bool.and_eq_true] at hc
    simp [bareWhile, asStatement, admits_of_ne, hc.1, hc.2.1, hc.2.2.1, hc.2.2.2.1, hc.2.2.2.2.1]
  · have hbody : Ordered (.node (.phrase .whileLoop) [.leaf .keywordWhile start text, o, e, c,
        .node (.phrase .statementOrNull) [.node (.phrase .nullStatement) [l]]]) := by
      refine .node trivial fun t ht => ?_
      simp only [List.mem_cons, List.not_mem_nil, or_false] at ht
      rcases ht with rfl | rfl | rfl | rfl | rfl
      iterate 4 exact hordered _ (by simp)
      refine .node trivial fun t ht => ?_
      cases List.mem_singleton.1 ht
      refine .node trivial fun t ht => ?_
      cases List.mem_singleton.1 ht
      exact hordered _ (by simp)
    have hloop : Ordered (.node (.phrase .loop) [.node (.phrase .whileLoop)
        [.leaf .keywordWhile start text, o, e, c,
          .node (.phrase .statementOrNull) [.node (.phrase .nullStatement) [l]]]]) := by
      refine .node trivial fun t ht => ?_
      cases List.mem_singleton.1 ht
      exact hbody
    refine ordered_asStatement hloop (fun h => ?_) (fun h => ?_) <;>
    · have := h.token
      simp at this
  · -- its only tail is the empty statement, and that detaches from nothing
    have none : ∀ {further word us}, Tail further (bareWhile (.leaf .keywordWhile start text) o e c l)
        (.node (.phrase .statementItem) us) → ¬Detaches word (leavesOf us) := by
      intro further word us ht hd
      have := hd.token
      rw [(tail_bareWhile ht).2.2 us rfl] at this
      simp at this
    exact {
      branch := by
        rintro ⟨us, ht, -⟩
        exact absurd rfl ((tail_bareWhile ht).1 us)
      body := by
        rintro ⟨us, ht, hd⟩
        exact absurd hd (none ht)
      block := by
        rintro ⟨us, ht, hd⟩
        exact absurd hd (none ht)
      name := by
        rintro ⟨us, start, text, ht⟩
        exact absurd rfl ((tail_bareWhile ht).2.1 _) }

theorem accepted_doWhileLoop (hs : AcceptedBehind s) : Phrase.doWhileLoop.AcceptedAt s := by
  intro t a h hc ho hclosed
  obtain ⟨ts, heq, hts⟩ := (shape_phrase rfl).1 h
  cases heq
  obtain ⟨_, b, _, rfl, hd, hrest⟩ := shape_seq.1 hts
  obtain ⟨_, m, es, rfl, hbody, hend⟩ := shape_seq.1 hrest
  obtain ⟨d, rfl, hd'⟩ := shape_token.1 hd
  obtain ⟨us, rfl, -⟩ := (shape_phrase rfl).1 hbody
  simp only [isClear_node, allClear_append, allClear_cons, allClear_nil, Bool.and_true,
    Bool.and_eq_true] at hc
  have hend : Reads loopEnd m es a := hend
  have hb : b.rest.length < s.rest.length := Reads.lt hd rfl
  have hm : m.rest.length < b.rest.length := Reads.lt hbody rfl
  have hwhile : Stands .keywordWhile m := by
    obtain ⟨f, hf, hmatch⟩ := Reads.opener hend rfl
    cases List.mem_singleton.1 hf
    exact matches_token.1 hmatch
  refine .phrase (by simp) (Accepts.seq (accepts_lexeme rfl hd') (Accepts.seq ?_
    (hend.taken none (by decide) hc.2.2.2 (by simp))))
  refine (hs b hb).1 _ m hbody (by simp [hc.2.2.1]) (ho.child (by simp)) ?_
  exact {
    branch := fun _ => refuses_of_excludes rfl rfl (by decide) (matches_token.2 hwhile)
    body := fun h => absurd h (ho.orders _ _ _ rfl)
    block := by
      rintro ⟨us, ht, hdet⟩
      obtain ⟨w, o, e, c, l, -, haccepts⟩ :=
        accepts_bareWhile (hs m (by omega)).1 hend hc.2.2.2
      exact refuses_blockEnd haccepts (hclosed.block ⟨us, .body rfl ht, hdet⟩)
    name := fun _ => ⟨not_stands_of_excludes (by decide) hwhile,
      not_glued_of_stands rfl rfl hwhile⟩ }

/-! ## Statements in front of `else` and `end` -/

/-- A simple statement behind `else` or `end` is also one that begins with an identifier glued to the
keyword. -/
theorem accepts_attached {k : Token} (word : String) (hk : k.spellings = [.keyword word])
    (hw : word ∈ ["else", "end"]) (hs : Phrase.statementOrNull.AcceptedAt s)
    (hkey : LexemeAt (.token k) s t b) (hg : Glued b) (h : Reads (.phrase .statementOrNull) b us a)
    (hc : allClear us = true) : ∃ t c z p u, LexemeAt (.phrase .identifier) s t c ∧
      GluedAt word s b c t z ∧ p.isSimple = true ∧ Reads (.phrase p) s [u] a ∧ u.isClear = true ∧
        Detaches word u.leaves ∧ Accepts (.phrase .statementOrNull) s [asStatement u] a := by
  have hreserved : word ∈ reservedWords := by
    have key : ∀ w ∈ ["else", "end"], w ∈ reservedWords := by decide
    exact key word hw
  obtain ⟨leaf, heq, hleaf⟩ := takes_token.1 hkey
  obtain ⟨t, c, z, ht, hz⟩ := exists_gluedAt word hk hreserved hleaf hg
  obtain ⟨p, vs, hp, hread, rfl⟩ := simple_of_glued hg h
  obtain ⟨ws, hws, hcw, hd⟩ := attach hp hz ht hread (by
    simpa [asStatement, admits_of_ne] using hc)
  obtain ⟨us, rfl, -⟩ := (shape_phrase (by rcases isSimple_cases hp with rfl | rfl | rfl <;> rfl)).1 hws
  have hclear : (ParseTree.node (.phrase p) us).isClear = true := by simpa using hcw
  have hdet : Detaches word (ParseTree.node (.phrase p) us).leaves := by simpa using hd
  exact ⟨t, c, z, p, _, ht, hz, hp, hws, hclear, hdet,
    accepts_detaching hs hp hws hclear hw hdet⟩

/-- No statement is taken at `else` or `end` unless it is glued to a dollar sign. -/
theorem refuses_statement_of_keyword {k : Token} (hk : k.spellings = [.keyword word])
    (hw : word ∈ reservedWords) (hkey : LexemeAt (.token k) s t b) (hg : ¬Glued b)
    (hx : ((Pattern.phrase .statementOrNull).openers.all fun f =>
      f = .phrase .identifier || lexemeExcludes f (.token k)) = true) :
    Refuses (.phrase .statementOrNull) s := by
  refine refuses_of_not_takes rfl fun us a h => ?_
  rcases Takes.opened h with rfl | ⟨f, hf, hm⟩
  · exact absurd (Takes.lt h rfl) (Nat.lt_irrefl _)
  have := List.all_eq_true.1 hx f hf
  simp only [Bool.or_eq_true, decide_eq_true_eq] at this
  rcases this with rfl | hex
  · obtain ⟨u, c, hu⟩ := exists_lexeme hm
    obtain ⟨leaf, heq, hleaf⟩ := takes_token.1 hkey
    obtain ⟨z, hz⟩ := exists_glued word hk hw hleaf hu
    exact hg hz.glued
  · exact not_matches_of_excludes hex hm (Takes.matches hkey)

/-! ## Conditionals -/

/-- The head of a conditional is a row of four trees. -/
theorem exists_conditionalHead
    (h : Reads (.row (.token .keywordIf) [.token .openParen, .phrase .expression,
      .token .closeParen]) s ts a) : ∃ i o e c, ts = [i, o, e, c] := by
  obtain ⟨_, _, _, rfl, hi, hrest⟩ := shape_seq.1 h
  obtain ⟨_, _, _, rfl, hopen, hrest⟩ := shape_seq.1 hrest
  obtain ⟨_, _, _, rfl, he, hclose⟩ := shape_seq.1 hrest
  obtain ⟨i, rfl, -⟩ := shape_token.1 hi
  obtain ⟨o, rfl, -⟩ := shape_token.1 hopen
  obtain ⟨es, rfl, -⟩ := (shape_phrase rfl).1 he
  obtain ⟨c, rfl, -⟩ := shape_token.1 hclose
  exact ⟨i, o, _, c, rfl⟩

/-- The branch in front of `else` is closed if the conditional is. An `else` that is glued to what
follows begins an identifier instead, and then the statement up to the end of the conditional is the
one that the conditional must not take up. -/
theorem closed_of_else {i o e c k : ParseTree} {bs os : List ParseTree}
    (hs : Phrase.statementOrNull.AcceptedAt m) (hkey : LexemeAt (.token .keywordElse) m k b)
    (hother : Reads (.phrase .statementOrNull) b [.node (.phrase .statementOrNull) os] a)
    (hco : (ParseTree.node (.phrase .statementOrNull) os).isClear = true)
    (ho : Ordered (.node (.phrase .conditional) [i, o, e, c, .node (.phrase .statementOrNull) bs, k,
      .node (.phrase .statementOrNull) os]))
    (hclosed : Closed (.node (.phrase .conditional) [i, o, e, c,
      .node (.phrase .statementOrNull) bs, k, .node (.phrase .statementOrNull) os]) a) :
    Closed (.node (.phrase .statementOrNull) bs) m := by
  have hstands : Stands .keywordElse m := matches_token.1 (Takes.matches hkey)
  exact {
    branch := fun h => absurd h (ho.orders _ _ _ _ _ _ _ rfl)
    body := fun _ => refuses_of_excludes rfl rfl (by decide) (matches_token.2 hstands)
    block := fun ⟨us, ht, hdet⟩ => by
      by_cases hg : Glued b
      · obtain ⟨-, -, -, -, u, -, -, -, -, -, -, haccepts⟩ := accepts_attached "else" rfl (by simp)
          hs hkey hg hother (by simp [hco])
        have hstop : k.stop = b.offset := (Reads.stop (.lexeme rfl hkey) (by simp) :)
        have hadjoins : Adjoins k (.node (.phrase .statementOrNull) os) :=
          hg.adjoins hstop hother
        exact refuses_blockEnd haccepts (hclosed.block ⟨us, .branch rfl hadjoins ht, hdet⟩)
      · have hrefused := refuses_statement_of_keyword (k := .keywordElse) rfl (by decide) hkey hg
          (by decide)
        exact Derives.noSecond (.manyStop hrefused)
          (refuses_of_excludes rfl rfl (by decide) (matches_token.2 hstands))
    name := fun _ => ⟨not_stands_of_excludes (by decide) hstands,
      not_glued_of_stands rfl rfl hstands⟩ }

theorem accepted_conditional (hs : AcceptedBehind s) : Phrase.conditional.AcceptedAt s := by
  intro t a h hc ho hclosed
  obtain ⟨ts, heq, hts⟩ := (shape_phrase rfl).1 h
  cases heq
  have hts : Reads (.row (.token .keywordIf) ([Pattern.token .openParen, .phrase .expression,
      .token .closeParen, .phrase .statementOrNull] ++ [Pattern.opt elseBranch])) s ts a := hts
  -- the head, the branch and the other branch; each statement begins behind the one at hand
  obtain ⟨_, m, es, rfl, hhead, helse⟩ := shape_row_append.1 hts
  have hhead : Reads (.row (.token .keywordIf) ([Pattern.token .openParen, .phrase .expression,
      .token .closeParen] ++ [Pattern.phrase .statementOrNull])) s _ m := hhead
  obtain ⟨us, n, _, rfl, hfront, hbody⟩ := shape_row_append.1 hhead
  obtain ⟨bs, rfl, -⟩ := (shape_phrase rfl).1 hbody
  obtain ⟨i, o, e, c, rfl⟩ := exists_conditionalHead hfront
  simp only [isClear_node, allClear_append, allClear_cons, allClear_nil, Bool.and_true,
    Bool.and_eq_true] at hc
  have hn : n.rest.length < s.rest.length := Reads.lt hfront rfl
  have hm : m.rest.length < n.rest.length := Reads.lt hbody rfl
  have hbehind : Behind (some (Pattern.phrase .statementOrNull).openers) n :=
    behind_some.2 (Reads.opener hbody rfl)
  have htaken : Accepts (.row (.token .keywordIf) [.token .openParen, .phrase .expression,
      .token .closeParen]) s [i, o, e, c] n :=
    Reads.taken hfront _ (by decide) (by simp [hc.2.1.1]) hbehind
  have accepted : Closed (.node (.phrase .statementOrNull) bs) m →
      Accepts (.phrase .statementOrNull) n [.node (.phrase .statementOrNull) bs] m :=
    (hs n hn).1 _ m hbody (by simp [hc.2.1.2]) (ho.child (by simp))
  refine .phrase (by simp) ?_
  rcases shape_opt.1 helse with ⟨rfl, rfl⟩ | helse
  · simp only [List.append_nil] at hclosed ⊢
    have hrefused : Refuses elseBranch a := hclosed.branch ⟨_, .here, rfl⟩
    exact (htaken.row_append (accepted (hclosed.last _ rfl))).row_append (accepts_omitted hrefused)
  · obtain ⟨_, b, _, rfl, hword, hother⟩ := shape_seq.1 helse
    obtain ⟨k, rfl, hkey⟩ := shape_token.1 hword
    obtain ⟨os, rfl, -⟩ := (shape_phrase rfl).1 hother
    have hb : b.rest.length < m.rest.length := Takes.lt hkey rfl
    have hco : (ParseTree.node (.phrase .statementOrNull) os).isClear = true := by
      have := hc.2.2
      simp only [allClear_append, allClear_cons, allClear_nil, Bool.and_true,
        Bool.and_eq_true] at this
      exact this.2
    -- the branch is closed, since the `else` behind it belongs here
    have hthen := accepted (closed_of_else (hs m (by omega)).1 hkey hother hco ho hclosed)
    have hotherwise := (hs b (by omega)).1 _ a hother hco (ho.child (by simp))
      (hclosed.last [i, o, e, c, .node (.phrase .statementOrNull) bs, k] rfl)
    exact (htaken.row_append hthen).row_append
      (Accepts.given (Accepts.seq (accepts_lexeme rfl hkey) hotherwise))

/-! ## Blocks -/

/-- No `else` branch is taken where a statement is read that does not detach from `else`. -/
theorem refuses_elseBranch (hu : Reads (.phrase .statementOrNull) m [u] a)
    (hc : u.isClear = true) (hd : ¬Detaches "else" u.leaves) : Refuses elseBranch m := by
  refine refuses_of_not_takes rfl fun vs d hv => ?_
  obtain ⟨_, b, ws, rfl, hkey, hother⟩ := takes_seq.1 hv
  obtain ⟨leaf, rfl, hleaf⟩ := takes_token.1 hkey
  have hkey : LexemeAt (.token .keywordElse) m leaf b := .token hleaf
  have hstands : Stands .keywordElse m := stands_of_tokenAt hleaf
  obtain ⟨f, hf, hm⟩ := Reads.opener hu rfl
  have hopen : ((Pattern.phrase .statementOrNull).openers.all fun f =>
      f = .phrase .identifier || lexemeExcludes f (.token .keywordElse)) = true := by decide
  have := List.all_eq_true.1 hopen f hf
  simp only [Bool.or_eq_true, decide_eq_true_eq] at this
  rcases this with rfl | hex
  · obtain ⟨t, c, ht⟩ := exists_lexeme hm
    obtain ⟨z, hz⟩ := exists_glued "else" (k := .keywordElse) rfl (by decide) hleaf ht
    obtain ⟨p, xs, hp, hread, hxs⟩ := simple_of_glued hz.glued (Takes.reads_phrase hother rfl)
    have hcx : allClear [asStatement (.node (.phrase p) xs)] = true :=
      hxs ▸ allClear_tidyAll _ (Takes.allClear hother)
    obtain ⟨ys, hys, hcy, hdet⟩ := attach hp hz ht hread
      (by simpa [asStatement, admits_of_ne] using hcx)
    obtain ⟨q, zs, hq, hsimple, heq⟩ := simple_of_identifier (Or.inl rfl) hstands ht
      (not_stands_colon hp hys ht) hu
    cases heq
    obtain ⟨rfl, -⟩ := simple_unique hp hq hys hsimple hcy
      (by simpa [asStatement, admits_of_ne] using hc)
    exact hd (by simpa [asStatement] using hdet)
  · exact not_matches_of_excludes hex hm (Takes.matches hkey)

/-- The rest of a do-while loop is refused where a statement is accepted that is no while loop whose
body is a semicolon. -/
theorem refuses_loopEnd (hs : Phrase.statementOrNull.AcceptedAt m)
    (hu : Accepts (.phrase .statementOrNull) m [u] a) (hne : ∀ w o e c l, u ≠ bareWhile w o e c l) :
    Refuses loopEnd m := by
  refine refuses_of_not_takes rfl fun vs d hv => ?_
  obtain ⟨w, o, e, c, l, -, haccepts⟩ := accepts_bareWhile hs
    (hv.reads_exact (by decide) rfl rfl) (allClear_tidyAll _ (Takes.allClear hv))
  obtain ⟨heq, -⟩ := hu.unique haccepts
  exact hne w o e c l (List.singleton_injective heq)

/-- A statement is closed if the statement behind it is not taken up by it. -/
theorem closed_of_precedes (hs : Phrase.statementOrNull.AcceptedAt m) (hstop : t.stop = m.offset)
    (hu : Reads (.phrase .statementOrNull) m [u] a) (hc : u.isClear = true)
    (ha : Accepts (.phrase .statementOrNull) m [u] b) (h : Precedes t u)
    (hb : ¬Exposes true "begin" t) : Closed t m where
  branch := fun hopen => refuses_elseBranch hu hc (h.branch hopen)
  body := fun hexp => refuses_loopEnd hs ha (h.body hexp)
  block := fun hexp => absurd hexp hb
  name := fun hend => by
    refine ⟨not_stands_of_behind ?_ (behind_some.2 (Reads.opener hu rfl)),
      fun hg => h.close hend (hg.adjoins hstop hu)⟩
    decide

/-- A statement is closed in front of `end`. -/
theorem closed_of_end (hend : Stands .keywordEnd m) (hb : ¬Exposes true "begin" t) : Closed t m where
  branch := fun _ => refuses_of_excludes rfl rfl (by decide) (matches_token.2 hend)
  body := fun _ => refuses_of_excludes rfl rfl (by decide) (matches_token.2 hend)
  block := fun hexp => absurd hexp hb
  name := fun _ => ⟨not_stands_of_excludes (by decide) hend, not_glued_of_stands rfl rfl hend⟩

/-- What is accepted by a repetition begins with what is accepted by the pattern. -/
theorem Accepts.many_cons {x : Pattern} (h : Accepts (.many x) s (u :: us) a)
    (hx : ∀ ts m, Takes x s ts m → ∃ t, ts = [t]) : ∃ m, Accepts x s [u] m := by
  obtain ⟨ts, ht, heq⟩ := h
  cases ht with
  | manyStop => cases heq
  | @manyStep _ _ ts m us' _ hfirst hmore =>
    obtain ⟨t, rfl⟩ := hx _ _ hfirst
    rw [tidyAll_append] at heq
    exact ⟨m, [t], hfirst, by simpa [tidyAll] using (List.cons.inj heq).1⟩

/-- Statements in front of `end` are accepted if none of them takes up the next one. -/
theorem accepts_statements (hs : AcceptedBehind s)
    (h : Reads (.many (.phrase .statementOrNull)) m ts n) (hm : m.rest.length < s.rest.length)
    (hend : LexemeAt (.token .keywordEnd) n t b) (hg : ¬Glued b) (hc : allClear ts = true)
    (ho : ∀ t ∈ ts, Ordered t) (hb : ∀ t ∈ ts, ¬Exposes true "begin" t)
    (hchain : (ts ++ [t]).IsChain Precedes) :
    Accepts (.many (.phrase .statementOrNull)) m ts n := by
  generalize hx : Pattern.many (.phrase .statementOrNull) = x at h
  induction h with
  | @stop y s =>
    cases hx
    exact accepts_stop
      (refuses_statement_of_keyword (k := .keywordEnd) rfl (by decide) hend hg (by decide))
  | @step y m ts k us n hfirst hmore _ ih =>
    cases hx
    obtain ⟨vs, rfl, -⟩ := (shape_phrase rfl).1 hfirst
    have hk : k.rest.length < m.rest.length := Reads.lt hfirst rfl
    simp only [allClear_append, allClear_cons, allClear_nil, Bool.and_true, Bool.and_eq_true] at hc
    rw [List.append_assoc] at hchain
    have hus := ih (by omega) hend hc.2 (fun t ht => ho t (List.mem_append_right _ ht))
      (fun t ht => hb t (List.mem_append_right _ ht)) hchain.right_of_append rfl
    refine Accepts.step ((hs m hm).1 _ k hfirst hc.1 (ho _ (by simp)) ?_) hus
    have hstop := Reads.stop hfirst (by simp)
    -- what must not be taken up is `end` or the next statement
    rcases shape_many.1 hmore with ⟨rfl, rfl⟩ | ⟨_, l, ws, rfl, hu, -⟩
    · exact closed_of_end (matches_token.1 (Takes.matches hend)) (hb _ (by simp))
    · obtain ⟨os, rfl, -⟩ := (shape_phrase rfl).1 hu
      obtain ⟨l', ha⟩ := Accepts.many_cons hus fun ts m h => by
        obtain ⟨us, rfl, -⟩ := takes_phrase.1 h
        exact ⟨_, rfl⟩
      simp only [List.cons_append, List.nil_append, allClear_cons, Bool.and_eq_true] at hc
      exact closed_of_precedes (hs k (by omega)).1 hstop hu hc.2.1 ha
        (List.isChain_cons_cons.1 hchain).1 (hb _ (by simp))
  | lexeme hl =>
    cases hx
    cases hl
  | _ => cases hx

theorem accepted_block (hs : AcceptedBehind s) : Phrase.block.AcceptedAt s := by
  intro t a h hc ho hclosed
  obtain ⟨us, heq, hus⟩ := (shape_phrase rfl).1 h
  cases heq
  obtain ⟨_, b, _, rfl, hbegin, hrest⟩ := shape_seq.1 hus
  obtain ⟨ls, m, _, rfl, hlabel, hrest⟩ := shape_seq.1 hrest
  obtain ⟨ts, n, _, rfl, hmany, hrest⟩ := shape_seq.1 hrest
  obtain ⟨_, d, ns, rfl, hend, hname⟩ := shape_seq.1 hrest
  obtain ⟨k, rfl, hk⟩ := shape_token.1 hbegin
  obtain ⟨e, rfl, he⟩ := shape_token.1 hend
  simp only [isClear_node, allClear_append, allClear_cons, allClear_nil, Bool.and_true,
    Bool.and_eq_true] at hc
  have hb : b.rest.length < s.rest.length := Takes.lt hk rfl
  have hm : m.rest.length ≤ b.rest.length := (Reads.ahead hlabel).le
  -- what may stand behind `end`
  have hbehind : (ns = [] ∧ a = d ∧ ¬Stands .colon d ∧ ¬Glued d) ∨
      (Reads (.row (.token .colon) [.phrase .identifier]) d ns a ∧ ¬Glued d) := by
    rcases shape_opt.1 hname with ⟨rfl, rfl⟩ | hname
    · obtain ⟨leaf, heq, hleaf⟩ := takes_token.1 he
      cases heq
      obtain ⟨start, text, rfl⟩ := tokenAt_eq_leaf hleaf
      obtain ⟨hcolon, hg⟩ := hclosed.name ⟨[k] ++ ls ++ ts, start, text, by simpa using Tail.here⟩
      exact Or.inl ⟨rfl, rfl, hcolon, hg⟩
    · obtain ⟨f, hf, hmatch⟩ := Reads.opener hname rfl
      cases List.mem_singleton.1 hf
      exact Or.inr ⟨hname, not_glued_of_stands rfl rfl (matches_token.1 hmatch)⟩
  have hg : ¬Glued d := by
    rcases hbehind with ⟨-, -, -, hg⟩ | ⟨-, hg⟩ <;> exact hg
  have horders := ho.orders
  have hlabel' : Accepts (.opt (.row (.token .colon) [.phrase .identifier])) b ls m := by
    refine Reads.taken hlabel (some (blockEnd.openers)) (by decide) hc.2.2.1 ?_
    exact behind_some.2 (Reads.opener (x := blockEnd) (.seq hmany hend) rfl)
  have hname' : Accepts (.opt (.row (.token .colon) [.phrase .identifier])) d ns a := by
    rcases hbehind with ⟨rfl, rfl, hcolon, -⟩ | ⟨hname, -⟩
    · exact accepts_omitted (.noFirst (.noToken (tokenAt_of_not_stands hcolon)))
    · exact (Reads.taken hname none (by decide) hc.2.2.2.2.2 (by simp)).given
  have hmany' : Accepts (.many (.phrase .statementOrNull)) m ts n := by
    refine accepts_statements hs hmany (by omega) he hg hc.2.2.2.1
      (fun t ht => ho.child (by simp [ht])) (fun t ht => horders.1 t (by simp [ht])) ?_
    have hchain : ((k :: ls) ++ ((ts ++ [e]) ++ ns)).IsChain Precedes := by simpa using horders.2
    exact (List.isChain_append.1 (List.isChain_append.1 hchain).2.1).1
  exact .phrase (by simp) (Accepts.seq (accepts_lexeme rfl hk) (Accepts.seq hlabel'
    (Accepts.seq hmany' (Accepts.seq (accepts_lexeme rfl he) hname'))))

end VerilogLoops.Grammar
