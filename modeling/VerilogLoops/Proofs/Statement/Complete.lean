import VerilogLoops.Proofs.Statement.Compound

/-!
# All statements are accepted

A statement begins with a label, with attributes, with a keyword or with a name. A simple statement
may begin as a compound one does, with a keyword that is glued to a dollar sign. Then the compound
statement is tried first, and it is refused because the reading is ordered and closed.

> `accepts_loop`: an ordered, clear reading of a loop statement that is closed is taken.
-/

namespace VerilogLoops.Grammar

open VerilogLoops.Text VerilogLoops.Lexical

variable {word : String} {p q : Phrase} {s b c a m n : Place} {t u leaf : ParseTree}
  {ts us vs : List ParseTree} {k : Token} {z : List Char}

/-! ## Keywords in front of simple statements -/

/-- What a simple statement may begin with. -/
def simpleOpeners : List Pattern :=
  [Pattern.token .stepOperator, .token .openBrace, .token .systemName] ++ nameOpeners

/-- A keyword that stands where a simple statement is read is glued to a dollar sign. -/
theorem glued_of_simple (word : String) (hk : k.spellings = [.keyword word]) (hw : word ∈ reservedWords)
    (hx : (simpleOpeners.all fun f => f = .phrase .identifier || lexemeExcludes f (.token k)) = true)
    (hp : p.isSimple = true) (h : Reads (.phrase p) s ts a)
    (hleaf : tokenAt k s = some (leaf, b)) :
    ∃ t c z, LexemeAt (.phrase .identifier) s t c ∧ GluedAt word s b c t z := by
  obtain ⟨f, hf, hm⟩ := Reads.opener h (by rcases isSimple_cases hp with rfl | rfl | rfl <;> rfl)
  have hopen : f ∈ simpleOpeners := by
    have key : ∀ p : Phrase, p.isSimple = true → ∀ f ∈ (Pattern.phrase p).openers, f ∈ simpleOpeners := by
      decide
    exact key p hp f hf
  have := List.all_eq_true.1 hx f hopen
  simp only [Bool.or_eq_true, decide_eq_true_eq] at this
  rcases this with rfl | hex
  · obtain ⟨t, c, ht⟩ := exists_lexeme hm
    obtain ⟨z, hz⟩ := exists_glued word hk hw hleaf ht
    exact ⟨t, c, z, ht, hz⟩
  · exact absurd (matches_token.2 (stands_of_tokenAt hleaf)) (not_matches_of_excludes hex hm)

/-- Where a simple statement is read, a statement behind a glued keyword is the rest of it. -/
theorem detaches_of_takes (hk : k.spellings = [.keyword word]) (hw : word ∈ reservedWords)
    (hx : (simpleOpeners.all fun f => f = .phrase .identifier || lexemeExcludes f (.token k)) = true)
    (hp : p.isSimple = true) (h : Reads (.phrase p) s ts a) (hc : allClear ts = true)
    (hleaf : tokenAt k s = some (leaf, b)) (hu : Takes (.phrase .statementOrNull) b us n) :
    n = a ∧ Detaches word (leavesOf ts) := by
  obtain ⟨t, c, z, ht, hz⟩ := glued_of_simple word hk hw hx hp h hleaf
  obtain ⟨q, xs, hq, hread, hxs⟩ := simple_of_glued hz.glued (Takes.reads_phrase hu rfl)
  have hcx : allClear [asStatement (.node (.phrase q) xs)] = true :=
    hxs ▸ allClear_tidyAll _ (Takes.allClear hu)
  obtain ⟨ys, hys, hcy, hdet⟩ := attach hq hz ht hread
    (by simpa [asStatement, admits_of_ne] using hcx)
  obtain ⟨rfl, rfl⟩ := simple_unique hq hp hys h hcy hc
  exact ⟨rfl, hdet⟩

/-- No pattern is taken where a simple statement is read that begins with a keyword and with a token
behind it that cannot begin with a dollar sign. -/
theorem refuses_row (word : String) {l : Token} {ps : List Pattern} (hp : p.isSimple = true)
    (h : Reads (.phrase p) s ts a) (hk : k.spellings = [.keyword word])
    (hw : word ∈ reservedWords)
    (hx : (simpleOpeners.all fun f => f = .phrase .identifier || lexemeExcludes f (.token k)) = true)
    (hl : (l.isSpelled || l.isFree || l = .endOfInput) = true) (hd : Token.opensDollar l = false) :
    Refuses (.row (.token k) (.token l :: ps)) s := by
  cases hleaf : tokenAt k s with
  | none => exact .noFirst (.noToken hleaf)
  | some found =>
    obtain ⟨leaf, b⟩ := found
    obtain ⟨t, c, z, -, hz⟩ := glued_of_simple word hk hw hx hp h hleaf
    have hrefused : Refuses (.token l) b :=
      .noToken (tokenAt_of_not_stands (hz.glued.not_stands hl hd))
    refine .noSecond (.token hleaf) ?_
    cases ps with
    | nil => exact hrefused
    | cons => exact .noFirst hrefused

/-! ## Compound statements where a simple statement is read -/

section Simple

variable (hp : p.isSimple = true) (h : Reads (.phrase p) s ts a) (hc : allClear ts = true)
include hp h hc

/-- No block is taken where a closed simple statement is read. -/
theorem refuses_block (hend : Detaches "begin" (leavesOf ts) → Refuses blockEnd a) :
    Refuses (.phrase .block) s := by
  refine refuses_of_not_takes rfl fun vs d hv => ?_
  obtain ⟨vs, rfl, hbody⟩ := takes_phrase.1 hv
  obtain ⟨_, b, _, rfl, hkey, hrest⟩ := takes_seq.1 hbody
  obtain ⟨leaf, rfl, hleaf⟩ := takes_token.1 hkey
  obtain ⟨t, c, z, ht, hz⟩ := glued_of_simple (k := .keywordBegin) "begin" rfl (by decide)
    (by decide) hp h hleaf
  obtain ⟨ls, m, _, rfl, hlabel, hrest⟩ := takes_seq.1 hrest
  obtain ⟨ws, n, _, rfl, hmany, hrest⟩ := takes_seq.1 hrest
  obtain ⟨_, e, _, rfl, hlast, -⟩ := takes_seq.1 hrest
  rcases takes_opt.1 hlabel with hlabel | ⟨-, rfl, rfl⟩
  · obtain ⟨_, d', _, rfl, hcolon, -⟩ := takes_seq.1 hlabel
    exact hz.glued.not_stands rfl rfl (matches_token.1 hcolon.matches)
  · cases hmany with
    | manyStop => exact hz.glued.not_stands rfl rfl (matches_token.1 hlast.matches)
    | @manyStep _ _ us k vs _ hfirst hmore =>
      obtain ⟨rfl, hdet⟩ := detaches_of_takes (k := .keywordBegin) rfl (by decide) (by decide) hp h
        hc hleaf hfirst
      exact (hend hdet).not_takes (Derives.seq hmore hlast)

/-- No loop is taken where a closed simple statement is read that does not detach from `forever`. -/
theorem refuses_loop (hforever : ¬Detaches "forever" (leavesOf ts))
    (hend : Detaches "do" (leavesOf ts) → Refuses loopEnd a) : Refuses (.phrase .loop) s := by
  have foreverLoop : Refuses (.phrase .foreverLoop) s := by
    refine refuses_of_not_takes rfl fun vs d hv => ?_
    obtain ⟨vs, rfl, hbody⟩ := takes_phrase.1 hv
    obtain ⟨_, b, _, rfl, hkey, hrest⟩ := takes_seq.1 hbody
    obtain ⟨leaf, rfl, hleaf⟩ := takes_token.1 hkey
    exact hforever (detaches_of_takes (k := .keywordForever) rfl (by decide) (by decide) hp h hc
      hleaf hrest).2
  have doWhileLoop : Refuses (.phrase .doWhileLoop) s := by
    refine refuses_of_not_takes rfl fun vs d hv => ?_
    obtain ⟨vs, rfl, hbody⟩ := takes_phrase.1 hv
    obtain ⟨_, b, _, rfl, hkey, hrest⟩ := takes_seq.1 hbody
    obtain ⟨_, n, _, rfl, hinner, hrest⟩ := takes_seq.1 hrest
    obtain ⟨leaf, rfl, hleaf⟩ := takes_token.1 hkey
    obtain ⟨rfl, hdet⟩ := detaches_of_takes (k := .keywordDo) rfl (by decide) (by decide) hp h hc
      hleaf hinner
    exact (hend hdet).not_takes hrest
  have headed : ∀ {k : Token} {word : String} {ps : List Pattern}, k.spellings = [.keyword word] →
      word ∈ reservedWords → (simpleOpeners.all fun f => f = .phrase .identifier ||
        lexemeExcludes f (.token k)) = true →
          Refuses (.row (.token k) (.token .openParen :: ps)) s :=
    fun hk hw hx => refuses_row _ hp h hk hw hx rfl rfl
  exact .noPhrase (.altSecond foreverLoop (.altSecond (.noPhrase (headed rfl (by decide) (by decide)))
    (.altSecond (.noPhrase (headed rfl (by decide) (by decide)))
      (.altSecond (.noPhrase (headed rfl (by decide) (by decide)))
        (.altSecond doWhileLoop (.noPhrase (headed rfl (by decide) (by decide))))))))

/-- No jump is taken where a simple statement is read, unless it is one that detaches from `return`
and no assignment. -/
theorem refuses_jump (hreturn : Detaches "return" (leavesOf ts) → p = .assignmentStatement) :
    Refuses (.phrase .jump) s := by
  have returned : Refuses (.row (.token .keywordReturn)
      [.opt (.phrase .expression), .token .semicolon]) s := by
    refine refuses_of_not_takes rfl fun vs d hv => ?_
    obtain ⟨_, b, _, rfl, hkey, hrest⟩ := takes_seq.1 hv
    obtain ⟨es, e, _, rfl, hvalue, hmark⟩ := takes_seq.1 hrest
    obtain ⟨leaf, rfl, hleaf⟩ := takes_token.1 hkey
    obtain ⟨t, c, z, ht, hz⟩ := glued_of_simple (k := .keywordReturn) "return" rfl
      (by decide) (by decide) hp h hleaf
    rcases takes_opt.1 hvalue with hvalue | ⟨-, rfl, rfl⟩
    · obtain ⟨hdet, hne⟩ := detaches_of_returned hp hz ht h hc
        (hvalue.reads rfl rfl (by decide) hmark.matches) (allClear_tidyAll _ (Takes.allClear hvalue))
        (matches_token.1 hmark.matches)
      exact hne (hreturn hdet)
    · exact hz.glued.not_stands rfl rfl (matches_token.1 hmark.matches)
  exact .noPhrase (.altSecond returned (.altSecond
    (refuses_row "break" hp h rfl (by decide) (by decide) rfl rfl)
      (refuses_row "continue" hp h rfl (by decide) (by decide) rfl rfl)))

end Simple

/-! ## Loops and statement items -/

/-- A phrase around another one is accepted as the other one is. -/
theorem AcceptedAt.around (h : q.AcceptedAt s) (hq : (Pattern.phrase q).isLexeme = false)
    (hp : p.isTrailing = true) (hc : (ParseTree.node (.phrase p) us).isClear = true)
    (ho : Ordered (.node (.phrase p) us)) (hclosed : Closed (.node (.phrase p) us) a)
    (hus : Reads (.phrase q) s us a) : Accepts (.phrase q) s us a := by
  obtain ⟨vs, rfl, -⟩ := (shape_phrase hq).1 hus
  simp only [isClear_node, allClear_cons, allClear_nil, Bool.and_true, Bool.and_eq_true] at hc
  exact h _ a hus (by simpa using hc.2) (ho.child (by simp)) (hclosed.last [] hp)

theorem accepted_loop (hs : AcceptedBehind s) : Phrase.loop.AcceptedAt s := by
  intro t a h hc ho hclosed
  obtain ⟨us, heq, hus⟩ := (shape_phrase rfl).1 h
  cases heq
  have headed : ∀ q ∈ [Phrase.foreverLoop, .repeatLoop, .whileLoop, .forLoop, .foreachLoop],
      Reads (.phrase q) s us a → Accepts (.phrase q) s us a := by
    intro q hq
    refine AcceptedAt.around (accepted_headedLoop hq hs) ?_ rfl hc ho hclosed
    simp only [List.mem_cons, List.not_mem_nil, or_false] at hq
    rcases hq with rfl | rfl | rfl | rfl | rfl <;> rfl
  refine .phrase (by simp) ?_
  refine accepts_alt hus (headed _ (by simp)) (fun h => ?_) rfl rfl (by decide)
  refine accepts_alt h (headed _ (by simp)) (fun h => ?_) rfl rfl (by decide)
  refine accepts_alt h (headed _ (by simp)) (fun h => ?_) rfl rfl (by decide)
  refine accepts_alt h (headed _ (by simp)) (fun h => ?_) rfl rfl (by decide)
  refine accepts_alt h ?_ (headed _ (by simp)) rfl rfl (by decide)
  exact AcceptedAt.around (accepted_doWhileLoop hs) rfl rfl hc ho hclosed

/-- A simple statement is accepted as a statement item. -/
theorem accepts_simpleItem (hp : p.isSimple = true) (h : Reads (.phrase p) s [u] a)
    (hc : u.isClear = true) (ho : Ordered (.node (.phrase .statementItem) [u]))
    (hclosed : Closed (.node (.phrase .statementItem) [u]) a) :
    Accepts Phrase.statementItem.body s [u] a := by
  have hcu : allClear [u] = true := by simpa using hc
  obtain ⟨hforever, hreturn⟩ := ho.orders
  have hblock := refuses_block hp h hcu fun hd => hclosed.block ⟨_, .here, hd⟩
  have hloop := refuses_loop hp h hcu hforever fun hd => hclosed.body ⟨_, .here, hd⟩
  have hconditional : Refuses (.phrase .conditional) s :=
    .noPhrase (refuses_row "if" hp h rfl (by decide) (by decide) rfl rfl)
  have hjump := refuses_jump hp h hcu fun hd => by
    obtain ⟨vs, heq⟩ := hreturn hd
    cases heq
    obtain ⟨ws, heq, -⟩ :=
      (shape_phrase (by rcases isSimple_cases hp with rfl | rfl | rfl <;> rfl)).1 h
    cases heq
    rfl
  exact .second hblock (.second hconditional (.second hloop (.second hjump
    (takes_simple hp h hcu))))

theorem accepted_statementItem (hs : AcceptedBehind s) : Phrase.statementItem.AcceptedAt s := by
  intro t a h hc ho hclosed
  obtain ⟨us, heq, hus⟩ := (shape_phrase rfl).1 h
  cases heq
  have simple : ∀ q, q.isSimple = true → Reads (.phrase q) s us a →
      Accepts Phrase.statementItem.body s us a := by
    intro q hq hread
    obtain ⟨vs, rfl, -⟩ :=
      (shape_phrase (by rcases isSimple_cases hq with rfl | rfl | rfl <;> rfl)).1 hread
    exact accepts_simpleItem hq hread (by simpa [admits_of_ne] using hc) ho hclosed
  have hcu : allClear us = true := by simpa [admits_of_ne] using hc
  have refused : ∀ {x y : Pattern}, Reads y s us a → x.steady = true →
      (!x.nullable && !y.nullable) = true → apart y.openers x.openers = true → Refuses x s := by
    intro x y hy hx hn hap
    simp only [Bool.and_eq_true, Bool.not_eq_true'] at hn
    exact refuses_of_apart hx hn.1 hap (behind_some.2 (Reads.opener hy hn.2))
  refine .phrase (by simp) ?_
  have hall := hus
  simp only [Phrase.body, Pattern.oneOf, shape_alt] at hall
  rcases hall with hread | hread | hread | hread | hread | hread | hread
  · exact .first (AcceptedAt.around (accepted_block hs) rfl rfl hc ho hclosed hread)
  · exact .second (refused hread rfl rfl (by decide))
      (.first (AcceptedAt.around (accepted_conditional hs) rfl rfl hc ho hclosed hread))
  · exact .second (refused hread rfl rfl (by decide)) (.second (refused hread rfl rfl (by decide))
      (.first (AcceptedAt.around (accepted_loop hs) rfl rfl hc ho hclosed hread)))
  · exact .second (refused hread rfl rfl (by decide)) (.second (refused hread rfl rfl (by decide))
      (.second (refused hread rfl rfl (by decide))
        (.first (Reads.taken hread none (by decide) hcu (by simp)))))
  · exact simple _ rfl hread
  · exact simple _ rfl hread
  · exact simple _ rfl hread

/-! ## Labels and attributes -/

/-- No label is read where a statement behind a glued keyword is. -/
theorem not_stands_colon_of_glued (hz : GluedAt word s b c t z)
    (ht : LexemeAt (.phrase .identifier) s t c) (h : Reads (.phrase .statementOrNull) b us n)
    (hc : allClear us = true) : ¬Stands .colon c := by
  obtain ⟨p, xs, hp, hread, rfl⟩ := simple_of_glued hz.glued h
  obtain ⟨ys, hys, -, -⟩ := attach hp hz ht hread (by simpa [asStatement, admits_of_ne] using hc)
  exact not_stands_colon hp hys ht

/-- Where an identifier matches, no pattern is read that begins with a keyword and with a token behind
it that cannot begin with a dollar sign. -/
theorem not_reads_row (word : String) {l : Token} {ps : List Pattern} (hk : k.spellings = [.keyword word])
    (hw : word ∈ reservedWords) (hl : (l.isSpelled || l.isFree || l = .endOfInput) = true)
    (hd : Token.opensDollar l = false) (ht : LexemeAt (.phrase .identifier) s t c) :
    ¬Reads (.row (.token k) (.token l :: ps)) s us a := by
  intro h
  obtain ⟨_, b, _, rfl, hkey, hrest⟩ := shape_seq.1 h
  obtain ⟨_, rfl, hkey'⟩ := shape_token.1 hkey
  obtain ⟨leaf, -, hleaf⟩ := takes_token.1 hkey'
  obtain ⟨z, hz⟩ := exists_glued word hk hw hleaf ht
  refine hz.glued.not_stands hl hd ?_
  cases ps with
  | nil =>
    obtain ⟨_, rfl, hmark⟩ := shape_token.1 hrest
    exact matches_token.1 (Takes.matches hmark)
  | cons =>
    obtain ⟨_, _, _, rfl, hmark, -⟩ := shape_seq.1 hrest
    obtain ⟨_, rfl, hmark'⟩ := shape_token.1 hmark
    exact matches_token.1 (Takes.matches hmark')

/-- No label is read where a statement item is. -/
theorem not_stands_colon_of_item (h : Reads (.phrase .statementItem) s us a)
    (hc : allClear us = true) (ht : LexemeAt (.phrase .identifier) s t c) : ¬Stands .colon c := by
  -- what is glued to the keyword in front of the rest of an item
  have glued : ∀ {k : Token} (word : String) {l : Pattern} {ps : List Pattern} {vs : List ParseTree},
      k.spellings = [.keyword word] → word ∈ reservedWords →
        Reads (.row (.token k) (l :: ps)) s vs a → ∃ b z ws w, vs = w :: ws ∧
          GluedAt word s b c t z ∧ Reads (.row l ps) b ws a := by
    intro k word l ps vs hk hw hread
    obtain ⟨_, b, ws, rfl, hkey, hrest⟩ := shape_seq.1 hread
    obtain ⟨w, rfl, hkey'⟩ := shape_token.1 hkey
    obtain ⟨leaf, -, hleaf⟩ := takes_token.1 hkey'
    obtain ⟨z, hz⟩ := exists_glued word hk hw hleaf ht
    exact ⟨b, z, ws, w, rfl, hz, hrest⟩
  have row : ∀ {k : Token} {word : String} {ps : List Pattern} {vs : List ParseTree},
      Reads (.row (.token k) (.token .openParen :: ps)) s vs a → k.spellings = [.keyword word] →
        word ∈ reservedWords → False :=
    fun hread hk hw => not_reads_row _ hk hw rfl rfl ht hread
  obtain ⟨us, rfl, hus⟩ := (shape_phrase rfl).1 h
  simp only [allClear_cons, isClear_node, allClear_nil, Bool.and_true, Bool.and_eq_true] at hc
  replace hc := hc.2
  simp only [Phrase.body, Pattern.oneOf, shape_alt] at hus
  rcases hus with hread | hread | hread | hread | hread | hread | hread
  · obtain ⟨vs, rfl, hvs⟩ := (shape_phrase rfl).1 hread
    obtain ⟨b, z, ws, w, rfl, hz, hrest⟩ := glued (k := .keywordBegin) "begin" rfl
      (by decide) hvs
    obtain ⟨ls, m, _, rfl, hlabel, hinner⟩ := shape_seq.1 hrest
    obtain ⟨xs, n, _, rfl, hmany, hend⟩ := shape_seq.1 hinner
    simp only [allClear_cons, isClear_node, allClear_append, Bool.and_eq_true] at hc
    rcases shape_opt.1 hlabel with ⟨rfl, rfl⟩ | hlabel
    · rcases shape_many.1 hmany with ⟨rfl, rfl⟩ | ⟨us, d, ys, rfl, hfirst, -⟩
      · exact absurd hend (hz.glued.not_reads rfl (by decide))
      · simp only [allClear_append, Bool.and_eq_true] at hc
        exact not_stands_colon_of_glued hz ht hfirst hc.1.2.2.2.1.1
    · exact absurd hlabel (hz.glued.not_reads rfl (by decide))
  · obtain ⟨vs, rfl, hvs⟩ := (shape_phrase rfl).1 hread
    exact (row hvs rfl (by decide)).elim
  · obtain ⟨vs, rfl, hvs⟩ := (shape_phrase rfl).1 hread
    simp only [allClear_cons, isClear_node, allClear_nil, Bool.and_true, Bool.and_eq_true] at hc
    replace hc := hc.2
    simp only [Phrase.body, Pattern.oneOf, shape_alt] at hvs
    rcases hvs with hloop | hloop | hloop | hloop | hloop | hloop <;>
      obtain ⟨ws, rfl, hws⟩ := (shape_phrase rfl).1 hloop
    · obtain ⟨b, z, xs, w, rfl, hz, hbody⟩ := glued (k := .keywordForever) "forever" rfl
        (by decide) hws
      simp only [allClear_cons, isClear_node, Bool.and_eq_true] at hc
      exact not_stands_colon_of_glued hz ht hbody hc.1.2.2
    · exact (row hws rfl (by decide)).elim
    · exact (row hws rfl (by decide)).elim
    · exact (row hws rfl (by decide)).elim
    · obtain ⟨b, z, xs, w, rfl, hz, hrest⟩ := glued (k := .keywordDo) "do" rfl
        (by decide) hws
      obtain ⟨bs, n, _, rfl, hbody, -⟩ := shape_seq.1 hrest
      simp only [allClear_cons, isClear_node, allClear_append, Bool.and_eq_true] at hc
      exact not_stands_colon_of_glued hz ht hbody hc.1.2.2.1
    · exact (row hws rfl (by decide)).elim
  · obtain ⟨vs, rfl, hvs⟩ := (shape_phrase rfl).1 hread
    simp only [allClear_cons, isClear_node, allClear_nil, Bool.and_true, Bool.and_eq_true] at hc
    rcases shape_alt.1 hvs with hvs | hvs
    · obtain ⟨b, z, xs, w, rfl, hz, hrest⟩ := glued (k := .keywordReturn) "return" rfl
        (by decide) hvs
      obtain ⟨es, e, _, rfl, hvalue, hmark⟩ := shape_seq.1 hrest
      simp only [allClear_cons, allClear_append, Bool.and_eq_true] at hc
      rcases shape_opt.1 hvalue with ⟨rfl, rfl⟩ | hvalue
      · exact absurd hmark (hz.glued.not_reads rfl (by decide))
      · obtain ⟨f, hf, hm⟩ := Reads.opener hmark rfl
        cases List.mem_singleton.1 hf
        exact not_stands_colon_of_returned hz hvalue hc.2.2.1 (matches_token.1 hm)
    · rcases shape_alt.1 hvs with hvs | hvs
      · exact absurd hvs (not_reads_row "break" rfl (by decide) rfl rfl ht)
      · exact absurd hvs (not_reads_row "continue" rfl (by decide) rfl rfl ht)
  · exact not_stands_colon rfl hread ht
  · exact not_stands_colon rfl hread ht
  · exact not_stands_colon rfl hread ht

theorem accepted_statement (hs : AcceptedBehind s) : Phrase.statement.AcceptedAt s := by
  intro t a h hc ho hclosed
  obtain ⟨us, heq, hus⟩ := (shape_phrase rfl).1 h
  cases heq
  obtain ⟨ls, m, _, rfl, hlabel, hrest⟩ := shape_seq.1 hus
  obtain ⟨as, n, _, rfl, hattrs, hitem⟩ := shape_seq.1 hrest
  obtain ⟨is, rfl, -⟩ := (shape_phrase rfl).1 hitem
  simp only [isClear_node, allClear_append, allClear_cons, allClear_nil, Bool.and_true,
    Bool.and_eq_true] at hc
  have hitem' : Accepts (.phrase .statementItem) n [.node (.phrase .statementItem) is] a := by
    have hle : n.rest.length ≤ s.rest.length :=
      Nat.le_trans (Reads.ahead hattrs).le (Reads.ahead hlabel).le
    refine accepted_statementItem (hs.mono hle) _ a hitem (by simp [hc.2.2.2]) (ho.child (by simp)) ?_
    rw [← List.append_assoc] at hclosed
    exact hclosed.last (ls ++ as) rfl
  have hattrs' : Accepts (.many (.phrase .attribute)) m as n :=
    Reads.taken hattrs (some itemOpeners) (by decide) hc.2.2.1
      (behind_some.2 (Reads.opener hitem rfl))
  refine .phrase (by simp) (Accepts.seq ?_ (Accepts.seq hattrs' hitem'))
  rcases shape_opt.1 hlabel with ⟨rfl, rfl⟩ | hlabel
  · refine accepts_omitted (refuses_of_not_takes rfl fun vs d hv => ?_)
    obtain ⟨vs, rfl, hbody⟩ := takes_phrase.1 hv
    obtain ⟨_, c, _, rfl, hid, hmark⟩ := takes_seq.1 hbody
    obtain ⟨leaf, rfl, -⟩ := takes_identifier.1 hid
    have ht : LexemeAt (.phrase .identifier) m _ c := hid
    rcases shape_many.1 hattrs with ⟨rfl, rfl⟩ | ⟨xs, d, ys, rfl, hattr, -⟩
    · exact not_stands_colon_of_item hitem (by simp [hc.2.2.2]) ht
        (matches_token.1 hmark.matches)
    · obtain ⟨f, hf, hm⟩ := Reads.opener hattr rfl
      cases List.mem_singleton.1 hf
      exact not_matches_of_excludes (by decide) hm (Takes.matches ht)
  · exact (Reads.taken hlabel none (by decide) hc.2.1 (by simp)).given

theorem accepted_statementOrNull (hs : AcceptedBehind s) : Phrase.statementOrNull.AcceptedAt s := by
  intro t a h hc ho hclosed
  obtain ⟨us, heq, hus⟩ := (shape_phrase rfl).1 h
  cases heq
  refine .phrase (by simp) ?_
  rcases shape_alt.1 hus with hread | hread
  · exact .first (AcceptedAt.around (accepted_statement hs) rfl rfl hc ho hclosed hread)
  · have hcu : allClear us = true := by simpa [admits_of_ne] using hc
    have hnull := Reads.taken hread none (by decide) hcu (by simp)
    refine .second (refuses_of_not_takes rfl fun vs d hv => ?_) hnull
    -- behind the attributes, which are taken either way, stands a semicolon and no item
    obtain ⟨ws, rfl, hws⟩ := (shape_phrase rfl).1 hread
    obtain ⟨as, n, ms, rfl, hattrs, hmark⟩ := shape_seq.1 hws
    simp only [allClear_cons, isClear_node, allClear_append, Bool.and_eq_true] at hcu
    have hmatch : Matches (.token .semicolon) n := by
      obtain ⟨f, hf, hm⟩ := Reads.opener hmark rfl
      cases List.mem_singleton.1 hf
      exact hm
    obtain ⟨as', hattrs'⟩ := (Reads.taken hattrs (some [.token .semicolon]) (by decide) hcu.1.2.1
      (behind_some.2 ⟨_, by simp, hmatch⟩)).exists_takes
    obtain ⟨vs, rfl, hbody⟩ := takes_phrase.1 hv
    obtain ⟨_, m, _, rfl, hlabel, hrest⟩ := takes_seq.1 hbody
    obtain ⟨_, l, _, rfl, htaken, hitem⟩ := takes_seq.1 hrest
    rcases takes_opt.1 hlabel with hlabel | ⟨-, rfl, rfl⟩
    · obtain ⟨f, hf, hm⟩ := Reads.opener hread rfl
      exact (refuses_of_apart (x := .phrase .statementLabel) rfl rfl (by decide)
        (behind_some.2 ⟨f, hf, hm⟩)).not_takes hlabel
    · obtain ⟨-, rfl⟩ := hattrs'.unique htaken
      exact (refuses_of_excludes (x := .phrase .statementItem) rfl rfl (by decide)
        hmatch).not_takes hitem

/-- Statements are accepted at all places. -/
theorem acceptedBehind (s : Place) : AcceptedBehind s := by
  have main : ∀ (k : Nat) (s : Place), s.rest.length < k → AcceptedBehind s := by
    intro k
    induction k with
    | zero => intro s h; omega
    | succ k ih =>
      intro s hs b hb
      have hbehind := ih b (by omega)
      exact ⟨accepted_statementOrNull hbehind, accepted_statement hbehind⟩
  exact main _ s (Nat.lt_succ_self _)

/-- **Statements are read in one way.** Every clear and ordered reading of a loop statement is what is
taken, if what stands behind it is no part of it. -/
theorem accepts_loop (h : Reads (.phrase .loop) s [t] a) (hc : t.isClear = true) (ho : Ordered t)
    (hclosed : Closed t a) : Accepts (.phrase .loop) s [t] a :=
  accepted_loop (acceptedBehind s) t a h hc ho hclosed

/-- At the end of a text every statement is closed. -/
theorem closed_of_endOfInput (hend : Stands .endOfInput a) : Closed t a where
  branch := fun _ => refuses_of_excludes rfl rfl (by decide) (matches_token.2 hend)
  body := fun _ => refuses_of_excludes rfl rfl (by decide) (matches_token.2 hend)
  block := fun _ => refuses_of_excludes rfl rfl (by decide) (matches_token.2 hend)
  name := fun _ => ⟨not_stands_of_excludes (by decide) hend, not_glued_of_stands rfl rfl hend⟩

end VerilogLoops.Grammar
