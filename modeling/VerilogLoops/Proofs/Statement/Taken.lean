import VerilogLoops.Proofs.Statement.Complete

/-!
# What is taken is ordered

Matching takes as much as it can, and it tries the compound statements first. So no part of a tree
that is taken could have taken up what stands behind it: wherever a tree fails to be ordered, an
attempt that came earlier would have succeeded.

> `ordered_of_takes`: the tidy trees of what is taken are ordered.
-/

namespace VerilogLoops.Grammar

open VerilogLoops.Text VerilogLoops.Lexical

variable {word : String} {p q : Phrase} {s b c d a m n : Place} {t u leaf : ParseTree}
  {ts us vs : List ParseTree} {k : Token} {z : List Char} {x y : Pattern}

/-! ## What is accepted -/

theorem accepts_seq : Accepts (.seq x y) s ts a ↔
    ∃ us m vs, ts = us ++ vs ∧ Accepts x s us m ∧ Accepts y m vs a := by
  constructor
  · rintro ⟨ts', h, rfl⟩
    obtain ⟨us, m, vs, rfl, hx, hy⟩ := takes_seq.1 h
    exact ⟨_, m, _, tidyAll_append us vs, ⟨us, hx, rfl⟩, ⟨vs, hy, rfl⟩⟩
  · rintro ⟨us, m, vs, rfl, hx, hy⟩
    exact hx.seq hy

theorem accepts_choice : Accepts (.alt x y) s ts a ↔
    Accepts x s ts a ∨ (Refuses x s ∧ Accepts y s ts a) := by
  constructor
  · rintro ⟨ts', h, rfl⟩
    rcases takes_alt.1 h with h | ⟨hno, h⟩
    · exact Or.inl ⟨_, h, rfl⟩
    · exact Or.inr ⟨hno, _, h, rfl⟩
  · rintro (h | ⟨hno, h⟩)
    · exact h.first
    · exact .second hno h

theorem accepts_opt : Accepts (.opt x) s ts a ↔
    Accepts x s ts a ∨ (Refuses x s ∧ ts = [] ∧ a = s) := by
  constructor
  · rintro ⟨ts', h, rfl⟩
    rcases takes_opt.1 h with h | ⟨hno, rfl, rfl⟩
    · exact Or.inl ⟨_, h, rfl⟩
    · exact Or.inr ⟨hno, rfl, rfl⟩
  · rintro (h | ⟨hno, rfl, rfl⟩)
    · exact h.given
    · exact accepts_omitted hno

theorem accepts_token {k : Token} (h : Accepts (.token k) s ts a) :
    ∃ t, ts = [t] ∧ LexemeAt (.token k) s t a := by
  obtain ⟨ts', h, rfl⟩ := h
  obtain ⟨leaf, rfl, hleaf⟩ := takes_token.1 h
  have h : LexemeAt (.token k) s leaf a := .token hleaf
  exact ⟨leaf, by simp [tidyAll, h.tidy rfl], h⟩

theorem accepts_phrase (hp : p ≠ .forDeclaration) (h : Accepts (.phrase p) s ts a) :
    ∃ us, ts = [.node (.phrase p) us] ∧ Accepts p.body s us a := by
  obtain ⟨ts', h, rfl⟩ := h
  obtain ⟨us, rfl, hbody⟩ := takes_phrase.1 h
  exact ⟨tidyAll us, by simp [tidyAll, ParseTree.tidy, tidied_of_ne hp], us, hbody, rfl⟩

/-- What a pattern without danglers accepts is a clear reading. -/
theorem Accepts.reads (h : Accepts x s ts a) (hx : x.isSealed = true) (ht : x.trails = false)
    (hd : x.danglers = []) : Reads x s ts a ∧ allClear ts = true := by
  obtain ⟨ts', h, rfl⟩ := h
  exact ⟨h.reads_exact hx ht hd, allClear_tidyAll _ (Takes.allClear h)⟩

theorem statement_acceptedAt (s : Place) : Phrase.statementOrNull.AcceptedAt s :=
  accepted_statementOrNull (acceptedBehind s)

/-! ## Tails of what is accepted -/

/-- What a conditional accepts. -/
theorem conditional_cases (h : Accepts Phrase.conditional.body s ts a) :
    ∃ i o e c t n m, Accepts (.phrase .statementOrNull) n [t] m ∧
      ((ts = [i, o, e, c, t] ∧ m = a ∧ Refuses elseBranch a) ∨
        ∃ k b u, ts = [i, o, e, c, t, k, u] ∧ LexemeAt (.token .keywordElse) m k b ∧
          Accepts (.phrase .statementOrNull) b [u] a) := by
  obtain ⟨_, _, _, rfl, hi, h₁⟩ := accepts_seq.1 h
  obtain ⟨_, _, _, rfl, ho, h₂⟩ := accepts_seq.1 h₁
  obtain ⟨_, _, _, rfl, he, h₃⟩ := accepts_seq.1 h₂
  obtain ⟨_, n, _, rfl, hc, h₄⟩ := accepts_seq.1 h₃
  obtain ⟨_, m, _, rfl, ht, helse⟩ := accepts_seq.1 h₄
  obtain ⟨i, rfl, -⟩ := accepts_token hi
  obtain ⟨o, rfl, -⟩ := accepts_token ho
  obtain ⟨es, rfl, -⟩ := accepts_phrase (by simp) he
  obtain ⟨c, rfl, -⟩ := accepts_token hc
  obtain ⟨bs, rfl, -⟩ := accepts_phrase (by simp) ht
  refine ⟨i, o, .node (.phrase .expression) es, c, _, n, m, ht, ?_⟩
  rcases accepts_opt.1 helse with h | ⟨hno, rfl, rfl⟩
  · obtain ⟨_, b, _, rfl, hk, hu⟩ := accepts_seq.1 h
    obtain ⟨k, rfl, hk'⟩ := accepts_token hk
    obtain ⟨os, rfl, -⟩ := accepts_phrase (by simp) hu
    exact Or.inr ⟨k, b, _, by simp, hk', hu⟩
  · exact Or.inl ⟨by simp, rfl, hno⟩

/-- Whatever the pattern takes ends in a phrase. -/
def Pattern.endsInPhrase : Pattern → Bool
  | .phrase p => p ≠ .forDeclaration
  | .seq x y => y.endsInPhrase && (!y.nullable || x.endsInPhrase)
  | .alt x y => x.endsInPhrase && y.endsInPhrase
  | .opt x => x.endsInPhrase
  | _ => false

/-- The last tree of a pattern that ends in a phrase is accepted where it stands. -/
theorem Accepts.last (h : Accepts x s ts a) (hx : x.endsInPhrase = true) :
    (ts = [] ∧ a = s) ∨ ∃ us t q n, ts = us ++ [t] ∧ q ≠ .forDeclaration ∧
      Accepts (.phrase q) n [t] a := by
  induction x generalizing s ts a with
  | token | many | tail | absent => cases hx
  | phrase p =>
    have hp : p ≠ .forDeclaration := by simpa [Pattern.endsInPhrase] using hx
    obtain ⟨us, rfl, -⟩ := accepts_phrase hp h
    exact Or.inr ⟨[], _, p, s, rfl, hp, h⟩
  | seq x y ihx ihy =>
    simp only [Pattern.endsInPhrase, Bool.and_eq_true, Bool.or_eq_true, Bool.not_eq_true'] at hx
    obtain ⟨us, m, vs, rfl, hus, hvs⟩ := accepts_seq.1 h
    rcases ihy hvs hx.1 with ⟨rfl, rfl⟩ | ⟨ws, t, q, n, rfl, hq, ht⟩
    · rcases hx.2 with hn | hx
      · obtain ⟨ts', ht, -⟩ := hvs
        exact absurd (Takes.lt ht hn) (Nat.lt_irrefl _)
      · rw [List.append_nil]
        exact ihx hus hx
    · exact Or.inr ⟨us ++ ws, t, q, n, by simp, hq, ht⟩
  | alt x y ihx ihy =>
    simp only [Pattern.endsInPhrase, Bool.and_eq_true] at hx
    rcases accepts_choice.1 h with h | ⟨-, h⟩
    · exact ihx h hx.1
    · exact ihy h hx.2
  | opt x ih =>
    rcases accepts_opt.1 h with h | ⟨-, rfl, rfl⟩
    · exact ih h hx
    · exact Or.inl ⟨rfl, rfl⟩

/-- A property of places that holds in front of a statement if it holds behind it is handed over from
the end of a statement to the ends of its tails. -/
theorem Tail.taken {further : Bool} {B : Place → Prop} (h : Tail further t u)
    (hB : further = true → ∀ m us a, Accepts (.phrase .statementOrNull) m us a → B a → B m)
    (hp : p ≠ .forDeclaration) (ht : Accepts (.phrase p) s [t] a) (ha : B a) :
    ∃ q n d, q ≠ .forDeclaration ∧ Accepts (.phrase q) n [u] d ∧ B d := by
  induction h generalizing p s a with
  | here => exact ⟨p, s, a, hp, ht, ha⟩
  | @last q ts t u hq _ ih =>
    obtain ⟨vs, heq, hbody⟩ := accepts_phrase hp ht
    cases heq
    have key : ∀ p : Phrase, p.isTrailing = true → p.body.endsInPhrase = true := by decide
    -- the last phrase is accepted where it ends, at the end of the whole
    rcases hbody.last (key q hq) with ⟨hnil, -⟩ | ⟨us, t', q', n, heq, hq', hlast⟩
    · exact absurd hnil (by simp)
    · obtain ⟨-, hsame⟩ := List.append_inj' heq rfl
      cases hsame
      exact ih hq' hlast ha
  | @body d t rest u hf _ ih =>
    obtain ⟨vs, heq, hbody⟩ := accepts_phrase hp ht
    cases heq
    obtain ⟨_, b, _, hsplit, hd, hrest⟩ := accepts_seq.1 hbody
    obtain ⟨_, m, _, rfl, hinner, hend⟩ := accepts_seq.1 hrest
    obtain ⟨d', rfl, -⟩ := accepts_token hd
    obtain ⟨us, rfl, -⟩ := accepts_phrase (by simp) hinner
    simp only [List.cons_append, List.nil_append, List.cons.injEq] at hsplit
    obtain ⟨rfl, rfl, rfl⟩ := hsplit
    obtain ⟨hreads, hc⟩ := hend.reads (by decide) rfl rfl
    -- behind the body stands the rest of the loop, which is itself accepted as a statement
    obtain ⟨w, o, e, c, l, -, hwhile⟩ := accepts_bareWhile (statement_acceptedAt m) hreads hc
    exact ih (by simp) hinner (hB hf _ _ _ hwhile ha)
  | @branch i o e c t k other u hf hadj _ ih =>
    obtain ⟨vs, heq, hbody⟩ := accepts_phrase hp ht
    cases heq
    obtain ⟨i', o', e', c', t', n, m, ht', ⟨heq, -⟩ | ⟨k', b, u', heq, hk, hu⟩⟩ :=
      conditional_cases hbody
    · simp at heq
    · simp only [List.cons.injEq, and_true] at heq
      obtain ⟨rfl, rfl, rfl, rfl, rfl, rfl, rfl⟩ := heq
      obtain ⟨hreads, hc⟩ := hu.reads rfl rfl rfl
      -- an `else` that adjoins its branch is accepted together with it as a statement
      have hstop : k.stop = b.offset := (Reads.stop (.lexeme rfl hk) (by simp) :)
      obtain ⟨-, -, -, -, v, -, -, -, -, -, -, haccepts⟩ := accepts_attached "else" rfl
        (by simp) (statement_acceptedAt m) hk (glued_of_adjoins hadj hstop hreads) hreads hc
      exact ih (by simp) ht' (hB hf _ _ _ haccepts ha)

/-! ## Statements that detach -/

/-- If what is read detaches from a keyword, the keyword stands there with an identifier glued to
it. -/
theorem glued_of_detaches (hk : k.spellings = [.keyword word]) (hw : word ∈ reservedWords)
    (h : Reads x s ts a) (hn : x.nullable = false)
    (hx : (x.openers.all fun f => f.isLexeme && f ≠ .token .identifier) = true)
    (hd : Detaches word (leavesOf ts)) :
    ∃ leaf b t c z, tokenAt k s = some (leaf, b) ∧ LexemeAt (.phrase .identifier) s t c ∧
      GluedAt word s b c t z ∧ ∃ l ∈ dollarFollow z, Stands l c := by
  obtain ⟨z, start, l, rest, hleaves, hl⟩ := hd
  obtain ⟨f, hf, t, c, more, ht, heq, hlays⟩ := Reads.begins h hn
  have hopen := List.all_eq_true.1 hx f hf
  simp only [ne_eq, Bool.and_eq_true, decide_eq_true_eq] at hopen
  rw [hleaves] at heq
  obtain ⟨_, start', text, rfl, rfl, -⟩ | ⟨_, start', text, rfl, rfl, -⟩ | ⟨start', -, rfl⟩ :=
    (LexemeAt.form hopen.1 ht).cases
  · simp only [leaves_leaf, List.cons_append, List.cons.injEq, Leaf.mk.injEq] at heq
    exact absurd (by rw [heq.1.1]) hopen.2
  · simp only [leaves_node, leavesOf_cons, leaves_leaf, leavesOf_nil, List.append_nil,
      List.cons_append, List.nil_append, List.cons.injEq, Leaf.mk.injEq] at heq
    obtain ⟨⟨rfl, rfl, rfl⟩, rfl⟩ := heq
    obtain ⟨d, hsecond, -⟩ := hlays
    have hstands : Stands k s := stands_of_startsGlued hk ht (by
      simp [ParseTree.startsGlued, ParseTree.firstText])
    obtain ⟨leaf, b, hleaf⟩ := exists_of_stands hstands
    obtain ⟨z', hz⟩ := exists_glued word hk hw hleaf ht
    obtain ⟨start', htree⟩ := hz.tree
    simp only [ParseTree.node.injEq, List.cons.injEq, ParseTree.leaf.injEq, String.ofList_inj,
      List.append_cancel_left_eq, and_true, true_and] at htree
    obtain ⟨-, rfl⟩ := htree
    exact ⟨leaf, b, _, c, z, hleaf, ht, hz, _, hl, stands_of_tokenAt hsecond⟩
  · simp at heq

/-- If a simple statement detaches from a keyword, a statement is taken behind the keyword. -/
theorem statement_of_detaches (hk : k.spellings = [.keyword word]) (hw : word ∈ reservedWords)
    (hp : p.isSimple = true) (h : Reads (.phrase p) s ts a) (hc : allClear ts = true)
    (hd : Detaches word (leavesOf ts)) : ∃ leaf b us, tokenAt k s = some (leaf, b) ∧ Glued b ∧
      Takes (.phrase .statementOrNull) b us a := by
  obtain ⟨leaf, b, t, c, z, hleaf, ht, hz, -⟩ := glued_of_detaches hk hw h
    (by rcases isSimple_cases hp with rfl | rfl | rfl <;> rfl)
    (by rcases isSimple_cases hp with rfl | rfl | rfl <;> decide) hd
  obtain ⟨us, hus, hcu⟩ := detach hp hz ht h hc hd
  obtain ⟨vs, rfl, -⟩ :=
    (shape_phrase (by rcases isSimple_cases hp with rfl | rfl | rfl <;> rfl)).1 hus
  obtain ⟨ws, hws, -⟩ := accepts_glued (statement_acceptedAt b) hp hus (by simpa using hcu) hz.glued
  exact ⟨leaf, b, ws, hleaf, hz.glued, hws⟩

/-- A statement item that detaches is a simple statement, and no block, loop or jump is taken in its
place. -/
theorem item_cases (h : Accepts Phrase.statementItem.body s ts a) (hd : Detaches word (leavesOf ts)) :
    ∃ p, p.isSimple = true ∧ Reads (.phrase p) s ts a ∧ allClear ts = true ∧
      Refuses (.phrase .block) s ∧ Refuses (.phrase .loop) s ∧ Refuses (.phrase .jump) s := by
  -- a statement that begins with a keyword does not detach
  have keyword : ∀ {p : Phrase}, Accepts (.phrase p) s ts a → p.danglers = [] →
      (p.openers.all fun f => [Token.keywordBegin, .keywordIf, .keywordForever, .keywordRepeat,
        .keywordWhile, .keywordFor, .keywordDo, .keywordForeach, .keywordReturn, .keywordBreak,
        .keywordContinue].any fun k => f = .token k) = true → False := by
    intro p h hdanglers hopen
    obtain ⟨hreads, -⟩ := h.reads rfl rfl hdanglers
    obtain ⟨f, hf, t, m, rest, ht, hleaves, -⟩ := Reads.begins hreads rfl
    obtain ⟨k, hk, heq⟩ := List.any_eq_true.1 (List.all_eq_true.1 hopen f hf)
    simp only [decide_eq_true_eq] at heq
    subst heq
    obtain ⟨leaf, heq, hleaf⟩ := takes_token.1 ht
    cases heq
    obtain ⟨start, text, rfl⟩ := tokenAt_eq_leaf hleaf
    have htoken := hd.token
    rw [hleaves] at htoken
    simp only [leaves_leaf, List.cons_append, List.head?_cons, Option.map_some,
      Option.some.injEq] at htoken
    subst htoken
    simp at hk
  have simple : ∀ {p : Phrase}, p.isSimple = true → Accepts (.phrase p) s ts a →
      Reads (.phrase p) s ts a ∧ allClear ts = true := fun hp h =>
    h.reads rfl rfl (by rcases isSimple_cases hp with rfl | rfl | rfl <;> rfl)
  simp only [Phrase.body, Pattern.oneOf, accepts_choice] at h
  rcases h with h | ⟨hblock, h | ⟨-, h | ⟨hloop, h | ⟨hjump, h | ⟨-, h | ⟨-, h⟩⟩⟩⟩⟩⟩
  · exact (keyword h rfl (by decide)).elim
  · exact (keyword h rfl (by decide)).elim
  · exact (keyword h rfl (by decide)).elim
  · exact (keyword h rfl (by decide)).elim
  · exact ⟨_, rfl, (simple rfl h).1, (simple rfl h).2, hblock, hloop, hjump⟩
  · exact ⟨_, rfl, (simple rfl h).1, (simple rfl h).2, hblock, hloop, hjump⟩
  · exact ⟨_, rfl, (simple rfl h).1, (simple rfl h).2, hblock, hloop, hjump⟩

theorem refuses_alt (h : Refuses (.alt x y) s) : Refuses x s ∧ Refuses y s := by
  cases h with
  | altSecond hx hy => exact ⟨hx, hy⟩

theorem refuses_body (h : Refuses (.phrase p) s) : Refuses p.body s := by
  cases h with
  | noPhrase h => exact h

/-- No statement item that detaches from `forever` is accepted. -/
theorem not_detaches_forever (h : Accepts Phrase.statementItem.body s ts a) :
    ¬Detaches "forever" (leavesOf ts) := by
  intro hd
  obtain ⟨p, hp, hreads, hc, -, hloop, -⟩ := item_cases h hd
  obtain ⟨leaf, b, us, hleaf, -, hus⟩ := statement_of_detaches (k := .keywordForever) rfl (by decide)
    hp hreads hc hd
  have hbody : Takes Phrase.foreverLoop.body s ([leaf] ++ us) a := .seq (.token hleaf) hus
  exact (refuses_body (refuses_alt (refuses_body hloop)).1).not_takes hbody

/-- A statement item that detaches from `do` is accepted only if the rest of a do-while loop does not
stand behind it. -/
theorem not_detaches_do (h : Accepts Phrase.statementItem.body s ts a) (hend : Matches loopEnd a) :
    ¬Detaches "do" (leavesOf ts) := by
  intro hd
  obtain ⟨vs, d, hend⟩ := hend
  obtain ⟨p, hp, hreads, hc, -, hloop, -⟩ := item_cases h hd
  obtain ⟨leaf, b, us, hleaf, -, hus⟩ := statement_of_detaches (k := .keywordDo) rfl (by decide)
    hp hreads hc hd
  have hbody : Takes Phrase.doWhileLoop.body s ([leaf] ++ (us ++ vs)) d :=
    .seq (.token hleaf) (.seq hus hend)
  obtain ⟨-, hloop⟩ := refuses_alt (refuses_body hloop)
  obtain ⟨-, hloop⟩ := refuses_alt (refuses_alt (refuses_alt hloop).2).2
  exact (refuses_body (refuses_alt hloop).1).not_takes hbody

/-- A statement item that detaches from `begin` is accepted only if the rest of a block does not stand
behind it. -/
theorem not_detaches_begin (h : Accepts Phrase.statementItem.body s ts a)
    (hend : Matches blockEnd a) : ¬Detaches "begin" (leavesOf ts) := by
  intro hd
  obtain ⟨vs, d, hend⟩ := hend
  obtain ⟨p, hp, hreads, hc, hblock, -, -⟩ := item_cases h hd
  obtain ⟨leaf, b, us, hleaf, hg, hus⟩ := statement_of_detaches (k := .keywordBegin) rfl (by decide)
    hp hreads hc hd
  obtain ⟨ws, m, es, rfl, hmany, hlast⟩ := takes_seq.1 hend
  have hlabel : Refuses (.row (.token .colon) [.phrase .identifier]) b :=
    .noFirst (.noToken (tokenAt_of_not_stands (hg.not_stands rfl rfl)))
  obtain ⟨ns, e, hname⟩ : ∃ ns e,
      Takes (.opt (.row (.token .colon) [.phrase .identifier])) d ns e := by
    refine exists_takes_of_not_refuses rfl fun h => ?_
    cases h
  have hbody : Takes Phrase.block.body s
      ([leaf] ++ ([] ++ ((us ++ ws) ++ (es ++ ns)))) e :=
    .seq (.token hleaf) (.seq (.optNone hlabel) (.seq (.manyStep hus hmany) (.seq hlast hname)))
  exact (refuses_body hblock).not_takes hbody

/-- A statement item that detaches from `return` is accepted only as an assignment. -/
theorem assignment_of_detaches (h : Accepts Phrase.statementItem.body s ts a)
    (hd : Detaches "return" (leavesOf ts)) : ∃ us, ts = [.node (.phrase .assignmentStatement) us] := by
  obtain ⟨p, hp, hreads, hc, -, -, hjump⟩ := item_cases h hd
  by_cases hassign : p = .assignmentStatement
  · subst hassign
    obtain ⟨us, rfl, -⟩ := (shape_phrase rfl).1 hreads
    exact ⟨us, rfl⟩
  · exfalso
    have hne : p = .stepStatement ∨ p = .callStatement := (isSimple_cases hp).resolve_left hassign
    obtain ⟨leaf, b, t, c, z, hleaf, ht, hz, -⟩ := glued_of_detaches (k := .keywordReturn) rfl
      (by decide) hreads (by rcases hne with rfl | rfl <;> rfl)
      (by rcases hne with rfl | rfl <;> decide) hd
    obtain ⟨es, e, ms, hes, hce, hms⟩ := returned_of_detaches hne hz ht hreads hc hd
    obtain ⟨f, hf, hm⟩ := Reads.opener hms rfl
    obtain ⟨es', hes'⟩ := (Reads.taken hes (some expressionFollow) (by decide) hce
      (behind_some.2 ⟨.token .semicolon, by decide, by
        cases List.mem_singleton.1 hf
        exact hm⟩)).exists_takes
    obtain ⟨mark, rfl, hmark⟩ := shape_token.1 hms
    have hbody : Takes (.row (.token .keywordReturn) [.opt (.phrase .expression), .token .semicolon])
        s ([leaf] ++ (es' ++ [mark])) a := .seq (.token hleaf) (.seq (.opt hes') hmark)
    exact (refuses_alt (refuses_body hjump)).1.not_takes hbody

/-! ## What stands behind an accepted statement -/

/-- Behind a statement that ends in a conditional without `else` no `else` branch is taken. -/
theorem refuses_elseBranch_of_isOpen (hp : p ≠ .forDeclaration) (h : Accepts (.phrase p) s [t] a)
    (ht : IsOpen t) : Refuses elseBranch a := by
  obtain ⟨us, htail, hlen⟩ := ht
  obtain ⟨q, n, d, hq, hu, rfl⟩ := htail.taken (B := (· = a)) (fun h => by cases h) hp h rfl
  obtain ⟨vs, heq, hbody⟩ := accepts_phrase hq hu
  cases heq
  obtain ⟨i, o, e, c, t, n, m, -, ⟨-, -, hno⟩ | ⟨k, b, u, rfl, -, -⟩⟩ := conditional_cases hbody
  · exact hno
  · cases hlen

/-- Behind a statement that ends in one that detaches from `do`, the rest of a do-while loop does not
match. -/
theorem not_matches_loopEnd (hp : p ≠ .forDeclaration) (h : Accepts (.phrase p) s [t] a)
    (ht : Exposes false "do" t) : ¬Matches loopEnd a := by
  obtain ⟨us, htail, hd⟩ := ht
  obtain ⟨q, n, d, hq, hu, rfl⟩ := htail.taken (B := (· = a)) (fun h => by cases h) hp h rfl
  obtain ⟨vs, heq, hbody⟩ := accepts_phrase hq hu
  cases heq
  exact fun hend => not_detaches_do hbody hend hd

/-- Behind a statement that ends in one that detaches from `begin`, the rest of a block does not
match. -/
theorem not_matches_blockEnd (hp : p ≠ .forDeclaration) (h : Accepts (.phrase p) s [t] a)
    (ht : Exposes true "begin" t) : ¬Matches blockEnd a := by
  intro hend
  obtain ⟨us, htail, hd⟩ := ht
  have hB : ∀ m us a, Accepts (.phrase .statementOrNull) m us a → Matches blockEnd a →
      Matches blockEnd m := by
    rintro m us a ⟨ts, ht, -⟩ ⟨vs, d, hv⟩
    obtain ⟨ws, n, es, rfl, hmany, hlast⟩ := takes_seq.1 hv
    exact ⟨_, _, Derives.seq (.manyStep ht hmany) hlast⟩
  obtain ⟨q, n, d, hq, hu, hmatch⟩ := htail.taken (B := Matches blockEnd) (fun _ => hB) hp h hend
  obtain ⟨vs, heq, hbody⟩ := accepts_phrase hq hu
  cases heq
  exact not_detaches_begin hbody hmatch hd

/-- A repetition ends where the pattern is refused. -/
theorem refuses_of_many (h : Takes (.many x) s ts a) : Refuses x a := by
  generalize hx : Pattern.many x = y at h
  induction h using Takes.induct with
  | manyStop h =>
    cases hx
    exact h
  | manyStep _ _ _ ih =>
    cases hx
    exact ih rfl
  | _ => cases hx

/-- Behind the `end` of a statement that ends in a block, no dollar sign comes next if a statement is
read there. -/
theorem not_glued_of_endsInBlock (hp : p ≠ .forDeclaration) (h : Accepts (.phrase p) s [t] a)
    (ht : EndsInBlock t) (hu : Reads (.phrase .statementOrNull) a us b) (hc : allClear us = true) :
    ¬Glued a := by
  intro hg
  obtain ⟨vs, start, text, htail⟩ := ht
  obtain ⟨q, n, d, hq, hblock, rfl⟩ := htail.taken (B := (· = a)) (fun h => by cases h) hp h rfl
  obtain ⟨ws, heq, hbody⟩ := accepts_phrase hq hblock
  cases heq
  obtain ⟨_, _, _, heq₁, hbegin, h₁⟩ := accepts_seq.1 hbody
  obtain ⟨_, _, _, rfl, hlabel, h₂⟩ := accepts_seq.1 h₁
  obtain ⟨_, m, _, rfl, hmany, h₃⟩ := accepts_seq.1 h₂
  obtain ⟨_, e, _, rfl, hend, hname⟩ := accepts_seq.1 h₃
  obtain ⟨k, rfl, hk⟩ := accepts_token hend
  rcases accepts_opt.1 hname with hname | ⟨-, rfl, rfl⟩
  · -- a name behind `end` is the last child of the block
    obtain ⟨_, _, _, rfl, hcolon, hid⟩ := accepts_seq.1 hname
    obtain ⟨is, rfl, -⟩ := accepts_phrase (by simp) hid
    simp only [← List.append_assoc] at heq₁
    have := (List.append_inj' heq₁ rfl).2
    simp at this
  · obtain ⟨ms, hmany, -⟩ := hmany
    obtain ⟨-, -, -, -, v, -, -, -, -, -, -, vs, htaken, -⟩ := accepts_attached (k := .keywordEnd)
      "end" rfl (by simp) (statement_acceptedAt m) hk hg hu hc
    exact (refuses_of_many hmany).not_takes htaken

/-! ## Neighbours in a block -/

/-- A node is read as the phrase whose name it has. -/
theorem reads_node (hp : (Pattern.phrase p).isLexeme = false)
    (h : Reads (.phrase p) s [.node (.phrase q) us] a) : p = q ∧ Reads p.body s us a := by
  obtain ⟨vs, heq, hvs⟩ := (shape_phrase hp).1 h
  simp only [List.cons.injEq, ParseTree.node.injEq, Label.phrase.injEq, and_true] at heq
  obtain ⟨rfl, rfl⟩ := heq
  exact ⟨rfl, hvs⟩

/-- What is read in the place of a statement is read as a statement item. -/
theorem item_of_asStatement
    (h : Reads (.phrase .statementOrNull) m [asStatement (.node (.phrase p) us)] a) :
    Reads Phrase.statementItem.body m [.node (.phrase p) us] a := by
  obtain ⟨-, h⟩ := reads_node rfl h
  rcases shape_alt.1 h with h | h
  · obtain ⟨ls, n, _, heq, hlabel, hrest⟩ := shape_seq.1 (reads_node rfl h).2
    obtain ⟨as, d, is, rfl, hattrs, hitem⟩ := shape_seq.1 hrest
    obtain ⟨vs, rfl, hvs⟩ := (shape_phrase rfl).1 hitem
    rw [← List.append_assoc] at heq
    obtain ⟨hnil, hsame⟩ := List.append_inj' (show [] ++ _ = _ from heq) rfl
    cases hsame
    obtain ⟨rfl, rfl⟩ := List.append_eq_nil_iff.1 hnil.symm
    cases Reads.eq_of_nil hlabel
    cases Reads.eq_of_nil hattrs
    exact hvs
  · cases (reads_node rfl h).1

/-- A null statement without attributes is a semicolon. -/
theorem semicolon_of_nullStatement
    (h : Reads (.phrase .statementOrNull) m
      [.node (.phrase .statementOrNull) [.node (.phrase .nullStatement) [t]]] a) :
    Reads (.token .semicolon) m [t] a := by
  obtain ⟨-, h⟩ := reads_node rfl h
  rcases shape_alt.1 h with h | h
  · cases (reads_node rfl h).1
  · obtain ⟨as, n, ls, heq, hattrs, hmark⟩ := shape_seq.1 (reads_node rfl h).2
    obtain ⟨l, rfl, hl⟩ := shape_token.1 hmark
    obtain ⟨hnil, hsame⟩ := List.append_inj' (show [] ++ [t] = as ++ [l] from heq) rfl
    cases hsame
    subst hnil
    cases Reads.eq_of_nil hattrs
    exact hmark

/-- A while loop whose body is a semicolon is read as the rest of a do-while loop. -/
theorem loopEnd_of_bareWhile {w o e c l : ParseTree}
    (h : Reads (.phrase .statementOrNull) m [bareWhile w o e c l] a) :
    Reads loopEnd m [w, o, e, c, l] a := by
  have hitem := item_of_asStatement h
  simp only [Phrase.body, Pattern.oneOf, shape_alt] at hitem
  rcases hitem with h | h | h | h | h | h | h <;> obtain ⟨heq, hloop⟩ := reads_node rfl h <;>
    first | cases heq; done | skip
  simp only [Phrase.body, Pattern.oneOf, shape_alt] at hloop
  rcases hloop with h | h | h | h | h | h <;> obtain ⟨heq, hwhile⟩ := reads_node rfl h <;>
    first | cases heq; done | skip
  obtain ⟨_, _, _, heq, hw, h₁⟩ := shape_seq.1 hwhile
  obtain ⟨_, _, _, rfl, ho, h₂⟩ := shape_seq.1 h₁
  obtain ⟨_, _, _, rfl, he, h₃⟩ := shape_seq.1 h₂
  obtain ⟨_, _, _, rfl, hc, hbody⟩ := shape_seq.1 h₃
  obtain ⟨w', rfl, -⟩ := shape_token.1 hw
  obtain ⟨o', rfl, -⟩ := shape_token.1 ho
  obtain ⟨es, rfl, -⟩ := (shape_phrase rfl).1 he
  obtain ⟨c', rfl, -⟩ := shape_token.1 hc
  obtain ⟨bs, rfl, -⟩ := (shape_phrase rfl).1 hbody
  simp only [List.cons_append, List.nil_append, List.cons.injEq, and_true] at heq
  obtain ⟨rfl, rfl, rfl, rfl, hb⟩ := heq
  rw [← hb] at hbody
  exact .seq hw (.seq ho (.seq he (.seq hc (semicolon_of_nullStatement hbody))))

/-- Of two statements in a row the first does not take up the second. -/
theorem precedes_of_accepts (ht : Accepts (.phrase .statementOrNull) s [t] m)
    (hu : Accepts (.phrase .statementOrNull) m [u] a) : Precedes t u where
  branch := fun hopen hd => by
    obtain ⟨hreads, hc⟩ := hu.reads rfl rfl rfl
    have hno := refuses_elseBranch_of_isOpen (by simp) ht hopen
    obtain ⟨leaf, b, x, c, z, hleaf, hx, -, l, hl, hstands⟩ := glued_of_detaches
      (k := .keywordElse) rfl (by decide) hreads rfl (by decide) (by simpa using hd)
    have hcolon : ¬Stands .colon c := by
      have hall : ([Token.scope, .period, .openParen, .semicolon].all fun k =>
        k.excludes .colon) = true := by decide
      exact not_stands_of_excludes
        (List.all_eq_true.1 hall _ (mem_of_mem_dollarFollow hl)) hstands
    obtain ⟨p, us, hp, hsimple, heq⟩ := simple_of_identifier (Or.inl rfl) (stands_of_tokenAt hleaf)
      hx hcolon hreads
    cases heq
    obtain ⟨leaf, b, ws, hleaf, -, hws⟩ := statement_of_detaches (k := .keywordElse) rfl (by decide)
      hp hsimple (by simp_all [asStatement]) (by simpa [asStatement] using hd)
    exact hno.not_takes (.seq (.token hleaf) hws)
  body := fun hexp w o e c l heq => by
    subst heq
    obtain ⟨hreads, hc⟩ := hu.reads rfl rfl rfl
    have hend := loopEnd_of_bareWhile hreads
    have hcl : allClear [w, o, e, c, l] = true := by simp_all [bareWhile, asStatement]
    obtain ⟨ws, hws⟩ := (Reads.taken hend none (by decide) hcl (behind_none _)).exists_takes
    exact not_matches_loopEnd (by simp) ht hexp ⟨ws, _, hws⟩
  close := fun hend hadj => by
    obtain ⟨hreads, hc⟩ := hu.reads rfl rfl rfl
    obtain ⟨hreadt, -⟩ := ht.reads rfl rfl rfl
    exact not_glued_of_endsInBlock (by simp) ht hend hreads hc
      (glued_of_adjoins hadj (Reads.stop hreadt (by simp) :) hreads)

/-- The tree takes up nothing that stands behind it and becomes part of nothing. -/
structure Inert (t : ParseTree) : Prop where
  precedes : ∀ u, Precedes t u
  hidden : ¬Exposes true "begin" t

theorem inert_of_tail (ht : ∀ further u, Tail further t u → u = t)
    (hp : ∀ p ∈ [Phrase.conditional, .statementItem, .block], ∀ us, t ≠ .node (.phrase p) us) :
    Inert t where
  precedes u := {
    branch := fun ⟨us, h, _⟩ => absurd (ht _ _ h).symm (hp _ (by simp) us)
    body := fun ⟨us, h, _⟩ => absurd (ht _ _ h).symm (hp _ (by simp) us)
    close := fun ⟨us, start, text, h⟩ => absurd (ht _ _ h).symm (hp _ (by simp) _) }
  hidden := fun ⟨us, h, _⟩ => absurd (ht _ _ h).symm (hp _ (by simp) us)

theorem inert_token (h : LexemeAt (.token k) s t a) : Inert t := by
  obtain ⟨leaf, heq, hleaf⟩ := takes_token.1 h
  cases heq
  obtain ⟨start, text, rfl⟩ := tokenAt_eq_leaf hleaf
  refine inert_of_tail (fun further u h => ?_) (by simp)
  generalize hx : ParseTree.leaf k start text = x at h
  cases h with
  | here => rfl
  | last => cases hx
  | body => cases hx
  | branch => cases hx

/-- A name at the beginning or the end of a block is inert. -/
theorem inert_label (h : Accepts (.opt (.row (.token .colon) [.phrase .identifier])) s ts a) :
    ∀ t ∈ ts, Inert t := by
  rcases accepts_opt.1 h with h | ⟨-, rfl, -⟩
  · obtain ⟨_, m, _, rfl, hcolon, hname⟩ := accepts_seq.1 h
    obtain ⟨c, rfl, hc⟩ := accepts_token hcolon
    obtain ⟨us, rfl, -⟩ := accepts_phrase (by simp) hname
    simp only [List.cons_append, List.nil_append, List.mem_cons, List.not_mem_nil, or_false]
    rintro t (rfl | rfl)
    · exact inert_token hc
    · refine inert_of_tail (fun _ _ h => tail_of_not_trailing rfl (by simp) h) fun p hp us heq => ?_
      cases heq
      revert hp
      decide
  · simp

/-- Inert trees in front of a chain. -/
theorem chain_of_inert (h : ∀ t ∈ ts, Inert t) (hus : us.IsChain Precedes) :
    (ts ++ us).IsChain Precedes := by
  induction ts with
  | nil => exact hus
  | cons t ts ih =>
    rw [List.cons_append, List.isChain_cons]
    exact ⟨fun u _ => (h t (by simp)).precedes u, ih fun t ht => h t (by simp [ht])⟩

/-- No statement takes up the `end` behind it. -/
theorem precedes_end (h : LexemeAt (.token .keywordEnd) s u a) : Precedes t u := by
  obtain ⟨leaf, heq, hleaf⟩ := takes_token.1 h
  cases heq
  obtain ⟨text, -, hlen, rfl, -⟩ := tokenAt_iff.1 hleaf
  refine ⟨fun _ hd => ?_, fun _ w o e c l heq => ?_, fun _ hadj => ?_⟩
  · have := hd.token
    simp at this
  · simp [bareWhile, asStatement] at heq
  · rw [Token.length?_of_isSpelled rfl] at hlen
    obtain ⟨sp, hsp, hfits, hlength⟩ := firstFit_eq_some hlen
    cases List.mem_singleton.1 hsp
    obtain ⟨rest, heq, -⟩ := Spelling.fits_iff.1 hfits
    have htext := (List.append_inj heq hlength.symm).1
    have hhead := hadj.2
    rw [ParseTree.firstText, String.toList_ofList, htext] at hhead
    cases hhead

/-- Statements that are taken in front of `end` do not take up each other, and none of them becomes
part of a block behind it. -/
theorem chain_of_accepts (h : Accepts (.many (.phrase .statementOrNull)) s ts m)
    (hend : LexemeAt (.token .keywordEnd) m t a) :
    (ts ++ [t]).IsChain Precedes ∧ ∀ u ∈ ts, ¬Exposes true "begin" u := by
  obtain ⟨us, h, rfl⟩ := h
  generalize hx : Pattern.many (.phrase .statementOrNull) = x at h
  induction h using Takes.induct with
  | manyStop => simp [tidyAll]
  | @manyStep y s ts n us' m hfirst hmore _ ih =>
    cases hx
    obtain ⟨vs, rfl, -⟩ := takes_phrase.1 hfirst
    obtain ⟨hchain, hall⟩ := ih hend rfl
    have haccepts : Accepts (.phrase .statementOrNull) s [(ParseTree.node (.phrase .statementOrNull) vs).tidy] n :=
      ⟨_, hfirst, rfl⟩
    have hmatch : Matches blockEnd n := ⟨_, a, .seq hmore hend⟩
    have hno := not_matches_blockEnd (by simp) haccepts
    simp only [tidyAll, List.cons_append, List.nil_append, List.mem_cons]
    refine ⟨List.isChain_cons.2 ⟨fun u hu => ?_, hchain⟩, ?_⟩
    · cases hmore with
      | manyStop =>
        cases hu
        exact precedes_end hend
      | manyStep hnext _ =>
        obtain ⟨ws, rfl, -⟩ := takes_phrase.1 hnext
        cases hu
        exact precedes_of_accepts haccepts ⟨_, hnext, rfl⟩
    · rintro u (rfl | hu)
      · exact fun hexp => hno hexp hmatch
      · exact hall u hu
  | _ => cases hx

/-! ## What is taken is ordered -/

theorem orders_of_accepts (hp : p ≠ .forDeclaration) (h : Accepts p.body s ts a) :
    (Label.phrase p).Orders ts := by
  cases p
  case statementItem => exact ⟨not_detaches_forever h, assignment_of_detaches h⟩
  case conditional =>
    intro i o e c t k u heq hopen
    obtain ⟨i', o', e', c', t', n, m, ht, ⟨rfl, -⟩ | ⟨k', b, u', rfl, hk, hu⟩⟩ :=
      conditional_cases h
    · simp at heq
    · simp only [List.cons.injEq, and_true] at heq
      obtain ⟨rfl, rfl, rfl, rfl, rfl, rfl, rfl⟩ := heq
      obtain ⟨ws, hu, -⟩ := hu
      -- a branch that is open would have taken the `else`
      exact (refuses_elseBranch_of_isOpen (by simp) ht hopen).not_takes (.seq hk hu)
  case doWhileLoop =>
    intro d t rest heq hexp
    obtain ⟨_, b, _, rfl, hd, hrest⟩ := accepts_seq.1 h
    obtain ⟨_, m, _, rfl, ht, hend⟩ := accepts_seq.1 hrest
    obtain ⟨d', rfl, -⟩ := accepts_token hd
    obtain ⟨us, rfl, -⟩ := accepts_phrase (by simp) ht
    simp only [List.cons_append, List.nil_append, List.cons.injEq] at heq
    obtain ⟨rfl, rfl, rfl⟩ := heq
    obtain ⟨ws, hend, -⟩ := hend
    -- the body would have taken the rest of the loop as a `while` loop of its own
    exact not_matches_loopEnd (by simp) ht hexp ⟨ws, a, hend⟩
  case block =>
    obtain ⟨_, b, _, rfl, hbegin, h₁⟩ := accepts_seq.1 h
    obtain ⟨ls, m, _, rfl, hlabel, h₂⟩ := accepts_seq.1 h₁
    obtain ⟨us, n, _, rfl, hmany, h₃⟩ := accepts_seq.1 h₂
    obtain ⟨_, e, ns, rfl, hend, hname⟩ := accepts_seq.1 h₃
    obtain ⟨b', rfl, hb⟩ := accepts_token hbegin
    obtain ⟨e', rfl, he⟩ := accepts_token hend
    obtain ⟨hchain, hall⟩ := chain_of_accepts hmany he
    -- nothing in front of the statements, nor behind them, can detach
    have hfront : ∀ t ∈ [b'] ++ ls, Inert t := by
      simp only [List.cons_append, List.nil_append, List.mem_cons]
      rintro t (rfl | ht)
      · exact inert_token hb
      · exact inert_label hlabel t ht
    have hnames : ns.IsChain Precedes := by
      simpa using chain_of_inert (inert_label hname) List.IsChain.nil
    refine ⟨fun t ht => ?_, ?_⟩
    · simp only [List.mem_append, List.mem_singleton] at ht
      rcases ht with rfl | ht | ht | rfl | ht
      · exact (inert_token hb).hidden
      · exact (inert_label hlabel t ht).hidden
      · exact hall t ht
      · exact (inert_token he).hidden
      · exact (inert_label hname t ht).hidden
    · have hback : ((us ++ [e']) ++ ns).IsChain Precedes := by
        refine List.isChain_append.2 ⟨hchain, hnames, fun t ht u _ => ?_⟩
        rw [List.getLast?_concat] at ht
        cases ht
        exact (inert_token he).precedes u
      simpa using chain_of_inert hfront hback
  all_goals trivial

/-- What is taken is ordered. -/
theorem ordered_of_takes (h : Takes x s ts a) : ∀ t ∈ tidyAll ts, Ordered t := by
  induction h using Takes.induct with
  | token h =>
    obtain ⟨start, text, rfl⟩ := tokenAt_eq_leaf h
    simp [tidyAll, ParseTree.tidy, Ordered.leaf]
  | @phrase p s ts a h ih =>
    have hs := ih
    simp only [tidyAll, ParseTree.tidy, List.mem_singleton, forall_eq]
    by_cases hp : p = .forDeclaration
    · subst hp
      exact .node trivial fun t ht => hs t (mem_of_mem_withoutLastComma ht)
    · rw [tidied_of_ne hp]
      exact .node (orders_of_accepts hp ⟨ts, h, rfl⟩) hs
  | seq _ _ ihx ihy | manyStep _ _ ihx ihy =>
    simp only [tidyAll_append, List.mem_append]
    rintro t (ht | ht)
    · exact ihx t ht
    · exact ihy t ht
  | altFirst _ ih | altSecond _ _ ih | opt _ ih => exact ih
  | optNone | manyStop | tailStop | absent => simp [tidyAll]
  | tailDangling h =>
    obtain ⟨start, text, rfl⟩ := tokenAt_eq_leaf h
    simp [tidyAll, ParseTree.tidy, Ordered.leaf]
  | tailStep h _ _ ihx ihr =>
    obtain ⟨start, text, rfl⟩ := tokenAt_eq_leaf h
    simp only [tidyAll_append, tidyAll, ParseTree.tidy, List.cons_append, List.mem_cons, List.mem_append]
    rintro t (rfl | ht | ht)
    · exact .leaf
    · exact ihx t ht
    · exact ihr t ht

end VerilogLoops.Grammar
