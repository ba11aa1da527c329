import VerilogLoops.Proofs.Statement.Exchange

/-!
# Simple statements glued to a keyword

An assignment, an increment or a call may begin with an identifier that goes on behind a keyword. If
the text behind the keyword is a statement of its own, the simple statement *detaches* from the
keyword. Whether it does is told by its first two tokens.

> `attach`, `detach`: the simple statements behind the keyword are the ones that detach from it.
-/

namespace VerilogLoops.Grammar

open VerilogLoops.Text VerilogLoops.Lexical

variable {word : String} {p : Phrase} {s b c a m n : Place} {t : ParseTree} {z : List Char}
  {ts us vs qs ns : List ParseTree}

/-- The statements that are neither compound nor jumps. -/
def Phrase.isSimple : Phrase → Bool
  | .assignmentStatement | .stepStatement | .callStatement => true
  | _ => false

theorem isSimple_cases (hp : p.isSimple = true) :
    p = .assignmentStatement ∨ p = .stepStatement ∨ p = .callStatement := by
  cases p <;> simp_all [Phrase.isSimple]

/-! ## Simple statements are read in one way -/

/-- Where a simple statement is read, no other kind of simple statement is taken. -/
theorem takes_simple (hp : p.isSimple = true) (h : Reads (.phrase p) s ts a)
    (hc : allClear ts = true) :
    Accepts (.oneOf (.phrase .assignmentStatement)
      [.phrase .stepStatement, .phrase .callStatement]) s ts a := by
  have taken : Accepts (.phrase p) s ts a := by
    refine h.taken none ?_ hc (by simp)
    rcases isSimple_cases hp with rfl | rfl | rfl <;> decide
  have hr := ready Phrase.stepExpression.rank s
  rcases isSimple_cases hp with rfl | rfl | rfl
  · exact taken.first
  · obtain ⟨us, rfl, hus⟩ := (shape_phrase rfl).1 h
    obtain ⟨es, b, ms, rfl, he, -⟩ := shape_seq.1 hus
    simp only [allClear_cons, isClear_node, allClear_append, allClear_nil, Bool.and_eq_true] at hc
    exact .second (.noPhrase (.noFirst (refuses_assignment_of_step hr he hc.1.2.1))) taken.first
  · obtain ⟨us, rfl, hus⟩ := (shape_phrase rfl).1 h
    obtain ⟨es, b, ms, rfl, he, hend⟩ := shape_seq.1 hus
    simp only [allClear_cons, isClear_node, allClear_append, allClear_nil, Bool.and_eq_true] at hc
    obtain ⟨f, hf, hm⟩ := Reads.opener hend rfl
    cases List.mem_singleton.1 hf
    obtain ⟨hassign, hstep⟩ := refuses_of_call hr he hc.1.2.1 (behind_some.2 ⟨_, by decide, hm⟩)
    exact .second (.noPhrase (.noFirst hassign)) (.second (.noPhrase (.noFirst hstep)) taken)

/-- What a pattern accepts at a place is unique. -/
theorem Accepts.unique {x : Pattern} (h : Accepts x s ts a) (h' : Accepts x s us b) :
    ts = us ∧ a = b := by
  obtain ⟨ts', ht, rfl⟩ := h
  obtain ⟨us', hu, rfl⟩ := h'
  obtain ⟨rfl, rfl⟩ := ht.unique hu
  exact ⟨rfl, rfl⟩

/-- There is at most one simple statement at a place. -/
theorem simple_unique {q : Phrase} (hp : p.isSimple = true) (hq : q.isSimple = true)
    (h : Reads (.phrase p) s ts a) (h' : Reads (.phrase q) s us b) (hc : allClear ts = true)
    (hc' : allClear us = true) : ts = us ∧ a = b :=
  (takes_simple hp h hc).unique (takes_simple hq h' hc')

/-! ## The name in front -/

/-- What stands behind the name with which a simple statement begins. -/
def Phrase.nameTail : Phrase → Pattern
  | .assignmentStatement =>
    .row (.many (.phrase .select))
      [.token .assignmentOperator, .phrase .expression, .token .semicolon]
  | .stepStatement =>
    .row (.many (.phrase .select)) [.token .stepOperator, .token .semicolon]
  | _ =>
    .row (.opt (.row (.token .openParen) [.opt (.phrase .arguments), .token .closeParen]))
      [.token .semicolon]

/-- The tokens that may follow the name with which a simple statement begins. -/
def Phrase.nameEnds : Phrase → List Token
  | .assignmentStatement => [.openBracket, .assignmentOperator]
  | .stepStatement => [.openBracket, .stepOperator]
  | _ => [.openParen, .semicolon]

theorem nameTail_openers (hp : p.isSimple = true) : p.nameTail.nullable = false ∧
    ∀ f ∈ p.nameTail.openers, ∃ k ∈ p.nameEnds, f = .token k := by
  rcases isSimple_cases hp with rfl | rfl | rfl <;>
    exact ⟨rfl, by decide⟩

/-- An lvalue that begins as a name does is a name with selects. -/
theorem lvalue_name (h : Reads (.phrase .lvalue) s ts a) (hs : Behind (some nameOpeners) s) :
    ∃ qs m ns n ss, Reads (.opt (.phrase .qualifier)) s qs m ∧
      Reads (.phrase .hierarchicalName) m ns n ∧ Reads (.many (.phrase .select)) n ss a ∧
        leavesOf ts = leavesOf qs ++ (leavesOf ns ++ leavesOf ss) := by
  obtain ⟨us, rfl, hus⟩ := (shape_phrase rfl).1 h
  rcases shape_alt.1 hus with hus | hus
  · exact absurd hus (not_reads_of_apart rfl (by decide) hs)
  · obtain ⟨vs, rfl, hvs⟩ := (shape_phrase rfl).1 hus
    obtain ⟨qs, m, _, rfl, hq, hrest⟩ := shape_seq.1 hvs
    obtain ⟨ns, n, ss, rfl, hn, hsel⟩ := shape_seq.1 hrest
    exact ⟨qs, m, ns, n, ss, hq, hn, hsel, by simp⟩

/-- A simple statement that begins as a name does is a name with something behind it. -/
theorem simple_name (hp : p.isSimple = true) (h : Reads (.phrase p) s ts a)
    (hs : Behind (some nameOpeners) s) :
    ∃ qs m ns n rs, Reads (.opt (.phrase .qualifier)) s qs m ∧
      Reads (.phrase .hierarchicalName) m ns n ∧ Reads p.nameTail n rs a ∧
        leavesOf ts = leavesOf qs ++ (leavesOf ns ++ leavesOf rs) := by
  rcases isSimple_cases hp with rfl | rfl | rfl
  all_goals
    obtain ⟨us, rfl, hus⟩ := (shape_phrase rfl).1 h
    obtain ⟨es, e, ms, rfl, he, hend⟩ := shape_seq.1 hus
    obtain ⟨vs, rfl, hvs⟩ := (shape_phrase rfl).1 he
  · obtain ⟨ls, d, rs, rfl, hl, hright⟩ := shape_seq.1 hvs
    obtain ⟨os, g, xs, rfl, hop, hx⟩ := shape_seq.1 hright
    obtain ⟨qs, m, ns, n, ss, hq, hn, hsel, hleaves⟩ := lvalue_name hl hs
    exact ⟨qs, m, ns, n, _, hq, hn, .seq hsel (.seq hop (.seq hx hend)), by simp [hleaves]⟩
  · rcases shape_alt.1 hvs with hvs | hvs
    · exact absurd hvs (not_reads_of_apart rfl (by decide) hs)
    · obtain ⟨ls, d, os, rfl, hl, hop⟩ := shape_seq.1 hvs
      obtain ⟨qs, m, ns, n, ss, hq, hn, hsel, hleaves⟩ := lvalue_name hl hs
      exact ⟨qs, m, ns, n, _, hq, hn, .seq hsel (.seq hop hend), by simp [hleaves]⟩
  · rcases shape_alt.1 hvs with hvs | hvs
    · exact absurd hvs (not_reads_of_apart rfl (by decide) hs)
    · obtain ⟨ws, rfl, hws⟩ := (shape_phrase rfl).1 hvs
      obtain ⟨xs, n, as, rfl, hname, hargs⟩ := shape_seq.1 hws
      obtain ⟨ys, rfl, hys⟩ := (shape_phrase rfl).1 hname
      obtain ⟨qs, m, ns, rfl, hq, hn⟩ := shape_seq.1 hys
      exact ⟨qs, m, ns, n, _, hq, hn, .seq hargs hend, by simp⟩

/-- The second leaf of a simple statement that begins with an identifier. -/
theorem second_leaf (hp : p.isSimple = true) (h : Reads (.phrase p) s ts a)
    (ht : LexemeAt (.phrase .identifier) s t c) :
    ∃ (l : Leaf) (rest : List Leaf), leavesOf ts = t.leaves ++ l :: rest ∧ Stands l.token c ∧
      l.token ∈ .scope :: .period :: p.nameEnds := by
  obtain ⟨qs, m, ns, n, rs, hq, hn, hr, hleaves⟩ :=
    simple_name hp h (behind_some.2 ⟨_, by decide, _, _, ht⟩)
  have ofMark : ∀ {k : Token} {mark : ParseTree} {d : Place}, LexemeAt (.token k) c mark d →
      ∃ l, mark.leaves = [l] ∧ l.token = k ∧ Stands l.token c := by
    intro k mark d hmark
    obtain ⟨leaf, heq, hleaf⟩ := takes_token.1 hmark
    cases heq
    obtain ⟨start, text, rfl⟩ := tokenAt_eq_leaf hleaf
    exact ⟨_, rfl, rfl, stands_of_tokenAt hleaf⟩
  rcases name_cases (Or.inl rfl) ht hq hn with ⟨-, mark, rfl, hmark⟩ |
    ⟨-, rfl, mark, d, rest, rfl, hmark, -⟩ | ⟨-, rfl, rfl, rfl⟩
  · obtain ⟨l, hl, hk, hstands⟩ := ofMark hmark
    exact ⟨l, leavesOf ns ++ leavesOf rs, by simp [hleaves, scopeTrees, hl], hstands, by simp [hk]⟩
  · obtain ⟨l, hl, hk, hstands⟩ := ofMark hmark
    exact ⟨l, leavesOf rest ++ leavesOf rs, by simp [hleaves, hl], hstands, by simp [hk]⟩
  · obtain ⟨hnull, hopen⟩ := nameTail_openers hp
    obtain ⟨f, hf, mark, d, rest, hmark, hrest, -⟩ := Reads.begins hr hnull
    obtain ⟨k, hk, rfl⟩ := hopen f hf
    obtain ⟨l, hl, rfl, hstands⟩ := ofMark hmark
    exact ⟨l, rest, by simp [hleaves, hrest, hl], hstands, by simp [hk]⟩

/-- No label is read where a simple statement is. -/
theorem not_stands_colon (hp : p.isSimple = true) (h : Reads (.phrase p) s ts a)
    (ht : LexemeAt (.phrase .identifier) s t c) : ¬Stands .colon c := by
  obtain ⟨l, rest, -, hstands, hl⟩ := second_leaf hp h ht
  have hall : ((Token.scope :: .period :: p.nameEnds).all fun k => k.excludes .colon) = true := by
    rcases isSimple_cases hp with rfl | rfl | rfl <;> decide
  exact not_stands_of_excludes (List.all_eq_true.1 hall _ hl) hstands

/-! ## Attaching and detaching -/

/-- The tokens that may follow the rest of an identifier behind a keyword, so that a statement begins
there. -/
def dollarFollow (z : List Char) : List Token :=
  if z = "unit".toList then [.scope]
  else if z = "root".toList then [.period]
  else if z = [] then [] else [.openParen, .semicolon]

theorem mem_of_mem_dollarFollow {k : Token} (hk : k ∈ dollarFollow z) :
    k ∈ [Token.scope, .period, .openParen, .semicolon] := by
  unfold dollarFollow at hk
  split at hk
  · simp_all
  · split at hk
    · simp_all
    · split at hk
      · cases hk
      · rcases List.mem_cons.1 hk with rfl | hk
        · simp
        · simp [List.mem_singleton.1 hk]

/-- The leaves begin with an identifier that goes on behind the keyword, and the rest of them are the
leaves of a statement. -/
def Detaches (word : String) (ls : List Leaf) : Prop :=
  ∃ z start l rest, ls = ⟨.identifier, start, String.ofList (word.toList ++ '$' :: z)⟩ :: l :: rest ∧
    l.token ∈ dollarFollow z

/-- A simple statement detaches if the token behind the identifier says so. -/
theorem detaches_of_stands (hp : p.isSimple = true) (h : Reads (.phrase p) s ts a)
    (hz : GluedAt word s b c t z) (ht : LexemeAt (.phrase .identifier) s t c) {k : Token}
    (hk : k ∈ dollarFollow z) (hstands : Stands k c) : Detaches word (leavesOf ts) := by
  obtain ⟨l, rest, hleaves, hl, hmem⟩ := second_leaf hp h ht
  obtain ⟨start, rfl⟩ := hz.tree
  suffices hlk : l.token = k from ⟨z, start, l, rest, by simpa using hleaves, hlk ▸ hk⟩
  have hdollar := mem_of_mem_dollarFollow hk
  have key : ∀ q : Phrase, q.isSimple = true →
      ((Token.scope :: .period :: q.nameEnds).all fun u =>
        [Token.scope, .period, .openParen, .semicolon].all fun k => u = k || u.excludes k) = true := by
    intro q hq
    rcases isSimple_cases hq with rfl | rfl | rfl <;> decide
  have := List.all_eq_true.1 (List.all_eq_true.1 (key p hp) _ hmem) k hdollar
  simp only [Bool.or_eq_true, decide_eq_true_eq] at this
  rcases this with heq | hex
  · exact heq
  · exact absurd hstands (not_stands_of_excludes hex hl)

/-- A simple statement is read with the other first token. -/
theorem Exchanges.simple (hx : Exchanges s b) (hp : p.isSimple = true)
    (h : Reads (.phrase p) s ts a) (hc : allClear ts = true) :
    ∃ us, Reads (.phrase p) b us a ∧ allClear us = true := by
  rcases isSimple_cases hp with rfl | rfl | rfl
  all_goals
    obtain ⟨us, rfl, hus⟩ := (shape_phrase rfl).1 h
    obtain ⟨es, e, ms, rfl, he, hend⟩ := shape_seq.1 hus
    simp only [allClear_cons, isClear_node, allClear_append, allClear_nil, Bool.and_eq_true] at hc
  · obtain ⟨vs, hvs, hcv⟩ := hx.operatorAssignment he hc.1.2.1
    exact ⟨_, .phrase rfl (.seq hvs hend), by simp [admits_of_ne, hcv, hc.1.2.2]⟩
  · obtain ⟨vs, hvs, hcv⟩ := hx.stepExpression he hc.1.2.1
    exact ⟨_, .phrase rfl (.seq hvs hend), by simp [admits_of_ne, hcv, hc.1.2.2]⟩
  · obtain ⟨vs, rfl, hvs⟩ := (shape_phrase rfl).1 he
    simp only [allClear_cons, isClear_node, allClear_nil, Bool.and_true, Bool.and_eq_true] at hc
    obtain ⟨f, hf, hm⟩ := Reads.opener hend rfl
    cases List.mem_singleton.1 hf
    rcases shape_alt.1 hvs with hvs | hvs
    · exact absurd hvs (hx.not_reads rfl (by decide))
    · obtain ⟨ws, hws, hcw⟩ := hx.routineCall hvs hc.1.2.1.2 (behind_some.2 ⟨_, by decide, hm⟩)
      exact ⟨_, .phrase rfl (.seq (.phrase rfl (.second hws)) hend),
        by simp [admits_of_ne, hcw, hc.1.2.2]⟩

/-- Of the simple statements, only calls begin with the name of a system task. -/
theorem systemCall_cases (hp : p.isSimple = true) (h : Reads (.phrase p) b us a)
    (hs : Stands .systemName b) : ∃ ns d as e ms, p = .callStatement ∧
      us = [.node (.phrase .callStatement)
        ([ParseTree.node (.phrase .call) [.node (.phrase .systemCall) (ns ++ as)]] ++ ms)] ∧
      Reads (.token .systemName) b ns d ∧
      Reads (.opt (.row (.token .openParen) [.opt (.phrase .arguments), .token .closeParen])) d as e ∧
      Reads (.token .semicolon) e ms a := by
  have hm : Matches (.token .systemName) b := matches_token.2 hs
  rcases isSimple_cases hp with rfl | rfl | rfl
  · exact absurd h (not_reads_of_matches rfl (by decide) hm)
  · exact absurd h (not_reads_of_matches rfl (by decide) hm)
  · obtain ⟨us, rfl, hus⟩ := (shape_phrase rfl).1 h
    obtain ⟨es, e, ms, rfl, he, hend⟩ := shape_seq.1 hus
    obtain ⟨vs, rfl, hvs⟩ := (shape_phrase rfl).1 he
    rcases shape_alt.1 hvs with hvs | hvs
    · obtain ⟨ws, rfl, hws⟩ := (shape_phrase rfl).1 hvs
      obtain ⟨ns, d, as, rfl, hname, hargs⟩ := shape_seq.1 hws
      exact ⟨ns, d, as, e, ms, rfl, rfl, hname, hargs, hend⟩
    · exact absurd hvs (not_reads_of_matches rfl (by decide) hm)

/-- A call of a task whose name is a single identifier. -/
theorem reads_taskCall {as ms : List ParseTree} {e : Place}
    (ht : LexemeAt (.phrase .identifier) s t c)
    (ha : Reads (.opt (.row (.token .openParen) [.opt (.phrase .arguments), .token .closeParen]))
      c as e) (hm : Reads (.token .semicolon) e ms a) :
    Reads (.phrase .callStatement) s [.node (.phrase .callStatement)
      ([ParseTree.node (.phrase .call) [.node (.phrase .routineCall)
        ([ParseTree.node (.phrase .routineName)
          ([] ++ [ParseTree.node (.phrase .hierarchicalName) [t]])] ++ as)]] ++ ms)] a := by
  have hname : Reads Phrase.hierarchicalName.body s ([] ++ ([t] ++ [])) c :=
    .seq .omitted (.seq (.lexeme rfl ht) .last)
  have hcall : Reads (.phrase .call) s [.node (.phrase .call) [.node (.phrase .routineCall)
      ([ParseTree.node (.phrase .routineName)
        ([] ++ [ParseTree.node (.phrase .hierarchicalName) [t]])] ++ as)]] e :=
    .phrase rfl (.second (.phrase rfl (.seq (.phrase rfl (.seq .omitted (.phrase rfl hname))) ha)))
  exact .phrase rfl (.seq hcall hm)

/-- A simple statement behind a keyword is one that detaches from the keyword. -/
theorem attach (hp : p.isSimple = true) (hz : GluedAt word s b c t z)
    (ht : LexemeAt (.phrase .identifier) s t c) (h : Reads (.phrase p) b us a)
    (hc : allClear us = true) :
    ∃ ts, Reads (.phrase p) s ts a ∧ allClear ts = true ∧ Detaches word (leavesOf ts) := by
  have hct : t.isClear = true := by
    obtain ⟨start, rfl⟩ := hz.tree
    rfl
  obtain ⟨f, hf, -, l, d, rest, hl, -, -⟩ := Glued.opener hz.glued h
    (by rcases isSimple_cases hp with rfl | rfl | rfl <;> rfl)
    (by rcases isSimple_cases hp with rfl | rfl | rfl <;> decide)
  have hopen : f ∈ nameOpeners → Behind (some nameOpeners) b := fun h =>
    behind_some.2 ⟨f, h, _, _, hl⟩
  obtain ⟨rfl, hkind⟩ := hz.cases hf hl
  -- behind the keyword stands the name of a system task, `$unit` or `$root`
  rcases hkind with ⟨rfl, hname⟩ | ⟨rfl, rfl⟩ | ⟨rfl, rfl⟩
  · obtain ⟨ns, d', as, e, ms, rfl, rfl, hns, has, hms⟩ :=
      systemCall_cases hp h (matches_token.1 ⟨_, _, hl⟩)
    obtain ⟨l', rfl, hl'⟩ := shape_token.1 hns
    obtain ⟨-, rfl⟩ := Takes.unique hl hl'
    have hreads := reads_taskCall ht has hms
    refine ⟨_, hreads, ?_, ?_⟩
    · simp only [List.cons_append, List.nil_append, allClear_cons, isClear_node, allClear_nil,
        Bool.and_true, Bool.and_eq_true] at hc ⊢
      exact ⟨rfl, ⟨rfl, rfl, ⟨rfl, rfl, hct⟩, hc.2.1.2.2.2⟩, hc.2.2⟩
    · obtain ⟨g, hg, hm⟩ := Reads.opener (x := Phrase.callStatement.nameTail) (.seq has hms) rfl
      obtain ⟨k, hk, rfl⟩ := (nameTail_openers hp).2 g hg
      refine detaches_of_stands hp hreads hz ht ?_ (matches_token.1 hm)
      rw [dollarFollow, if_neg, if_neg, if_neg hname.1]
      · exact hk
      · exact fun h => hname.2 "root" (by decide) h.symm
      · exact fun h => hname.2 "unit" (by decide) h.symm
  · obtain ⟨qs, m, ns, n, rs, hq, hn, -, -⟩ := simple_name hp h (hopen (by decide))
    rcases name_cases (by simp) hl hq hn with ⟨-, mark, -, hmark⟩ | ⟨hne, -⟩ | ⟨hid, -⟩
    · have hscope := matches_token.1 (Takes.matches hmark)
      obtain ⟨ts, hts, hcts⟩ := (exchanges_scope (Or.inr rfl) (Or.inl rfl) hl ht hct hscope).simple
        hp h hc
      exact ⟨ts, hts, hcts, detaches_of_stands hp hts hz ht (by decide) hscope⟩
    · exact absurd rfl hne
    · cases hid
  · obtain ⟨qs, m, ns, n, rs, hq, hn, -, -⟩ := simple_name hp h (hopen (by decide))
    rcases name_cases (by simp) hl hq hn with ⟨hne, -⟩ | ⟨-, -, mark, e, rest, -, hmark, -⟩ | ⟨hid, -⟩
    · exact absurd rfl hne
    · have hpoint := matches_token.1 (Takes.matches hmark)
      obtain ⟨ts, hts, hcts⟩ := (exchanges_root (Or.inr rfl) (Or.inl rfl) hl ht hct hpoint).simple
        hp h hc
      exact ⟨ts, hts, hcts, detaches_of_stands hp hts hz ht (by decide) hpoint⟩
    · cases hid

/-- A call that begins with an identifier with neither a colon nor a point behind it is the call of a
task whose name is that identifier. -/
theorem taskCall_cases (ht : LexemeAt (.phrase .identifier) s t c)
    (h : Reads (.phrase .callStatement) s ts a) (hscope : ¬Stands .scope c)
    (hpoint : ¬Stands .period c) : ∃ as e ms,
      ts = [.node (.phrase .callStatement)
        ([ParseTree.node (.phrase .call) [.node (.phrase .routineCall)
          ([ParseTree.node (.phrase .routineName)
            ([] ++ [ParseTree.node (.phrase .hierarchicalName) [t]])] ++ as)]] ++ ms)] ∧
      Reads (.opt (.row (.token .openParen) [.opt (.phrase .arguments), .token .closeParen])) c as e ∧
      Reads (.token .semicolon) e ms a := by
  obtain ⟨us, rfl, hus⟩ := (shape_phrase rfl).1 h
  obtain ⟨es, e, ms, rfl, he, hm⟩ := shape_seq.1 hus
  obtain ⟨vs, rfl, hvs⟩ := (shape_phrase rfl).1 he
  rcases shape_alt.1 hvs with hvs | hvs
  · exact absurd hvs (not_reads_of_matches (f := .phrase .identifier) rfl (by decide) ⟨_, _, ht⟩)
  · obtain ⟨ws, rfl, hws⟩ := (shape_phrase rfl).1 hvs
    obtain ⟨xs, n, as, rfl, hname, ha⟩ := shape_seq.1 hws
    obtain ⟨ys, rfl, hys⟩ := (shape_phrase rfl).1 hname
    obtain ⟨qs, m, ns, rfl, hq, hn⟩ := shape_seq.1 hys
    rcases name_cases (Or.inl rfl) ht hq hn with ⟨-, mark, -, hmark⟩ |
      ⟨-, -, mark, d, rest, -, hmark, -⟩ | ⟨-, rfl, rfl, rfl⟩
    · exact absurd (matches_token.1 (Takes.matches hmark)) hscope
    · exact absurd (matches_token.1 (Takes.matches hmark)) hpoint
    · exact ⟨as, e, ms, rfl, ha, hm⟩

/-- What a simple statement that detaches says about the rest of its identifier. -/
theorem Detaches.stands (hp : p.isSimple = true) (hz : GluedAt word s b c t z)
    (ht : LexemeAt (.phrase .identifier) s t c) (h : Reads (.phrase p) s ts a)
    (hd : Detaches word (leavesOf ts)) :
    ∃ k ∈ dollarFollow z, k ∈ .scope :: .period :: p.nameEnds ∧ Stands k c := by
  obtain ⟨z', start, l, rest, heq, hk⟩ := hd
  obtain ⟨l', rest', heq', hstands, hmem⟩ := second_leaf hp h ht
  obtain ⟨start', rfl⟩ := hz.tree
  rw [heq] at heq'
  simp only [leaves_node, leavesOf_cons, leaves_leaf, leavesOf_nil, List.append_nil,
    List.cons_append, List.nil_append, List.cons.injEq, Leaf.mk.injEq, true_and,
    String.ofList_inj, List.append_cancel_left_eq] at heq'
  obtain ⟨⟨-, -, rfl⟩, rfl, -⟩ := heq'
  exact ⟨l.token, hk, hmem, hstands⟩

/-- A simple statement that detaches is a simple statement behind the keyword. -/
theorem detach (hp : p.isSimple = true) (hz : GluedAt word s b c t z)
    (ht : LexemeAt (.phrase .identifier) s t c) (h : Reads (.phrase p) s ts a)
    (hc : allClear ts = true) (hd : Detaches word (leavesOf ts)) :
    ∃ us, Reads (.phrase p) b us a ∧ allClear us = true := by
  obtain ⟨k, hk, hmem, hstands⟩ := hd.stands hp hz ht h
  -- what may follow the rest of the identifier: a scope, a path from the root, or arguments of a task
  unfold dollarFollow at hk
  split at hk
  · next hunit =>
    subst hunit
    obtain ⟨leaf, hleaf⟩ := hz.exists_scope (k := .unitScope) "unit" rfl
    obtain ⟨start, text, rfl⟩ := tokenAt_eq_leaf hleaf
    cases List.mem_singleton.1 hk
    exact (exchanges_scope (Or.inl rfl) (Or.inr rfl) ht (.token hleaf) rfl hstands).simple hp h hc
  · split at hk
    · next hroot =>
      subst hroot
      obtain ⟨leaf, hleaf⟩ := hz.exists_scope (k := .rootScope) "root" rfl
      obtain ⟨start, text, rfl⟩ := tokenAt_eq_leaf hleaf
      cases List.mem_singleton.1 hk
      exact (exchanges_root (Or.inl rfl) (Or.inr rfl) ht (.token hleaf) rfl hstands).simple hp h hc
    · split at hk
      · cases hk
      · next hunit hroot hnil =>
        have hname : IsTaskName z := by
          refine ⟨hnil, fun name hmem heq => ?_⟩
          simp only [scopeNames, List.mem_cons, List.not_mem_nil, or_false] at hmem
          rcases hmem with rfl | rfl
          · exact hunit heq.symm
          · exact hroot heq.symm
        obtain ⟨leaf, hleaf⟩ := hz.exists_systemName hname
        obtain ⟨start, text, rfl⟩ := tokenAt_eq_leaf hleaf
        have hk' : k = .openParen ∨ k = .semicolon := by simpa using hk
        -- only a call goes on with a parenthesis or ends with its name
        have hcall : p = .callStatement := by
          rcases isSimple_cases hp with rfl | rfl | rfl
          · rcases hk' with rfl | rfl <;> simp [Phrase.nameEnds] at hmem
          · rcases hk' with rfl | rfl <;> simp [Phrase.nameEnds] at hmem
          · rfl
        subst hcall
        obtain ⟨as, e, ms, rfl, ha, hm⟩ := taskCall_cases ht h (fun hsc => by
          rcases hk' with rfl | rfl <;> exact not_stands_of_excludes (by decide) hstands hsc)
          (fun hpt => by
            rcases hk' with rfl | rfl <;> exact not_stands_of_excludes (by decide) hstands hpt)
        have hsys : Reads Phrase.systemCall.body b ([ParseTree.leaf .systemName start text] ++ as) e :=
          .seq (.lexeme rfl (.token hleaf)) ha
        refine ⟨_, .phrase rfl (.seq (.phrase rfl (.first (.phrase rfl hsys))) hm), ?_⟩
        simp only [List.cons_append, List.nil_append, allClear_cons, isClear_node, allClear_nil,
          Bool.and_true, Bool.and_eq_true] at hc ⊢
        exact ⟨rfl, ⟨rfl, rfl, rfl, hc.2.1.2.2.2⟩, hc.2.2⟩

end VerilogLoops.Grammar
