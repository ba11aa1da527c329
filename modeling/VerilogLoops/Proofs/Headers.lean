import VerilogLoops.Proofs.Moving
import VerilogLoops.Proofs.Pieces

/-!
# Loops with a header

A for loop and a foreach loop have a header and end in a statement. The header is composed of pieces on lines of
their own, and the text of the statement is the last piece. The statement is taken behind the header as it is
taken alone, so it takes up neither more nor less than its own text. Each of the three clauses of a for loop
may be blank.

> `parse_headed`: a header and a text that is a statement make a loop;
> `parse_clauses`: each clause of the header of a for loop stands for itself, and a blank one for nothing.
-/

namespace VerilogLoops.Grammar

open VerilogLoops.Text VerilogLoops.Lexical

variable {p q : Phrase} {t u v : ParseTree} {ts us hs : List ParseTree} {ms : List Leaf}

/-! ## The body of a loop -/

/-- Trees that are others and one more without offsets. -/
theorem bareAll_eq_snoc (h : bareAll us = bareAll (ts ++ [t])) :
    ∃ (us' : List ParseTree) (u : ParseTree),
      us = us' ++ [u] ∧ bareAll us' = bareAll ts ∧ u.bare = t.bare := by
  rw [bareAll_append] at h
  induction ts generalizing us with
  | nil =>
    obtain ⟨u, us, rfl, hu, hus⟩ := bareAll_eq_cons h
    cases bareAll_eq_nil hus
    exact ⟨[], u, rfl, rfl, hu⟩
  | cons s ts ih =>
    obtain ⟨v, us, rfl, hv, hus⟩ := bareAll_eq_cons h
    obtain ⟨us', u, rfl, hus', hu⟩ := ih hus
    exact ⟨v :: us', u, rfl, by rw [bareAll, bareAll, hv, hus'], hu⟩

/-- A loop whose header has no statements in it is ordered if its body is. -/
theorem ordered_headed (hp : p = .forLoop ∨ p = .foreachLoop) (htame : allTame hs = true)
    (hv : v.bare = (ParseTree.node (.phrase .loop) [.node (.phrase p) (hs ++ [t])]).bare)
    (hleaves : v.leaves = ms ++ u.leaves) (hu : Ordered u) (hbare : u.bare = t.bare) : Ordered v := by
  obtain ⟨ys, rfl, hys⟩ := bare_eq_node hv
  obtain ⟨y, zs, rfl, hy, hzs⟩ := bareAll_eq_cons hys
  cases bareAll_eq_nil hzs
  obtain ⟨zs, rfl, hzs⟩ := bare_eq_node hy
  obtain ⟨hs', b, rfl, hhs, hb⟩ := bareAll_eq_snoc hzs
  have hsame : b.bare = u.bare := hb.trans hbare.symm
  have hpair : bareAll [b] = bareAll [u] := by rw [bareAll, hsame]; rfl
  have hlength : b.leaves.length = u.leaves.length := by simpa using length_leavesOf hpair
  have hbody : b.leaves = u.leaves := (List.append_inj' (by simpa using hleaves) hlength).2
  rw [eq_of_bare hsame hbody]
  have horders : Label.Orders (.phrase p) (hs' ++ [u]) := by
    rcases hp with rfl | rfl <;> trivial
  refine .node trivial fun c hc => ?_
  cases List.mem_singleton.1 hc
  refine .node horders fun c hc => ?_
  rcases List.mem_append.1 hc with hc | hc
  · refine ordered_of_allTame hs' ?_ c hc
    rw [← allTame_bare, hhs, allTame_bare, htame]
  · cases List.mem_singleton.1 hc
    exact hu

end VerilogLoops.Grammar

namespace VerilogLoops

open VerilogLoops.Text VerilogLoops.Lexical VerilogLoops.Grammar VerilogLoops.Ast

variable {x y : Pattern} {p q : Phrase} {k : Token} {l : List Pattern} {source origin text body : String}
  {ps qs : List String} {hs ts us : List ParseTree} {v w : Value} {vs ws : List Value}

/-- One more part behind others in a row. -/
theorem means_row_append (hx : Means (.row x l) ts vs) (hy : Means y us ws) :
    Means (.row x (l ++ [y])) (ts ++ us) (vs ++ ws) :=
  (hx.seq hy).imp fun _ => shape_row_append.2 ⟨_, _, _, rfl, hx.fits, hy.fits⟩

/-- A text that is a statement has a tree that means its value. Wherever the text stands behind a gap, a tree
lies in it that differs in nothing but its offsets, and it is ordered there. -/
theorem exists_statement (hq : q = .statementOrNull ∨ q = .statement) (h : valueOf q source body = .ok v) :
    ∃ t, Means (.phrase q) [t] [v] ∧ v.isA (familyOf q) = true ∧ NoTick body.toList ∧
      ∀ (d : Place) (gap : List Char), IsGap gap → d.rest = gap ++ body.toList →
        ∃ u c, u.bare = t.bare ∧ Ordered u ∧ Lays d u.leaves c ∧ IsTrivia c.rest := by
  have hplain : isPlain q = true := by rcases hq with rfl | rfl <;> rfl
  have hproper : q.isPlain = true := by rcases hq with rfl | rfl <;> rfl
  have hdanglers : q.danglers = [] := by rcases hq with rfl | rfl <;> rfl
  have hfirst : .number ∉ (Pattern.phrase q).firstTokens := by rcases hq with rfl | rfl <;> decide
  obtain ⟨parsed, hparsed, hv⟩ := bind_eq_ok.1 h
  cases hv
  -- the statement is a tree of the text alone
  obtain ⟨t, a, locate, htakes, hreads, hclear, htrivia, -, hbuilt, hone⟩ := takes_of_parseSymbol hparsed
  obtain ⟨value, hvalues, hfamily⟩ := single_of_fits hreads.fits hplain hbuilt
  rw [hone value hvalues]
  refine ⟨t.tidy, ⟨hreads.fits, by simpa using hclear, ?_⟩, ?_, ?_, fun d gap hgap hd => ?_⟩
  · have hbare := buildAll_bare [t.tidy] hbuilt
    rwa [hvalues] at hbare
  · rw [Built.toValue, isA_withoutPositions, hfamily]
  · -- the first token of a statement is no number, so there is no tick behind white space in front of it
    have htokens := tokens_of_fits hreads.fits (Phrase.isPlain_phrase hproper)
    obtain ⟨l, ls, hls, hl⟩ := head_mem_firstTokens hreads.fits
    have hlays : Lays (.first body.toList) t.tidy.leaves a := by simpa using Reads.lays hreads
    rw [hls] at hlays
    obtain ⟨m, hm, -⟩ := hlays
    have htick := noTick_of_tokenAt (htokens l (by simp [hls])) (fun hn => hfirst (hn ▸ hl)) hm []
    rwa [List.append_nil] at htick
  · -- the statement is taken there as it is here, so it ends where the text does
    obtain ⟨us, c, hus, hbare, hend⟩ := htakes.moved (sameText_of_gap hgap hd)
    obtain ⟨cs, rfl, -⟩ := takes_phrase.1 hus
    have hsame : (ParseTree.node (.phrase q) cs).tidy.bare = t.tidy.bare := by
      have htidy := congrArg tidyAll hbare
      rw [tidyAll_bare, tidyAll_bare] at htidy
      simpa [tidyAll, bareAll] using htidy
    refine ⟨_, c, hsame, ordered_of_takes hus _ (by simp [tidyAll]), ?_, hend.isTrivia htrivia⟩
    simpa [tidyAll] using Reads.lays (hus.reads_phrase hdanglers)

/-- The tree of a loop with a header means what the parts are put together to. -/
theorem means_headed (hp : p = .forLoop ∨ p = .foreachLoop) (h : Means p.body ts vs)
    (hassemble : assemble p .unknown vs = .ok (.one w)) :
    Means (.phrase .loop) [.node (.phrase .loop) [.node (.phrase p) ts]] [w] := by
  have hheaded : Means (.phrase p) [.node (.phrase p) ts] [w] := by
    refine h.phrase ?_ ?_ hassemble
    · rcases hp with rfl | rfl <;> rfl
    · rcases hp with rfl | rfl <;> rfl
  have hw : w.isA .loop = true := by
    obtain ⟨w', heq, hw'⟩ := hheaded.single (by rcases hp with rfl | rfl <;> rfl)
    cases heq
    rcases hp with rfl | rfl <;> exact hw'
  have hchoice : Means Phrase.loop.body [.node (.phrase p) ts] [w] := by
    rcases hp with rfl | rfl
    · exact hheaded.imp fun hfits => .second (.second (.second (.first hfits)))
    · exact hheaded.imp fun hfits => .second (.second (.second (.second (.second hfits))))
  exact Means.phrase (p := .loop) (b := .one w) hchoice rfl rfl (by simp [assemble, theMember, hw])

/-- **A header and a text that is a statement make a loop.** -/
theorem parse_headed (hp : (p = .forLoop ∧ q = .statementOrNull) ∨ (p = .foreachLoop ∧ q = .statement))
    (hbody : p.body = .row (.token k) (l ++ [Pattern.phrase q]))
    (hcalls : ((Pattern.row (.token k) l).calls.all fun p => !p.isCompound) = true)
    (h : Composes (.row (.token k) l) ps hs vs) (hvalue : valueOf q source body = .ok v)
    (hassemble : v.isA (familyOf q) = true → assemble p .unknown (vs ++ [v]) = .ok (.one w)) :
    ∃ u, parse origin ("\n".intercalate (ps ++ [body])) = .ok u ∧ u.withoutPositions = w := by
  have hpLoop : p = .forLoop ∨ p = .foreachLoop := hp.imp And.left And.left
  obtain ⟨t, hlast, hfamily, htick, hbehind⟩ := exists_statement (hp.imp And.right And.right) hvalue
  have hrow : Means p.body (hs ++ [t]) (vs ++ [v]) := by
    rw [hbody]
    exact means_row_append h.means hlast
  have hloop := means_headed hpLoop hrow (hassemble hfamily)
  -- the leaves of the header lie in the text, and those of the body behind them
  have hsplit : (leavesOf hs ++ t.leaves).map Leaf.bare
      = (ParseTree.node (.phrase .loop) [.node (.phrase p) (hs ++ [t])]).leaves.map Leaf.bare := by simp
  obtain ⟨hproper, hmeets⟩ := proper_of_fits hloop.fits rfl hsplit
  obtain ⟨ms, d, gap, hms, hmsbare, hgap, hd⟩ := h.carries.lays_first hproper hmeets htick
  obtain ⟨u, c, hu, hordered, hlays, htrivia⟩ := hbehind d gap hgap hd
  have hbare : (ms ++ u.leaves).map Leaf.bare
      = (ParseTree.node (.phrase .loop) [.node (.phrase p) (hs ++ [t])]).leaves.map Leaf.bare := by
    rw [← hsplit, List.map_append, hmsbare, List.map_append, ← leaves_bare, hu, leaves_bare]
  have htame : allTame hs = true := isTame_of_fits h.means.fits hcalls
  obtain ⟨z, hz, hbuilt⟩ := parse_of_lays hloop.fits (by simpa using hloop.clear)
    (hms.append hlays) hbare htrivia fun z _ hz hzleaves => ordered_headed hpLoop htame hz hzleaves hordered hu
  have hw := hloop.built
  rw [bareAll, bareAll, buildAll_cons.2 ⟨_, _, hbuilt, rfl, (List.append_nil _).symm⟩] at hw
  have hvalue : [z.withoutPositions] = [w] := Except.ok.inj hw
  exact ⟨z, hz, List.singleton_inj.1 hvalue⟩

/-! ## The clauses of a for loop -/

/-- What a clause stands for: the value of its text, or nothing if the text is blank. -/
def clauseValue (p : Phrase) (source text : String) : Except ParseError Value :=
  if IsTrivia text.toList then .ok .null else valueOf p source text

/-- What the last clause stands for: its steps, or nothing if the text is blank. -/
def stepsValue (source text : String) : Except ParseError Value :=
  if IsTrivia text.toList then .ok .null
  else do return .seq ((← parseSymbol (.phrase .forStep) true source text).built.values.map Value.withoutPositions)

/-- A clause may be left blank. -/
theorem composes_clause (h : clauseValue p source text = .ok v) (hp : isPlain p = true)
    (hslash : .multiplicative ∉ p.closers) (hy : Composes y ps us ws) :
    ∃ ts, Composes (.seq (.opt (.phrase p)) y) (text :: ps) ts (optional v ++ ws) ∧
      (v = .null ∨ v.isA (familyOf p) = true) ∧ (v = .null ↔ IsTrivia text.toList) := by
  unfold clauseValue at h
  split at h
  · next hblank =>
    cases h
    exact ⟨_, ((composes_nothing .omitted).seq hy).blank hblank, .inl rfl, by simp [hblank]⟩
  · next hblank =>
    obtain ⟨_, t, -, hclause, hfamily, -⟩ := composes_of_valueOf h hp hslash
    have hnull := ne_null_of_isA hfamily
    refine ⟨[t] ++ us, ?_, .inr hfamily, by simp [hnull, hblank]⟩
    rw [Ast.optional, if_neg hnull]
    exact (hclause.imp .given).seq hy

/-- The steps of a loop are steps, and there is at least one. -/
theorem steps_of_means {t : ParseTree} (h : Means (.phrase .forStep) [t] vs) :
    vs ≠ [] ∧ ∀ v ∈ vs, v.isA .forStep = true := by
  obtain ⟨us, ws, b, -, hbody, -, hb, rfl⟩ := (means_phrase rfl).1 h
  cases hb
  obtain ⟨ts₁, ts₂, vs₁, vs₂, -, rfl, hfirst, -⟩ := means_seq.1 hbody
  obtain ⟨c, rfl, -⟩ := (shape_phrase rfl).1 hfirst.fits
  obtain ⟨w, rfl, hw⟩ := hfirst.single rfl
  have hstep : w.isA .forStep = true := hw
  refine ⟨by simp [Built.values, membersOf, hstep], fun v hv => ?_⟩
  simp only [Built.values, membersOf, List.mem_filter] at hv
  exact hv.2

/-- The last clause may be left blank. -/
theorem composes_steps (h : stepsValue source text = .ok v) (hy : Composes y ps us ws) :
    ∃ ts steps, Composes (.seq (.opt (.phrase .forStep)) y) (text :: ps) ts (steps ++ ws) ∧
      (∀ step ∈ steps, step.isA .forStep = true) ∧ v = (if steps.isEmpty then .null else .seq steps) ∧
        (v = .null ↔ IsTrivia text.toList) := by
  unfold stepsValue at h
  split at h
  · next hblank =>
    cases h
    exact ⟨_, [], ((composes_nothing .omitted).seq hy).blank hblank, by simp, rfl, by simp [hblank]⟩
  · next hblank =>
    obtain ⟨parsed, hparsed, hv⟩ := bind_eq_ok.1 h
    cases hv
    obtain ⟨t, hclause, -⟩ := composes_of_parseSymbol hparsed (by decide)
    obtain ⟨hne, hsteps⟩ := steps_of_means hclause.means
    refine ⟨_, _, (hclause.imp .given).seq hy, hsteps, ?_, by simp [hblank]⟩
    rw [if_neg (by simpa using hne)]

/-- **Each clause of the header of a for loop stands for itself, and a blank one for nothing.** The clauses are
told by the semicolons between them, and the body is what stands behind the header. -/
theorem parse_clauses {init condition step : String} {i c s b : Value}
    (hinit : clauseValue .forInit source init = .ok i)
    (hcondition : clauseValue .expression source condition = .ok c)
    (hstep : stepsValue source step = .ok s) (hbody : valueOf .statementOrNull source body = .ok b) :
    (∃ v, parse origin ("\n".intercalate ["for (", init, ";", condition, ";", step, ")", body]) = .ok v ∧
      v.withoutPositions = .node .loopFor .unknown [i, c, s, b]) ∧
    (i = .null ↔ IsTrivia init.toList) ∧ (c = .null ↔ IsTrivia condition.toList) ∧
      (s = .null ↔ IsTrivia step.toList) := by
  have hclose : Composes (.token .closeParen) [")"] [.leaf .closeParen 0 ")"] [.text ")"] :=
    composes_token (by decide) (by decide)
  have hsemicolon : Composes (.token .semicolon) [";"] [.leaf .semicolon 0 ";"] [.text ";"] :=
    composes_token (by decide) (by decide)
  -- from the last clause to the first one: each stands in front of what is behind it
  obtain ⟨_, steps, hthird, hsteps, rfl, hthirdBlank⟩ := composes_steps hstep hclose
  obtain ⟨_, hsecond, hc, hsecondBlank⟩ := composes_clause hcondition rfl (by decide) (hsemicolon.seq hthird)
  obtain ⟨_, hfirst, hi, hfirstBlank⟩ := composes_clause hinit rfl (by decide) (hsemicolon.seq hsecond)
  have hheader : Composes (.row (.token .keywordFor) [.token .openParen, .opt (.phrase .forInit), .token .semicolon,
      .opt (.phrase .expression), .token .semicolon, .opt (.phrase .forStep), .token .closeParen])
      ["for (", init, ";", condition, ";", step, ")"] _ _ :=
    hfirst.behind_pair .keywordFor .openParen "for" "(" (by decide) (by decide) (by decide) (by decide)
  have hassemble (hb : b.isA .statementOrNull = true) := assemble_forLoop hi hc hsteps hb .unknown
  have hparse : ∃ v, parse origin ("\n".intercalate (["for (", init, ";", condition, ";", step, ")"] ++ [body]))
      = .ok v ∧ v.withoutPositions = .node .loopFor .unknown [i, c, if steps.isEmpty then .null else .seq steps, b] :=
    parse_headed (.inl ⟨rfl, rfl⟩) rfl (by decide) hheader hbody fun hb => by
      simpa [buildLeaf, Built.values] using hassemble hb
  exact ⟨hparse, hfirstBlank, hsecondBlank, hthirdBlank⟩

/-- A loop without a condition, with two steps that begin alike. -/
theorem parse_clauses_endless :
    ∃ i s b v, clauseValue .forInit "a.sv" "int i = 0" = .ok i ∧ stepsValue "a.sv" "i += 2, i++ // on" = .ok s ∧
      valueOf .statementOrNull "a.sv" "x[i] = i;" = .ok b ∧
      parse "b.sv" "for (\nint i = 0\n;\n/* endless */\n;\ni += 2, i++ // on\n)\nx[i] = i;" = .ok v ∧
      v.withoutPositions = .node .loopFor .unknown [i, .null, s, b] ∧ i ≠ .null ∧ s ≠ .null := by
  have hinit : ¬IsTrivia "int i = 0".toList := by
    rw [String.toList_ofList]
    decide +kernel
  have hsteps : ¬IsTrivia "i += 2, i++ // on".toList := by
    rw [String.toList_ofList]
    decide +kernel
  obtain ⟨i, hi⟩ : ∃ i, clauseValue .forInit "a.sv" "int i = 0" = .ok i := by
    rw [clauseValue, if_neg hinit, valueOf_afresh String.toList_ofList]
    exact exists_of_isOk (by decide +kernel)
  obtain ⟨s, hs⟩ : ∃ s, stepsValue "a.sv" "i += 2, i++ // on" = .ok s := by
    rw [stepsValue, if_neg hsteps, parseSymbol_afresh String.toList_ofList]
    exact exists_of_isOk (by decide +kernel)
  obtain ⟨b, hb⟩ : ∃ b, valueOf .statementOrNull "a.sv" "x[i] = i;" = .ok b := by
    rw [valueOf_afresh String.toList_ofList]
    exact exists_of_isOk (by decide +kernel)
  have hc : clauseValue .expression "a.sv" "/* endless */" = .ok .null := if_pos (by decide +kernel)
  obtain ⟨⟨v, hv, heq⟩, hiBlank, -, hsBlank⟩ := @parse_clauses _ "b.sv" _ _ _ _ _ _ _ _ hi hc hs hb
  exact ⟨i, s, b, v, hi, hs, hb, hv, heq, mt hiBlank.1 hinit, mt hsBlank.1 hsteps⟩

end VerilogLoops
