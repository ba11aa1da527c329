import VerilogLoops.Proofs.Lookahead

/-!
# Names are read in one way

A name may have a scope in front, and both may begin with an identifier. They are told apart by what
stands behind the identifier. A class handle is no identifier, but an identifier may be glued to it;
then no point follows the handle.
-/

namespace VerilogLoops.Grammar

open VerilogLoops.Text VerilogLoops.Lexical

variable {s m n a : Place} {ts us vs : List ParseTree}

/-- A token stands where a lexeme matches that excludes it only if both are the same. -/
theorem not_stands_of_matches {x : Pattern} {t : Token} (h : lexemeExcludes x (.token t) = true)
    (hm : Matches x s) : ¬Stands t s :=
  fun hs => not_matches_of_excludes h hm (matches_token.2 hs)

theorem not_stands_of_behind {t : Token} {g : List Pattern}
    (h : (g.all fun f => lexemeExcludes f (.token t)) = true) (hb : Behind (some g) a) :
    ¬Stands t a := by
  obtain ⟨f, hf, hm⟩ := behind_some.1 hb
  exact not_stands_of_matches (List.all_eq_true.1 h f hf) hm

/-- Where an identifier matches, it is taken up to some place. -/
theorem exists_lexeme (h : Matches (.phrase .identifier) s) :
    ∃ t a, LexemeAt (.phrase .identifier) s t a := by
  obtain ⟨ts, a, ht⟩ := h
  obtain ⟨leaf, rfl, -⟩ := takes_identifier.1 ht
  exact ⟨_, a, ht⟩

/-- Behind a keyword where an identifier matches, nothing stands but what begins with a dollar
sign. -/
theorem not_stands_behind_keyword {k t : Token} {word : String}
    (hk : k.spellings = [.keyword word]) (hw : word ∈ reservedWords)
    (hi : Matches (.phrase .identifier) s) {leaf : ParseTree} {b : Place}
    (hb : tokenAt k s = some (leaf, b))
    (ht : (t.isSpelled || t.isFree || t = .endOfInput) = true)
    (hd : Token.opensDollar t = false) : ¬Stands t b := by
  obtain ⟨us, c, hc⟩ := hi
  obtain ⟨l, rfl, -⟩ := takes_identifier.1 hc
  obtain ⟨z, hz⟩ := exists_glued word hk hw hb hc
  exact hz.glued.not_stands ht hd

/-- No class handle with a point is taken where an identifier matches. -/
theorem refuses_handle (hi : Matches (.phrase .identifier) s) :
    Refuses (.seq (.phrase .classHandle) (.token .period)) s := by
  refine refuses_of_not_takes rfl fun ts a h => ?_
  obtain ⟨us, c, vs, rfl, hhandle, hpoint⟩ := takes_seq.1 h
  obtain ⟨ws, rfl, hbody⟩ := takes_phrase.1 hhandle
  have hpoint := matches_token.1 hpoint.matches
  simp only [Phrase.body, Pattern.row, Pattern.oneOf, takes_alt, takes_seq, takes_token] at hbody
  rcases hbody with ⟨_, b, _, rfl, ⟨l, rfl, hl⟩, _, _, _, rfl, ⟨l', rfl, hl'⟩, -⟩ |
    ⟨-, ⟨l, rfl, hl⟩ | ⟨-, l, rfl, hl⟩⟩
  · exact not_stands_behind_keyword rfl (by decide) hi hl rfl rfl (stands_of_tokenAt hl')
  · exact not_stands_behind_keyword rfl (by decide) hi hl rfl rfl hpoint
  · exact not_stands_behind_keyword rfl (by decide) hi hl rfl rfl hpoint

/-- No class handle with a point is read where an identifier matches. -/
theorem not_reads_handle (hi : Matches (.phrase .identifier) s) :
    ¬Reads (.seq (.phrase .classHandle) (.token .period)) s ts a := by
  intro h
  obtain ⟨us, c, vs, rfl, hhandle, hperiod⟩ := shape_seq.1 h
  obtain ⟨ws, rfl, hws⟩ := (shape_phrase rfl).1 hhandle
  obtain ⟨point, rfl, hpoint⟩ := shape_token.1 hperiod
  have behind : ∀ {k p : Token} {word : String} {l q : ParseTree} {b d : Place},
      k.spellings = [.keyword word] → word ∈ reservedWords → LexemeAt (.token k) s l b →
        LexemeAt (.token p) b q d → (p.isSpelled || p.isFree || p = .endOfInput) = true →
          Token.opensDollar p = true := by
    intro k p word l q b d hk hw hl hq hp
    obtain ⟨leaf, -, hleaf⟩ := takes_token.1 hl
    cases hd : Token.opensDollar p with
    | true => rfl
    | false =>
      exact absurd (matches_token.1 (Takes.matches hq))
        (not_stands_behind_keyword hk hw hi hleaf hp hd)
  simp only [Phrase.body, Pattern.row, Pattern.oneOf, shape_alt, shape_seq, shape_token] at hws
  rcases hws with ⟨_, _, _, rfl, ⟨l, rfl, hl⟩, _, _, _, rfl, ⟨l', rfl, hl'⟩, -⟩ |
    ⟨l, rfl, hl⟩ | ⟨l, rfl, hl⟩
  · cases behind rfl (by decide) hl hl' rfl
  · cases behind rfl (by decide) hl hpoint rfl
  · cases behind rfl (by decide) hl hpoint rfl

/-- A name without a scope begins with `$root` or with an identifier. Behind the identifier a point
stands, unless the name ends there. -/
theorem hierarchicalName_cases (h : Reads (.phrase .hierarchicalName) s ts a) :
    Stands .rootScope s ∨ ∃ t us b, ts = [.node (.phrase .hierarchicalName) (t :: us)] ∧
      LexemeAt (.phrase .identifier) s t b ∧ (b = a ∨ Stands .period b) := by
  obtain ⟨us, rfl, hbody⟩ := (shape_phrase rfl).1 h
  simp only [Phrase.body, Pattern.row, Pattern.separated, shape_seq, shape_opt, shape_token,
    shape_identifier] at hbody
  obtain ⟨_, m, _, rfl, ⟨rfl, rfl⟩ | ⟨_, _, _, rfl, ⟨l, rfl, hroot⟩, -⟩, _, b, _, rfl,
    ⟨t, rfl, ht⟩, htail⟩ := hbody
  · refine Or.inr ⟨t, _, b, rfl, ht, ?_⟩
    rcases shape_tail.1 htail with ⟨-, rfl⟩ | ⟨mark, c, _, _, _, -, hmark, -⟩
    · exact Or.inl rfl
    · exact Or.inr (matches_token.1 (Takes.matches hmark))
  · exact Or.inl (matches_token.1 (Takes.matches hroot))

/-- No scope is taken where a name without one is read. -/
theorem refuses_qualifier (h : Reads (.phrase .hierarchicalName) s ts a)
    (hb : Behind (some nameFollow) a) : Refuses (.phrase .qualifier) s := by
  rcases hierarchicalName_cases h with hroot | ⟨t, us, b, -, ht, hnext⟩
  · exact refuses_of_excludes rfl rfl (by decide) (matches_token.2 hroot)
  · have hi : Matches (.phrase .identifier) s := ⟨_, _, ht⟩
    have hscope : ¬Stands .scope b := by
      rcases hnext with rfl | hpoint
      · exact not_stands_of_behind (by decide) hb
      · exact not_stands_of_excludes (by decide) hpoint
    refine .noPhrase (.altSecond (refuses_handle hi) (.noPhrase (.noSecond (.altSecond ?_ ht) ?_)))
    · exact refuses_of_excludes rfl rfl (by decide) hi
    · exact .noToken (tokenAt_of_not_stands hscope)

/-- A class handle is taken, unless it is `this` with `super` behind a point. -/
theorem accepts_classHandle (h : Reads (.phrase .classHandle) s ts a)
    (hs : ∀ start text, ts = [.node (.phrase .classHandle) [.leaf .keywordThis start text]] →
      Refuses (.row (.token .period) [.token .keywordSuper]) a) :
    Accepts (.phrase .classHandle) s ts a := by
  obtain ⟨us, rfl, hus⟩ := (shape_phrase rfl).1 h
  refine .phrase (by simp) ?_
  simp only [Phrase.body, Pattern.row, Pattern.oneOf, shape_alt, shape_seq, shape_token] at hus ⊢
  rcases hus with ⟨_, _, _, rfl, ⟨l, rfl, hl⟩, _, _, _, rfl, ⟨l', rfl, hl'⟩, l'', rfl, hl''⟩ |
    ⟨l, rfl, hl⟩ | ⟨l, rfl, hl⟩
  · exact .first (.seq (accepts_lexeme rfl hl)
      (.seq (accepts_lexeme rfl hl') (accepts_lexeme rfl hl'')))
  · obtain ⟨_, heq, hthis⟩ := takes_token.1 hl
    cases heq
    obtain ⟨start, text, rfl⟩ := tokenAt_eq_leaf hthis
    exact .second (.noSecond hl (hs start text rfl)) (.first (accepts_lexeme rfl hl))
  · have hno : ∀ {y}, Refuses (.seq (.token .keywordThis) y) s := fun {y} => .noFirst
      (refuses_of_excludes rfl rfl (f := .token .keywordSuper) (by decide) (Takes.matches hl))
    refine .second hno (.second ?_ (accepts_lexeme rfl hl))
    exact refuses_of_excludes rfl rfl (f := .token .keywordSuper) (by decide) (Takes.matches hl)

/-- A scope is taken, unless it is `this` with `super` behind it. -/
theorem accepts_qualifier (hr : Ready 2 s) (h : Reads (.phrase .qualifier) s ts a)
    (hc : allClear ts = true)
    (hs : ∀ q, ts = [q] → q.isThis = true → ¬Stands .keywordSuper a) :
    Accepts (.phrase .qualifier) s ts a := by
  obtain ⟨us, rfl, hbody⟩ := (shape_phrase rfl).1 h
  refine Accepts.phrase (by simp) ?_
  rw [Phrase.body, Pattern.oneOf, Pattern.oneOf, shape_alt] at hbody
  rcases hbody with hbody | hbody
  · obtain ⟨_, c, _, rfl, hhandle, hperiod⟩ := shape_seq.1 hbody
    obtain ⟨point, rfl, hpoint⟩ := shape_token.1 hperiod
    refine .first (.seq (accepts_classHandle hhandle ?_) (accepts_lexeme rfl hpoint))
    rintro start text rfl
    exact .noSecond hpoint (.noToken (tokenAt_of_not_stands (hs _ rfl rfl)))
  · have hno : Refuses (.seq (.phrase .classHandle) (.token .period)) s := by
      obtain ⟨f, hf, hm⟩ := Reads.opener hbody rfl
      simp only [Pattern.openers, Phrase.openers, List.mem_cons, List.not_mem_nil,
        or_false] at hf
      rcases hf with rfl | rfl
      · exact refuses_of_excludes rfl rfl (by decide) hm
      · exact refuses_handle hm
    exact .second hno (hr.accepts hbody none (by decide) (by simp_all) (by simp))

/-- The scope in front of a name is taken as it is read, or none if none is. -/
theorem accepts_scope (vs : List ParseTree) (hr : Ready 2 s) (hq : Reads (.opt (.phrase .qualifier)) s ts m)
    (hn : Reads (.phrase .hierarchicalName) m us n) (hb : Behind (some nameFollow) n)
    (hc : allClear ts = true) (ha : superGlued (ts ++ (us ++ vs)) = false) :
    Accepts (.opt (.phrase .qualifier)) s ts m := by
  rcases shape_opt.1 hq with ⟨rfl, rfl⟩ | hq
  · exact accepts_omitted (refuses_qualifier hn hb)
  · refine .given (accepts_qualifier hr hq hc fun q heq hthis hsuper => ?_)
    rcases hierarchicalName_cases hn with hroot | ⟨t', ws, b, rfl, ht', -⟩
    · exact not_stands_of_excludes (by decide) hroot hsuper
    · -- the name begins with an identifier glued to `super`, which is not admitted
      obtain ⟨leaf, c, hleaf⟩ := exists_of_stands hsuper
      obtain ⟨z, hz⟩ := exists_glued "super" rfl (by decide) hleaf ht'
      obtain ⟨start', rfl⟩ := hz.tree
      have hg : (ParseTree.node (.phrase .hierarchicalName) (.node (.phrase .identifier)
          [.leaf .identifier start' (String.ofList ("super".toList ++ '$' :: z))] :: ws)).startsGlued
            "super" = true := by
        simp [ParseTree.startsGlued, ParseTree.firstText]
      rw [heq] at ha
      simp only [List.cons_append, List.nil_append, superGlued, hthis, hg] at ha
      cases ha

/-- A name with an optional scope takes its readings. -/
theorem completeAt_scopedName {p : Phrase} (hp : p = .arrayName ∨ p = .routineName)
    (hr : Ready p.rank s) : p.CompleteAt s := by
  intro ts a h hc hb
  have hlow : Ready 3 s := by rcases hp with rfl | rfl <;> exact hr
  have hbody : p.body = .seq (.opt (.phrase .qualifier)) (.phrase .hierarchicalName) := by
    rcases hp with rfl | rfl <;> rfl
  have hfollow : Behind (some nameFollow) a := by rcases hp with rfl | rfl <;> exact hb
  obtain ⟨us, rfl, hus⟩ := (shape_phrase (by rcases hp with rfl | rfl <;> rfl)).1 h
  rw [hbody, shape_seq] at hus
  obtain ⟨us, m, vs, rfl, hq, hn⟩ := hus
  simp only [allClear_cons, isClear_node, allClear_append, allClear_nil, Bool.and_eq_true] at hc
  obtain ⟨⟨ha, hcq, hcn⟩, -⟩ := hc
  have hscope := accepts_scope []
    ⟨fun q hq => hlow.here q (by omega), hlow.later⟩ hq hn hfollow hcq
      (by rcases hp with rfl | rfl <;> simpa [Label.admits] using ha)
  have hname := (hlow.ahead (Reads.ahead hq)).accepts hn (some nameFollow) (by decide) hcn
    hfollow
  refine Accepts.phrase (by rcases hp with rfl | rfl <;> simp) ?_
  rw [hbody]
  exact hscope.seq hname

/-- A variable takes its readings. -/
theorem completeAt_variableReference (hr : Ready Phrase.variableReference.rank s) :
    Phrase.variableReference.CompleteAt s := by
  intro ts a h hc hb
  obtain ⟨us, rfl, hus⟩ := (shape_phrase rfl).1 h
  rw [Phrase.body, Pattern.row, Pattern.row, Pattern.row, shape_seq] at hus
  obtain ⟨us, m, vs, rfl, hq, hrest⟩ := hus
  obtain ⟨ns, n, ws, rfl, hn, hsel⟩ := shape_seq.1 hrest
  simp only [allClear_cons, isClear_node, allClear_append, allClear_nil, Bool.and_eq_true] at hc
  obtain ⟨⟨ha, hcq, hcn, hcs⟩, -⟩ := hc
  have hfollow : Behind (some nameFollow) n :=
    Behind.mono (Reads.behind_front hsel hb) (by simp [Pattern.openers, Phrase.openers, nameFollow])
  have hscope := accepts_scope _
    ⟨fun q hq => hr.here q (Nat.lt_of_lt_of_le hq (by decide)), hr.later⟩ hq hn hfollow hcq
      (by simpa [Label.admits] using ha)
  have hname := (hr.ahead (Reads.ahead hq)).accepts hrest (some referenceFollow) (by decide)
    (by simp [hcn, hcs]) hb
  exact Accepts.phrase (by simp) (hscope.seq hname)

end VerilogLoops.Grammar
