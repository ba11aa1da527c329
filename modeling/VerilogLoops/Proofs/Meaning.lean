import VerilogLoops.Proofs.Clear
import VerilogLoops.Proofs.Unplaced

/-!
# What trees mean

Trees *mean* values as a pattern if they fit the pattern, are clear and are built to the values. Meaning goes
by the operators of the pattern: what the trees of a sequence mean is what their parts mean, one behind the
other, and a phrase means what it makes of the meaning of its children. Offsets do not matter, and the
values have no positions.

> `Means.map`: trees may be exchanged for others that mean the same;
> `means_tighter`, `means_looser`: an operand of a level is one of every looser level.
-/

namespace VerilogLoops.Grammar

open VerilogLoops.Lexical

variable {x : Pattern} {ts : List ParseTree} {level next : Level}

/-! ## Trees in the place of others -/

/-- Each of some trees that fit a pattern fits what it is a match of. -/
theorem fits_symbol {s a : Unit} (h : Shape LexemeForm x s ts a) : ∀ t ∈ ts, Fits t.symbol [t] := by
  refine h.forall_mem (fun hx ht => ?_) fun p ts _ _ hp hts _ => .phrase hp hts
  rw [LexemeForm.symbol ht]
  exact .lexeme hx ht

/-- Trees still fit if each is exchanged for one that fits what the tree is a match of. -/
theorem fits_map {f : ParseTree → ParseTree} {s a : Unit} (h : Shape LexemeForm x s ts a)
    (hf : ∀ t ∈ ts, Fits t.symbol [f t]) : Fits x (ts.map f) := by
  induction h with
  | @lexeme x _ t _ hx ht =>
    have hfits := hf t (List.mem_singleton_self t)
    rwa [LexemeForm.symbol ht] at hfits
  | phrase hp hts => exact hf _ (List.mem_singleton_self _)
  | seq _ _ ihx ihy =>
    rw [List.map_append]
    exact .seq (ihx fun t ht => hf t (List.mem_append_left _ ht)) (ihy fun t ht => hf t (List.mem_append_right _ ht))
  | step _ _ ihx ihy =>
    rw [List.map_append]
    exact .step (ihx fun t ht => hf t (List.mem_append_left _ ht)) (ihy fun t ht => hf t (List.mem_append_right _ ht))
  | first _ ih => exact .first (ih hf)
  | second _ ih => exact .second (ih hf)
  | given _ ih => exact .given (ih hf)
  | omitted => exact .omitted
  | stop => exact .stop
  | last => exact .last
  | @next k x _ mark _ ts _ us _ hmark _ _ ihx ihr =>
    have hfits := hf mark (by simp)
    rw [LexemeForm.symbol hmark] at hfits
    obtain ⟨m, heq, hm⟩ := (shape_lexeme rfl).1 hfits
    rw [List.cons.injEq] at heq
    rw [List.map_append, List.map_cons, heq.1]
    exact .next hm (ihx fun t ht => hf t (by simp [ht])) (ihr fun t ht => hf t (by simp [ht]))

/-! ## Levels -/

namespace Level

theorem tighterOnes_eq (h : level.tighter = some next) : level.tighterOnes = next :: next.tighterOnes := by
  cases level <;> cases h <;> rfl

theorem looser_eq (h : level.tighter = some next) : next.looser = level.looser ++ [level] := by
  cases level <;> cases h <;> rfl

theorem operand_eq (h : level.tighter = some next) : level.operand = .chain next := by
  rw [operand, h]

/-- Induction from the tightest level. -/
theorem from_tightest {P : Level → Prop} (hpower : P .power)
    (hstep : ∀ level next : Level, level.tighter = some next → P next → P level) (level : Level) : P level := by
  have hmultiplicative := hstep .multiplicative _ rfl hpower
  have hadditive := hstep .additive _ rfl hmultiplicative
  have hshift := hstep .shift _ rfl hadditive
  have hrelational := hstep .relational _ rfl hshift
  have hequality := hstep .equality _ rfl hrelational
  have hand := hstep .binaryAnd _ rfl hequality
  have hxor := hstep .binaryXor _ rfl hand
  have hor := hstep .binaryOr _ rfl hxor
  have hlogicalAnd := hstep .logicalAnd _ rfl hor
  have hlogicalOr := hstep .logicalOr _ rfl hlogicalAnd
  cases level <;> assumption

/-- Induction from the loosest level. -/
theorem from_loosest {P : Level → Prop} (hlogicalOr : P .logicalOr)
    (hstep : ∀ level next : Level, level.tighter = some next → P level → P next) (level : Level) : P level := by
  have hlogicalAnd := hstep _ .logicalAnd rfl hlogicalOr
  have hor := hstep _ .binaryOr rfl hlogicalAnd
  have hxor := hstep _ .binaryXor rfl hor
  have hand := hstep _ .binaryAnd rfl hxor
  have hequality := hstep _ .equality rfl hand
  have hrelational := hstep _ .relational rfl hequality
  have hshift := hstep _ .shift rfl hrelational
  have hadditive := hstep _ .additive rfl hshift
  have hmultiplicative := hstep _ .multiplicative rfl hadditive
  have hpower := hstep _ .power rfl hmultiplicative
  cases level <;> assumption

end Level

end VerilogLoops.Grammar

namespace VerilogLoops.Ast

open VerilogLoops.Lexical VerilogLoops.Grammar

variable {x y : Pattern} {k : Token} {p : Phrase} {t u : ParseTree} {ts us : List ParseTree} {v w : Value}
  {vs ws : List Value} {b : Built} {level next : Level}

/-- The trees fit the pattern, they are clear, and they stand for the values. -/
structure Means (x : Pattern) (ts : List ParseTree) (vs : List Value) : Prop where
  fits : Fits x ts
  clear : allClear ts = true
  built : buildAll (fun _ => .unknown) (bareAll ts) = .ok vs

/-! ## Meaning and the operators of patterns -/

theorem means_token : Means (.token k) ts vs ↔
    ∃ start text, ts = [.leaf k start text] ∧ k.Writes text ∧ vs = (buildLeaf k .unknown text).values := by
  constructor
  · intro h
    obtain ⟨_, rfl, start, text, rfl, hw⟩ := (shape_lexeme rfl).1 h.fits
    obtain ⟨b, _, hb, hnil, rfl⟩ := buildAll_cons.1 h.built
    cases hnil
    cases hb
    exact ⟨start, text, rfl, hw, List.append_nil _⟩
  · rintro ⟨start, text, rfl, hw, rfl⟩
    exact ⟨.lexeme rfl ⟨start, text, rfl, hw⟩, rfl, buildAll_cons.2 ⟨_, _, rfl, rfl, (List.append_nil _).symm⟩⟩

theorem means_nil (h : Fits x []) : Means x [] [] := ⟨h, rfl, rfl⟩

theorem means_seq : Means (.seq x y) ts vs ↔
    ∃ ts₁ ts₂ vs₁ vs₂, ts = ts₁ ++ ts₂ ∧ vs = vs₁ ++ vs₂ ∧ Means x ts₁ vs₁ ∧ Means y ts₂ vs₂ := by
  constructor
  · intro h
    obtain ⟨ts₁, _, ts₂, rfl, hx, hy⟩ := shape_seq.1 h.fits
    have hclear := h.clear
    have hbuilt := h.built
    rw [allClear_append, Bool.and_eq_true] at hclear
    rw [bareAll_append] at hbuilt
    obtain ⟨vs₁, vs₂, h₁, h₂, rfl⟩ := buildAll_append.1 hbuilt
    exact ⟨ts₁, ts₂, vs₁, vs₂, rfl, rfl, ⟨hx, hclear.1, h₁⟩, ⟨hy, hclear.2, h₂⟩⟩
  · rintro ⟨ts₁, ts₂, vs₁, vs₂, rfl, rfl, hx, hy⟩
    refine ⟨hx.fits.seq hy.fits, ?_, ?_⟩
    · rw [allClear_append, hx.clear, hy.clear, Bool.and_self]
    · rw [bareAll_append]
      exact buildAll_append.2 ⟨_, _, hx.built, hy.built, rfl⟩

theorem Means.seq (hx : Means x ts vs) (hy : Means y us ws) : Means (.seq x y) (ts ++ us) (vs ++ ws) :=
  means_seq.2 ⟨_, _, _, _, rfl, rfl, hx, hy⟩

/-- What means something as a pattern means it as every pattern that the same trees fit. -/
theorem Means.imp (h : Means x ts vs) (hxy : Fits x ts → Fits y ts) : Means y ts vs :=
  ⟨hxy h.fits, h.clear, h.built⟩

theorem means_alt : Means (.alt x y) ts vs ↔ Means x ts vs ∨ Means y ts vs := by
  constructor
  · intro h
    exact (shape_alt.1 h.fits).imp (fun hx => ⟨hx, h.clear, h.built⟩) fun hy => ⟨hy, h.clear, h.built⟩
  · rintro (h | h)
    · exact h.imp .first
    · exact h.imp .second

/-- A phrase means what it makes of the meaning of its children. -/
theorem means_phrase (hp : (Pattern.phrase p).isLexeme = false) : Means (.phrase p) ts vs ↔
    ∃ us ws b, ts = [.node (.phrase p) us] ∧ Means p.body us ws ∧ Label.admits (.phrase p) us = true ∧
      assemble p .unknown ws = .ok b ∧ vs = b.values := by
  constructor
  · intro h
    obtain ⟨us, rfl, hus⟩ := (shape_phrase hp).1 h.fits
    have hclear := h.clear
    rw [allClear_cons, isClear_node, allClear_nil, Bool.and_true, Bool.and_eq_true] at hclear
    obtain ⟨ws, b, hws, hb, rfl⟩ := buildAll_node.1 h.built
    exact ⟨us, ws, b, rfl, ⟨hus, hclear.2, hws⟩, hclear.1, hb, rfl⟩
  · rintro ⟨us, ws, b, rfl, hus, hadmits, hb, rfl⟩
    refine ⟨.phrase hp hus.fits, ?_, buildAll_node.2 ⟨_, _, hus.built, hb, rfl⟩⟩
    simp [hadmits, hus.clear]

/-- A phrase that admits any children means what it makes of their meaning. -/
theorem Means.phrase (h : Means p.body ts vs) (hp : (Pattern.phrase p).isLexeme = false)
    (hadmits : Label.admits (.phrase p) ts = true) (hb : assemble p .unknown vs = .ok b) :
    Means (.phrase p) [.node (.phrase p) ts] b.values :=
  (means_phrase hp).2 ⟨ts, vs, b, rfl, h, hadmits, hb, rfl⟩

/-- Each of the trees means something. -/
theorem Means.mem (h : Means x ts vs) (ht : t ∈ ts) : ∃ ws, Means t.symbol [t] ws := by
  obtain ⟨ws, hws⟩ := exists_buildAll (fun _ => .unknown) (fits_symbol h.fits t ht)
  exact ⟨_, fits_symbol h.fits t ht, by simpa using allClear_iff.1 h.clear t ht, buildAll_bare [t] hws⟩

/-- **Trees may be exchanged for others that mean the same.** -/
theorem Means.map {f : ParseTree → ParseTree} (h : Means x ts vs)
    (hf : ∀ t ∈ ts, ∀ ws, Means t.symbol [t] ws → Means t.symbol [f t] ws) : Means x (ts.map f) vs := by
  have hmeans : ∀ t ∈ ts, ∃ ws, Means t.symbol [t] ws ∧ Means t.symbol [f t] ws := by
    intro t ht
    obtain ⟨ws, hws⟩ := h.mem ht
    exact ⟨ws, hws, hf t ht ws hws⟩
  refine ⟨fits_map h.fits fun t ht => ?_, allClear_iff.2 fun u hu => ?_, ?_⟩
  · obtain ⟨ws, -, hws⟩ := hmeans t ht
    exact hws.fits
  · obtain ⟨t, ht, rfl⟩ := List.mem_map.1 hu
    obtain ⟨ws, -, hws⟩ := hmeans t ht
    simpa using hws.clear
  · have hbuilt := h.built
    clear h hf
    induction ts generalizing vs with
    | nil => exact hbuilt
    | cons t ts ih =>
      obtain ⟨b, us, hb, hus, rfl⟩ := buildAll_cons.1 hbuilt
      obtain ⟨ws, hws, hws'⟩ := hmeans t (List.mem_cons_self ..)
      have hone := hws.built
      rw [bareAll, bareAll, buildAll_cons.2 ⟨b, [], hb, rfl, (List.append_nil _).symm⟩] at hone
      cases hone
      have hrest := ih (fun u hu => hmeans u (List.mem_cons_of_mem _ hu)) hus
      have hall := buildAll_append.2 ⟨_, _, hws'.built, hrest, rfl⟩
      simpa [bareAll] using hall

/-! ## Plain phrases -/

/-- A tree that fits a plain phrase is built as one node of its family. -/
theorem single_of_fits {locate : Nat → Position} (h : Fits (.phrase p) [t]) (hp : isPlain p = true)
    (hvs : buildAll locate [t] = .ok vs) : ∃ v, vs = [v] ∧ v.isA (familyOf p) = true := by
  obtain ⟨b, ws, hb, hws, rfl⟩ := buildAll_cons.1 hvs
  obtain ⟨v, hv, hfamily, -⟩ := built_of_fits h hp hb
  cases hws
  exact ⟨v, by rw [List.append_nil, hv], hfamily⟩

/-- A plain phrase means one node of its family. -/
theorem Means.single (h : Means (.phrase p) [t] vs) (hp : isPlain p = true) :
    ∃ v, vs = [v] ∧ v.isA (familyOf p) = true := by
  obtain ⟨ws, hws⟩ := exists_buildAll (fun _ => .unknown) h.fits
  obtain ⟨w, rfl, hw⟩ := single_of_fits h.fits hp hws
  have hbare := h.built
  rw [buildAll_bare [t] hws, Except.ok.injEq] at hbare
  exact ⟨w.withoutPositions, hbare.symm, by rw [isA_withoutPositions, hw]⟩

/-! ## Levels of operators -/

/-- A single operand of a level. -/
theorem means_chain (h : Means (.phrase level.operand) [t] [v]) :
    Means (.phrase (.chain level)) [.node (.phrase (.chain level)) [t]] [v] := by
  have hseparated : Means (Phrase.chain level).body ([t] ++ []) ([v] ++ []) := h.seq (means_nil .last)
  exact hseparated.phrase (p := .chain level) (b := .one v) rfl rfl rfl

/-- A unary expression is an operand of every level, if it is the only operand of the tighter ones. -/
theorem means_tighter (h : Means (.phrase .unary) [t] [v]) (level : Level) :
    Means (.phrase level.operand) [raised level.tighterOnes t] [v] := by
  induction level using Level.from_tightest with
  | hpower => exact h
  | hstep level next hnext ih =>
    rw [Level.tighterOnes_eq hnext, Level.operand_eq hnext]
    exact means_chain ih

/-- A unary expression is a chain of the loosest level. -/
theorem means_raised (h : Means (.phrase .unary) [t] [v]) :
    Means (.phrase (.chain .logicalOr)) [raised Level.all t] [v] :=
  means_chain (means_tighter h .logicalOr)

/-- A chain of a level is one of the loosest level, if it is the only operand of the levels between. -/
theorem means_looser (h : Means (.phrase (.chain level)) [t] [v]) :
    Means (.phrase (.chain .logicalOr)) [raised level.looser t] [v] := by
  induction level using Level.from_loosest generalizing t with
  | hlogicalOr => exact h
  | hstep level next hnext ih =>
    rw [← Level.operand_eq hnext] at h
    rw [Level.looser_eq hnext, raised, List.foldr_append]
    exact ih (means_chain h)

theorem means_expression (h : Means (.phrase (.chain .logicalOr)) [t] [v]) (hv : v.isA .expression = true) :
    Means (.phrase .expression) [expressionOf t] [v] := by
  have hbody : Means Phrase.expression.body [t] [v] := means_alt.2 (.inr h)
  have hb : assemble .expression .unknown [v] = .ok (.one v) := by
    simp [assemble, theMember, hv]
  exact hbody.phrase rfl rfl hb

end VerilogLoops.Ast
