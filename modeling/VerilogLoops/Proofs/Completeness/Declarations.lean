import VerilogLoops.Proofs.Completeness.Expressions

/-!
# The header of a for loop is read in one way

A declaration may begin as an assignment does, and its type may be followed by brackets as a
variable is. What tells them apart is that the equals sign of an assignment stands behind its
variable, and that another name stands behind a type.

A comma behind a declaration may be followed by another binding or by another declaration. Matching
takes the comma for the first, finds no binding, and leaves the comma dangling.
-/

namespace VerilogLoops.Grammar

open VerilogLoops.Text VerilogLoops.Lexical

variable {s m n a b c : Place} {ts us vs ds : List ParseTree} {t : ParseTree}

/-! ## Data types -/

/-- A scope is taken from an identifier or `$unit` up to its colons. -/
theorem packageScope_cases (h : Reads (.phrase .packageScope) s ts a) :
    ∃ t b, (LexemeAt (.token .unitScope) s t b ∨ LexemeAt (.phrase .identifier) s t b) ∧
      Stands .scope b := by
  obtain ⟨us, rfl, hus⟩ := (shape_phrase rfl).1 h
  simp only [Phrase.body, Pattern.row, Pattern.oneOf, shape_seq, shape_alt, shape_token,
    shape_identifier] at hus
  obtain ⟨_, b, _, rfl, ⟨t, rfl, ht⟩ | ⟨t, rfl, ht⟩, mark, rfl, hmark⟩ := hus
  · exact ⟨t, b, Or.inl ht, matches_token.1 (Takes.matches hmark)⟩
  · exact ⟨t, b, Or.inr ht, matches_token.1 (Takes.matches hmark)⟩

/-- Where a single identifier is read as a type, no scope is taken. -/
theorem refuses_packageScope (h : LexemeAt (.phrase .identifier) s t b) (hb : ¬Stands .scope b) :
    Refuses (.phrase .packageScope) s :=
  .noPhrase (.noSecond (.altSecond (refuses_of_excludes rfl rfl (f := .phrase .identifier)
    (by decide) ⟨_, _, h⟩) h) (.noToken (tokenAt_of_not_stands hb)))

/-- A named type takes its readings. -/
theorem completeAt_namedType (hr : Ready Phrase.namedType.rank s) : Phrase.namedType.CompleteAt s := by
  intro ts a h hc hb
  obtain ⟨us, rfl, hus⟩ := (shape_phrase rfl).1 h
  obtain ⟨qs, m, vs, rfl, hq, hrest⟩ := shape_seq.1 hus
  simp only [allClear_cons, isClear_node, allClear_append, allClear_nil, Bool.and_eq_true] at hc
  have hname := (hr.ahead (Reads.ahead hq)).accepts hrest (some typeFollow) (by decide) hc.1.2.2 hb
  refine Accepts.phrase (by simp) (Accepts.seq ?_ hname)
  rcases shape_opt.1 hq with ⟨rfl, rfl⟩ | hq
  · obtain ⟨_, b, _, rfl, hid, hdims⟩ := shape_seq.1 hrest
    obtain ⟨t, rfl, ht⟩ := shape_identifier.1 hid
    refine accepts_omitted (refuses_packageScope ht ?_)
    have hfront : Behind (some _) b := Reads.behind_front hdims hb
    exact not_stands_of_behind (by decide) hfront
  · exact (hr.accepts hq none (by decide) hc.1.2.1 (by simp)).given

/-- A dimension takes its readings: it is empty exactly if its bracket closes at once. -/
theorem completeAt_packedDimension (hr : Ready Phrase.packedDimension.rank s) :
    Phrase.packedDimension.CompleteAt s := by
  intro ts a h hc _
  obtain ⟨us, rfl, hus⟩ := (shape_phrase rfl).1 h
  simp only [allClear_cons, isClear_node, allClear_nil, Bool.and_true, Bool.and_eq_true] at hc
  refine Accepts.phrase (by simp) ?_
  rcases shape_alt.1 hus with hus | hus
  · exact (hr.accepts hus none (by decide) hc.2 (by simp)).first
  · obtain ⟨_, b, _, rfl, hopen, hclose⟩ := shape_seq.1 hus
    obtain ⟨l, rfl, hl⟩ := shape_token.1 hopen
    obtain ⟨r, rfl, hr'⟩ := shape_token.1 hclose
    refine .second (.noSecond hl (.noFirst ?_)) (.seq (accepts_lexeme rfl hl) (accepts_lexeme rfl hr'))
    exact refuses_of_excludes rfl rfl (f := .token .closeBracket) (by decide) (Takes.matches hr')

/-- A type is a keyword type, or a name with an optional scope and with dimensions. -/
theorem dataType_cases (h : Reads (.phrase .dataType) s ts a) :
    Behind (some [.token .integerVectorKeyword, .token .integerAtomKeyword,
      .token .nonIntegerKeyword, .token .simpleTypeKeyword]) s ∨
    ∃ qs m t b ds, ts = [.node (.phrase .dataType) [.node (.phrase .namedType) (qs ++ t :: ds)]] ∧
      Reads (.opt (.phrase .packageScope)) s qs m ∧ LexemeAt (.phrase .identifier) m t b ∧
        Reads (.many (.phrase .packedDimension)) b ds a := by
  obtain ⟨us, rfl, hus⟩ := (shape_phrase rfl).1 h
  rw [behind_some]
  simp only [Phrase.body, Pattern.oneOf, shape_alt] at hus
  rcases hus with hus | hus | hus | hus | hus
  · obtain ⟨f, hf, hm⟩ := Reads.opener hus rfl
    exact Or.inl ⟨f, List.mem_of_mem_take (i := 1) hf, hm⟩
  · obtain ⟨f, hf, hm⟩ := Reads.opener hus rfl
    cases List.mem_singleton.1 hf
    exact Or.inl ⟨_, by simp, hm⟩
  · obtain ⟨f, hf, hm⟩ := Reads.opener hus rfl
    cases List.mem_singleton.1 hf
    exact Or.inl ⟨_, by simp, hm⟩
  · obtain ⟨f, hf, hm⟩ := Reads.opener hus rfl
    cases List.mem_singleton.1 hf
    exact Or.inl ⟨_, by simp, hm⟩
  · obtain ⟨ws, rfl, hws⟩ := (shape_phrase rfl).1 hus
    obtain ⟨qs, m, _, rfl, hq, hrest⟩ := shape_seq.1 hws
    obtain ⟨_, b, ds, rfl, hid, hdims⟩ := shape_seq.1 hrest
    obtain ⟨t, rfl, ht⟩ := shape_identifier.1 hid
    exact Or.inr ⟨qs, m, t, b, ds, rfl, hq, ht, hdims⟩

/-- Behind a type that is a name, another name follows, perhaps after dimensions. -/
theorem behind_of_dimensions (h : Reads (.many (.phrase .packedDimension)) b ds a)
    (ha : Matches (.phrase .identifier) a) :
    Behind (some [.token .openBracket, .phrase .identifier]) b := by
  have := Reads.behind_front h (f := some [.phrase .identifier]) (by simpa using ha)
  exact this

/-! ## Declarations -/

/-- A declaration is an optional `var`, a type and a binding, which begins with a name. -/
theorem forDeclaration_cases (h : Reads (.phrase .forDeclaration) s ts a) :
    ∃ us m vs n ws, ts = [.node (.phrase .forDeclaration) (us ++ (vs ++ ws))] ∧
      Reads (.opt (.token .keywordVar)) s us m ∧ Reads (.phrase .dataType) m vs n ∧
        Reads (.separated (.phrase .forBinding) .comma) n ws a ∧
          Matches (.phrase .identifier) n := by
  obtain ⟨us, rfl, hus⟩ := (shape_phrase rfl).1 h
  obtain ⟨us, m, _, rfl, hvar, hrest⟩ := shape_seq.1 hus
  obtain ⟨vs, n, ws, rfl, htype, hbind⟩ := shape_seq.1 hrest
  obtain ⟨f, hf, hm⟩ := Reads.opener hbind rfl
  cases List.mem_singleton.1 hf
  exact ⟨us, m, vs, n, ws, rfl, hvar, htype, hbind, hm⟩

/-- A type glued to `var` begins with `$unit`, and the identifier that goes on over the dollar sign is
a scope as well. -/
theorem glued_type {z : List Char} (hz : GluedAt "var" s m b t z)
    (ht : LexemeAt (.phrase .identifier) s t b) (h : Reads (.phrase .dataType) m ts n) :
    Stands .scope b ∧ ∃ qs c u d ds, Reads (.phrase .packageScope) s qs c ∧
      LexemeAt (.phrase .identifier) c u d ∧ Reads (.many (.phrase .packedDimension)) d ds n ∧
        (allClear ts = true → t.isClear = true → allClear qs = true ∧ allClear ds = true) := by
  -- glued to a word, the text begins with a dollar sign
  have hno : ∀ k : Token, (k.isSpelled || k.isFree || k = .endOfInput) = true →
      Token.opensDollar k = false → ¬Stands k m := fun k hk hd => hz.glued.not_stands hk hd
  have hnoId : ¬Matches (.phrase .identifier) m := by
    rintro ⟨xs, d, hx⟩
    obtain ⟨l', -, -, hx | hx⟩ := takes_identifier.1 hx
    · exact hno .identifier rfl rfl (stands_of_tokenAt hx)
    · exact hno .escapedIdentifier rfl rfl (stands_of_tokenAt hx)
  rcases dataType_cases h with hkey | ⟨qs, c, u, d, ds, rfl, hq, hu, hdims⟩
  · obtain ⟨f, hf, hm⟩ := behind_some.1 hkey
    simp only [List.mem_cons, List.not_mem_nil, or_false] at hf
    rcases hf with rfl | rfl | rfl | rfl <;>
      exact absurd (matches_token.1 hm) (hno _ rfl rfl)
  · rcases shape_opt.1 hq with ⟨-, rfl⟩ | hq
    · exact absurd ⟨_, _, hu⟩ hnoId
    · obtain ⟨us, rfl, hus⟩ := (shape_phrase rfl).1 hq
      simp only [Phrase.body, Pattern.row, Pattern.oneOf, shape_seq, shape_alt, shape_token,
        shape_identifier] at hus
      obtain ⟨_, e, _, rfl, ⟨l, rfl, hl⟩ | ⟨l, rfl, hl⟩, mark, rfl, hmark⟩ := hus
      · obtain ⟨leaf', -, hleaf'⟩ := takes_token.1 hl
        have hname : ("unit".toList.all isIdentifierCharacter) = true := by decide
        obtain ⟨rfl, -⟩ := hz.scope "unit" rfl (List.all_eq_true.1 hname) hleaf'
        refine ⟨matches_token.1 (Takes.matches hmark), _, c, u, d, ds, .phrase rfl
          (.seq (.second (.lexeme rfl ht)) (.lexeme rfl hmark)), hu, hdims, fun hc ht => ?_⟩
        simp only [allClear_cons, isClear_node, allClear_append, allClear_nil,
          Bool.and_eq_true] at hc
        simp only [List.cons_append, List.nil_append, allClear_cons, isClear_node, allClear_nil,
          Bool.and_true, Bool.and_eq_true]
        exact ⟨⟨rfl, ht, hc.1.2.1.2.1.1.2.2.1⟩, hc.1.2.1.2.2.2⟩
      · exact absurd ⟨_, _, hl⟩ hnoId

/-- Where an identifier matches at the beginning of a declaration, it is the scope or the name of the
type, even if the declaration begins with `var` glued to it. -/
theorem declaration_cases (h : Reads (.phrase .forDeclaration) s ts a)
    (ht : LexemeAt (.phrase .identifier) s t b) :
    Stands .scope b ∨ ∃ ds n, Reads (.many (.phrase .packedDimension)) b ds n ∧
      Matches (.phrase .identifier) n := by
  obtain ⟨us, m, vs, n, ws, rfl, hvar, htype, -, hn⟩ := forDeclaration_cases h
  rcases shape_opt.1 hvar with ⟨-, rfl⟩ | hvar
  · rcases dataType_cases htype with hkey | ⟨qs, m', t', c, ds, rfl, hq, ht', hdims⟩
    · obtain ⟨f, hf, hm⟩ := behind_some.1 hkey
      have hex : ([Pattern.token .integerVectorKeyword, .token .integerAtomKeyword,
          .token .nonIntegerKeyword, .token .simpleTypeKeyword].all fun f =>
            lexemeExcludes f (.phrase .identifier)) = true := by decide +kernel
      exact absurd ⟨_, _, ht⟩ (not_matches_of_excludes (List.all_eq_true.1 hex f hf) hm)
    · rcases shape_opt.1 hq with ⟨-, rfl⟩ | hq
      · obtain ⟨-, rfl⟩ := Takes.unique ht ht'
        exact Or.inr ⟨ds, n, hdims, hn⟩
      · obtain ⟨u, d, hu | hu, hscope⟩ := packageScope_cases hq
        · exact absurd ⟨_, _, ht⟩ (not_matches_of_excludes (by decide) (Takes.matches hu))
        · obtain ⟨-, rfl⟩ := Takes.unique ht hu
          exact Or.inl hscope
  · obtain ⟨l, rfl, hl⟩ := shape_token.1 hvar
    obtain ⟨leaf, -, hleaf⟩ := takes_token.1 hl
    obtain ⟨z, hz⟩ := exists_glued "var" rfl (by decide) hleaf ht
    exact Or.inl (glued_type hz ht htype).1

/-- No binding is taken where a declaration is read. -/
theorem refuses_binding (h : Reads (.phrase .forDeclaration) s ts a) :
    Refuses (.phrase .forBinding) s := by
  refine refuses_of_not_takes rfl fun us b hb => ?_
  obtain ⟨us, rfl, hbody⟩ := takes_phrase.1 hb
  obtain ⟨us, c, vs, rfl, hname, hrest⟩ := takes_seq.1 hbody
  obtain ⟨ws, rfl, hid⟩ := takes_phrase.1 hname
  obtain ⟨xs, d, ys, -, hsign, -⟩ := takes_seq.1 hrest
  obtain ⟨leaf, rfl, -⟩ := takes_identifier.1 hid
  rcases declaration_cases h hid with hscope | ⟨ds, n, hdims, hn⟩
  · exact not_stands_of_matches (x := .phrase .assignSign) (by decide) hsign.matches hscope
  · obtain ⟨f, hf, hm⟩ := behind_some.1 (behind_of_dimensions hdims hn)
    simp only [List.mem_cons, List.not_mem_nil, or_false] at hf
    rcases hf with rfl | rfl <;>
      exact not_matches_of_excludes (x := .phrase .assignSign) (by decide) hsign.matches hm

/-- What may stand behind a declaration: the end of the list, or a comma that no binding follows. -/
def EndsDeclaration (a : Place) : Prop :=
  Behind (some headerFollow) a ∨
    ∃ mark b, tokenAt .comma a = some (mark, b) ∧ Refuses (.phrase .forBinding) b

/-- Behind a binding of a declaration, a comma stands or the list ends. -/
theorem EndsDeclaration.follow (ha : EndsDeclaration a)
    (h : Reads (.tail .comma (.phrase .forBinding)) s ts a) :
    Behind (some (.token .comma :: headerFollow)) s := by
  rcases Reads.opened h with rfl | ⟨f, hf, hm⟩
  · rcases ha with hs | ⟨mark, b, hmark, -⟩
    · exact hs.mono fun g hg => List.mem_cons_of_mem _ hg
    · exact behind_some.2 ⟨.token .comma, by simp, matches_token.2 (stands_of_tokenAt hmark)⟩
  · cases List.mem_singleton.1 hf
    exact behind_some.2 ⟨_, by simp, hm⟩

/-- The bindings of a declaration are taken, and a comma that no binding follows is left. -/
theorem accepts_bindings (hr : Ready 0 s) (h : Reads (.tail .comma (.phrase .forBinding)) s ts a)
    (hc : allClear ts = true) (ha : EndsDeclaration a) :
    ∃ us, Takes (.tail .comma (.phrase .forBinding)) s us a ∧
      Tidied (.tail .comma (.phrase .forBinding)) us ts := by
  generalize hx : Pattern.tail .comma (.phrase .forBinding) = x at h
  induction h with
  | last =>
    cases hx
    rcases ha with hs | ⟨mark, b, hmark, hb⟩
    · refine ⟨[], .tailStop (tokenAt_of_not_stands ?_), Or.inl rfl⟩
      exact not_stands_of_behind (by decide) hs
    · obtain ⟨start, text, rfl⟩ := tokenAt_eq_leaf hmark
      exact ⟨_, .tailDangling hmark hb, Or.inr ⟨rfl, start, text, rfl⟩⟩
  | @next t x s mark m xs n ys a hm hitem hrest _ ih =>
    cases hx
    simp only [List.cons_append, allClear_cons, allClear_append, Bool.and_eq_true] at hc
    have hlt : m.rest.length < s.rest.length := Takes.lt hm rfl
    have hle := (Reads.ahead hitem).le
    obtain ⟨us, hus, hu⟩ := hr.later .forBinding m hlt xs n hitem hc.2.1 (ha.follow hrest)
    obtain ⟨vs, hvs, hv⟩ := ih (hr.further (by omega)) hc.2.2 ha rfl
    obtain ⟨leaf, heq, hleaf⟩ := takes_token.1 hm
    cases heq
    have hmark := LexemeAt.tidy (x := .token .comma) rfl hm
    have hbinding : Tidied (.phrase .forBinding) us xs := Or.inl hu
    exact ⟨_, .tailStep hleaf hus hvs, (hbinding.append rfl hv id).cons hmark⟩
  | lexeme hl => rw [← hx] at hl; cases hl
  | _ => cases hx

/-- The word `var` does not stand where a type is read that is not glued to it. -/
theorem not_stands_var (h : Reads (.phrase .dataType) s ts a) (hc : varGlued ts = false) :
    ¬Stands .keywordVar s := by
  intro hvar
  rcases dataType_cases h with hkey | ⟨qs, m, t, b, ds, rfl, hq, ht, -⟩
  · exact not_stands_of_behind (by decide) hkey hvar
  · obtain ⟨leaf, c, hleaf⟩ := exists_of_stands hvar
    have hglue : ∀ {u d}, LexemeAt (.phrase .identifier) s u d → u.startsGlued "var" = true := by
      intro u d hu
      obtain ⟨z, hz⟩ := exists_glued "var" rfl (by decide) hleaf hu
      obtain ⟨start, rfl⟩ := hz.tree
      simp [ParseTree.startsGlued, ParseTree.firstText]
    rcases shape_opt.1 hq with ⟨rfl, rfl⟩ | hq
    · have hno : t.startsGlued "var" = false := hc
      rw [hglue ht] at hno
      cases hno
    · obtain ⟨us, rfl, hus⟩ := (shape_phrase rfl).1 hq
      simp only [Phrase.body, Pattern.row, Pattern.oneOf, shape_seq, shape_alt, shape_token,
        shape_identifier] at hus
      obtain ⟨_, d, _, rfl, ⟨u, rfl, hu⟩ | ⟨u, rfl, hu⟩, -⟩ := hus
      · exact not_stands_of_matches (by decide) (Takes.matches hu) hvar
      · have hno : u.startsGlued "var" = false := hc
        rw [hglue hu] at hno
        cases hno

/-- A declaration takes its readings if the list ends behind it or another declaration follows. -/
theorem accepts_declaration (hr : Ready Phrase.forDeclaration.rank s)
    (h : Reads (.phrase .forDeclaration) s ts a) (hc : allClear ts = true)
    (ha : EndsDeclaration a) : Accepts (.phrase .forDeclaration) s ts a := by
  obtain ⟨us, m, vs, n, ws, rfl, hvar, htype, hbind, hn⟩ := forDeclaration_cases h
  obtain ⟨xs, l, ys, rfl, hfirst, hmore⟩ := shape_seq.1 hbind
  simp only [allClear_cons, isClear_node, allClear_append, allClear_nil, Bool.and_eq_true] at hc
  obtain ⟨⟨hadmits, hcu, hcv, hcx, hcy⟩, -⟩ := hc
  have hvar' : Accepts (.opt (.token .keywordVar)) s us m := by
    rcases shape_opt.1 hvar with ⟨rfl, rfl⟩ | hvar
    · refine accepts_omitted (.noToken (tokenAt_of_not_stands (not_stands_var htype ?_)))
      obtain ⟨zs, rfl, -⟩ := (shape_phrase rfl).1 htype
      simpa [Label.admits, varGlued] using hadmits
    · obtain ⟨l, rfl, hl⟩ := shape_token.1 hvar
      exact (accepts_lexeme rfl hl).given
  have hrm := hr.ahead (Reads.ahead hvar)
  have htype' := hrm.accepts htype (some [.phrase .identifier]) (by decide) hcv
    (by simpa using hn)
  have hlt := Reads.lt htype rfl
  have hle := (Reads.ahead hvar).le
  have hrn : Ready Phrase.argument.rank n := hr.further (by omega)
  have hfirst' := hrn.accepts hfirst (some (.token .comma :: headerFollow)) (by decide) hcx
    (ha.follow hmore)
  have hlt' := Reads.lt hfirst rfl
  obtain ⟨zs, hzs, hz⟩ := accepts_bindings (hrn.further hlt') hmore hcy ha
  obtain ⟨us', hus', hu⟩ := hvar'
  obtain ⟨vs', hvs', hv⟩ := htype'
  obtain ⟨xs', hxs', hx⟩ := hfirst'
  have hreads : Reads Phrase.forDeclaration.body s (us ++ (vs ++ (xs ++ ys))) a :=
    .seq hvar (.seq htype (.seq hfirst hmore))
  -- the comma that the bindings may leave ends the whole declaration
  have hbindings := Tidied.append (Or.inl hx) (x := .phrase .forBinding) rfl hz id
  have htyped := Tidied.append (Or.inl hv) (x := .phrase .dataType) rfl hbindings id
  have hbody : Tidied Phrase.forDeclaration.body (us' ++ (vs' ++ (xs' ++ zs))) _ :=
    Tidied.append (Or.inl hu) (x := .opt (.token .keywordVar)) rfl htyped (fun _ => rfl)
  refine ⟨_, .phrase (.seq hus' (.seq hvs' (.seq hxs' hzs))), ?_⟩
  rw [tidyAll, hbody.body hreads (fun _ => rfl), tidyAll]

/-! ## Lists of declarations -/

/-- Behind a declaration of a list, the list ends or a comma follows that no binding follows. -/
theorem endsDeclaration_of_tail (h : Reads (.tail .comma (.phrase .forDeclaration)) s ts a)
    (ha : Behind (some headerFollow) a) : EndsDeclaration s := by
  rcases shape_tail.1 h with ⟨-, rfl⟩ | ⟨mark, m, us, n, vs, -, hm, hitem, -⟩
  · exact Or.inl ha
  · obtain ⟨leaf, -, hleaf⟩ := takes_token.1 hm
    exact Or.inr ⟨leaf, m, hleaf, refuses_binding hitem⟩

/-- The further declarations of a list are taken. -/
theorem accepts_declarations (hr : Ready 0 s)
    (h : Reads (.tail .comma (.phrase .forDeclaration)) s ts a) (hc : allClear ts = true)
    (ha : Behind (some headerFollow) a) :
    Accepts (.tail .comma (.phrase .forDeclaration)) s ts a := by
  generalize hx : Pattern.tail .comma (.phrase .forDeclaration) = x at h ⊢
  induction h with
  | last =>
    cases hx
    exact accepts_last (tokenAt_of_not_stands (not_stands_of_behind (by decide) ha))
  | @next t x s mark m us n vs a hm hitem hrest _ ih =>
    cases hx
    simp only [List.cons_append, allClear_cons, allClear_append, Bool.and_eq_true] at hc
    have hlt : m.rest.length < s.rest.length := Takes.lt hm rfl
    have hle := (Reads.ahead hitem).le
    exact .next hm (accepts_declaration (hr.further hlt) hitem hc.2.1
      (endsDeclaration_of_tail hrest ha)) (ih (hr.further (by omega)) hc.2.2 ha rfl)
  | lexeme hl => rw [← hx] at hl; cases hl
  | _ => cases hx

/-- A list of declarations takes its readings. -/
theorem completeAt_forInitDeclarations (hr : Ready Phrase.forInitDeclarations.rank s) :
    Phrase.forInitDeclarations.CompleteAt s := by
  intro ts a h hc hb
  obtain ⟨us, rfl, hus⟩ := (shape_phrase rfl).1 h
  obtain ⟨fs, m, vs, rfl, hfirst, hrest⟩ := shape_seq.1 hus
  simp only [allClear_cons, isClear_node, allClear_append, allClear_nil, Bool.and_eq_true] at hc
  have hlow : Ready Phrase.forDeclaration.rank s :=
    ⟨fun q hq => hr.here q (Nat.lt_trans hq (by decide)), hr.later⟩
  exact .phrase (by simp) (.seq (accepts_declaration hlow hfirst hc.1.2.1
    (endsDeclaration_of_tail hrest hb)) (accepts_declarations
      (hr.further (Reads.lt hfirst rfl)) hrest hc.1.2.2 hb))

/-! ## Declarations are no assignments -/

/-- The scope of a type is taken as the scope of a name. -/
theorem takes_scope (hr : Ready Phrase.qualifier.rank s) (h : Reads (.phrase .packageScope) s ts m)
    (hc : allClear ts = true) : ∃ us, Takes (.opt (.phrase .qualifier)) s us m := by
  have hno : Refuses (.seq (.phrase .classHandle) (.token .period)) s := by
    obtain ⟨f, hf, hm⟩ := Reads.opener h rfl
    simp only [Pattern.openers, Phrase.openers, List.mem_cons, List.not_mem_nil, or_false] at hf
    rcases hf with rfl | rfl
    · exact refuses_of_excludes rfl rfl (by decide) hm
    · exact refuses_handle hm
  obtain ⟨us, hus⟩ := (hr.accepts h none (by decide) hc (by simp)).exists_takes
  exact ⟨_, .opt (.phrase (.altSecond hno hus))⟩

/-- A declaration that begins as a name does has a type that is a name. The scope of the type is what
is taken as the scope of the name. -/
theorem declared_name (hr : Ready Phrase.qualifier.rank s)
    (hvar : Reads (.opt (.token .keywordVar)) s us m) (htype : Reads (.phrase .dataType) m vs n)
    (hcv : allClear vs = true) (hn : Matches (.phrase .identifier) n)
    (hs : Behind (some nameOpeners) s) :
    ∃ qs m t b ds, Takes (.opt (.phrase .qualifier)) s qs m ∧
      LexemeAt (.phrase .identifier) m t b ∧ Reads (.many (.phrase .packedDimension)) b ds n ∧
        allClear ds = true := by
  rcases shape_opt.1 hvar with ⟨-, rfl⟩ | hvar
  · rcases dataType_cases htype with hkey | ⟨qs, m', t, b, ds, rfl, hq, ht, hdims⟩
    · -- a keyword of a type does not begin a name
      obtain ⟨f, hf, hm⟩ := behind_some.1 hs
      obtain ⟨g, hg, hm'⟩ := behind_some.1 hkey
      have hex : apart nameOpeners [.token .integerVectorKeyword, .token .integerAtomKeyword,
        .token .nonIntegerKeyword, .token .simpleTypeKeyword] = true := by decide +kernel
      exact absurd hm' (not_matches_of_excludes
        (List.all_eq_true.1 (List.all_eq_true.1 hex f hf) g hg) hm)
    · simp only [allClear_cons, isClear_node, allClear_append, allClear_nil, Bool.and_eq_true] at hcv
      obtain ⟨⟨-, ⟨-, hcq, -, hcd⟩, -⟩, -⟩ := hcv
      -- the identifier is a name of its own, or the scope of the type is taken as that of the name
      rcases shape_opt.1 hq with ⟨-, rfl⟩ | hq
      · have hi : Matches (.phrase .identifier) m' := ⟨_, _, ht⟩
        have hscope : ¬Stands .scope b :=
          not_stands_of_behind (by decide) (behind_of_dimensions hdims hn)
        exact ⟨_, _, t, b, ds, .optNone (.noPhrase (.altSecond (refuses_handle hi)
          (refuses_packageScope ht hscope))), ht, hdims, hcd⟩
      · obtain ⟨us, hus⟩ := takes_scope hr hq hcq
        exact ⟨us, m', t, b, ds, hus, ht, hdims, hcd⟩
  · -- an identifier glued to `var` is the scope that stands behind `var` as `$unit`
    obtain ⟨l, rfl, hl⟩ := shape_token.1 hvar
    obtain ⟨leaf, -, hleaf⟩ := takes_token.1 hl
    obtain ⟨f, hf, hm⟩ := behind_some.1 hs
    have hid : f = .phrase .identifier := by
      simp only [nameOpeners, List.mem_cons, List.not_mem_nil, or_false] at hf
      rcases hf with rfl | rfl | rfl | rfl | rfl
      all_goals first | rfl | exact absurd (stands_of_tokenAt hleaf) (not_stands_of_matches (by decide) hm)
    subst hid
    obtain ⟨t, c, ht⟩ := exists_lexeme hm
    obtain ⟨z, hz⟩ := exists_glued "var" rfl (by decide) hleaf ht
    obtain ⟨-, qs, d, u, e, ds, hq, hu, hdims, hclear⟩ := glued_type hz ht htype
    have hct : t.isClear = true := by
      obtain ⟨start, rfl⟩ := hz.tree
      rfl
    obtain ⟨hcq, hcd⟩ := hclear hcv hct
    obtain ⟨us, hus⟩ := takes_scope hr hq hcq
    exact ⟨us, d, u, e, ds, hus, hu, hdims, hcd⟩

/-- A colon may stand for the sign of a part select. -/
theorem exists_partSelect {leaf : ParseTree} (h : tokenAt .colon s = some (leaf, a)) :
    ∃ sign, tokenAt .partSelect s = some (sign, a) := by
  obtain ⟨text, hrest, hlen, -, hoff⟩ := tokenAt_iff.1 h
  refine ⟨_, tokenAt_iff.2 ⟨text, hrest, ?_, rfl, hoff⟩⟩
  rw [Token.length?_of_isSpelled (by decide)] at hlen ⊢
  obtain ⟨sp, hsp, hfit, hsplen⟩ := firstFit_eq_some hlen
  cases List.mem_singleton.1 hsp
  obtain ⟨more, hmore, -⟩ := Spelling.fits_iff.1 hfit
  have hplus : (Spelling.plain "+:").fits (text ++ a.rest) = false := by
    rw [hmore]
    rfl
  have hminus : (Spelling.plain "-:").fits (text ++ a.rest) = false := by
    rw [hmore]
    rfl
  rw [firstFit, Token.spellings, List.find?_cons, hplus]
  simp only
  rw [List.find?_cons, hminus]
  exact hlen

/-- A select that is taken where a dimension is read is this dimension, with its colon for the sign of
a part select. -/
theorem eq_of_dimension (hr : Ready 1 b) (h : Reads (.phrase .packedDimension) b ds m)
    (hc : allClear ds = true) (hsel : Takes (.phrase .select) b us c) : c = m := by
  obtain ⟨ts, rfl, hts⟩ := (shape_phrase rfl).1 h
  simp only [allClear_cons, isClear_node, allClear_nil, Bool.and_true, Bool.and_eq_true] at hc
  rcases shape_alt.1 hts with hts | hts
  · simp only [Pattern.row, shape_seq, shape_token] at hts
    obtain ⟨_, d, _, rfl, ⟨l, rfl, hl⟩, es, e, _, rfl, he, _, g, _, rfl, ⟨k, rfl, hk⟩, gs, i,
      _, rfl, hg, r, rfl, hr'⟩ := hts
    obtain ⟨leaf, -, hleaf⟩ := takes_token.1 hk
    obtain ⟨sign, hsign⟩ := exists_partSelect hleaf
    obtain ⟨start, text, rfl⟩ := tokenAt_eq_leaf hsign
    have hread : Reads (.phrase .select) b [.node (.phrase .select)
        ([l] ++ (es ++ (([ParseTree.leaf .partSelect start text] ++ gs) ++ [r])))] m :=
      .phrase rfl (.seq (.lexeme rfl hl) (.seq he (.seq (.given (.seq
        (.lexeme rfl (.token hsign)) hg)) (.lexeme rfl hr'))))
    have hclear : allClear [.node (.phrase .select)
        ([l] ++ (es ++ (([ParseTree.leaf .partSelect start text] ++ gs) ++ [r])))] = true := by
      simp only [allClear_append, allClear_cons, allClear_nil, Bool.and_true,
        Bool.and_eq_true] at hc
      simp [Label.admits, hc, ParseTree.isClear]
    obtain ⟨zs, hzs⟩ := (hr.accepts hread none (by decide) hclear (by simp)).exists_takes
    exact (Takes.unique hsel hzs).2
  · -- between the brackets of an empty dimension there is no expression to select by
    simp only [Pattern.row, Pattern.oneOf, shape_seq, shape_token] at hts
    obtain ⟨_, d, _, rfl, ⟨l, rfl, hl⟩, r, rfl, hr'⟩ := hts
    obtain ⟨_, rfl, hbody⟩ := takes_phrase.1 hsel
    obtain ⟨_, d', _, rfl, hopen, hexp⟩ := takes_seq.1 hbody
    obtain ⟨-, rfl⟩ := hopen.unique hl
    obtain ⟨_, _, _, rfl, hexp, -⟩ := takes_seq.1 hexp
    have : Refuses (.phrase .expression) d' :=
      refuses_of_excludes rfl rfl (f := .token .closeBracket) (by decide) (Takes.matches hr')
    exact absurd hexp this.not_takes

/-- The dimensions of a type are taken as selects, up to an empty one. -/
theorem selects_of_dimensions (hr : Ready 1 b)
    (h : Reads (.many (.phrase .packedDimension)) b ds n) (hc : allClear ds = true)
    (hn : Matches (.phrase .identifier) n) (hsel : Takes (.many (.phrase .select)) b us c) :
    Behind (some [.token .openBracket, .phrase .identifier]) c := by
  generalize hx : Pattern.many (.phrase .packedDimension) = x at h
  induction h generalizing us with
  | stop =>
    rcases hsel.opened with rfl | ⟨f, hf, hm⟩
    · exact behind_some.2 ⟨_, by simp, hn⟩
    · cases List.mem_singleton.1 hf
      exact absurd hm (not_matches_of_excludes (by decide) hn)
  | step hitem _ _ ih =>
    cases hx
    simp only [allClear_append, Bool.and_eq_true] at hc
    cases hsel with
    | manyStop =>
      obtain ⟨f, hf, hm⟩ := Reads.opener hitem rfl
      cases List.mem_singleton.1 hf
      exact behind_some.2 ⟨_, by simp, hm⟩
    | manyStep hfirst hmore =>
      obtain rfl := eq_of_dimension hr hitem hc.1 hfirst
      exact ih (hr.further (Reads.lt hitem rfl)) hc.2 hn hmore rfl
  | lexeme hl => rw [← hx] at hl; cases hl
  | _ => cases hx

/-- An identifier without a period behind it is taken as a whole name. -/
theorem takes_singleName (ht : LexemeAt (.phrase .identifier) s t a) (ha : ¬Stands .period a) :
    Takes (.phrase .hierarchicalName) s [.node (.phrase .hierarchicalName) ([] ++ ([t] ++ []))] a := by
  refine .phrase (.seq (.optNone (.noFirst ?_)) (.seq ht (.tailStop (tokenAt_of_not_stands ha))))
  exact refuses_of_excludes rfl rfl (f := .phrase .identifier) (by decide) ⟨_, _, ht⟩

/-- No list of assignments is taken where the head of a declaration is read, with a name behind it. -/
theorem refuses_assignments (hr : Ready Phrase.qualifier.rank s)
    (hvar : Reads (.opt (.token .keywordVar)) s us m) (htype : Reads (.phrase .dataType) m vs n)
    (hcv : allClear vs = true) (hn : Matches (.phrase .identifier) n) :
    Refuses (.phrase .forInitAssignments) s := by
  refine refuses_of_not_takes rfl fun us c hlist => ?_
  obtain ⟨us, rfl, hinit⟩ := takes_phrase.1 hlist
  obtain ⟨vs, rfl, hitems⟩ := takes_phrase.1 (show Takes (.phrase .variableAssignments) s us c from
    hinit)
  obtain ⟨us, c', ws, rfl, hitem, -⟩ := takes_seq.1 hitems
  obtain ⟨xs, rfl, hparts⟩ := takes_phrase.1 hitem
  obtain ⟨ys, d, zs, rfl, hlvalue, hright⟩ := takes_seq.1 hparts
  obtain ⟨_, e, _, rfl, hsign, -⟩ := takes_seq.1 hright
  obtain ⟨us, rfl, hl⟩ := takes_phrase.1 hlvalue
  rcases takes_alt.1 hl with hl | ⟨-, hl⟩
  · obtain ⟨f, hf, hm⟩ := Reads.opener (.seq hvar htype) rfl
    have hno : Refuses (.phrase .lvalueConcatenation) s :=
      refuses_of_apart rfl rfl (by decide) (behind_some.2 ⟨f, hf, hm⟩)
    exact hno.not_takes hl
  · obtain ⟨us, rfl, hbody⟩ := takes_phrase.1 hl
    have hopen : Behind (some nameOpeners) s := by
      rcases hl.opened with rfl | ⟨f, hf, hm⟩
      · have := Takes.lt hl rfl
        omega
      · exact behind_some.2 ⟨f, hf, hm⟩
    obtain ⟨qs, m, t, b, ds, hq, ht, hdims, hcd⟩ := declared_name hr hvar htype hcv hn hopen
    obtain ⟨qs', m', vs, rfl, hq', hrest⟩ := takes_seq.1 hbody
    obtain ⟨-, rfl⟩ := hq.unique hq'
    obtain ⟨ns, b', ss, rfl, hname, hsel⟩ := takes_seq.1 hrest
    have hname' := takes_singleName ht
      (not_stands_of_behind (by decide) (behind_of_dimensions hdims hn))
    obtain ⟨-, rfl⟩ := hname.unique hname'
    have hb : Ready 1 b' := hr.further (by
      have h1 := Takes.lt hname' rfl
      have h2 := (Takes.ahead hq).le
      omega)
    -- the equals sign of an assignment would stand where a bracket or a name does
    have hend := selects_of_dimensions hb hdims hcd hn hsel
    obtain ⟨f, hf, hm⟩ := behind_some.1 hend
    simp only [List.mem_cons, List.not_mem_nil, or_false] at hf
    rcases hf with rfl | rfl <;>
      exact not_matches_of_excludes (x := .phrase .assignSign) (by decide) hsign.matches hm

/-- The first part of a for loop takes its readings. -/
theorem completeAt_forInit (hr : Ready Phrase.forInit.rank s) : Phrase.forInit.CompleteAt s := by
  intro ts a h hc hb
  obtain ⟨us, rfl, hus⟩ := (shape_phrase rfl).1 h
  simp only [allClear_cons, isClear_node, allClear_nil, Bool.and_true, Bool.and_eq_true] at hc
  have easy : ∀ {x : Pattern}, x.settles Phrase.forInit.rank (some headerFollow) = true →
      Reads x s us a → Accepts x s us a := fun hx h => hr.accepts h _ hx hc.2 hb
  refine Accepts.phrase (by simp) ?_
  rcases shape_alt.1 hus with hus | hus
  · exact (easy (by decide) hus).first
  · have hlow : Ready Phrase.qualifier.rank s :=
      ⟨fun q hq => hr.here q (Nat.lt_trans hq (by decide)), hr.later⟩
    obtain ⟨vs, rfl, hvs⟩ := (shape_phrase rfl).1 hus
    obtain ⟨fs, m, ws, rfl, hfirst, -⟩ := shape_seq.1 hvs
    obtain ⟨us, n, ds, b, bs, rfl, hvar, htype, -, hn⟩ := forDeclaration_cases hfirst
    simp only [allClear_cons, isClear_node, allClear_append, allClear_nil, Bool.and_eq_true] at hc
    exact .second (refuses_assignments hlow hvar htype hc.2.1.2.1.1.2.2.1 hn) (easy (by decide) hus)

end VerilogLoops.Grammar
