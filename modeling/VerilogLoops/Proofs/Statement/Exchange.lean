import VerilogLoops.Proofs.Statement.Dollar

/-!
# Names that differ in their first token only

A scope may be `$unit` or an identifier, and a path of names may begin with `$root` or with an
identifier. If the two first tokens end at the same place, whatever is read as a name with the one
is read as a name with the other, and so is every statement that begins with the name.
-/

namespace VerilogLoops.Grammar

open VerilogLoops.Text VerilogLoops.Lexical

variable {s b c a m n : Place} {t t' mark : ParseTree} {x y : Pattern}
  {ts us qs ns vs : List ParseTree}

/-! ## What stands behind the first token of a name -/

/-- A scope in front of a name. -/
def scopeTrees (t mark : ParseTree) : List ParseTree :=
  [.node (.phrase .qualifier) [.node (.phrase .packageScope) [t, mark]]]

theorem reads_scoped (hx : x = .phrase .identifier ∨ x = .token .unitScope)
    (ht : LexemeAt x s t c) (hmark : LexemeAt (.token .scope) c mark m) :
    Reads (.opt (.phrase .qualifier)) s (scopeTrees t mark) m := by
  have hbody : Reads Phrase.packageScope.body s ([t] ++ [mark]) m := by
    rcases hx with rfl | rfl
    · exact .seq (.second (.lexeme rfl ht)) (.lexeme rfl hmark)
    · exact .seq (.first (.lexeme rfl ht)) (.lexeme rfl hmark)
  exact .given (.phrase rfl (.second (.phrase rfl hbody)))

/-- The first token of a scope is followed by two colons. -/
theorem qualifier_cases (hx : x = .phrase .identifier ∨ x = .token .unitScope ∨ x = .token .rootScope)
    (ht : LexemeAt x s t c) (hq : Reads (.phrase .qualifier) s qs m) :
    x ≠ .token .rootScope ∧ ∃ mark, qs = scopeTrees t mark ∧ LexemeAt (.token .scope) c mark m := by
  have hm : Matches x s := ⟨_, _, ht⟩
  obtain ⟨us, rfl, hus⟩ := (shape_phrase rfl).1 hq
  rcases shape_alt.1 hus with hus | hus
  · exfalso
    rcases hx with rfl | rfl | rfl
    · exact not_reads_handle hm hus
    · exact not_reads_of_matches rfl (by decide) hm hus
    · exact not_reads_of_matches rfl (by decide) hm hus
  · refine ⟨?_, ?_⟩
    · rintro rfl
      exact not_reads_of_matches rfl (by decide) hm hus
    · obtain ⟨ws, rfl, hws⟩ := (shape_phrase rfl).1 hus
      simp only [Phrase.body, Pattern.row, Pattern.oneOf, shape_seq, shape_alt, shape_token,
        shape_identifier] at hws
      obtain ⟨xs, d, _, rfl, hfirst, mark, rfl, hmark⟩ := hws
      obtain ⟨f, hf, l, rfl, hl⟩ : ∃ f, (f = .token .unitScope ∨ f = .phrase .identifier) ∧
          ∃ l, xs = [l] ∧ LexemeAt f s l d := by
        rcases hfirst with ⟨l, rfl, hl⟩ | ⟨l, rfl, hl⟩
        · exact ⟨_, Or.inl rfl, l, rfl, hl⟩
        · exact ⟨_, Or.inr rfl, l, rfl, hl⟩
      suffices hfx : f = x by
        subst hfx
        obtain ⟨heq, rfl⟩ := Takes.unique ht hl
        cases heq
        exact ⟨mark, rfl, hmark⟩
      have hm' : Matches f s := ⟨_, _, hl⟩
      rcases hf with rfl | rfl <;> rcases hx with rfl | rfl | rfl <;>
        first | rfl | exact absurd hm' (not_matches_of_excludes (by decide) hm)

/-- The first token of a name is followed by two colons or by a point, unless it is the whole name. -/
theorem name_cases (hx : x = .phrase .identifier ∨ x = .token .unitScope ∨ x = .token .rootScope)
    (ht : LexemeAt x s t c) (hq : Reads (.opt (.phrase .qualifier)) s qs m)
    (hn : Reads (.phrase .hierarchicalName) m ns n) :
    (x ≠ .token .rootScope ∧ ∃ mark, qs = scopeTrees t mark ∧ LexemeAt (.token .scope) c mark m) ∨
    (x ≠ .token .unitScope ∧ qs = [] ∧ ∃ mark d rest,
      ns = [.node (.phrase .hierarchicalName) (t :: mark :: rest)] ∧
        LexemeAt (.token .period) c mark d ∧
          Reads (.separated (.phrase .identifier) .period) d rest n) ∨
    (x = .phrase .identifier ∧ qs = [] ∧ ns = [.node (.phrase .hierarchicalName) [t]] ∧ n = c) := by
  have hm : Matches x s := ⟨_, _, ht⟩
  rcases shape_opt.1 hq with ⟨rfl, rfl⟩ | hq
  · refine Or.inr ?_
    obtain ⟨us, rfl, hus⟩ := (shape_phrase rfl).1 hn
    obtain ⟨rs, d, is, rfl, hroot, hids⟩ := shape_seq.1 hus
    -- without a qualifier the first token is the root or the first name of the path
    rcases shape_opt.1 hroot with ⟨rfl, rfl⟩ | hroot
    · obtain ⟨_, e, rest, rfl, hid, htail⟩ := shape_seq.1 hids
      obtain ⟨l, rfl, hl⟩ := shape_identifier.1 hid
      have hxid : x = .phrase .identifier := by
        rcases hx with rfl | rfl | rfl
        · rfl
        · exact absurd ⟨_, _, hl⟩ (not_matches_of_excludes (by decide) hm)
        · exact absurd ⟨_, _, hl⟩ (not_matches_of_excludes (by decide) hm)
      subst hxid
      obtain ⟨heq, rfl⟩ := Takes.unique ht hl
      cases heq
      rcases shape_tail.1 htail with ⟨rfl, rfl⟩ | ⟨mark, d', us, e', vs, rfl, hmark, hid', hrest⟩
      · exact Or.inr ⟨rfl, rfl, rfl, rfl⟩
      · exact Or.inl ⟨by simp, rfl, mark, d', us ++ vs, by simp, hmark, .seq hid' hrest⟩
    · obtain ⟨_, e, _, rfl, hroot, hpoint⟩ := shape_seq.1 hroot
      obtain ⟨l, rfl, hl⟩ := shape_token.1 hroot
      obtain ⟨mark, rfl, hmark⟩ := shape_token.1 hpoint
      have hxroot : x = .token .rootScope := by
        rcases hx with rfl | rfl | rfl
        · exact absurd ⟨_, _, hl⟩ (not_matches_of_excludes (by decide) hm)
        · exact absurd ⟨_, _, hl⟩ (not_matches_of_excludes (by decide) hm)
        · rfl
      subst hxroot
      obtain ⟨heq, rfl⟩ := Takes.unique ht hl
      cases heq
      exact Or.inl ⟨by simp, rfl, mark, d, is, by simp, hmark, hids⟩
  · exact Or.inl (qualifier_cases hx ht hq)

/-- A path of names with at least one point. -/
theorem reads_rooted {rest : List ParseTree} {d : Place}
    (hx : x = .phrase .identifier ∨ x = .token .rootScope) (ht : LexemeAt x s t c)
    (hmark : LexemeAt (.token .period) c mark d)
    (hrest : Reads (.separated (.phrase .identifier) .period) d rest n) :
    Reads (.phrase .hierarchicalName) s
      [.node (.phrase .hierarchicalName) (t :: mark :: rest)] n := by
  rcases hx with rfl | rfl
  · obtain ⟨us, e, vs, rfl, hid, htail⟩ := shape_seq.1 hrest
    have hbody : Reads Phrase.hierarchicalName.body s ([] ++ ([t] ++ (mark :: us ++ vs))) n :=
      .seq .omitted (.seq (.lexeme rfl ht) (.next hmark hid htail))
    exact .phrase rfl hbody
  · have hbody : Reads Phrase.hierarchicalName.body s (([t] ++ [mark]) ++ rest) n :=
      .seq (.given (.seq (.lexeme rfl ht) (.lexeme rfl hmark))) hrest
    exact .phrase rfl hbody

/-! ## Exchanging the first token -/

/-- What is read as a name at the one place is read as a name at the other, and both end at the same
place. -/
structure Exchanges (s b : Place) : Prop where
  name : ∀ {qs m ns n}, Reads (.opt (.phrase .qualifier)) s qs m →
    Reads (.phrase .hierarchicalName) m ns n → Behind (some nameFollow) n →
      allClear qs = true → allClear ns = true → ∃ qs' m' ns',
        Reads (.opt (.phrase .qualifier)) b qs' m' ∧ Reads (.phrase .hierarchicalName) m' ns' n ∧
          allClear qs' = true ∧ allClear ns' = true ∧ ∀ vs, superGlued (qs' ++ (ns' ++ vs)) = false
  begins : ∃ x ∈ nameOpeners, Matches x s

theorem exchanges_scope (hx : x = .phrase .identifier ∨ x = .token .unitScope)
    (hy : y = .phrase .identifier ∨ y = .token .unitScope) (ht : LexemeAt x s t c)
    (ht' : LexemeAt y b t' c) (hclear : t'.isClear = true) (hc : Stands .scope c) :
    Exchanges s b where
  name := by
    intro qs m ns n hq hn hb hcq hcn
    obtain ⟨mark, rfl, hmark⟩ : ∃ mark, qs = scopeTrees t mark ∧
        LexemeAt (.token .scope) c mark m := by
      rcases name_cases (hx.imp_right Or.inl) ht hq hn with
        ⟨-, h⟩ | ⟨-, -, mark, d, rest, -, hmark, -⟩ | ⟨-, -, -, rfl⟩
      · exact h
      · exact absurd hc (not_stands_of_matches (x := .token .period) (by decide) (Takes.matches hmark))
      · exact absurd hc (not_stands_of_behind (by decide) hb)
    refine ⟨_, m, ns, reads_scoped hy ht' hmark, hn, ?_, hcn, fun vs => ?_⟩
    · simp only [scopeTrees, allClear_cons, isClear_node, allClear_nil, Bool.and_true, Bool.and_eq_true] at hcq ⊢
      exact ⟨rfl, rfl, hclear, hcq.2.2.2⟩
    · obtain ⟨us, rfl, -⟩ := (shape_phrase rfl).1 hn
      rfl
  begins := ⟨x, by rcases hx with rfl | rfl <;> decide, _, _, ht⟩

theorem exchanges_root (hx : x = .phrase .identifier ∨ x = .token .rootScope)
    (hy : y = .phrase .identifier ∨ y = .token .rootScope) (ht : LexemeAt x s t c)
    (ht' : LexemeAt y b t' c) (hclear : t'.isClear = true) (hc : Stands .period c) :
    Exchanges s b where
  name := by
    intro qs m ns n hq hn hb hcq hcn
    obtain ⟨rfl, mark, d, rest, rfl, hmark, hrest⟩ : qs = [] ∧ ∃ mark d rest,
        ns = [.node (.phrase .hierarchicalName) (t :: mark :: rest)] ∧
          LexemeAt (.token .period) c mark d ∧
            Reads (.separated (.phrase .identifier) .period) d rest n := by
      rcases name_cases (hx.imp_right Or.inr) ht hq hn with ⟨-, mark, -, hmark⟩ | ⟨-, h⟩ | ⟨-, -, -, rfl⟩
      · exact absurd (matches_token.1 (Takes.matches hmark)) (not_stands_of_excludes (by decide) hc)
      · exact h
      · exact absurd hc (not_stands_of_behind (by decide) hb)
    refine ⟨[], b, _, .omitted, reads_rooted hy ht' hmark hrest, rfl, ?_, fun vs => ?_⟩
    · simp only [allClear_cons, isClear_node, allClear_nil, Bool.and_true, Bool.and_eq_true] at hcn ⊢
      exact ⟨rfl, hclear, hcn.2.2⟩
    · cases vs <;> rfl
  begins := ⟨x, by rcases hx with rfl | rfl <;> decide, _, _, ht⟩

section Lifting

variable (hx : Exchanges s b)
include hx

/-- A pattern is not read where a name begins that all its openers exclude. -/
theorem Exchanges.not_reads {x : Pattern} (hn : x.nullable = false)
    (hf : apart x.openers nameOpeners = true) : ¬Reads x s ts a :=
  not_reads_of_apart hn hf (behind_some.2 hx.begins)

/-- A variable is read with the other first token. -/
theorem Exchanges.variableReference (h : Reads (.phrase .variableReference) s ts a)
    (hc : allClear ts = true) (hb : Behind (some referenceFollow) a) :
    ∃ us, Reads (.phrase .variableReference) b us a ∧ allClear us = true := by
  obtain ⟨us, rfl, hus⟩ := (shape_phrase rfl).1 h
  obtain ⟨qs, m, _, rfl, hq, hrest⟩ := shape_seq.1 hus
  obtain ⟨ns, n, ss, rfl, hn, hsel⟩ := shape_seq.1 hrest
  simp only [allClear_cons, isClear_node, allClear_append, allClear_nil, Bool.and_eq_true] at hc
  have hfollow : Behind (some nameFollow) n := (Reads.behind_front hsel hb).mono (by decide)
  obtain ⟨qs', m', ns', hq', hn', hcq, hcn, hglued⟩ := hx.name hq hn hfollow hc.1.2.1 hc.1.2.2.1
  refine ⟨_, .phrase rfl (.seq hq' (.seq hn' hsel)), ?_⟩
  simp [Label.admits, hglued, hcq, hcn, hc.1.2.2.2]

/-- The name of a task is read with the other first token. -/
theorem Exchanges.routineName (h : Reads (.phrase .routineName) s ts a) (hc : allClear ts = true)
    (hb : Behind (some nameFollow) a) :
    ∃ us, Reads (.phrase .routineName) b us a ∧ allClear us = true := by
  obtain ⟨us, rfl, hus⟩ := (shape_phrase rfl).1 h
  obtain ⟨qs, m, ns, rfl, hq, hn⟩ := shape_seq.1 hus
  simp only [allClear_cons, isClear_node, allClear_append, allClear_nil, Bool.and_eq_true] at hc
  obtain ⟨qs', m', ns', hq', hn', hcq, hcn, hglued⟩ := hx.name hq hn hb hc.1.2.1 hc.1.2.2
  refine ⟨_, .phrase rfl (.seq hq' hn'), ?_⟩
  have := hglued []
  rw [List.append_nil] at this
  simp [Label.admits, this, hcq, hcn]

/-- An lvalue is read with the other first token. -/
theorem Exchanges.lvalue (h : Reads (.phrase .lvalue) s ts a) (hc : allClear ts = true)
    (hb : Behind (some referenceFollow) a) :
    ∃ us, Reads (.phrase .lvalue) b us a ∧ allClear us = true := by
  obtain ⟨us, rfl, hus⟩ := (shape_phrase rfl).1 h
  simp only [allClear_cons, isClear_node, allClear_nil, Bool.and_true, Bool.and_eq_true] at hc
  rcases shape_alt.1 hus with hus | hus
  · exact absurd hus (hx.not_reads rfl (by decide))
  · obtain ⟨vs, hvs, hcv⟩ := hx.variableReference hus hc.2 hb
    exact ⟨_, .phrase rfl (.second hvs), by simp [admits_of_ne, hcv]⟩

/-- An increment is read with the other first token. -/
theorem Exchanges.stepExpression (h : Reads (.phrase .stepExpression) s ts a)
    (hc : allClear ts = true) :
    ∃ us, Reads (.phrase .stepExpression) b us a ∧ allClear us = true := by
  obtain ⟨us, rfl, hus⟩ := (shape_phrase rfl).1 h
  simp only [allClear_cons, isClear_node, allClear_nil, Bool.and_true, Bool.and_eq_true] at hc
  rcases shape_alt.1 hus with hus | hus
  · exact absurd hus (hx.not_reads rfl (by decide))
  · obtain ⟨ls, d, os, rfl, hl, hop⟩ := shape_seq.1 hus
    obtain ⟨f, hf, hm⟩ := Reads.opener hop rfl
    cases List.mem_singleton.1 hf
    simp only [allClear_append, Bool.and_eq_true] at hc
    obtain ⟨vs, hvs, hcv⟩ := hx.lvalue hl hc.2.1 (behind_some.2 ⟨_, by decide, hm⟩)
    exact ⟨_, .phrase rfl (.second (.seq hvs hop)), by simp [admits_of_ne, hcv, hc.2.2]⟩

/-- An assignment is read with the other first token. -/
theorem Exchanges.operatorAssignment (h : Reads (.phrase .operatorAssignment) s ts a)
    (hc : allClear ts = true) :
    ∃ us, Reads (.phrase .operatorAssignment) b us a ∧ allClear us = true := by
  obtain ⟨us, rfl, hus⟩ := (shape_phrase rfl).1 h
  obtain ⟨ls, d, os, rfl, hl, hop⟩ := shape_seq.1 hus
  obtain ⟨f, hf, hm⟩ := Reads.opener hop rfl
  cases List.mem_singleton.1 hf
  simp only [allClear_cons, isClear_node, allClear_append, allClear_nil, Bool.and_eq_true] at hc
  obtain ⟨vs, hvs, hcv⟩ := hx.lvalue hl hc.1.2.1 (behind_some.2 ⟨_, by decide, hm⟩)
  exact ⟨_, .phrase rfl (.seq hvs hop), by simp [admits_of_ne, hcv, hc.1.2.2]⟩

/-- A call is read with the other first token. -/
theorem Exchanges.routineCall (h : Reads (.phrase .routineCall) s ts a) (hc : allClear ts = true)
    (hb : Behind (some operandFollow) a) :
    ∃ us, Reads (.phrase .routineCall) b us a ∧ allClear us = true := by
  obtain ⟨us, rfl, hus⟩ := (shape_phrase rfl).1 h
  obtain ⟨ns, d, rest, rfl, hn, hargs⟩ := shape_seq.1 hus
  simp only [allClear_cons, isClear_node, allClear_append, allClear_nil, Bool.and_eq_true] at hc
  have hfollow : Behind (some nameFollow) d := (Reads.behind_front hargs hb).mono (by decide)
  obtain ⟨vs, hvs, hcv⟩ := hx.routineName hn hc.1.2.1 hfollow
  exact ⟨_, .phrase rfl (.seq hvs hargs), by simp [admits_of_ne, hcv, hc.1.2.2]⟩

/-- A call in an expression is read with the other first token. -/
theorem Exchanges.appliedCall (h : Reads (.phrase .appliedCall) s ts a) (hc : allClear ts = true) :
    ∃ us, Reads (.phrase .appliedCall) b us a ∧ allClear us = true := by
  obtain ⟨us, rfl, hus⟩ := (shape_phrase rfl).1 h
  obtain ⟨ns, d, rest, rfl, hn, hargs⟩ := shape_seq.1 hus
  obtain ⟨f, hf, hm⟩ := Reads.opener hargs rfl
  cases List.mem_singleton.1 hf
  simp only [allClear_cons, isClear_node, allClear_append, allClear_nil, Bool.and_eq_true] at hc
  obtain ⟨vs, hvs, hcv⟩ := hx.routineName hn hc.1.2.1 (behind_some.2 ⟨_, by decide, hm⟩)
  exact ⟨_, .phrase rfl (.seq hvs hargs), by simp [admits_of_ne, hcv, hc.1.2.2]⟩

end Lifting

end VerilogLoops.Grammar
