import VerilogLoops.Proofs.Damaged
import VerilogLoops.Proofs.Spans

/-!
# Phrases in front of other text

A phrase of a larger text stands for what it stands for on its own, with the same positions. Lists and
names pass over a separator that dangles behind them. An operation does not: its operands are joined
by their places among the children, and a last operator misses its right operand.

> `prefix_values`: whatever stands behind a phrase, it stands for the same, unless an operation in it
> breaks off; then building fails.
-/

namespace VerilogLoops.Ast

open VerilogLoops.Lexical VerilogLoops.Grammar

variable {locate : Nat → Position} {p : Phrase} {label : Label} {k : Token} {ts : List ParseTree}
  {vs : List Value} {b : Built} {pos : Position}

/-! ## Separators that dangle among the children -/

/-- Either no separator ends the trees, or just the separator is left out. -/
theorem withoutMark_cases (k : Token) (ts : List ParseTree) :
    (withoutMark k ts = ts ∧ endsMarked k ts = false) ∨
      ∃ start text, ts = withoutMark k ts ++ [ParseTree.leaf k start text] ∧
        endsMarked k ts = true := by
  cases hmark : endsMarked k ts with
  | false => exact .inl ⟨withoutMark_eq_self_iff.2 hmark, rfl⟩
  | true =>
    have hlast := hmark
    rw [endsMarked, Option.any_eq_true] at hlast
    obtain ⟨last, hlast, hk⟩ := hlast
    cases last with
    | node => cases hk
    | leaf u start text =>
      obtain rfl : u = k := by simpa [ParseTree.isMark] using hk
      refine .inr ⟨start, text, ?_, rfl⟩
      rw [withoutMark, if_pos hmark, List.dropLast_append_getLast? _ hlast]

/-- A separator stands for its text. -/
theorem buildLeaf_separator (hp : p.body.separator? = some k) (text : String) :
    buildLeaf k pos text = .one (.text text) := by
  cases p with
  | chain level => cases level <;> cases hp <;> rfl
  | _ => cases hp <;> rfl

/-- Lists and names pass over the text of a separator behind them, but an operation is not joined. -/
theorem assemble_marked (hp : p.body.separator? = some k) (h : assemble p pos vs = .ok b)
    (text : String) : assemble p pos (vs ++ [Value.text text]) =
      if p.isChain then .error .missingChild else .ok b := by
  cases p with
  | chain level =>
    show _ = Except.error BuildError.missingChild
    cases vs with
    | nil => cases h
    | cons v vs =>
      have hjoin := joinOperands_of_length pos v
      -- behind the first operand come pairs, since these were joined, so the operator is a half pair
      have heven : vs.length % 2 = 0 := by
        rcases Nat.mod_two_eq_zero_or_one vs.length with heven | hodd
        · exact heven
        · simp only [assemble, (hjoin vs).2 hodd] at h
          cases h
      simp only [assemble, List.cons_append, (hjoin (vs ++ [Value.text text])).2 (by simp; omega)]
      rfl
  | hierarchicalName | forDeclaration =>
    rw [if_neg (by simp [Phrase.isChain]), ← h]
    cases vs with
    | nil => cases h
    | cons v vs => simp [assemble, theMember, childAt]
  | forInitDeclarations | forStep | variableAssignments | arguments =>
    rw [if_neg (by simp [Phrase.isChain]), ← h]
    simp [assemble]
  | _ => cases hp

/-- The children of a node without a separator that ends them make the same values, but for the text of
the separator. -/
theorem buildAll_shorn (h : buildAll locate (label.shorn ts) = .ok vs) :
    (buildAll locate ts = .ok vs ∧ label.breaksOff ts = false) ∨
      ∃ p k text, label = .phrase p ∧ p.body.separator? = some k ∧
        buildAll locate ts = .ok (vs ++ [Value.text text]) ∧
          label.breaksOff ts = p.isChain := by
  cases label with
  | whole => exact .inl ⟨h, rfl⟩
  | phrase p =>
    cases ts with
    | nil => exact .inl ⟨h, by cases p <;> rfl⟩
    | cons t rest =>
      rw [Label.shorn, Pattern.shorn] at h
      split at h
      · next k hk =>
        -- the separator is shorn or there is none; only a chain breaks off with it
        rcases withoutMark_cases k rest with ⟨hsame, hmark⟩ | ⟨start, text, hsplit, hmark⟩
        · rw [hsame] at h
          refine .inl ⟨h, ?_⟩
          cases p with
          | chain level =>
            cases hk
            exact hmark
          | _ => rfl
        · refine .inr ⟨p, k, text, rfl, hk, ?_, ?_⟩
          · rw [hsplit, ← List.cons_append]
            exact buildAll_append.2 ⟨vs, [.text text], h, by
              rw [buildAll, buildTree, buildLeaf_separator hk]; rfl, rfl⟩
          · cases p with
            | chain level =>
              cases hk
              exact hmark
            | _ => rfl
      · next hk =>
        refine .inl ⟨h, ?_⟩
        cases p with
        | chain level => cases hk
        | _ => rfl

theorem start_shed : ∀ t : ParseTree, t.shed.start = t.start
  | .leaf .. => rfl
  | .node label [] => by cases label <;> rfl
  | .node label (t :: rest) => by cases label <;> exact start_shed t

theorem breaksOff_shedAll (label : Label) (ts : List ParseTree) :
    label.breaksOff (shedAll ts) = label.breaksOff ts := by
  cases ts with
  | nil => rfl
  | cons t rest =>
    cases label with
    | whole => rfl
    | phrase p =>
      cases p with
      | chain level => exact endsMarked_shedAll level.operator rest
      | _ => rfl

mutual

/-- If a tree that is shed is built, the tree itself makes the same unless an operation breaks off. -/
theorem buildTree_of_shed : ∀ (t : ParseTree) {b : Built}, buildTree locate t.shed = .ok b →
    buildTree locate t = if t.breaksOff then .error .missingChild else .ok b
  | .leaf .., _, h => h
  | .node label children, b, h => by
    have hstart := start_shed (.node label children)
    rw [ParseTree.shed] at h hstart
    rw [buildTree, bind_eq_ok, hstart] at h
    obtain ⟨vs, hvs, hb⟩ := h
    rw [ParseTree.breaksOff, ← breaksOff_shedAll, buildTree]
    rcases buildAll_shorn hvs with ⟨hall, hmark⟩ | ⟨p, k, text, rfl, hk, hall, hmark⟩
    · rw [buildAll_of_shed children hall, hmark, Bool.false_or]
      cases anyBreaksOff children with
      | true => rfl
      | false => exact hb
    · rw [buildAll_of_shed children hall, hmark]
      cases anyBreaksOff children with
      | true =>
        rw [Bool.or_true]
        rfl
      | false => simpa using assemble_marked hk hb text

/-- If trees that are shed are built, the trees themselves make the same unless an operation breaks
off. -/
theorem buildAll_of_shed : ∀ (ts : List ParseTree) {vs : List Value},
    buildAll locate (shedAll ts) = .ok vs →
      buildAll locate ts = if anyBreaksOff ts then .error .missingChild else .ok vs
  | [], _, h => h
  | t :: rest, vs, h => by
    obtain ⟨b, us, hb, hus, rfl⟩ := buildAll_cons.1 h
    have hbuilt := buildTree_of_shed t hb
    have hrest := buildAll_of_shed rest hus
    rw [buildAll, hbuilt, anyBreaksOff]
    cases t.breaksOff with
    | true => rfl
    | false =>
      rw [hrest]
      cases anyBreaksOff rest <;> rfl

end

end VerilogLoops.Ast

namespace VerilogLoops.Grammar

open VerilogLoops.Text VerilogLoops.Lexical

variable {symbol : Symbol} {s a : Place} {t : ParseTree}

/-- What a symbol takes is taken of the text that is cut behind it. Tidied, it is a reading of both texts,
and what was taken at first is tidied to the same unless something dangles. -/
theorem takes_symbol (h : Takes symbol.pattern s [t] a) :
    ∃ u, Takes symbol.pattern (s.cut a.rest.length) [u] (a.cut a.rest.length) ∧
      Reads symbol.pattern s [u.tidy] a ∧ (u.tidy = t.tidy ∧ t.breaksOff = false ∨ u.tidy = t.shed) := by
  cases symbol with
  | token k =>
    have hlexeme : LexemeAt (.token k) s t a := h
    obtain ⟨leaf, heq, hleaf⟩ := takes_token.1 h
    cases heq
    refine ⟨t, .token (tokenAt_cut hleaf (Nat.le_refl _)), ?_, .inl ⟨rfl, hlexeme.not_breaksOff rfl⟩⟩
    rw [hlexeme.tidy rfl]
    exact .lexeme rfl hlexeme
  | phrase p =>
    by_cases hp : p.danglers = []
    · obtain ⟨u, hu, htidy⟩ := takes_alone hp h
      refine ⟨u, hu, htidy ▸ h.reads_phrase hp, .inl ⟨htidy, Bool.eq_false_iff.2 fun hb => ?_⟩⟩
      obtain ⟨level, hlevel, -⟩ := h.stands_of_breaksOff rfl (by simpa [anyBreaksOff] using hb)
      have hnone : level.operator ∈ p.danglers := hlevel
      rw [hp] at hnone
      cases hnone
    · obtain ⟨hreads, u, hu, htidy⟩ := takes_shed hp h
      exact ⟨u, hu, htidy ▸ hreads, .inr htidy⟩

end VerilogLoops.Grammar

namespace VerilogLoops

open VerilogLoops.Text VerilogLoops.Lexical VerilogLoops.Grammar VerilogLoops.Ast

/-- The tree of a whole text collects the values of its children. -/
theorem exists_whole {locate : Nat → Position} {ts : List ParseTree} {vs : List Value}
    (h : buildAll locate ts = .ok vs) :
    ∃ b, buildTree locate (.node .whole ts) = .ok b ∧ b.values = vs := by
  simp only [buildTree, h, ok_bind]
  split <;> exact ⟨_, rfl, rfl⟩

/-- **A symbol stands for the same whatever stands behind it, unless an operation breaks off.** If a symbol
matches at the start of a text, then it matches what it spans on its own, up to the end. The tree of the
longer text stands for the same, with the same positions, unless an operation in it ends with an operator,
which is then the first thing behind the span; such a tree is not built. -/
theorem prefix_values {symbol : Symbol} (origin : String) {code more : List Char} {tree : ParseTree}
    {after : Place} (h : parseTree symbol false (code ++ more) = .ok (tree, after))
    (hafter : after.offset = code.length) :
    ∃ alone mark built whole,
      parseTree symbol false code = .ok (alone, ⟨code.length, []⟩) ∧
      parseTree symbol true code = .ok (.node .whole [alone, mark], ⟨code.length, []⟩) ∧
      buildIn origin code alone = .ok built ∧
      buildIn origin code (.node .whole [alone, mark]) = .ok whole ∧ whole.values = built.values ∧
      buildIn origin (code ++ more) tree =
        (if tree.breaksOff then .error (.build .missingChild) else .ok built) ∧
      (tree.breaksOff = true → ∃ level : Level, Stands level.operator after) := by
  have ht := takes_of_parseTree h
  obtain ⟨-, hrest⟩ := ht.ahead.inText (Place.in_first (code ++ more))
  rw [hafter, List.drop_left] at hrest
  obtain ⟨alone, halone, hreads, hsame⟩ := takes_symbol ht
  -- the longer text that is cut is the shorter one
  have hfirst : (Place.first (code ++ more)).cut after.rest.length = .first code := by
    show (⟨0, (code ++ more).take ((code ++ more).length - after.rest.length)⟩ : Place) = ⟨0, code⟩
    rw [hrest, List.length_append, Nat.add_sub_cancel, List.take_left]
  have hcut : after.cut after.rest.length = ⟨code.length, []⟩ := by
    show (⟨after.offset, after.rest.take (after.rest.length - after.rest.length)⟩ : Place) = _
    rw [Nat.sub_self, List.take_zero, hafter]
  rw [hfirst, hcut] at halone
  -- behind it, the text ends
  have hmark : tokenAt .endOfInput ⟨code.length, []⟩ =
      some (.leaf .endOfInput code.length "", ⟨code.length, []⟩) := rfl
  have hwhole : Takes (.seq symbol.pattern (.token .endOfInput)) (.first code)
      [alone, .leaf .endOfInput code.length ""] ⟨code.length, []⟩ := .seq halone (.token hmark)
  -- the reading of both texts makes the same in both
  obtain ⟨built, hbuilt⟩ : ∃ b, buildTree (placed origin (code ++ more)) alone.tidy = .ok b := by
    obtain ⟨vs, hvs⟩ := exists_buildAll (placed origin (code ++ more)) hreads.fits
    obtain ⟨b, us, hb, -⟩ := buildAll_cons.1 hvs
    exact ⟨b, hb⟩
  have hshort : buildTree (placed origin code) alone = .ok built := by
    refine (buildTree_of_tidy alone ?_).1
    rw [← hbuilt]
    refine (buildTree_congr (placed_append origin code more (Nat.zero_le _)) _ fun l hl => ?_).symm
    have := Lays.start_le (Reads.lays hreads) l (by simpa using hl)
    exact placed_append origin code more (by omega)
  have hlong : buildTree (placed origin (code ++ more)) tree =
      if tree.breaksOff then .error .missingChild else .ok built := by
    rcases hsame with ⟨htidy, hno⟩ | hshed
    · rw [hno]
      exact (buildTree_of_tidy tree (htidy ▸ hbuilt)).1
    · exact buildTree_of_shed tree (hshed ▸ hbuilt)
  have hvalues : buildAll (placed origin code) [alone, .leaf .endOfInput code.length ""] =
      .ok built.values := by
    rw [buildAll, hshort, buildAll, buildTree, buildAll, ok_bind]
    exact congrArg Except.ok (List.append_nil built.values)
  obtain ⟨whole, hbuilds, hsame⟩ := exists_whole hvalues
  refine ⟨alone, _, built, whole, parseTree_of_takes halone, parseTree_whole_of_takes hwhole,
    buildIn_eq_ok.2 hshort, buildIn_eq_ok.2 hbuilds, hsame, ?_, fun hb => ?_⟩
  · cases hb : tree.breaksOff with
    | true => exact buildIn_eq_error.2 (by rw [hb] at hlong; exact hlong)
    | false => exact buildIn_eq_ok.2 (by rw [hb] at hlong; exact hlong)
  · have hsealed : symbol.pattern.isSealed = true := by cases symbol <;> rfl
    obtain ⟨level, -, hstands⟩ := ht.stands_of_breaksOff hsealed (by simpa [anyBreaksOff] using hb)
    exact ⟨level, hstands⟩

/-- An operator without a right operand is given back to the text, but not to the tree. -/
theorem prefix_values_operator :
    ∃ tree after alone built, parseTree (.phrase .expression) false ("a".toList ++ " +".toList) = .ok (tree, after) ∧
      after.offset = "a".toList.length ∧ parseTree (.phrase .expression) false "a".toList = .ok (alone, ⟨1, []⟩) ∧
        buildIn "a.sv" "a".toList alone = .ok built ∧
          buildIn "a.sv" ("a".toList ++ " +".toList) tree = .error (.build .missingChild) := by
  obtain ⟨⟨tree, after⟩, h, hstop, hbreaks⟩ : ∃ found,
      parseTree (.phrase .expression) false ("a".toList ++ " +".toList) = .ok found ∧
        found.2.offset = "a".toList.length ∧ found.1.breaksOff = true := by
    rw [parseTree_afresh]
    exact exists_of_any (by decide +kernel)
  obtain ⟨alone, -, built, -, halone, -, hbuilt, -, -, hlong, -⟩ := prefix_values "a.sv" h hstop
  rw [hbreaks] at hlong
  exact ⟨tree, after, alone, built, h, hstop, halone, hbuilt, hlong⟩

/-- A list of arguments passes over a comma behind it. -/
example : (parseSymbol (.phrase .arguments) false "a.sv" "a, .b(c), ;").toOption.map (·.built) =
    (parseSymbol (.phrase .arguments) false "a.sv" "a, .b(c)").toOption.map (·.built) := by
  rw [parseSymbol_afresh String.toList_ofList, parseSymbol_afresh String.toList_ofList]
  decide +kernel

end VerilogLoops
