import VerilogLoops.Proofs.Layout
import VerilogLoops.Proofs.Parsing
import VerilogLoops.Proofs.Token.Trivia

/-!
# Whole texts and their beginnings

A text that is one loop statement is a loop statement with nothing but trivia behind it. So parsing
a whole text and parsing a statement at its head go the same way up to the end of the statement, and
the only thing that the whole text adds is that its end is looked for behind the trivia. The end of
a statement is where its tree ends: no separator dangles behind a loop statement.

> `parse_agrees_with_parsePrefix`: one of the two ways of parsing tells what the other does.
-/

namespace VerilogLoops.Grammar

open VerilogLoops.Text VerilogLoops.Lexical

/-! ## Where trees end -/

/-- The pattern takes nothing behind its last leaf, as no separator of it may dangle at its end. -/
def Pattern.isExact : Pattern → Bool
  | .token _ | .absent _ => true
  | .phrase p => p.danglers.isEmpty
  | .seq x y => y.isExact && (!y.nullable || x.isExact)
  | .alt x y => x.isExact && y.isExact
  | .opt x | .many x => x.isExact
  | .tail .. => false

theorem Phrase.body_isExact {p : Phrase} (h : p.danglers.isEmpty = true) : p.body.isExact = true := by
  revert p
  decide

/-- What an exact pattern takes ends with its last tree. -/
theorem Takes.stop {x : Pattern} {s a : Place} {ts : List ParseTree} (h : Takes x s ts a)
    (hx : x.isExact = true) :
    (ts = [] ∧ a = s) ∨ (ts ≠ [] ∧ ParseTree.stop.stopOfLast ts = a.offset) := by
  induction h using Takes.induct with
  | token h => exact Or.inr ⟨List.cons_ne_nil _ _, stop_of_tokenAt h⟩
  | @phrase p s us b h ih =>
    rcases ih (Phrase.body_isExact hx) with ⟨-, rfl⟩ | ⟨-, hstop⟩
    · have := Takes.lt h p.body_nullable
      omega
    · exact Or.inr ⟨List.cons_ne_nil _ _, hstop⟩
  | @seq x y s us m vs b h h' ihx ihy =>
    simp only [Pattern.isExact, Bool.and_eq_true, Bool.or_eq_true, Bool.not_eq_true'] at hx
    -- if the second part is empty, the first one has to be exact
    rcases ihy hx.1 with ⟨rfl, rfl⟩ | ⟨hne, hstop⟩
    · rcases hx.2 with hn | hx
      · have := Takes.lt h' hn
        omega
      · rw [List.append_nil]
        exact ihx hx
    · exact Or.inr ⟨by simp [hne], by rw [stopOfLast_append us hne, hstop]⟩
  | altFirst _ ih =>
    simp only [Pattern.isExact, Bool.and_eq_true] at hx
    exact ih hx.1
  | altSecond _ _ ih =>
    simp only [Pattern.isExact, Bool.and_eq_true] at hx
    exact ih hx.2
  | opt _ ih => exact ih hx
  | optNone | manyStop | absent => exact Or.inl ⟨rfl, rfl⟩
  | @manyStep x s us m vs b h _ ihx ihr =>
    rcases ihr hx with ⟨rfl, rfl⟩ | ⟨hne, hstop⟩
    · rw [List.append_nil]
      exact ihx hx
    · exact Or.inr ⟨by simp [hne], by rw [stopOfLast_append us hne, hstop]⟩
  | tailStop | tailDangling | tailStep => cases hx

/-- The tree of a loop statement ends where the statement does. -/
theorem stop_of_loop {s a : Place} {t : ParseTree} (h : Takes (.phrase .loop) s [t] a) :
    t.stop = a.offset := by
  rcases h.stop rfl with ⟨hnil, -⟩ | ⟨-, hstop⟩
  · cases hnil
  · exact hstop

/-! ## The end of a text -/

/-- The end of a text is found exactly behind trivia. -/
theorem stands_endOfInput {s : Place} : Stands .endOfInput s ↔ IsTrivia s.rest := by
  have hle := triviaLength_le s.rest
  rw [Stands, tokenAt, Option.isSome_map, IsTrivia]
  constructor
  · intro h
    obtain ⟨n, hn⟩ := Option.isSome_iff_exists.1 h
    have hnil := congrArg List.length (length?_endOfInput.1 hn).1
    rw [Place.skip_rest, List.length_drop, List.length_nil] at hnil
    omega
  · intro h
    have hnil : (s.skip (triviaLength s.rest)).rest = [] := by
      rw [Place.skip_rest, h, List.drop_length]
    rw [length?_endOfInput.2 ⟨hnil, rfl⟩]
    rfl

/-- A text is one loop statement if its end is found behind a loop statement. -/
theorem takes_loopUnit {s m a : Place} {t leaf : ParseTree} (h : Takes (.phrase .loop) s [t] m)
    (hend : tokenAt .endOfInput m = some (leaf, a)) :
    Takes (.phrase .loopUnit) s [.node (.phrase .loopUnit) [t, leaf]] a :=
  .phrase (.seq h (.token hend))

/-- Without a loop statement the furthest failure is that of the loop statement. -/
theorem reaches_loopUnit_of_refuses {s : Place} {n : Nat} (h : Refuses (.phrase .loop) s)
    (hn : Reaches (.phrase .loopUnit) s n) : Reaches (.phrase .loop) s n := by
  cases hn with
  | phrase hbody =>
    cases hbody with
    | seq ht _ _ => exact absurd ht h.not_takes
    | noFirst _ hloop => exact hloop

/-- With other text behind a loop statement the furthest failure is where this text begins or
behind. -/
theorem reaches_loopUnit_of_takes {s m : Place} {t : ParseTree} {n : Nat}
    (h : Takes (.phrase .loop) s [t] m) (hend : tokenAt .endOfInput m = none)
    (hn : Reaches (.phrase .loopUnit) s n) : m.offset + triviaLength m.rest ≤ n := by
  cases hn with
  | phrase hbody =>
    cases hbody with
    | noFirst hr _ => exact absurd h hr.not_takes
    | seq ht _ hy =>
      obtain ⟨-, rfl⟩ := h.unique ht
      cases hy with
      | token h => rw [hend] at h; cases h
      | noToken _ =>
        rw [Place.skip_offset (triviaLength_le _)]
        exact Nat.le_max_right _ _

end VerilogLoops.Grammar

namespace VerilogLoops

open VerilogLoops.Text VerilogLoops.Grammar VerilogLoops.Ast

/-- A loop statement and the end of the input stand for what the loop statement stands for. -/
theorem buildTree_loopUnit {locate : Nat → Position} {t leaf : ParseTree} {v : Value}
    (h : buildTree locate t = .ok (.one v)) (hv : v.isA .loop = true)
    (hleaf : ∃ start text, leaf = .leaf .endOfInput start text) :
    buildTree locate (.node (.phrase .loopUnit) [t, leaf]) = .ok (.one v) := by
  obtain ⟨start, text, rfl⟩ := hleaf
  have hall : buildAll locate [t, .leaf .endOfInput start text] = .ok [v] := by
    simp [buildAll, h, buildTree, buildLeaf, Built.values]
  rw [buildTree_phrase hall]
  simp [assemble, theMember, hv]

/-- What comes of a text that begins with a loop statement: the whole text is one exactly if trivia
stands behind. -/
theorem parse_of_takes {origin code : String} {t : ParseTree} {m : Place} {v : Value}
    (ht : Takes (.phrase .loop) (.first code.toList) [t] m)
    (hb : buildIn origin code.toList t = .ok (.one v)) (hv : v.isA .loop = true) :
    (IsTrivia m.rest → parse origin code = .ok v) ∧
    (¬IsTrivia m.rest → ∃ offset, m.offset + triviaLength m.rest ≤ offset ∧
      parse origin code = .error (.mismatch (Location.ofOffset code.toList offset))) := by
  refine ⟨fun htrivia => ?_, fun hother => ?_⟩
  · obtain ⟨leaf, a, hend⟩ := exists_of_stands (stands_endOfInput.2 htrivia)
    exact parse_eq_ok.2 ⟨_, a, takes_loopUnit ht hend,
      buildIn_eq_ok.2 (buildTree_loopUnit (buildIn_eq_ok.1 hb) hv (tokenAt_eq_leaf hend))⟩
  · have hend := tokenAt_of_not_stands (mt stands_endOfInput.1 hother)
    have hrefuses : Refuses (Symbol.phrase .loopUnit).pattern (.first code.toList) :=
      .noPhrase (.noSecond ht (.noToken hend))
    obtain ⟨reach, hreach, heq⟩ := parseTree_refused hrefuses
    refine ⟨_, ?_, by simp only [parse, parseSymbol, heq]; rfl⟩
    exact Nat.le_trans (reaches_loopUnit_of_takes ht hend hreach) (Nat.le_max_left _ _)

/-- A text that does not begin with a loop statement is reported at one place. -/
theorem parse_of_refuses (origin : String) {code : String}
    (h : Refuses (.phrase .loop) (.first code.toList)) :
    ∃ e, parsePrefix origin code = .error e ∧ parse origin code = .error e := by
  have hloop : Refuses (Symbol.phrase .loop).pattern (.first code.toList) := h
  have hunit : Refuses (Symbol.phrase .loopUnit).pattern (.first code.toList) :=
    .noPhrase (.noFirst h)
  obtain ⟨n, hn, heq⟩ := parseTree_refused hloop
  obtain ⟨k, hk, heq'⟩ := parseTree_refused hunit
  have hnk : n = k := hn.unique (reaches_loopUnit_of_refuses h hk)
  subst hnk
  exact ⟨_, by simp only [parsePrefix, parseSymbol, heq]; rfl,
    by simp only [parse, parseSymbol, heq']; rfl⟩

/-- **Whole texts and their beginnings agree.** A text is one loop statement if and only if it begins
with a loop statement and nothing but blanks and complete comments stand behind, and then the nodes
are the same. If it does not begin with a loop statement, then the same place is reported either
way. If it begins with one and there is other text behind, then the reported place is not in front
of the first character behind that is no trivia. -/
theorem parse_agrees_with_parsePrefix (origin code : String) :
    (∀ v, parse origin code = .ok v ↔
      ∃ rest, parsePrefix origin code = .ok (v, rest) ∧ IsTrivia rest.toList) ∧
    (∀ e, parsePrefix origin code = .error e → parse origin code = .error e) ∧
    ∀ v rest, parsePrefix origin code = .ok (v, rest) → ¬IsTrivia rest.toList →
      ∃ consumed offset, code = consumed ++ rest ∧
        consumed.length + triviaLength rest.toList ≤ offset ∧
        parse origin code = .error (.mismatch (Location.ofOffset code.toList offset)) := by
  -- either the text begins with a loop, or both are told of the same place
  rcases parseSymbol_loop (Or.inl rfl) origin code with ⟨t, m, v, ht, hv, hb, -⟩ | ⟨hr, -⟩
  · have hin := ht.ahead.inText (Place.in_first code.toList)
    have hrest : code.toList.drop t.stop = m.rest := by rw [stop_of_loop ht, hin.2]
    have hpre : parsePrefix origin code = .ok (v, String.ofList m.rest) :=
      parsePrefix_eq_ok.2 ⟨t, m, ht, hb, by rw [hrest]⟩
    obtain ⟨htrivia, hother⟩ := parse_of_takes ht hb hv
    simp only [hpre, Except.ok.injEq, Prod.mk.injEq, reduceCtorEq, false_imp_iff, implies_true,
      true_and]
    -- what is behind the loop decides
    by_cases h : IsTrivia m.rest
    · refine ⟨fun u => ?_, ?_⟩
      · rw [htrivia h, Except.ok.injEq]
        constructor
        · rintro rfl
          exact ⟨_, ⟨rfl, rfl⟩, by rwa [String.toList_ofList]⟩
        · rintro ⟨rest, ⟨rfl, -⟩, -⟩
          rfl
      · rintro u rest ⟨rfl, rfl⟩ hno
        rw [String.toList_ofList] at hno
        exact absurd h hno
    · obtain ⟨offset, hle, heq⟩ := hother h
      refine ⟨fun u => ?_, ?_⟩
      · rw [heq]
        constructor
        · intro hu
          cases hu
        · rintro ⟨rest, ⟨-, rfl⟩, htriv⟩
          rw [String.toList_ofList] at htriv
          exact absurd htriv h
      · rintro u rest ⟨rfl, rfl⟩ -
        refine ⟨String.ofList (code.toList.take m.offset), offset, ?_, ?_, heq⟩
        · rw [← String.toList_inj, String.toList_append, String.toList_ofList,
            String.toList_ofList, hin.2, List.take_append_drop]
        · rw [String.toList_ofList, String.length_ofList, List.length_take, Nat.min_eq_left hin.1]
          exact hle
  · obtain ⟨e, hpre, hwhole⟩ := parse_of_refuses origin hr
    simp [hpre, hwhole]

/-- A comment behind the statement, a comment without its end behind it, and a statement that breaks
off behind an opening comment. -/
theorem parse_agrees_with_parsePrefix_comments :
    (∃ v, parse "a.sv" "forever ; // end" = .ok v) ∧
    (∃ v rest consumed offset, parsePrefix "a.sv" "forever ; /* end" = .ok (v, rest) ∧
      "forever ; /* end" = consumed ++ rest ∧ consumed.length + triviaLength rest.toList ≤ offset ∧
        parse "a.sv" "forever ; /* end" =
          .error (.mismatch (Location.ofOffset "forever ; /* end".toList offset))) ∧
    parsePrefix "a.sv" "/* a */ forever" = .error (.mismatch ⟨1, 16⟩) ∧
    parse "a.sv" "/* a */ forever" = .error (.mismatch ⟨1, 16⟩) := by
  have broken : parsePrefix "a.sv" "/* a */ forever" = .error (.mismatch ⟨1, 16⟩) := by
    rw [parsePrefix_afresh String.toList_ofList]
    exact eq_error_of_match (by decide)
  refine ⟨?_, ?_, broken, (parse_agrees_with_parsePrefix _ _).2.1 _ broken⟩
  · obtain ⟨⟨v, rest⟩, h, hrest⟩ : ∃ found, parsePrefix "a.sv" "forever ; // end" = .ok found ∧
        found.2 = " // end" := by
      rw [parsePrefix_afresh String.toList_ofList]
      exact exists_of_any (by decide +kernel)
    cases hrest
    exact ⟨v, ((parse_agrees_with_parsePrefix _ _).1 v).2 ⟨_, h, by decide⟩⟩
  · obtain ⟨⟨v, rest⟩, h, hrest⟩ : ∃ found, parsePrefix "a.sv" "forever ; /* end" = .ok found ∧
        found.2 = " /* end" := by
      rw [parsePrefix_afresh String.toList_ofList]
      exact exists_of_any (by decide +kernel)
    cases hrest
    obtain ⟨consumed, offset, hcode, hle, heq⟩ :=
      (parse_agrees_with_parsePrefix _ _).2.2 v _ h (by decide)
    exact ⟨v, _, consumed, offset, h, hcode, hle, heq⟩

end VerilogLoops
