import VerilogLoops.Proofs.Exclusion
import VerilogLoops.Proofs.Token.Gap

/-!
# The operators of different levels are disjoint

Many operators begin others: `<` begins `<<`, `<<<`, `<=` and `<<<=`, and `*` begins `**`, `*=` and `*)`. A
level of binary operators that takes an operator and finds no operand behind it gives the operator back, and
then the next looser level tries its own operators at that place, and whatever closes the expression is
tried there too. That this never gives another reading rests on the spellings alone: an operator of one
level bars the characters by which it would go on as an operator of another level, as an assignment, or as
a mark that may stand behind an operand.

> `operators_disjoint`: where an operator of one level stands, no operator of another level and no mark
> that may end an operand does, and this is the case where a level gives an operator back.
-/

namespace VerilogLoops.Grammar

open VerilogLoops.Text VerilogLoops.Lexical

variable {x : Pattern} {s a : Place} {ts : List ParseTree} {level : Level}

/-! ## What stands at an offset of a text -/

/-- The pattern matches at an offset of a text. -/
def Pattern.MatchesAt (x : Pattern) (text : String) (offset : Nat) : Prop :=
  ∃ ts a n, x.runAt text.toList offset = some (.matched ts a n)

/-- What an offset of a text holds for the matcher is what the place there holds. -/
theorem matchesAt_iff (hx : x.steady = true) {text : String} {offset : Nat} :
    x.MatchesAt text offset ↔ Matches x ((Place.first text.toList).skip offset) := by
  obtain ⟨o, ho, hcomes⟩ := comes_runAt x hx text.toList offset
  constructor
  · rintro ⟨ts, a, n, h⟩
    rw [ho] at h
    cases h
    exact ⟨ts, a, hcomes.verdict⟩
  · rintro ⟨ts, a, h⟩
    have hverdict := hcomes.verdict.unique h
    cases o with
    | matched us b n => exact ⟨us, b, n, ho⟩
    | failed n => cases hverdict

/-- The marks that may stand behind an operand in place of a binary operator. -/
def operandEnds : List Pattern :=
  [.token .assignmentOperator, .token .stepOperator, .token .partSelect, .token .colon,
   .token .question, .token .closeAttribute, .token .comma, .token .semicolon, .token .closeParen,
   .token .closeBracket, .token .closeBrace, .phrase .assignSign]

/-- An operator of the level stands at the offset, and nothing else that could go on or end there. -/
structure IsOperatorAt (level : Level) (text : String) (offset : Nat) : Prop where
  stands : (Pattern.token level.operator).MatchesAt text offset
  noOther : ∀ other : Level, (Pattern.token other.operator).MatchesAt text offset → other = level
  noEnd : ∀ x ∈ operandEnds, ¬x.MatchesAt text offset

/-! ## The spellings exclude each other -/

/-- Operators of different levels exclude each other. -/
theorem Level.operator_excludes {level other : Level} (h : other ≠ level) :
    level.operator.excludes other.operator = true := by
  revert level other
  decide

/-- An operator excludes every mark that may end its operand, but for one pair: an equals sign begins some
of the equality operators. -/
theorem Level.operator_excludes_end (level : Level) (hx : x ∈ operandEnds) :
    lexemeExcludes (.token level.operator) x = true ∨ (level = .equality ∧ x = .phrase .assignSign) := by
  have key : ∀ level : Level, ∀ x ∈ operandEnds,
      lexemeExcludes (.token level.operator) x = true ∨ (level = .equality ∧ x = .phrase .assignSign) := by
    decide
  exact key level x hx

/-- The equals sign that begins an equality operator is no assignment sign: another one follows it. -/
theorem not_matches_assignSign (h : Stands .equality s) : ¬Matches (.phrase .assignSign) s := by
  rintro ⟨ts, a, hassign⟩
  obtain ⟨leaf, -, hequals, hno⟩ := takes_assignSign.1 hassign
  obtain ⟨text, hrest, hlen, -⟩ := tokenAt_iff.1 hequals
  obtain ⟨n, hn⟩ := stands_iff.1 h
  rw [Token.length?_of_isSpelled (by decide)] at hlen hn
  rw [hrest] at hn
  obtain ⟨sign, hsign, hfitSign, hsignLength⟩ := firstFit_eq_some hlen
  obtain ⟨sp, hsp, hfit, -⟩ := firstFit_eq_some hn
  cases List.mem_singleton.1 hsign
  obtain ⟨rest, hsplit, -⟩ := Spelling.fits_iff.1 hfitSign
  obtain ⟨rfl, rfl⟩ := List.append_inj hsplit hsignLength.symm
  obtain ⟨more, heq, -⟩ := Spelling.fits_iff.1 hfit
  -- every equality operator that begins with an equals sign has another one next
  obtain ⟨tail, htail⟩ : ∃ tail, a.rest = '=' :: tail := by
    simp only [Token.spellings, List.mem_cons, List.not_mem_nil, or_false] at hsp
    rcases hsp with rfl | rfl | rfl | rfl | rfl | rfl <;> simp_all [Spelling.plain]
  refine hno (stands_iff.2 ⟨1, ?_⟩)
  have hbare : StartsBare ('=' :: tail) := ⟨by simp; decide, rfl⟩
  rw [htail, triviaLength_of_startsBare hbare, List.drop_zero]
  simp only [Token.length?, Token.spellings, firstFit, Spelling.fits, Spelling.plain, Barrier.bars]
  cases tail <;> rfl

theorem steady_of_mem_operandEnds (hx : x ∈ operandEnds) : x.steady = true := by
  revert x
  decide

/-- Where an operator stands it stands alone. -/
theorem isOperatorAt_of_matchesAt {text : String} {offset : Nat}
    (h : (Pattern.token level.operator).MatchesAt text offset) : IsOperatorAt level text offset := by
  have hlevel := (matchesAt_iff rfl).1 h
  refine ⟨h, fun other hother => ?_, fun x hx hmatches => ?_⟩
  · have hstands := matches_token.1 ((matchesAt_iff rfl).1 hother)
    by_cases heq : other = level
    · exact heq
    · exact absurd hstands (not_stands_of_excludes (Level.operator_excludes heq) (matches_token.1 hlevel))
  · have hend := (matchesAt_iff (steady_of_mem_operandEnds hx)).1 hmatches
    rcases level.operator_excludes_end hx with hexcludes | ⟨rfl, rfl⟩
    · exact not_matches_of_excludes hexcludes hlevel hend
    · exact not_matches_assignSign (matches_token.1 hlevel) hend

/-! ## Operators that are given back -/

/-- A separated repetition of phrases ends in an item, or its separator stands where it ends. -/
theorem Takes.tail_last {t : Token} {p : Phrase} (h : Takes (.tail t (.phrase p)) s ts a) :
    (ts = [] ∨ ∃ us cs, ts = us ++ [ParseTree.node (.phrase p) cs]) ∨ Stands t a := by
  generalize hy : Pattern.tail t (.phrase p) = y at h
  induction h using Takes.induct with
  | tailStop => exact .inl (.inl rfl)
  | tailDangling hmark =>
    cases hy
    exact .inr (stands_of_tokenAt hmark)
  | @tailStep t' x' s mark m us n vs b _ hitem _ _ ih =>
    cases hy
    obtain ⟨cs, rfl, -⟩ := takes_phrase.1 hitem
    rcases ih rfl with (rfl | ⟨ws, ds, rfl⟩) | hstands
    · exact .inl (.inr ⟨[mark], cs, rfl⟩)
    · exact .inl (.inr ⟨mark :: [ParseTree.node (.phrase p) cs] ++ ws, ds, by simp⟩)
    · exact .inr hstands
  | _ => cases hy

/-- A level whose last child is a leaf has given an operator back, and it stands where the level ends. -/
theorem stands_of_givenBack {children : List ParseTree} {t : Token} {start : Nat} {spelling : String}
    (h : Takes (.phrase (.chain level)) s [.node (.phrase (.chain level)) children] a)
    (hlast : children.getLast? = some (.leaf t start spelling)) : Stands level.operator a := by
  obtain ⟨_, heq, hbody⟩ := takes_phrase.1 h
  cases heq
  obtain ⟨us, m, vs, rfl, hoperand, htail⟩ := takes_seq.1 hbody
  obtain ⟨cs, rfl, -⟩ := takes_phrase.1 hoperand
  rcases htail.tail_last with (rfl | ⟨ws, ds, rfl⟩) | hstands
  · cases hlast
  · rw [← List.append_assoc, List.getLast?_concat] at hlast
    cases hlast
  · exact hstands

/-- **The operators of different levels are disjoint.** At every offset of every text, an operator of one
level at most stands, and where one stands none of the marks does that may end an operand. So an operator
that a level gives back, which stays the last child of its tree, can be taken by no other level and by no
mark behind the expression. -/
theorem operators_disjoint (text : String) (offset : Nat) (level : Level) :
    ((Pattern.token level.operator).MatchesAt text offset → IsOperatorAt level text offset) ∧
    ∀ children a n t start spelling,
      (Pattern.phrase (.chain level)).runAt text.toList offset
        = some (.matched [.node (.phrase (.chain level)) children] a n) →
      children.getLast? = some (.leaf t start spelling) → IsOperatorAt level text a.offset := by
  refine ⟨isOperatorAt_of_matchesAt, fun children a n t start spelling hrun hlast => ?_⟩
  obtain ⟨o, ho, hcomes⟩ := comes_runAt (.phrase (.chain level)) rfl text.toList offset
  rw [ho] at hrun
  cases hrun
  have htakes : Takes (.phrase (.chain level)) _ _ a := hcomes.verdict
  have hplace : (Place.first text.toList).skip a.offset = a := by
    have hin : a.In text.toList := (Takes.ahead htakes).inText ((Place.in_first text.toList).skip offset)
    rw [hin.eq]
    simp [Place.first, Place.skip, hin.1]
  refine isOperatorAt_of_matchesAt ((matchesAt_iff rfl).2 ?_)
  rw [hplace]
  exact matches_token.2 (stands_of_givenBack htakes hlast)

/-- In `a < << b` the level of `<` finds no operand behind its operator and gives it back at offset 1. -/
theorem operators_disjoint_givenBack :
    (Pattern.token .shift).MatchesAt "a < << b" 3 ∧ IsOperatorAt .shift "a < << b" 3 ∧
    (∃ children a n start spelling,
      (Pattern.phrase (.chain .relational)).runAt "a < << b".toList 0
        = some (.matched [.node (.phrase (.chain .relational)) children] a n) ∧
      children.getLast? = some (.leaf .relational start spelling) ∧ a.offset = 1) ∧
    IsOperatorAt .relational "a < << b" 1 := by
  have hshift : (Pattern.token .shift).MatchesAt "a < << b" 3 := ⟨_, _, _, rfl⟩
  have hrun : ∃ children a n start spelling,
      (Pattern.phrase (.chain .relational)).runAt "a < << b".toList 0
        = some (.matched [.node (.phrase (.chain .relational)) children] a n) ∧
      children.getLast? = some (.leaf .relational start spelling) ∧ a.offset = 1 :=
    ⟨_, _, _, _, _, by rfl, by rfl, by rfl⟩
  refine ⟨hshift, (operators_disjoint _ _ _).1 hshift, hrun, ?_⟩
  obtain ⟨children, a, n, start, spelling, hrun, hlast, hoffset⟩ := hrun
  exact hoffset ▸ (operators_disjoint _ 0 .relational).2 children a n _ start spelling hrun hlast

end VerilogLoops.Grammar
