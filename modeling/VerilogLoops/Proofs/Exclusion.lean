import VerilogLoops.Proofs.Completeness.Phrases

/-!
# The two forms of an initializer exclude each other

The first part of a for loop is tried as a list of assignments and then as a list of declarations. The two
may begin with the same text, of any length: `pkg::t [a:b] [c:d]` is a type with its dimensions as well as a
variable with its selects. But an equals sign must stand behind the variable and a name behind the type, so
no more than one of the two forms is ever taken. The order of the two does not matter.

> `refuses_assignments_of_takes`: where declarations are taken no assignments are;
> `forInit_exclusive`: the matcher takes one of the two forms at most, in either order the same one.
-/

namespace VerilogLoops.Grammar

open VerilogLoops.Text VerilogLoops.Lexical

variable {x y : Pattern} {s a : Place} {ts : List ParseTree} {o o' : Outcome}

/-! ## Declarations that are taken -/

/-- A declaration that is taken has a head that is read, and a name stands behind the head. Only the last
expression of a declaration may be followed by something that dangles, so the head is as it is taken. -/
theorem head_of_takes (h : Takes (.phrase .forDeclaration) s ts a) :
    ∃ us m vs n, Reads (.opt (.token .keywordVar)) s us m ∧ Reads (.phrase .dataType) m vs n ∧
      allClear vs = true ∧ Matches (.phrase .identifier) n := by
  obtain ⟨_, rfl, hbody⟩ := takes_phrase.1 h
  obtain ⟨us, m, _, rfl, hvar, hrest⟩ := takes_seq.1 hbody
  obtain ⟨vs, n, _, rfl, htype, hbindings⟩ := takes_seq.1 hrest
  obtain ⟨_, _, _, rfl, hbinding, -⟩ := takes_seq.1 hbindings
  obtain ⟨_, rfl, hparts⟩ := takes_phrase.1 hbinding
  obtain ⟨_, _, _, rfl, hname, -⟩ := takes_seq.1 hparts
  obtain ⟨_, rfl, hidentifier⟩ := takes_phrase.1 hname
  exact ⟨_, m, _, n, hvar.reads_exact rfl rfl rfl, htype.reads_phrase rfl,
    allClear_tidyAll vs htype.allClear, hidentifier.matches⟩

/-- **Where declarations are taken no assignments are.** -/
theorem refuses_assignments_of_takes (h : Takes (.phrase .forInitDeclarations) s ts a) :
    Refuses (.phrase .forInitAssignments) s := by
  obtain ⟨_, rfl, hbody⟩ := takes_phrase.1 h
  obtain ⟨_, _, _, rfl, hdeclaration, -⟩ := takes_seq.1 hbody
  obtain ⟨us, m, vs, n, hvar, htype, hclear, hname⟩ := head_of_takes hdeclaration
  exact refuses_assignments (ready _ s) hvar htype hclear hname

/-! ## Choices -/

/-- The verdict of a choice is that of the first alternative, or else that of the second. -/
theorem verdict_alt (h : Derives (.alt x y) s o.verdict) {r r' : Option (List ParseTree × Place)}
    (hx : Derives x s r) (hy : Derives y s r') : o.verdict = r.or r' := by
  cases r with
  | none => exact h.unique (.altSecond hx hy)
  | some found => exact h.unique (.altFirst hx)

/-- If no more than one of two verdicts is a match, their order does not matter. -/
theorem or_comm_of_exclusive {r r' : Option (List ParseTree × Place)} (h : r = none ∨ r' = none) :
    r.or r' = r'.or r := by
  rcases h with rfl | rfl <;> simp

/-! ## The matcher at an offset -/

/-- The outcome of a pattern at an offset of a text, with the fuel for the text. -/
def Pattern.runAt (pattern : Pattern) (text : List Char) (offset : Nat) : Option Outcome :=
  (pattern.matcher (Phrase.matcher (fuelFor text)) ((Place.first text).skip offset)
    (.empty text.length)).map (·.1)

/-- Running a pattern at an offset gives its outcome there. -/
theorem comes_runAt (x : Pattern) (hx : x.steady = true) (text : List Char) (offset : Nat) :
    ∃ o, x.runAt text offset = some o ∧ Comes x ((Place.first text).skip offset) o := by
  obtain ⟨o, _, ho, hcomes⟩ := Pattern.exists_matcher x hx ((Place.in_first text).skip offset)
    (Memo.sound_empty text text.length)
  exact ⟨o, by rw [Pattern.runAt, ho, Option.map_some], hcomes⟩

/-- **The two forms of an initializer exclude each other.** At every offset of every text one of them at
most is taken, and the initializer is that one. What it takes and where it ends would be the same if the
declarations were tried first. -/
theorem forInit_exclusive (text : String) (offset : Nat) :
    ∃ assignments declarations init swapped,
      (Pattern.phrase .forInitAssignments).runAt text.toList offset = some assignments ∧
      (Pattern.phrase .forInitDeclarations).runAt text.toList offset = some declarations ∧
      (Pattern.phrase .forInit).runAt text.toList offset = some init ∧
      (Pattern.oneOf Phrase.forInitDeclarations [Phrase.forInitAssignments]).runAt text.toList offset
        = some swapped ∧
      (assignments.verdict = none ∨ declarations.verdict = none) ∧
      swapped.verdict = assignments.verdict.or declarations.verdict ∧
      init.verdict = (swapped.under (.phrase .forInit)).verdict := by
  obtain ⟨assignments, hassignments, hfirst⟩ := comes_runAt (.phrase .forInitAssignments) rfl text.toList offset
  obtain ⟨declarations, hdeclarations, hsecond⟩ :=
    comes_runAt (.phrase .forInitDeclarations) rfl text.toList offset
  obtain ⟨init, hinit, hwhole⟩ := comes_runAt (.phrase .forInit) rfl text.toList offset
  obtain ⟨swapped, hswapped, hother⟩ :=
    comes_runAt (.oneOf Phrase.forInitDeclarations [Phrase.forInitAssignments]) rfl text.toList offset
  have hexclusive : assignments.verdict = none ∨ declarations.verdict = none := by
    cases hverdict : declarations.verdict with
    | none => exact .inr rfl
    | some found =>
      have htakes := hsecond.verdict
      rw [hverdict] at htakes
      exact .inl (hfirst.verdict.unique (refuses_assignments_of_takes htakes))
  have heq : swapped.verdict = assignments.verdict.or declarations.verdict := by
    rw [verdict_alt hother.verdict hsecond.verdict hfirst.verdict, or_comm_of_exclusive hexclusive]
  refine ⟨_, _, _, _, hassignments, hdeclarations, hinit, hswapped, hexclusive, heq, ?_⟩
  -- the body of the phrase is the choice in the order of the grammar
  have hbody : Derives Phrase.forInit.body ((Place.first text.toList).skip offset) swapped.verdict := by
    rw [heq]
    cases hverdict : assignments.verdict with
    | none => exact .altSecond (hverdict ▸ hfirst.verdict) hsecond.verdict
    | some found => exact .altFirst (hverdict ▸ hfirst.verdict)
  cases swapped with
  | matched us b n => exact hwhole.verdict.unique (.phrase hbody)
  | failed n => exact hwhole.verdict.unique (.noPhrase hbody)

end VerilogLoops.Grammar
