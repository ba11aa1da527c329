import VerilogLoops.Grammar.Rules
import VerilogLoops.Proofs.Derivation
import VerilogLoops.Proofs.Token.Length

/-!
# Progress: why matching comes to an end

A pattern that cannot match nothing takes at least one character (`Takes.lt`). So a phrase can be
entered twice at one offset only by way of the phrases its pattern may *enter first*, and these are
ranked: `rank_lt` says that a phrase enters first only phrases of a lower rank. There is no left
recursion, and every repetition moves on.
-/

namespace VerilogLoops.Grammar

open VerilogLoops.Text VerilogLoops.Lexical

/-- What holds of all members of a list is decided by `List.all`. The instance of the library carries the
proofs of membership along, and for these the kernel evaluates a list that is not written out anew at
every member. -/
scoped instance (priority := 1100) decidableForallMem {α : Type} {P : α → Prop} [DecidablePred P]
    (l : List α) : Decidable (∀ x ∈ l, P x) :=
  decidable_of_iff (l.all fun x => P x) (by simp)

/-! ## Patterns that may match nothing, and what they enter first -/

/-- The pattern may match without taking a character. No phrase does. -/
def Pattern.nullable : Pattern → Bool
  | .token t => t = .endOfInput
  | .phrase _ => false
  | .seq x y => x.nullable && y.nullable
  | .alt x y => x.nullable || y.nullable
  | .opt _ | .many _ | .tail .. | .absent _ => true

/-- The phrases that may be entered before a character is taken. -/
def Pattern.enters : Pattern → List Phrase
  | .token _ => []
  | .phrase p => [p]
  | .seq x y => x.enters ++ if x.nullable then y.enters else []
  | .alt x y => x.enters ++ y.enters
  | .opt x | .many x | .absent x => x.enters
  | .tail .. => []

/-- Every repetition in the pattern takes a character each time. -/
def Pattern.steady : Pattern → Bool
  | .token _ | .phrase _ => true
  | .seq x y | .alt x y => x.steady && y.steady
  | .opt x | .absent x => x.steady
  | .many x => !x.nullable && x.steady
  | .tail t x => t ≠ .endOfInput && x.steady

/-- How deep a phrase stands above the tokens it may begin with. -/
def Phrase.rank : Phrase → Nat
  | .comment | .assignSign | .identifier | .classHandle => 0
  | .attribute | .packedDimension | .select | .namedArgument | .loopVariables => 0
  | .lvalueConcatenation | .concatenation | .parenthesized | .systemCall => 0
  | .foreverLoop | .repeatLoop | .whileLoop | .forLoop | .doWhileLoop | .foreachLoop => 0
  | .block | .conditional | .jump => 0
  | .integerVectorType | .integerAtomType | .nonIntegerType | .simpleType => 0
  | .variableName | .indexName | .hierarchicalName | .packageScope | .statementLabel
  | .attributeEntry | .nullStatement | .loop => 1
  | .qualifier | .namedType | .forBinding | .loopUnit => 2
  | .arrayName | .routineName | .variableReference | .dataType => 3
  | .lvalue | .routineCall | .appliedCall | .forDeclaration => 4
  | .stepExpression | .call | .variableAssignment | .operatorAssignment
  | .forInitDeclarations => 5
  | .assignmentStatement | .stepStatement | .callStatement | .primary | .variableAssignments
  | .forStepItem => 6
  | .unary | .forInitAssignments | .forStep | .statementItem => 7
  | .forInit | .statement => 8
  | .statementOrNull => 9
  | .chain level => 8 + (Level.all.reverse.idxOf level)
  | .conditionalExpression => 20
  | .expression => 21
  | .argument => 22
  | .arguments => 23

/-- All phrases have a rank below this bound. -/
theorem Phrase.rank_lt_all : ∀ p : Phrase, p.rank < Phrase.all.length := by
  decide

/-- There is no left recursion: a phrase enters first only phrases of a lower rank. -/
theorem Phrase.rank_lt {p q : Phrase} (h : q ∈ p.body.enters) : q.rank < p.rank := by
  have key : ∀ p : Phrase, ∀ q ∈ p.body.enters, q.rank < p.rank := by decide +kernel
  exact key p q h

/-- No phrase matches nothing. -/
theorem Phrase.body_nullable : ∀ p : Phrase, p.body.nullable = false := by
  decide

/-- Every repetition of the grammar takes a character each time. -/
theorem Phrase.body_steady : ∀ p : Phrase, p.body.steady = true := by
  decide

/-! ## What is taken lies ahead -/

/-- The second place lies some characters behind the first one in the same text. -/
def Place.Ahead (s a : Place) : Prop := ∃ k, k ≤ s.rest.length ∧ a = s.skip k

theorem Place.Ahead.refl (s : Place) : s.Ahead s := ⟨0, Nat.zero_le _, s.skip_zero.symm⟩

theorem Place.Ahead.trans {s m a : Place} (h : s.Ahead m) (h' : m.Ahead a) : s.Ahead a := by
  obtain ⟨k, hk, rfl⟩ := h
  obtain ⟨l, hl, rfl⟩ := h'
  refine ⟨k + l, ?_, s.skip_skip k l⟩
  rw [Place.skip_rest, List.length_drop] at hl
  omega

theorem Place.Ahead.le {s a : Place} (h : s.Ahead a) : a.rest.length ≤ s.rest.length := by
  obtain ⟨k, -, rfl⟩ := h
  simp [Place.skip_rest]

/-- A place that lies ahead but not further on is the same place. -/
theorem Place.Ahead.eq_or_lt {s a : Place} (h : s.Ahead a) :
    a = s ∨ a.rest.length < s.rest.length := by
  obtain ⟨k, hk, rfl⟩ := h
  cases k with
  | zero => exact Or.inl s.skip_zero
  | succ k =>
    refine Or.inr ?_
    rw [Place.skip_rest, List.length_drop]
    omega

theorem Place.Ahead.sum {s a : Place} (h : s.Ahead a) :
    a.offset + a.rest.length = s.offset + s.rest.length := by
  obtain ⟨k, hk, rfl⟩ := h
  rw [Place.skip_offset hk, Place.skip_rest, List.length_drop]
  omega

theorem Place.Ahead.inText {s a : Place} {text : List Char} (h : s.Ahead a)
    (hs : s.In text) : a.In text := by
  obtain ⟨k, -, rfl⟩ := h
  exact hs.skip k

/-! ## What is entered first, and what further on -/

/-- The property holds of the phrases that the pattern enters first at the place, and of all phrases
further on. -/
structure Pattern.Entered (C : Phrase → Place → Prop) (x : Pattern) (s : Place) : Prop where
  here : ∀ p ∈ x.enters, C p s
  later : ∀ (p : Phrase) (a : Place), s.Ahead a → a.rest.length < s.rest.length → C p a

section Entered

variable {C : Phrase → Place → Prop} {x y : Pattern} {s m : Place}

theorem Pattern.Entered.mono (h : y.Entered C s) (hx : ∀ p ∈ x.enters, p ∈ y.enters) :
    x.Entered C s :=
  ⟨fun p hp => h.here p (hx p hp), h.later⟩

/-- Once a character is taken, any phrase may be entered. -/
theorem Pattern.Entered.further (h : x.Entered C s) (hm : s.Ahead m)
    (hlt : m.rest.length < s.rest.length) : y.Entered C m :=
  ⟨fun p _ => h.later p m hm hlt, fun p a ha hlt' => h.later p a (hm.trans ha) (by omega)⟩

/-- A repetition enters the same phrases first behind each item. -/
theorem Pattern.Entered.ahead (h : x.Entered C s) (hm : s.Ahead m) : x.Entered C m := by
  rcases hm.eq_or_lt with rfl | hlt
  · exact h
  · exact h.further hm hlt

/-- The second part of a row is entered at the place itself only where the first takes nothing. -/
theorem Pattern.Entered.behind (h : (Pattern.seq x y).Entered C s) (hm : s.Ahead m)
    (hx : x.nullable = false → m.rest.length < s.rest.length) : y.Entered C m := by
  rcases hm.eq_or_lt with rfl | hlt
  · refine h.mono fun p hp => ?_
    cases hn : x.nullable with
    | true => simp [Pattern.enters, hn, hp]
    | false =>
      have := hx hn
      omega
  · exact h.further hm hlt

end Entered

/-! ## Tokens and patterns -/

/-- A token is found ahead, behind trivia. -/
theorem tokenAt_ahead {t : Token} {s a : Place} {leaf : ParseTree}
    (h : tokenAt t s = some (leaf, a)) : s.Ahead a := by
  simp only [tokenAt, Option.map_eq_some_iff, Prod.mk.injEq] at h
  obtain ⟨n, hn, -, rfl⟩ := h
  have hle := Token.length?_le hn
  rw [Place.skip_rest, List.length_drop] at hle
  refine ⟨triviaLength s.rest + n, ?_, s.skip_skip _ _⟩
  have := triviaLength_le s.rest
  omega

/-- Every token but the end of the input takes a character. -/
theorem tokenAt_lt {t : Token} {s a : Place} {leaf : ParseTree} (ht : t ≠ .endOfInput)
    (h : tokenAt t s = some (leaf, a)) : a.rest.length < s.rest.length := by
  simp only [tokenAt, Option.map_eq_some_iff, Prod.mk.injEq] at h
  obtain ⟨n, hn, -, rfl⟩ := h
  have hw := Token.length?_within ht hn
  simp only [Place.skip_rest, Within, List.length_drop] at hw ⊢
  omega

/-- What a pattern takes lies ahead, and it is at least one character unless the pattern may match
nothing. -/
theorem Takes.ahead_lt {x : Pattern} {s a : Place} {ts : List ParseTree} (h : Takes x s ts a) :
    s.Ahead a ∧ (x.nullable = false → a.rest.length < s.rest.length) := by
  induction h using Takes.induct with
  | token h => exact ⟨tokenAt_ahead h, fun hn => tokenAt_lt (by simpa [Pattern.nullable] using hn) h⟩
  | @phrase p s ts a _ ih => exact ⟨ih.1, fun _ => ih.2 p.body_nullable⟩
  | seq _ _ ihx ihy =>
    obtain ⟨hx, hxlt⟩ := ihx
    obtain ⟨hy, hylt⟩ := ihy
    refine ⟨hx.trans hy, fun hn => ?_⟩
    have h1 := hx.le
    have h2 := hy.le
    simp only [Pattern.nullable, Bool.and_eq_false_iff] at hn
    rcases hn with hn | hn
    · have := hxlt hn
      omega
    · have := hylt hn
      omega
  | altFirst _ ihx =>
    refine ⟨ihx.1, fun hn => ihx.2 ?_⟩
    simp only [Pattern.nullable, Bool.or_eq_false_iff] at hn
    exact hn.1
  | altSecond _ _ ihy =>
    refine ⟨ihy.1, fun hn => ihy.2 ?_⟩
    simp only [Pattern.nullable, Bool.or_eq_false_iff] at hn
    exact hn.2
  | opt _ ihx => exact ⟨ihx.1, fun hn => by cases hn⟩
  | optNone | manyStop | tailStop | tailDangling | absent => exact ⟨Place.Ahead.refl _, fun hn => by cases hn⟩
  | manyStep _ _ ihx ihr => exact ⟨ihx.1.trans ihr.1, fun hn => by cases hn⟩
  | tailStep h _ _ ihx ihr => exact ⟨(tokenAt_ahead h).trans (ihx.1.trans ihr.1), fun hn => by cases hn⟩

theorem Takes.ahead {x : Pattern} {s a : Place} {ts : List ParseTree} (h : Takes x s ts a) :
    s.Ahead a := h.ahead_lt.1

/-- A pattern that cannot match nothing takes a character. -/
theorem Takes.lt {x : Pattern} {s a : Place} {ts : List ParseTree} (h : Takes x s ts a)
    (hn : x.nullable = false) : a.rest.length < s.rest.length := h.ahead_lt.2 hn

end VerilogLoops.Grammar
