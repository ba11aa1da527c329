import VerilogLoops.Proofs.Clear

/-!
# Lookahead: which readings are taken

A reading may choose freely, but matching commits itself to the first choice that succeeds. Where
the next lexeme tells the choices apart, there is nothing to choose: a pattern that *decides* by the
next lexeme takes every reading of it. Which lexeme may come next depends on what may follow the
pattern, and for a phrase this is listed once and for all (`Phrase.follow`).

> `Reads.accepts`: a pattern that decides by the next lexeme takes its readings, provided that the
> phrases in it do.
-/

namespace VerilogLoops.Grammar

open VerilogLoops.Text VerilogLoops.Lexical

/-! ## What may follow -/

/-- One of these lexemes stands at the place; without a list, anything may. -/
def Behind (fs : Option (List Pattern)) (a : Place) : Prop :=
  ∀ gs, fs = some gs → ∃ f ∈ gs, Matches f a

@[simp] theorem behind_none (a : Place) : Behind none a := fun _ h => by cases h

@[simp] theorem behind_some {gs : List Pattern} {a : Place} :
    Behind (some gs) a ↔ ∃ f ∈ gs, Matches f a := by
  simp [Behind]

theorem Behind.mono {gs hs : List Pattern} {a : Place} (h : Behind (some gs) a)
    (hsub : ∀ g ∈ gs, g ∈ hs) : Behind (some hs) a := by
  rw [behind_some] at h ⊢
  obtain ⟨f, hf, hm⟩ := h
  exact ⟨f, hsub f hf, hm⟩

/-- What ends an expression, whatever it is part of. -/
def expressionFollow : List Pattern :=
  [.token .closeParen, .token .closeBracket, .token .closeBrace, .token .comma, .token .semicolon,
   .token .colon, .token .partSelect, .token .closeAttribute, .token .endOfInput]

/-- What may follow operands that are joined by the operators of a level. -/
def Level.follow (level : Level) : List Pattern :=
  Pattern.token .question :: expressionFollow ++
    (Level.all.takeWhile (· ≠ level)).map fun l => Pattern.token l.operator

/-- What may follow an operand. -/
def operandFollow : List Pattern :=
  Pattern.token .question :: expressionFollow ++ Level.all.map fun l => Pattern.token l.operator

/-- What may follow a variable with its selects. -/
def referenceFollow : List Pattern :=
  [Pattern.token .openParen, .token .stepOperator, .token .assignmentOperator, .phrase .assignSign]
    ++ operandFollow

/-- What may follow a name. -/
def nameFollow : List Pattern := .token .openBracket :: referenceFollow

/-- What may follow the first part of the header of a for loop. -/
def headerFollow : List Pattern := [.token .semicolon, .token .endOfInput]

/-- What may follow a type. -/
def typeFollow : List Pattern := [.phrase .identifier, .token .endOfInput]

/-- What may follow a phrase below the compound statements. Nothing is said about these and about a
few phrases whose end is not told by the next lexeme alone. -/
def Phrase.follow : Phrase → Option (List Pattern)
  | .expression | .conditionalExpression | .argument => some expressionFollow
  | .chain level => some level.follow
  | .unary | .primary | .stepExpression | .call | .systemCall | .routineCall => some operandFollow
  | .hierarchicalName | .arrayName | .routineName => some nameFollow
  | .variableReference | .lvalue => some referenceFollow
  | .identifier | .assignSign | .variableName | .indexName | .statementLabel | .packageScope
  | .select | .packedDimension | .parenthesized | .concatenation | .lvalueConcatenation
  | .loopVariables | .attribute | .namedArgument | .appliedCall | .nullStatement | .jump
  | .assignmentStatement | .stepStatement | .callStatement => none
  | .operatorAssignment =>
    some [.token .comma, .token .closeParen, .token .semicolon, .token .endOfInput]
  | .variableAssignment | .forBinding =>
    some [.token .comma, .token .semicolon, .token .endOfInput]
  | .variableAssignments | .forInit | .forInitAssignments | .forInitDeclarations =>
    some headerFollow
  | .arguments | .forStep => some [.token .closeParen, .token .endOfInput]
  | .forStepItem => some [.token .comma, .token .closeParen, .token .endOfInput]
  | .attributeEntry => some [.token .comma, .token .closeAttribute, .token .endOfInput]
  | .dataType | .integerVectorType | .integerAtomType | .nonIntegerType | .simpleType
  | .namedType => some typeFollow
  | _ => some []

/-- No lexeme of the one list stands where a lexeme of the other does. -/
def apart (fs gs : List Pattern) : Bool := fs.all fun f => gs.all fun g => lexemeExcludes f g

/-- What may come at a place where a pattern begins, if this may follow it. -/
def Pattern.front (y : Pattern) (fs : Option (List Pattern)) : Option (List Pattern) :=
  if y.nullable then fs.map (y.openers ++ ·) else some y.openers

/-- All of the second may follow where the first may. -/
def covers : Option (List Pattern) → Option (List Pattern) → Bool
  | none, _ => true
  | some hs, some gs => gs.all fun g => hs.contains g
  | some _, none => false

/-- If one of these lexemes follows, every choice in the pattern is told by the next lexeme. -/
def Pattern.decides : Pattern → Option (List Pattern) → Bool
  | .token _, _ => true
  | .phrase p, fs => (Pattern.phrase p).isLexeme || covers p.follow fs
  | .seq x y, fs => x.decides (y.front fs) && y.decides fs
  | .alt x y, fs =>
    x.decides fs && y.decides fs && !x.nullable && !y.nullable && apart y.openers x.openers
  | .opt x, some gs => x.decides (some gs) && !x.nullable && apart gs x.openers
  | .many x, some gs =>
    x.decides (some (x.openers ++ gs)) && !x.nullable && apart gs x.openers
  | .tail t x, some gs =>
    t ≠ .endOfInput && x.decides (some (.token t :: gs)) && apart gs [.token t]
  | _, _ => false

/-! ## Readings -/

/-- A reading ends ahead, behind at least one character unless the pattern may match nothing. -/
theorem Reads.ahead_lt {x : Pattern} {s a : Place} {ts : List ParseTree} (h : Reads x s ts a) :
    s.Ahead a ∧ (x.nullable = false → a.rest.length < s.rest.length) := by
  induction h with
  | lexeme _ h => exact Takes.ahead_lt h
  | phrase hp _ ih => exact ⟨ih.1, fun _ => ih.2 (Phrase.body_nullable _)⟩
  | seq _ _ ihx ihy =>
    have h1 := ihx.1.le
    have h2 := ihy.1.le
    refine ⟨ihx.1.trans ihy.1, fun hn => ?_⟩
    simp only [Pattern.nullable, Bool.and_eq_false_iff] at hn
    rcases hn with hn | hn
    · have := ihx.2 hn
      omega
    · have := ihy.2 hn
      omega
  | first _ ih =>
    refine ⟨ih.1, fun hn => ih.2 ?_⟩
    simp only [Pattern.nullable, Bool.or_eq_false_iff] at hn
    exact hn.1
  | second _ ih =>
    refine ⟨ih.1, fun hn => ih.2 ?_⟩
    simp only [Pattern.nullable, Bool.or_eq_false_iff] at hn
    exact hn.2
  | omitted | stop | last => exact ⟨Place.Ahead.refl _, fun hn => by cases hn⟩
  | given _ ih => exact ⟨ih.1, fun hn => by cases hn⟩
  | step _ _ ihx ihr => exact ⟨ihx.1.trans ihr.1, fun hn => by cases hn⟩
  | next hm _ _ ihx ihr =>
    exact ⟨(Takes.ahead hm).trans (ihx.1.trans ihr.1), fun hn => by cases hn⟩

theorem Reads.ahead {x : Pattern} {s a : Place} {ts : List ParseTree} (h : Reads x s ts a) :
    s.Ahead a := h.ahead_lt.1

theorem Reads.lt {x : Pattern} {s a : Place} {ts : List ParseTree} (h : Reads x s ts a)
    (hn : x.nullable = false) : a.rest.length < s.rest.length := h.ahead_lt.2 hn

/-- A reading begins with one of the openers of the pattern, unless it is empty. -/
theorem Reads.opened {x : Pattern} {s a : Place} {ts : List ParseTree} (h : Reads x s ts a) :
    a = s ∨ ∃ f ∈ x.openers, Matches f s := by
  induction h with
  | @lexeme x s t a _ h => exact Takes.opened h
  | @phrase p s ts a hp h ih =>
    rcases ih with rfl | ⟨f, hf, hm⟩
    · have := Reads.lt h p.body_nullable
      omega
    · exact Or.inr ⟨f, Phrase.openers_body hp hf, hm⟩
  | @seq x y s ts m us a hx _ ihx ihy =>
    rcases ihx with rfl | ⟨f, hf, hm⟩
    · rcases ihy with ha | ⟨f, hf, hm⟩
      · exact Or.inl ha
      · refine Or.inr ⟨f, ?_, hm⟩
        cases hn : x.nullable with
        | true => simp [Pattern.openers, hn, hf]
        | false =>
          have := Reads.lt hx hn
          omega
    · exact Or.inr ⟨f, by simp [Pattern.openers, hf], hm⟩
  | first _ ih | second _ ih =>
    rcases ih with hnone | ⟨f, hf, hm⟩
    · exact Or.inl hnone
    · exact Or.inr ⟨f, by simp [Pattern.openers, hf], hm⟩
  | omitted | stop | last => exact Or.inl rfl
  | given _ ih => exact ih
  | step _ _ ihx ihr =>
    rcases ihx with rfl | hf
    · exact ihr
    · exact Or.inr hf
  | next hm _ _ _ _ => exact Or.inr ⟨_, by simp [Pattern.openers], _, _, hm⟩

/-- A reading of a pattern that cannot match nothing begins with one of its openers. -/
theorem Reads.opener {x : Pattern} {s a : Place} {ts : List ParseTree} (h : Reads x s ts a)
    (hn : x.nullable = false) : ∃ f ∈ x.openers, Matches f s := by
  rcases h.opened with rfl | hf
  · have := h.lt hn
    omega
  · exact hf

/-- Where a pattern is read, what may come there is what may come in front of it. -/
theorem Reads.behind_front {y : Pattern} {s a : Place} {ts : List ParseTree} (h : Reads y s ts a)
    {f : Option (List Pattern)} (ha : Behind f a) : Behind (y.front f) s := by
  unfold Pattern.front
  split
  · cases f with
    | none => exact behind_none s
    | some gs =>
      rw [Option.map_some, behind_some]
      rcases h.opened with rfl | ⟨f, hf, hm⟩
      · obtain ⟨g, hg, hm⟩ := behind_some.1 ha
        exact ⟨g, List.mem_append_right _ hg, hm⟩
      · exact ⟨f, List.mem_append_left _ hf, hm⟩
  · next hn =>
    rw [behind_some]
    exact h.opener (by simpa using hn)

/-- A pattern is refused where a lexeme stands that is apart from its openers. -/
theorem refuses_of_apart {x : Pattern} {s : Place} {gs : List Pattern} (hs : x.steady = true)
    (hn : x.nullable = false) (h : apart gs x.openers = true) (hb : Behind (some gs) s) :
    Refuses x s := by
  obtain ⟨g, hg, hm⟩ := behind_some.1 hb
  exact refuses_of_excludes hs hn (List.all_eq_true.1 h g hg) hm

/-- A pattern is not read where a lexeme stands that is apart from its openers. -/
theorem not_reads_of_apart {x : Pattern} {s a : Place} {ts : List ParseTree} {gs : List Pattern}
    (hn : x.nullable = false) (h : apart x.openers gs = true) (hb : Behind (some gs) s) :
    ¬Reads x s ts a := by
  intro hx
  obtain ⟨f, hf, hm⟩ := hx.opener hn
  obtain ⟨g, hg, hm'⟩ := behind_some.1 hb
  exact not_matches_of_excludes (List.all_eq_true.1 (List.all_eq_true.1 h f hf) g hg) hm hm'

theorem not_reads_of_matches {x f : Pattern} {s a : Place} {ts : List ParseTree}
    (hn : x.nullable = false) (h : apart x.openers [f] = true) (hs : Matches f s) :
    ¬Reads x s ts a :=
  not_reads_of_apart hn h (behind_some.2 ⟨f, List.mem_singleton.2 rfl, hs⟩)

theorem tokenAt_of_apart {t : Token} {s : Place} {gs : List Pattern}
    (h : apart gs [.token t] = true) (hb : Behind (some gs) s) : tokenAt t s = none := by
  obtain ⟨g, hg, hm⟩ := behind_some.1 hb
  refine tokenAt_of_not_stands fun ht => ?_
  have := List.all_eq_true.1 (List.all_eq_true.1 h g hg) _ (List.mem_singleton.2 rfl)
  exact not_matches_of_excludes this hm (matches_token.2 ht)

/-! ## Acceptance -/

/-- The pattern takes the text between the places, and tidying makes these trees of it. -/
def Accepts (x : Pattern) (s : Place) (ts : List ParseTree) (a : Place) : Prop :=
  ∃ us, Takes x s us a ∧ tidyAll us = ts

/-- Every clear reading of the phrase at the place is taken, if what follows may follow. -/
def Phrase.CompleteAt (p : Phrase) (s : Place) : Prop :=
  ∀ ts a, Reads (.phrase p) s ts a → allClear ts = true → Behind p.follow a →
    Accepts (.phrase p) s ts a

theorem accepts_lexeme {x : Pattern} {s a : Place} {t : ParseTree} (hx : x.isLexeme = true)
    (h : LexemeAt x s t a) : Accepts x s [t] a :=
  ⟨[t], h, by simp [tidyAll, h.tidy hx]⟩

section Operators

variable {x y : Pattern} {s m a : Place} {ts us : List ParseTree}

theorem Accepts.seq (hx : Accepts x s ts m) (hy : Accepts y m us a) :
    Accepts (.seq x y) s (ts ++ us) a := by
  obtain ⟨ts', hx, rfl⟩ := hx
  obtain ⟨us', hy, rfl⟩ := hy
  exact ⟨_, .seq hx hy, tidyAll_append _ _⟩

theorem Accepts.first (hx : Accepts x s ts a) : Accepts (.alt x y) s ts a := by
  obtain ⟨ts', hx, rfl⟩ := hx
  exact ⟨_, .altFirst hx, rfl⟩

theorem Accepts.second (hx : Refuses x s) (hy : Accepts y s ts a) :
    Accepts (.alt x y) s ts a := by
  obtain ⟨ts', hy, rfl⟩ := hy
  exact ⟨_, .altSecond hx hy, rfl⟩

theorem Accepts.given (hx : Accepts x s ts a) : Accepts (.opt x) s ts a := by
  obtain ⟨ts', hx, rfl⟩ := hx
  exact ⟨_, .opt hx, rfl⟩

theorem accepts_omitted (hx : Refuses x s) : Accepts (.opt x) s [] s := ⟨[], .optNone hx, rfl⟩

theorem accepts_stop (hx : Refuses x s) : Accepts (.many x) s [] s := ⟨[], .manyStop hx, rfl⟩

theorem Accepts.step (hx : Accepts x s ts m) (hr : Accepts (.many x) m us a) :
    Accepts (.many x) s (ts ++ us) a := by
  obtain ⟨ts', hx, rfl⟩ := hx
  obtain ⟨us', hr, rfl⟩ := hr
  exact ⟨_, .manyStep hx hr, tidyAll_append _ _⟩

theorem accepts_last {t : Token} (h : tokenAt t s = none) : Accepts (.tail t x) s [] s :=
  ⟨[], .tailStop h, rfl⟩

theorem Accepts.next {t : Token} {mark : ParseTree} {n : Place}
    (h : LexemeAt (.token t) s mark m) (hx : Accepts x m ts n) (hr : Accepts (.tail t x) n us a) :
    Accepts (.tail t x) s (mark :: ts ++ us) a := by
  obtain ⟨ts', hx, rfl⟩ := hx
  obtain ⟨us', hr, rfl⟩ := hr
  obtain ⟨leaf, heq, hmark⟩ := takes_token.1 h
  cases heq
  refine ⟨_, .tailStep hmark hx hr, ?_⟩
  have htidy := LexemeAt.tidy (x := .token t) rfl h
  simp [tidyAll, htidy]

/-- A phrase is accepted with the trees of its pattern under it. -/
theorem Accepts.phrase {p : Phrase} (hp : p ≠ .forDeclaration) (h : Accepts p.body s ts a) :
    Accepts (.phrase p) s [.node (.phrase p) ts] a := by
  obtain ⟨us, h, rfl⟩ := h
  exact ⟨_, .phrase h, by simp [tidyAll, ParseTree.tidy, tidied_of_ne hp]⟩

end Operators

/-- A pattern that decides by the next lexeme takes its readings, if the phrases that it enters
first do so at this place, and all phrases further on. -/
theorem Reads.accepts {x : Pattern} {s a : Place} {ts : List ParseTree} (h : Reads x s ts a) :
    ∀ fs, x.decides fs = true → x.steady = true → x.Entered Phrase.CompleteAt s → allClear ts = true →
      Behind fs a → Accepts x s ts a := by
  -- On the reading: each way that it does not go is refused, for what stands there is apart from
  -- the openers of that way.
  induction h with
  | lexeme hx h => exact fun _ _ _ _ _ _ => accepts_lexeme hx h
  | @phrase p s ts a hp h _ =>
    intro fs hd _ hin hc hb
    refine hin.here p (by simp [Pattern.enters]) _ _ (.phrase hp h) hc ?_
    simp only [Pattern.decides, hp, Bool.false_or] at hd
    unfold covers at hd
    split at hd
    · next hfollow =>
      rw [hfollow]
      exact behind_none a
    · next hfollow =>
      rw [hfollow]
      exact hb.mono fun g hg => by simpa using List.all_eq_true.1 hd g hg
    · cases hd
  | @seq x y s ts m us a hx hy ihx ihy =>
    intro fs hd hst hin hc hb
    simp only [Pattern.decides, Pattern.steady, Bool.and_eq_true] at hd hst
    simp only [allClear_append, Bool.and_eq_true] at hc
    have hfirst := ihx _ hd.1 hst.1 (hin.mono fun q hq => by simp [Pattern.enters, hq]) hc.1
      (Reads.behind_front hy hb)
    exact hfirst.seq (ihy _ hd.2 hst.2 (hin.behind (Reads.ahead hx) (Reads.lt hx)) hc.2 hb)
  | first _ ih =>
    intro fs hd hst hin hc hb
    simp only [Pattern.decides, Pattern.steady, Bool.and_eq_true] at hd hst
    exact (ih _ hd.1.1.1.1 hst.1 (hin.mono fun q hq => by simp [Pattern.enters, hq]) hc hb).first
  | second h ih =>
    intro fs hd hst hin hc hb
    simp only [Pattern.decides, Pattern.steady, Bool.and_eq_true, Bool.not_eq_true'] at hd hst
    have hother := refuses_of_apart hst.1 hd.1.1.2 hd.2 (behind_some.2 (Reads.opener h hd.1.2))
    exact .second hother
      (ih _ hd.1.1.1.2 hst.2 (hin.mono fun q hq => by simp [Pattern.enters, hq]) hc hb)
  | @omitted x s =>
    intro fs hd hst _ _ hb
    cases fs with
    | none => cases hd
    | some gs =>
      simp only [Pattern.decides, Pattern.steady, Bool.and_eq_true, Bool.not_eq_true'] at hd hst
      exact accepts_omitted (refuses_of_apart hst hd.1.2 hd.2 hb)
  | given _ ih =>
    intro fs hd hst hin hc hb
    cases fs with
    | none => cases hd
    | some gs =>
      simp only [Pattern.decides, Pattern.steady, Bool.and_eq_true] at hd hst
      exact (ih _ hd.1.1 hst (hin.mono fun _ hq => hq) hc hb).given
  | stop =>
    intro fs hd hst _ _ hb
    cases fs with
    | none => cases hd
    | some gs =>
      simp only [Pattern.decides, Pattern.steady, Bool.and_eq_true, Bool.not_eq_true'] at hd hst
      exact accepts_stop (refuses_of_apart hst.2 hd.1.2 hd.2 hb)
  | @step x s ts m us a hx hr ihx ihr =>
    intro fs hd hst hin hc hb
    cases fs with
    | none => cases hd
    | some gs =>
      have hrest := hd
      simp only [Pattern.decides, Bool.and_eq_true, Bool.not_eq_true'] at hd
      simp only [allClear_append, Bool.and_eq_true] at hc
      have hlt := Reads.lt hx hd.1.2
      have hitem := ihx _ hd.1.1 (by simpa [Pattern.steady, hd.1.2] using hst)
        (hin.mono fun _ hq => hq) hc.1 (Reads.behind_front hr hb)
      exact hitem.step (ihr _ hrest hst (hin.further (Reads.ahead hx) hlt) hc.2 hb)
  | last =>
    intro fs hd _ _ _ hb
    cases fs with
    | none => cases hd
    | some gs =>
      simp only [Pattern.decides, Bool.and_eq_true] at hd
      exact accepts_last (tokenAt_of_apart hd.2 hb)
  | @next t x s mark m ts n us a hm hx hr ihx ihr =>
    intro fs hd hst hin hc hb
    cases fs with
    | none => cases hd
    | some gs =>
      have hrest := hd
      simp only [Pattern.decides, Bool.and_eq_true, decide_eq_true_eq] at hd
      simp only [List.cons_append, allClear_cons, allClear_append, Bool.and_eq_true] at hc
      have hlt : m.rest.length < s.rest.length :=
        Takes.lt hm (by simp [Pattern.nullable, hd.1.1])
      have hitem := ihx _ hd.1.2 (by simpa [Pattern.steady, hd.1.1] using hst)
        (hin.further (Takes.ahead hm) hlt) hc.2.1 (Reads.behind_front hr hb)
      have hle := (Reads.ahead hx).le
      have hn := (Takes.ahead hm).trans (Reads.ahead hx)
      exact .next hm hitem (ihr _ hrest hst (hin.further hn (by omega)) hc.2.2 hb)

/-! ## From phrases of lower rank to phrases of higher rank -/

/-- The phrases below a rank take their readings at the place, and all phrases do further on. -/
structure Ready (n : Nat) (s : Place) : Prop where
  here : ∀ q : Phrase, q.rank < n → q.CompleteAt s
  later : ∀ (q : Phrase) (b : Place), b.rest.length < s.rest.length → q.CompleteAt b

/-- The pattern decides by the next lexeme, and it enters first only phrases below a rank. -/
def Pattern.settles (n : Nat) (x : Pattern) (fs : Option (List Pattern)) : Bool :=
  x.decides fs && x.steady && x.enters.all fun q => q.rank < n

theorem Ready.accepts {n : Nat} {s a : Place} (hr : Ready n s) {x : Pattern}
    {ts : List ParseTree} (h : Reads x s ts a) (fs : Option (List Pattern))
    (hx : x.settles n fs = true) (hc : allClear ts = true) (hb : Behind fs a) :
    Accepts x s ts a := by
  simp only [Pattern.settles, Bool.and_eq_true, List.all_eq_true, decide_eq_true_eq] at hx
  exact h.accepts fs hx.1.1 hx.1.2
    ⟨fun q hq => hr.here q (hx.2 q hq), fun q b _ hlt => hr.later q b hlt⟩ hc hb

theorem Ready.ahead {n : Nat} {s a : Place} (hr : Ready n s) (h : s.Ahead a) : Ready n a := by
  rcases h.eq_or_lt with rfl | hlt
  · exact hr
  · exact ⟨fun q _ => hr.later q a hlt, fun q b hb => hr.later q b (by omega)⟩

theorem Ready.further {n m : Nat} {s a : Place} (hr : Ready n s)
    (h : a.rest.length < s.rest.length) : Ready m a :=
  ⟨fun q _ => hr.later q a h, fun q b hb => hr.later q b (by omega)⟩

end VerilogLoops.Grammar
