import VerilogLoops.Proofs.Matching
import VerilogLoops.Proofs.Token.Exclusive

/-!
# What a pattern may begin with

The pieces a text is cut into are tokens, identifiers that are no reserved words, and equals signs
that no other equals sign follows: the *lexemes*. Every pattern that moves on begins with one of its
openers (`Takes.opened`), and two lexemes that exclude each other do not match at one place
(`not_matches_of_excludes`). So a pattern is refused where a lexeme stands that none of its openers
can share a place with (`refuses_of_excludes`).
-/

namespace VerilogLoops.Grammar

open VerilogLoops.Text VerilogLoops.Lexical

/-! ## Lexemes -/

/-- The pattern is read as one piece. -/
def Pattern.isLexeme : Pattern → Bool
  | .token _ | .phrase .identifier | .phrase .assignSign => true
  | _ => false

/-- The pattern matches at the place. -/
def Matches (x : Pattern) (s : Place) : Prop := ∃ ts a, Takes x s ts a

theorem Takes.matches {x : Pattern} {s a : Place} {ts : List ParseTree} (h : Takes x s ts a) :
    Matches x s := ⟨ts, a, h⟩

theorem Refuses.not_matches {x : Pattern} {s : Place} (h : Refuses x s) : ¬Matches x s := by
  rintro ⟨ts, a, ht⟩
  exact h.not_takes ht

theorem matches_token {t : Token} {s : Place} : Matches (.token t) s ↔ Stands t s := by
  constructor
  · rintro ⟨ts, a, h⟩
    cases h with
    | token h => exact stands_of_tokenAt h
  · intro h
    obtain ⟨leaf, a, h⟩ := exists_of_stands h
    exact ⟨[leaf], a, .token h⟩

/-- A token stands if it is found behind the trivia. -/
theorem stands_iff {t : Token} {s : Place} :
    Stands t s ↔ ∃ n, t.length? (s.rest.drop (triviaLength s.rest)) = some n := by
  simp [Stands, tokenAt, Option.isSome_iff_exists, Place.skip_rest]

theorem not_stands_of_excludes {t u : Token} {s : Place} (h : t.excludes u = true)
    (ht : Stands t s) : ¬Stands u s := by
  intro hu
  obtain ⟨n, hn⟩ := stands_iff.1 ht
  obtain ⟨m, hm⟩ := stands_iff.1 hu
  rw [Token.length?_of_excludes h hn] at hm
  cases hm

/-- The token is made of reserved words. -/
def Token.isReserved (t : Token) : Bool :=
  t.isSpelled && t.spelled.all fun s => Token.reservedWord.spelled.contains s

theorem stands_reservedWord {t : Token} {s : Place} (h : Token.isReserved t = true)
    (ht : Stands t s) : Stands .reservedWord s := by
  simp only [Token.isReserved, Token.spelled_eq, Bool.and_eq_true, List.all_eq_true,
    List.contains_iff_mem] at h
  obtain ⟨n, hn⟩ := stands_iff.1 ht
  rw [Token.length?_of_isSpelled h.1] at hn
  obtain ⟨sp, hsp, hfit, -⟩ := firstFit_eq_some hn
  refine stands_iff.2 ?_
  cases hr : Token.length? .reservedWord (s.rest.drop (triviaLength s.rest)) with
  | some m => exact ⟨m, rfl⟩
  | none =>
    rw [Token.length?_of_isSpelled (by decide)] at hr
    simp only [firstFit, Option.map_eq_none_iff, List.find?_eq_none] at hr
    exact absurd hfit (hr sp (h.2 sp hsp))

/-- An identifier phrase is one leaf, and no reserved word stands at its place. -/
theorem takes_identifier {s a : Place} {ts : List ParseTree} :
    Takes (.phrase .identifier) s ts a ↔
      ∃ leaf, ts = [.node (.phrase .identifier) [leaf]] ∧ ¬Stands .reservedWord s ∧
        (tokenAt .identifier s = some (leaf, a) ∨ tokenAt .escapedIdentifier s = some (leaf, a)) := by
  constructor
  · intro h
    cases h with
    | phrase h =>
      cases h with
      | seq hx hy =>
        cases hx with
        | absent hx =>
          cases hx with
          | noToken hx =>
            cases hy with
            | altFirst hy =>
              cases hy with
              | token hy => exact ⟨_, rfl, not_stands_iff.2 hx, Or.inl hy⟩
            | altSecond _ hy =>
              cases hy with
              | token hy => exact ⟨_, rfl, not_stands_iff.2 hx, Or.inr hy⟩
  · rintro ⟨leaf, rfl, hr, hleaf⟩
    have habsent : Takes (.absent (.token .reservedWord)) s [] s :=
      .absent (.noToken (tokenAt_of_not_stands hr))
    refine .phrase (Derives.seq habsent ?_)
    rcases hleaf with hleaf | hleaf
    · exact .altFirst (.token hleaf)
    · refine .altSecond (.noToken ?_) (.token hleaf)
      exact tokenAt_of_not_stands
        (not_stands_of_excludes (t := .escapedIdentifier) (by decide) (stands_of_tokenAt hleaf))

/-- The equals sign of an assignment is one leaf. -/
theorem takes_assignSign {s a : Place} {ts : List ParseTree} :
    Takes (.phrase .assignSign) s ts a ↔
      ∃ leaf, ts = [.node (.phrase .assignSign) [leaf]] ∧
        tokenAt .equals s = some (leaf, a) ∧ ¬Stands .equals a := by
  constructor
  · intro h
    cases h with
    | phrase h =>
      cases h with
      | seq hx hy =>
        cases hx with
        | token hx =>
          cases hy with
          | absent hy =>
            cases hy with
            | noToken hy => exact ⟨_, rfl, hx, not_stands_iff.2 hy⟩
  · rintro ⟨leaf, rfl, hleaf, ha⟩
    have hbody : Takes Phrase.assignSign.body s ([leaf] ++ []) a :=
      .seq (.token hleaf) (.absent (.noToken (tokenAt_of_not_stands ha)))
    exact .phrase hbody

/-- The lexemes cannot match at the same place. An identifier is no reserved word. -/
def lexemeExcludes : Pattern → Pattern → Bool
  | .token t, .token u => t.excludes u
  | .phrase .identifier, .token u | .token u, .phrase .identifier =>
    (Token.identifier.excludes u && Token.escapedIdentifier.excludes u) || Token.isReserved u
  | .phrase .assignSign, .token u | .token u, .phrase .assignSign => Token.equals.excludes u
  | .phrase .identifier, .phrase .assignSign | .phrase .assignSign, .phrase .identifier => true
  | _, _ => false

theorem not_stands_of_identifier {u : Token} {s : Place}
    (h : ((Token.identifier.excludes u && Token.escapedIdentifier.excludes u)
      || Token.isReserved u) = true)
    (hm : Matches (.phrase .identifier) s) : ¬Stands u s := by
  obtain ⟨ts, a, ht⟩ := hm
  obtain ⟨leaf, -, hr, hleaf⟩ := takes_identifier.1 ht
  simp only [Bool.or_eq_true, Bool.and_eq_true] at h
  rcases h with ⟨hi, he⟩ | h
  · rcases hleaf with hleaf | hleaf
    · exact not_stands_of_excludes hi (stands_of_tokenAt hleaf)
    · exact not_stands_of_excludes he (stands_of_tokenAt hleaf)
  · exact fun hu => hr (stands_reservedWord h hu)

theorem stands_equals_of_assignSign {s : Place} (hm : Matches (.phrase .assignSign) s) :
    Stands .equals s := by
  obtain ⟨ts, a, ht⟩ := hm
  obtain ⟨leaf, -, hleaf, -⟩ := takes_assignSign.1 ht
  exact stands_of_tokenAt hleaf

/-- Of two lexemes that exclude each other, only one matches at a place. -/
theorem not_matches_of_excludes {x y : Pattern} {s : Place} (h : lexemeExcludes x y = true)
    (hx : Matches x s) : ¬Matches y s := by
  intro hy
  cases x with
  | token t =>
    cases y with
    | token u => exact not_stands_of_excludes h (matches_token.1 hx) (matches_token.1 hy)
    | phrase q =>
      cases q with
      | identifier => exact not_stands_of_identifier h hy (matches_token.1 hx)
      | assignSign => exact not_stands_of_excludes h (stands_equals_of_assignSign hy) (matches_token.1 hx)
      | _ => cases h
    | _ => cases h
  | phrase p =>
    cases p with
    | identifier =>
      cases y with
      | token u => exact not_stands_of_identifier h hx (matches_token.1 hy)
      | phrase q =>
        cases q with
        | assignSign => exact not_stands_of_identifier (by decide) hx (stands_equals_of_assignSign hy)
        | _ => cases h
      | _ => cases h
    | assignSign =>
      cases y with
      | token u => exact not_stands_of_excludes h (stands_equals_of_assignSign hx) (matches_token.1 hy)
      | phrase q =>
        cases q with
        | identifier => exact not_stands_of_identifier (by decide) hy (stands_equals_of_assignSign hx)
        | _ => cases h
      | _ => cases h
    | _ => cases h
  | _ => cases h

/-! ## Openers -/

/-- What a name with an optional scope may begin with. -/
def nameOpeners : List Pattern :=
  [.token .keywordThis, .token .keywordSuper, .token .unitScope, .token .rootScope,
   .phrase .identifier]

/-- What an expression may begin with. -/
def operandOpeners : List Pattern :=
  [Pattern.token .stepOperator, .token .unaryOperator, .token .number, .token .string,
   .token .openParen, .token .openBrace, .token .systemName] ++ nameOpeners

/-- What a loop statement may begin with. -/
def loopOpeners : List Pattern :=
  [.token .keywordForever, .token .keywordRepeat, .token .keywordWhile, .token .keywordFor,
   .token .keywordDo, .token .keywordForeach]

/-- What a statement may begin with, apart from a label and attributes. -/
def itemOpeners : List Pattern :=
  [Pattern.token .keywordBegin, .token .keywordIf, .token .keywordReturn, .token .keywordBreak,
   .token .keywordContinue, .token .stepOperator, .token .openBrace, .token .systemName]
    ++ nameOpeners ++ loopOpeners

/-- What a data type may begin with. -/
def typeOpeners : List Pattern :=
  [.token .integerVectorKeyword, .token .integerAtomKeyword, .token .nonIntegerKeyword,
   .token .simpleTypeKeyword, .token .unitScope, .phrase .identifier]

/-- The lexemes with which a phrase may begin. -/
def Phrase.openers : Phrase → List Pattern
  | .comment => [.token .lineComment, .token .blockComment]
  | .assignSign => [.phrase .assignSign]
  | .identifier | .variableName | .indexName | .statementLabel | .attributeEntry
  | .forBinding => [.phrase .identifier]
  | .hierarchicalName => [.token .rootScope, .phrase .identifier]
  | .packageScope | .namedType => [.token .unitScope, .phrase .identifier]
  | .classHandle => [.token .keywordThis, .token .keywordSuper]
  | .qualifier =>
    [.token .keywordThis, .token .keywordSuper, .token .unitScope, .phrase .identifier]
  | .arrayName | .routineName | .variableReference | .routineCall | .appliedCall => nameOpeners
  | .lvalue | .variableAssignments | .variableAssignment | .operatorAssignment
  | .forInitAssignments | .assignmentStatement => .token .openBrace :: nameOpeners
  | .stepExpression | .stepStatement =>
    .token .stepOperator :: .token .openBrace :: nameOpeners
  | .call | .callStatement => .token .systemName :: nameOpeners
  | .forStepItem | .forStep =>
    .token .stepOperator :: .token .openBrace :: .token .systemName :: nameOpeners
  | .systemCall => [.token .systemName]
  | .lvalueConcatenation | .concatenation => [.token .openBrace]
  | .loopVariables | .packedDimension | .select => [.token .openBracket]
  | .namedArgument => [.token .period]
  | .parenthesized => [.token .openParen]
  | .attribute => [.token .openAttribute]
  | .nullStatement => [.token .openAttribute, .token .semicolon]
  | .loop | .loopUnit => loopOpeners
  | .foreverLoop => [.token .keywordForever]
  | .repeatLoop => [.token .keywordRepeat]
  | .whileLoop => [.token .keywordWhile]
  | .forLoop => [.token .keywordFor]
  | .doWhileLoop => [.token .keywordDo]
  | .foreachLoop => [.token .keywordForeach]
  | .block => [.token .keywordBegin]
  | .conditional => [.token .keywordIf]
  | .jump => [.token .keywordReturn, .token .keywordBreak, .token .keywordContinue]
  | .statementItem => itemOpeners
  | .statement => .token .openAttribute :: itemOpeners
  | .statementOrNull => .token .openAttribute :: .token .semicolon :: itemOpeners
  | .integerVectorType => [.token .integerVectorKeyword]
  | .integerAtomType => [.token .integerAtomKeyword]
  | .nonIntegerType => [.token .nonIntegerKeyword]
  | .simpleType => [.token .simpleTypeKeyword]
  | .dataType => typeOpeners
  | .forDeclaration | .forInitDeclarations => .token .keywordVar :: typeOpeners
  | .forInit => .token .keywordVar :: .token .openBrace :: nameOpeners ++ typeOpeners
  | .expression | .conditionalExpression | .chain _ | .unary => operandOpeners
  | .primary =>
    [.token .number, .token .string, .token .openParen, .token .openBrace, .token .systemName]
      ++ nameOpeners
  | .argument | .arguments => .token .period :: operandOpeners

/-- The lexemes with which a pattern may begin. -/
def Pattern.openers : Pattern → List Pattern
  | .token t => [.token t]
  | .phrase p => p.openers
  | .seq x y => x.openers ++ if x.nullable then y.openers else []
  | .alt x y => x.openers ++ y.openers
  | .opt x | .many x => x.openers
  | .tail t _ => [.token t]
  | .absent _ => []

/-- A phrase begins as its pattern does. -/
theorem Phrase.openers_body {p : Phrase} (hp : (Pattern.phrase p).isLexeme = false) {f : Pattern}
    (h : f ∈ p.body.openers) : f ∈ p.openers := by
  have key : ∀ p : Phrase, (Pattern.phrase p).isLexeme = false → ∀ f ∈ p.body.openers, f ∈ p.openers := by
    decide
  exact key p hp f h

/-- A phrase that is a lexeme is its own opener. -/
theorem Phrase.openers_of_isLexeme {p : Phrase} (hp : (Pattern.phrase p).isLexeme = true) :
    p.openers = [.phrase p] := by
  cases p <;> first | rfl | cases hp

/-- A pattern that moves on begins with one of its openers. -/
theorem Takes.opened {x : Pattern} {s a : Place} {ts : List ParseTree} (h : Takes x s ts a) :
    a = s ∨ ∃ f ∈ x.openers, Matches f s := by
  induction h using Takes.induct with
  | token h => exact Or.inr ⟨_, by simp [Pattern.openers], _, _, .token h⟩
  | @phrase p s us b h ih =>
    cases hp : (Pattern.phrase p).isLexeme with
    | true =>
      exact Or.inr ⟨.phrase p, by simp [Pattern.openers, Phrase.openers_of_isLexeme hp],
        _, _, .phrase h⟩
    | false =>
      rcases ih with rfl | ⟨f, hf, hm⟩
      · have := Takes.lt h p.body_nullable
        omega
      · exact Or.inr ⟨f, Phrase.openers_body hp hf, hm⟩
  | @seq x y s ts₁ m ts₂ b hx hy ihx ihy =>
    rcases ihx with hm | ⟨f, hf, hmf⟩
    · subst hm
      -- the first part has taken nothing, so the second part opens the pattern
      rcases ihy with ha | ⟨f, hf, hmf⟩
      · exact Or.inl ha
      · refine Or.inr ⟨f, ?_, hmf⟩
        cases hn : x.nullable with
        | true => simp [Pattern.openers, hn, hf]
        | false =>
          have := Takes.lt hx hn
          omega
    · exact Or.inr ⟨f, by simp [Pattern.openers, hf], hmf⟩
  | altFirst _ ihx =>
    rcases ihx with ha | ⟨f, hf, hmf⟩
    · exact Or.inl ha
    · exact Or.inr ⟨f, by simp [Pattern.openers, hf], hmf⟩
  | altSecond _ _ ihy =>
    rcases ihy with ha | ⟨f, hf, hmf⟩
    · exact Or.inl ha
    · exact Or.inr ⟨f, by simp [Pattern.openers, hf], hmf⟩
  | opt _ ihx => exact ihx
  | manyStep _ _ ihx ihr =>
    rcases ihx with hm | hf
    · subst hm
      exact ihr
    · exact Or.inr hf
  | tailStep h _ _ _ _ => exact Or.inr ⟨_, by simp [Pattern.openers], _, _, .token h⟩
  | optNone | manyStop | tailStop | tailDangling | absent => exact Or.inl rfl

/-- A pattern that cannot match nothing is refused where a lexeme matches that excludes all its
openers. -/
theorem refuses_of_excludes {x f : Pattern} {s : Place} (hs : x.steady = true)
    (hn : x.nullable = false) (h : (x.openers.all fun g => lexemeExcludes f g) = true)
    (hf : Matches f s) : Refuses x s := by
  refine refuses_of_not_takes hs fun ts a ht => ?_
  rcases ht.opened with rfl | ⟨g, hg, hm⟩
  · have := Takes.lt ht hn
    omega
  · exact not_matches_of_excludes (List.all_eq_true.1 h g hg) hf hm

end VerilogLoops.Grammar
