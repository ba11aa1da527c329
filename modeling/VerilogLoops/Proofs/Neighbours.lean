import Mathlib.Data.List.Chain
import Mathlib.Data.List.ProdSigma
import VerilogLoops.Proofs.Leaves
import VerilogLoops.Proofs.Tiling
import VerilogLoops.Proofs.Token.Append

/-!
# Which leaves stand side by side

What may stand behind a leaf can be read off the grammar: the children of a phrase that are
*neighbours* in its pattern meet with the tokens with which the first may end and the second may
begin. Some tokens never meet, such as two numbers.

> `strung_of_fits`: only neighbours stand side by side among the children of a tree that fits;
> `Phrase.meets_body`: neighbours meet with tokens that may stand side by side.
-/

namespace VerilogLoops.Grammar

open VerilogLoops.Text VerilogLoops.Lexical

/-! ## Children side by side -/

/-- The children with which a match of the pattern may begin. -/
def Pattern.starts : Pattern → List Pattern
  | .token t => [.token t]
  | .phrase p => [.phrase p]
  | .seq x y => x.starts ++ if x.nullable then y.starts else []
  | .alt x y => x.starts ++ y.starts
  | .opt x | .many x => x.starts
  | .tail t _ => [.token t]
  | .absent _ => []

/-- The children with which a match of the pattern may end. -/
def Pattern.ends : Pattern → List Pattern
  | .token t => [.token t]
  | .phrase p => [.phrase p]
  | .seq x y => y.ends ++ if y.nullable then x.ends else []
  | .alt x y => x.ends ++ y.ends
  | .opt x | .many x => x.ends
  | .tail t x => x.ends ++ if x.nullable then [.token t] else []
  | .absent _ => []

/-- The children that may stand side by side in a match of the pattern. -/
def Pattern.neighbours : Pattern → List (Pattern × Pattern)
  | .token _ | .phrase _ | .absent _ => []
  | .seq x y => x.neighbours ++ y.neighbours ++ x.ends ×ˢ y.starts
  | .alt x y => x.neighbours ++ y.neighbours
  | .opt x => x.neighbours
  | .many x => x.neighbours ++ x.ends ×ˢ x.starts
  | .tail t x =>
    x.neighbours ++ [.token t] ×ˢ x.starts
      ++ (x.ends ++ if x.nullable then [.token t] else []) ×ˢ [.token t]

/-- The trees begin with one of some children and end with one of others, and only neighbours stand
side by side. -/
structure Strung (starts ends : List Pattern) (neighbours : List (Pattern × Pattern))
    (ts : List ParseTree) : Prop where
  start : ∀ t, ts.head? = some t → t.symbol ∈ starts
  stop : ∀ t, ts.getLast? = some t → t.symbol ∈ ends
  chain : ts.IsChain fun t u => (t.symbol, u.symbol) ∈ neighbours

variable {ss es ss' es' : List Pattern} {ns ns' : List (Pattern × Pattern)} {ts us : List ParseTree}

theorem Strung.mono (h : Strung ss es ns ts) (hs : ∀ x ∈ ss, x ∈ ss') (he : ∀ x ∈ es, x ∈ es')
    (hn : ∀ x ∈ ns, x ∈ ns') : Strung ss' es' ns' ts where
  start t ht := hs _ (h.start t ht)
  stop t ht := he _ (h.stop t ht)
  chain := h.chain.imp fun _ _ hr => hn _ hr

theorem strung_nil : Strung ss es ns [] := ⟨by simp, by simp, .nil⟩

theorem strung_singleton {t : ParseTree} (hs : t.symbol ∈ ss) (he : t.symbol ∈ es) :
    Strung ss es ns [t] :=
  ⟨by simpa using hs, by simpa using he, .singleton t⟩

/-- Of two lists of trees, one behind the other, either may be empty. -/
theorem Strung.append (h : Strung ss es ns ts) (h' : Strung ss' es' ns us)
    (hcross : ∀ e ∈ es, ∀ s ∈ ss', (e, s) ∈ ns) {ss'' es'' : List Pattern}
    (hs : ∀ x ∈ ss, x ∈ ss'') (hs' : ts = [] → ∀ x ∈ ss', x ∈ ss'')
    (he : us = [] → ∀ x ∈ es, x ∈ es'') (he' : ∀ x ∈ es', x ∈ es'') :
    Strung ss'' es'' ns (ts ++ us) where
  start t ht := by
    cases ts with
    | nil => exact hs' rfl _ (h'.start t ht)
    | cons t' ts => exact hs _ (h.start t ht)
  stop t ht := by
    rw [List.getLast?_append] at ht
    cases hu : us.getLast? with
    | none =>
      rw [hu, Option.none_or] at ht
      exact he (List.getLast?_eq_none_iff.1 hu) _ (h.stop t ht)
    | some u =>
      rw [hu, Option.some_or, Option.some.injEq] at ht
      subst ht
      exact he' _ (h'.stop u hu)
  chain := List.isChain_append.2 ⟨h.chain, h'.chain, fun t ht u hu =>
    hcross _ (h.stop t ht) _ (h'.start u hu)⟩

/-- Trees that fit a pattern are strung as the pattern says. -/
theorem strung_of_fits {x : Pattern} {s a : Unit} (h : Shape LexemeForm x s ts a) :
    Strung x.starts x.ends x.neighbours ts := by
  -- wherever one part ends and the next one begins, the pattern counts the pair as neighbours
  induction h with
  | lexeme _ ht =>
    obtain ⟨_, _, _, rfl, rfl, -⟩ | ⟨_, _, _, rfl, rfl, -⟩ | ⟨_, rfl, rfl⟩ := ht.cases <;>
      exact strung_singleton (by simp [Pattern.starts, ParseTree.symbol]) (by simp [Pattern.ends, ParseTree.symbol])
  | phrase _ _ _ => exact strung_singleton (by simp [Pattern.starts]) (by simp [Pattern.ends])
  | @seq x y s ts m us a hx hy ihx ihy =>
    have hcross : ∀ e ∈ x.ends, ∀ s ∈ y.starts, (e, s) ∈ (Pattern.seq x y).neighbours := by
      intro e he s hs
      simp only [Pattern.neighbours, List.mem_append, List.mem_product]
      exact Or.inr ⟨he, hs⟩
    refine (ihx.mono (fun _ h => h) (fun _ h => h) ?_).append
      (ihy.mono (fun _ h => h) (fun _ h => h) ?_) hcross ?_ ?_ ?_ ?_
    · exact fun _ h => by simp [Pattern.neighbours, h]
    · exact fun _ h => by simp [Pattern.neighbours, h]
    · exact fun _ h => by simp [Pattern.starts, h]
    · rintro rfl _ h
      have hnull : x.nullable = true := Shape.nullable_of_nil hx
      simp [Pattern.starts, hnull, h]
    · rintro rfl _ h
      have hnull : y.nullable = true := Shape.nullable_of_nil hy
      simp [Pattern.ends, hnull, h]
    · exact fun _ h => by simp [Pattern.ends, h]
  | first _ ih | second _ ih =>
    exact ih.mono (fun _ h => by simp [Pattern.starts, h]) (fun _ h => by simp [Pattern.ends, h])
      (fun _ h => by simp [Pattern.neighbours, h])
  | given _ ih =>
    exact ih.mono (fun _ h => by simp [Pattern.starts, h]) (fun _ h => by simp [Pattern.ends, h])
      (fun _ h => by simp [Pattern.neighbours, h])
  | omitted | stop | last => exact strung_nil
  | @step x s ts m us a hx hr ihx ihr =>
    refine (ihx.mono (fun _ h => h) (fun _ h => h) ?_).append ihr ?_ (fun _ h => h)
      (fun _ _ h => h) (fun _ _ h => h) (fun _ h => h)
    · exact fun _ h => by simp [Pattern.neighbours, h]
    · intro e he s hs
      simp only [Pattern.neighbours, List.mem_append, List.mem_product]
      exact Or.inr ⟨he, hs⟩
  | @next k x s mark m ts n us a hm hx hr ihx ihr =>
    have hmark : Strung [.token k] [.token k] (Pattern.tail k x).neighbours [mark] := by
      have := LexemeForm.symbol hm
      exact strung_singleton (by simp [this]) (by simp [this])
    have hitem : Strung x.starts x.ends (Pattern.tail k x).neighbours ts :=
      ihx.mono (fun _ h => h) (fun _ h => h) fun _ h => by simp [Pattern.neighbours, h]
    have hne : ts = [] → x.nullable = true := by
      rintro rfl
      exact Shape.nullable_of_nil hx
    have hends : ∀ e ∈ x.ends, e ∈ (Pattern.tail k x).ends := fun _ h => by simp [Pattern.ends, h]
    have hfirst : Strung [.token k] (Pattern.tail k x).ends (Pattern.tail k x).neighbours
        (mark :: ts) := by
      refine hmark.append hitem ?_ (fun _ h => h) (by simp) (fun hnil _ h => ?_) hends
      · intro e he s hs
        simp only [Pattern.neighbours, List.mem_append, List.mem_product]
        exact Or.inl (Or.inr ⟨he, hs⟩)
      · simp [Pattern.ends, hne hnil, List.mem_singleton.1 h]
    refine hfirst.append ihr ?_ (fun _ h => h) (by simp) (fun _ _ h => h) (fun _ h => h)
    intro e he s hs
    simp only [Pattern.neighbours, List.mem_append, List.mem_product]
    exact Or.inr ⟨by simpa [Pattern.ends] using he, hs⟩

/-! ## Tokens side by side -/

/-- The tokens with which a lexeme may begin. -/
def Pattern.lexemeTokens : Pattern → List Token
  | .token t => [t]
  | .phrase .identifier => [.identifier, .escapedIdentifier]
  | .phrase .assignSign => [.equals]
  | _ => []

/-- The tokens with which a child may begin. -/
def Pattern.firstTokens : Pattern → List Token
  | .token t => [t]
  | .phrase p => p.openers.flatMap Pattern.lexemeTokens
  | _ => []

/-- The tokens with which a name may end. -/
def nameClosers : List Token := [.identifier, .escapedIdentifier]

/-- The tokens with which an expression may end. -/
def operandClosers : List Token :=
  [Token.number, .string, .closeParen, .closeBrace, .closeBracket, .systemName, .stepOperator]
    ++ nameClosers

/-- The tokens with which a statement may end. -/
def statementClosers : List Token := [Token.semicolon, .keywordEnd] ++ nameClosers

/-- The tokens with which a phrase may end. -/
def Phrase.closers : Phrase → List Token
  | .comment => [.lineComment, .blockComment]
  | .loopUnit => .endOfInput :: statementClosers
  | .assignSign => [.equals]
  | .identifier | .variableName | .indexName | .hierarchicalName | .arrayName | .routineName =>
    nameClosers
  | .packageScope => [.scope]
  | .classHandle => [.keywordThis, .keywordSuper]
  | .qualifier => [.period, .scope]
  | .loop | .foreverLoop | .repeatLoop | .whileLoop | .forLoop | .doWhileLoop | .foreachLoop
  | .statementOrNull | .nullStatement | .statement | .statementItem | .block | .conditional
  | .jump | .assignmentStatement | .stepStatement | .callStatement => statementClosers
  | .statementLabel => [.colon]
  | .attribute => [.closeAttribute]
  | .forInit | .forInitAssignments | .forInitDeclarations | .forDeclaration | .forBinding
  | .forStep | .forStepItem | .attributeEntry | .variableAssignments | .variableAssignment
  | .operatorAssignment | .arguments | .argument | .expression | .conditionalExpression
  | .chain _ | .unary | .primary => operandClosers
  | .loopVariables | .select | .packedDimension => [.closeBracket]
  | .integerVectorType => [.integerVectorKeyword, .signing, .closeBracket]
  | .integerAtomType => [.integerAtomKeyword, .signing]
  | .nonIntegerType => [.nonIntegerKeyword]
  | .simpleType => [.simpleTypeKeyword]
  | .namedType | .variableReference => .closeBracket :: nameClosers
  | .dataType =>
    [.integerVectorKeyword, .signing, .closeBracket, .integerAtomKeyword, .nonIntegerKeyword,
     .simpleTypeKeyword] ++ nameClosers
  | .stepExpression => [.stepOperator, .closeBracket, .closeBrace] ++ nameClosers
  | .lvalue => [.closeBracket, .closeBrace] ++ nameClosers
  | .lvalueConcatenation | .concatenation => [.closeBrace]
  | .call | .routineCall | .systemCall => [.systemName, .closeParen] ++ nameClosers
  | .appliedCall | .namedArgument | .parenthesized => [.closeParen]

/-- The tokens with which a child may end. -/
def Pattern.lastTokens : Pattern → List Token
  | .token t => [t]
  | .phrase p => p.closers
  | _ => []

/-- A phrase begins and ends as its children do. -/
theorem Phrase.tokens_body : ∀ p : Phrase,
    (∀ x ∈ p.body.starts, ∀ t ∈ x.firstTokens, t ∈ (Pattern.phrase p).firstTokens) ∧
      ∀ x ∈ p.body.ends, ∀ t ∈ x.lastTokens, t ∈ p.closers := by
  decide +kernel

/-- The tokens that never stand behind a token, comments among them. Of two numbers the second would be
part of the first if it began with a tick, a slash and a star would open a comment, and two equals signs
are no assignment. -/
def shunned : Token → List Token
  | .number => [.number, .identifier, .escapedIdentifier]
  | .multiplicative =>
    [.lineComment, .blockComment, .multiplicative, .power, .assignmentOperator, .closeAttribute]
  | .equals => [.lineComment, .blockComment, .equals, .assignmentOperator, .equality]
  | _ => []

/-! ## Tokens of leaves -/

/-- The tokens that a pattern names. -/
def Pattern.named : Pattern → List Token
  | .token t => [t]
  | .phrase .identifier => [.identifier, .escapedIdentifier]
  | .phrase .assignSign => [.equals]
  | .phrase _ => []
  | .seq x y | .alt x y => x.named ++ y.named
  | .opt x | .many x | .absent x => x.named
  | .tail t x => t :: x.named

/-- The phrase is neither a comment nor does it hold the end of the input. -/
def Phrase.isPlain (p : Phrase) : Bool := p ≠ .comment && p ≠ .loopUnit

/-- The pattern has neither comments nor the end of the input in it. -/
def Pattern.isPlain (x : Pattern) : Bool :=
  (x.named.all fun t => t.isSpelled || t.isFree) && x.calls.all Phrase.isPlain

theorem Phrase.isPlain_body {p : Phrase} (hp : p.isPlain = true) : p.body.isPlain = true := by
  have key : ∀ p : Phrase, p.isPlain = true → p.body.isPlain = true := by decide +kernel
  exact key p hp

theorem Phrase.isPlain_phrase {p : Phrase} (hp : p.isPlain = true) :
    (Pattern.phrase p).isPlain = true := by
  cases p <;> first | rfl | cases hp

/-- The leaves of trees that fit are of tokens that stand between trivia. -/
theorem tokens_of_fits {x : Pattern} {s a : Unit} (h : Shape LexemeForm x s ts a)
    (hx : x.isPlain = true) : ∀ l ∈ leavesOf ts, (l.token.isSpelled || l.token.isFree) = true := by
  induction h with
  | lexeme _ ht =>
    intro l hl
    rw [leavesOf_cons, leavesOf_nil, List.append_nil] at hl
    -- the token of a plain pattern, an identifier, or the sign of an assignment
    obtain ⟨_, _, _, rfl, rfl, -⟩ | ⟨_, _, _, -, rfl, -, ⟨rfl, -⟩ | rfl⟩ | ⟨_, -, rfl⟩ := ht.cases <;>
      cases List.mem_singleton.1 hl
    · simpa [Pattern.isPlain, Pattern.named, Pattern.calls] using hx
    · rfl
    · rfl
    · rfl
  | @phrase p _ _ _ _ _ ih =>
    have hp : p.isPlain = true := by
      simp only [Pattern.isPlain, Pattern.calls, List.all_cons, List.all_nil, Bool.and_true,
        Bool.and_eq_true] at hx
      exact hx.2
    simpa using ih (Phrase.isPlain_body hp)
  | seq _ _ ihx ihy =>
    simp only [Pattern.isPlain, Pattern.named, Pattern.calls, List.all_append, Bool.and_eq_true] at hx
    intro l hl
    rw [leavesOf_append] at hl
    exact (List.mem_append.1 hl).elim (ihx (by simp [Pattern.isPlain, hx]) l)
      (ihy (by simp [Pattern.isPlain, hx]) l)
  | first _ ih | second _ ih =>
    simp only [Pattern.isPlain, Pattern.named, Pattern.calls, List.all_append, Bool.and_eq_true] at hx
    exact ih (by simp [Pattern.isPlain, hx])
  | given _ ih => exact ih hx
  | omitted | stop | last => simp
  | step _ _ ihx ihr =>
    intro l hl
    rw [leavesOf_append] at hl
    exact (List.mem_append.1 hl).elim (ihx hx l) (ihr hx l)
  | next hm _ _ ihx ihr =>
    have hboth := hx
    simp only [Pattern.isPlain, Pattern.named, Pattern.calls, List.all_cons, Bool.and_eq_true] at hx
    obtain ⟨start, text, rfl, -⟩ := hm
    intro l hl
    rw [List.cons_append, leavesOf_cons, leavesOf_append] at hl
    rcases List.mem_append.1 hl with hl | hl
    · cases List.mem_singleton.1 hl
      exact hx.1.1
    · exact (List.mem_append.1 hl).elim (ihx (by simp [Pattern.isPlain, hx]) l) (ihr hboth l)

/-! ## Leaves side by side -/

/-- The second leaf may stand behind the first one. -/
def Leaf.Meets (l m : Leaf) : Prop := m.token ∉ shunned l.token

instance (l m : Leaf) : Decidable (l.Meets m) := inferInstanceAs (Decidable (m.token ∉ shunned l.token))

/-- The second leaf may be written directly behind the first one. White space ends an escaped
identifier, and an operator runs together with some operators with which its operand may begin. -/
def Leaf.Abuts (l m : Leaf) : Prop :=
  l.token = .escapedIdentifier ∨ l.token.joins m.token = true ∨
    (l.token = .unaryOperator ∧ m.token ∈ (Pattern.phrase .unary).firstTokens ∧ startsClashing m.text = false)

/-- Two neighbours among the children of a phrase meet with tokens that may stand side by side. -/
def Phrase.meets (p : Phrase) (x y : Pattern) : Bool :=
  x.lastTokens.all fun t => y.firstTokens.all fun u => !(shunned t).contains u &&
    (p.spaced x y || t = .escapedIdentifier || t.joins u)

/-- All neighbours among the children of a phrase meet, but for a unary operator and its operand. -/
theorem Phrase.meets_body {p : Phrase} (hp : p ≠ .unary) :
    (p.body.neighbours.all fun x => p.meets x.1 x.2) = true := by
  revert p
  decide +kernel

/-- The leaves with which two neighbours meet may stand side by side, and if no blank parts them, they
may be written so. -/
theorem meets_of_meets {p : Phrase} {x y : Pattern} (h : p.meets x y = true) {l m : Leaf}
    (hl : l.token ∈ x.lastTokens) (hm : m.token ∈ y.firstTokens) :
    l.Meets m ∧ (p.gap x y = "" → l.Abuts m) := by
  have := List.all_eq_true.1 (List.all_eq_true.1 h _ hl) _ hm
  simp only [Bool.and_eq_true, Bool.not_eq_true', Bool.or_eq_true, decide_eq_true_eq] at this
  refine ⟨by simpa [Leaf.Meets] using this.1, fun hgap => ?_⟩
  rcases this.2 with (hspaced | hescaped) | hjoins
  · simp [Phrase.gap, hspaced] at hgap
  · exact Or.inl hescaped
  · exact Or.inr (Or.inl hjoins)

end VerilogLoops.Grammar
