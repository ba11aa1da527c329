import VerilogLoops.Proofs.Wording

/-!
# Precedence and associativity

Operators bind more or less tightly, and operators that bind equally are joined from the left. So only
some operands need parentheses. An expression that is written with these parentheses and with no others is
read as it was meant: every level of the grammar takes the operands that bind tightly enough, and what it
takes is folded from the left.

> `isSpelled`: the words of a term spell an expression that stands for the term;
> `parse_printed`: a term that is written with a blank between all tokens is read as that term.
-/

namespace VerilogLoops.Grammar

open VerilogLoops.Lexical

/-! ## The table of operators -/

/-- The operators of each level. -/
def Level.signs : Level → List String
  | .logicalOr => ["||"]
  | .logicalAnd => ["&&"]
  | .binaryOr => ["|"]
  | .binaryXor => ["^", "~^", "^~"]
  | .binaryAnd => ["&"]
  | .equality => ["==", "!=", "===", "!==", "==?", "!=?"]
  | .relational => ["<", "<=", ">", ">="]
  | .shift => ["<<", ">>", "<<<", ">>>"]
  | .additive => ["+", "-"]
  | .multiplicative => ["*", "/", "%"]
  | .power => ["**"]

/-- How tightly the operators of a level bind. -/
def Level.strength : Level → Nat
  | .logicalOr => 1
  | .logicalAnd => 2
  | .binaryOr => 3
  | .binaryXor => 4
  | .binaryAnd => 5
  | .equality => 6
  | .relational => 7
  | .shift => 8
  | .additive => 9
  | .multiplicative => 10
  | .power => 11

/-- The table lists the operators of the grammar. -/
theorem Level.mem_signs {level : Level} {sign : String} :
    sign ∈ level.signs ↔ sign ∈ level.operator.words := by
  have key : ∀ level : Level, (∀ sign ∈ level.signs, sign ∈ level.operator.words) ∧
      ∀ sign ∈ level.operator.words, sign ∈ level.signs := by decide
  exact ⟨(key level).1 sign, (key level).2 sign⟩

theorem Level.isWhole_sign {level : Level} {sign : String} (h : sign ∈ level.signs) :
    (Leaf.mk level.operator 0 sign).isWhole = true := by
  have key : ∀ level : Level, ∀ sign ∈ level.signs, (Leaf.mk level.operator 0 sign).isWhole = true := by
    decide
  exact key level sign h

theorem Level.strength_bounds (level : Level) : 1 ≤ level.strength ∧ level.strength ≤ 11 := by
  cases level <;> decide

/-- A level joins operands of the level that binds one step tighter; the tightest joins unary ones. -/
theorem Level.operand_cases (level : Level) :
    (∃ next : Level, level.operand = .chain next ∧ next.strength = level.strength + 1) ∨
      (level.operand = .unary ∧ level.strength = 11) := by
  cases level
  case power => exact .inr ⟨rfl, rfl⟩
  all_goals exact .inl ⟨_, rfl, rfl⟩

theorem Level.strength_injective {l m : Level} (h : l.strength = m.strength) : l = m := by
  cases l <;> cases m <;> first | rfl | cases h

end VerilogLoops.Grammar

namespace VerilogLoops

open VerilogLoops.Text VerilogLoops.Lexical VerilogLoops.Grammar VerilogLoops.Ast

/-- A plain name and nothing else. -/
abbrev PlainName := { text : String // IsPlainName text }

/-- A decimal number and nothing else. -/
abbrev Decimal := { text : String // IsDecimal text }

/-- A unary operator. -/
abbrev UnarySign := { sign : String // sign ∈ Token.unaryOperator.words }

/-- A binary operator of a level. -/
abbrev BinarySign (level : Level) := { sign : String // sign ∈ level.signs }

/-! ## Terms -/

/-- An expression of operators over names and numbers. -/
inductive Term where
  | name (text : PlainName)
  | number (text : Decimal)
  | unary (sign : UnarySign) (operand : Term)
  | binary (level : Level) (sign : BinarySign level) (left right : Term)
  | conditional (condition first second : Term)

/-- The words with parentheses around them, if they are needed. -/
def enclosed (needed : Bool) (ws : List String) : List String :=
  if needed then "(" :: (ws ++ [")"]) else ws

namespace Term

/-- How tightly the outermost operator binds: a conditional one not at all, a unary one more tightly than
all binary ones. Names and numbers are never torn apart. -/
def strength : Term → Nat
  | .name _ | .number _ => 13
  | .unary .. => 12
  | .binary level .. => level.strength
  | .conditional .. => 0

/-- The words of a term, with no more parentheses than needed. -/
def words : Term → List String
  | .name text => [text.1]
  | .number text => [text.1]
  | .unary sign operand => sign.1 :: enclosed (operand.strength < 12) operand.words
  | .binary level sign left right =>
    enclosed (left.strength < level.strength) left.words ++
      (sign.1 :: enclosed (right.strength ≤ level.strength) right.words)
  | .conditional condition first second =>
    enclosed (condition.strength = 0) condition.words ++ ("?" :: first.words ++ ":" :: second.words)

/-- The term as it is written, with a blank between all tokens. -/
def printed (t : Term) : String := " ".intercalate t.words

/-- A right operand that binds equally is parenthesized, a left one is not. -/
example (a b c : PlainName) (minus : BinarySign .additive) :
    (binary .additive minus (binary .additive minus (name a) (name b)) (name c)).words
        = [a.1, minus.1, b.1, minus.1, c.1] ∧
      (binary .additive minus (name a) (binary .additive minus (name b) (name c))).words
        = [a.1, minus.1, "(", b.1, minus.1, c.1, ")"] := ⟨rfl, rfl⟩

/-- What the term stands for, without positions. -/
def value : Term → Value
  | .name text => nameNode text.1
  | .number text => numberNode text.1
  | .unary sign operand => .node .unaryOp .unknown [.text sign.1, operand.value]
  | .binary _ sign left right => .node .binaryOp .unknown [.text sign.1, left.value, right.value]
  | .conditional condition first second =>
    .node .conditionalOp .unknown [condition.value, first.value, second.value]

theorem isA_value (t : Term) : t.value.isA .expression = true := by
  cases t <;> rfl

end Term

/-! ## Spelling operators -/

variable {level m : Level} {ws ws' : List String} {v w : Value} {sign : String}

/-- The words are operands with operators of a level between them, and folding them from the left makes
the value. -/
def Chained (level : Level) (ws : List String) (v : Value) : Prop :=
  ∃ first rest, Spells (.separated level.operand level.operator) ws (first :: rest) ∧
    joinOperands .unknown first rest = .ok v

theorem joinOperands_snoc {left : Value} {rest : List Value} (h : joinOperands .unknown left rest = .ok v)
    (operator right : Value) : joinOperands .unknown left (rest ++ [operator, right])
      = .ok (.node .binaryOp .unknown [operator, v, right]) := by
  induction left, rest using joinOperands.induct .unknown with
  | case1 left =>
    cases h
    rfl
  | case2 left last => cases h
  | case3 left sign next rest ih =>
    rw [joinOperands] at h
    rw [List.cons_append, List.cons_append, joinOperands]
    exact ih h

theorem chained_single (h : Spells (.phrase level.operand) ws [v]) : Chained level ws v :=
  ⟨v, [], spells_separated h, rfl⟩

/-- One more operand is joined with all that stands in front of it. -/
theorem Chained.snoc (h : Chained level ws v) (hsign : sign ∈ level.signs)
    (hright : Spells (.phrase level.operand) ws' [w]) :
    Chained level (ws ++ sign :: ws') (.node .binaryOp .unknown [.text sign, v, w]) := by
  obtain ⟨first, rest, hws, hjoin⟩ := h
  have hbuilt : (buildLeaf level.operator .unknown sign).values = [.text sign] := by
    cases level <;> rfl
  have hmark := spells_token (Level.isWhole_sign hsign)
  rw [hbuilt] at hmark
  exact ⟨first, rest ++ [.text sign, w], hws.snoc hmark hright, joinOperands_snoc hjoin _ _⟩

theorem Chained.phrase (h : Chained level ws v) : Spells (.phrase (.chain level)) ws [v] := by
  obtain ⟨first, rest, hws, hjoin⟩ := h
  have hb : assemble (.chain level) .unknown (first :: rest) = .ok (.one v) := by
    simp [assemble, hjoin]
  exact hws.phrase (p := .chain level) rfl (fun _ => rfl) hb

/-- What a level takes is an operand of all levels that bind less tightly. -/
theorem Chained.loosen (h : Chained m ws v) (hle : level.strength ≤ m.strength) : Chained level ws v := by
  obtain ⟨d, hd⟩ : ∃ d, m.strength = level.strength + d := ⟨m.strength - level.strength, by omega⟩
  induction d generalizing level with
  | zero =>
    cases Level.strength_injective hd
    exact h
  | succ d ih =>
    rcases level.operand_cases with ⟨next, hnext, hstrength⟩ | ⟨-, htight⟩
    · have hchained : Chained next ws v := ih (by omega) (by omega)
      have hphrase := hchained.phrase
      rw [← hnext] at hphrase
      exact chained_single hphrase
    · have hbound := m.strength_bounds
      omega

/-- A unary expression is an operand of all levels. -/
theorem chained_unary (level : Level) (h : Spells (.phrase .unary) ws [v]) : Chained level ws v := by
  have hpower : Chained .power ws v := chained_single h
  exact hpower.loosen level.strength_bounds.2

theorem spells_primary (h : Spells (.phrase .primary) ws [v]) : Spells (.phrase .unary) ws [v] :=
  Spells.phrase (p := .unary) h.second.second rfl (fun _ => rfl) rfl

theorem spells_chain (h : Chained .logicalOr ws v) (hv : v.isA .expression = true) :
    Spells (.phrase .expression) ws [v] := by
  have hb : assemble .expression .unknown [v] = .ok (.one v) := by
    simp [assemble, theMember, hv]
  exact Spells.phrase (p := .expression) h.phrase.second rfl (fun _ => rfl) hb

theorem spells_parenthesized (h : Spells (.phrase .expression) ws [v]) (hv : v.isA .expression = true) :
    Spells (.phrase .unary) ("(" :: (ws ++ [")"])) [v] := by
  have hopen : Spells (.token .openParen) ["("] [.text "("] := spells_token (by decide)
  have hclose : Spells (.token .closeParen) [")"] [.text ")"] := spells_token (by decide)
  have hb : assemble .parenthesized .unknown [.text "(", v, .text ")"] = .ok (.one v) := by
    simp [assemble, theMember, hv]
  have hparen : Spells (.phrase .parenthesized) ("(" :: (ws ++ [")"])) [v] :=
    Spells.phrase (p := .parenthesized) (hopen.seq (h.seq hclose)) rfl (fun _ => rfl) hb
  have hb' : assemble .primary .unknown [v] = .ok (.one v) := by
    simp [assemble, theMember, hv]
  exact spells_primary (Spells.phrase (p := .primary) hparen.first.second.second rfl (fun _ => rfl) hb')

theorem spells_unary (hsign : sign ∈ Token.unaryOperator.words) (h : Spells (.phrase .unary) ws [v]) :
    Spells (.phrase .unary) (sign :: ws) [.node .unaryOp .unknown [.text sign, v]] := by
  have hwhole : (Leaf.mk .unaryOperator 0 sign).isWhole = true := by
    have key : ∀ sign ∈ Token.unaryOperator.words, (Leaf.mk .unaryOperator 0 sign).isWhole = true := by
      decide
    exact key sign hsign
  have hmark : Spells (.token .unaryOperator) [sign] [.text sign] := spells_token hwhole
  exact Spells.phrase (p := .unary) (hmark.seq h).first.second rfl (fun _ => rfl) rfl

theorem spells_conditional {cs xs ys : List String} {c x y : Value} (hc : Chained .logicalOr cs c)
    (hx : Spells (.phrase .expression) xs [x]) (hy : Spells (.phrase .expression) ys [y])
    (hcondition : c.isA .expression = true) (hfirst : x.isA .expression = true)
    (hsecond : y.isA .expression = true) :
    Spells (.phrase .expression) (cs ++ ("?" :: xs ++ ":" :: ys)) [.node .conditionalOp .unknown [c, x, y]] := by
  have hquestion : Spells (.token .question) ["?"] [.text "?"] := spells_token (by decide)
  have hcolon : Spells (.token .colon) [":"] [.text ":"] := spells_token (by decide)
  have hb : assemble .conditionalExpression .unknown [c, .text "?", x, .text ":", y]
      = .ok (.one (.node .conditionalOp .unknown [c, x, y])) := by
    simp [assemble, hcondition, hfirst, hsecond]
  have hparts := hc.phrase.seq (hquestion.seq (hx.seq (hcolon.seq hy)))
  have hall : Spells (.phrase .conditionalExpression) (cs ++ ("?" :: xs ++ ":" :: ys))
      [.node .conditionalOp .unknown [c, x, y]] :=
    Spells.phrase (p := .conditionalExpression) hparts rfl (fun _ => rfl) hb
  exact Spells.phrase (p := .expression) hall.first rfl (fun _ => rfl) rfl

/-! ## Terms are spelled -/

/-- The words of a term spell an expression. They spell more if the term binds tightly enough: operands
of a level with their operators, or a unary expression. -/
structure Term.IsSpelled (t : Term) : Prop where
  expression : Spells (.phrase .expression) t.words [t.value]
  chain : ∀ level : Level, level.strength ≤ t.strength → Chained level t.words t.value
  unary : 12 ≤ t.strength → Spells (.phrase .unary) t.words [t.value]

namespace Term

variable {t : Term}

theorem isSpelled_of_unary (h : Spells (.phrase .unary) t.words [t.value]) : t.IsSpelled where
  expression := spells_chain (chained_unary _ h) t.isA_value
  chain level _ := chained_unary level h
  unary _ := h

/-- An operand of an operator that binds tightly is a unary expression, in parentheses if need be. -/
theorem IsSpelled.enclosed_unary (h : t.IsSpelled) :
    Spells (.phrase .unary) (enclosed (t.strength < 12) t.words) [t.value] := by
  by_cases hlt : t.strength < 12
  · rw [enclosed, if_pos (by simpa using hlt)]
    exact spells_parenthesized h.expression t.isA_value
  · rw [enclosed, if_neg (by simpa using hlt)]
    exact h.unary (by omega)

/-- A left operand goes on the chain of the level, unless it binds less tightly. -/
theorem IsSpelled.enclosed_left (h : t.IsSpelled) (level : Level) :
    Chained level (enclosed (t.strength < level.strength) t.words) t.value := by
  by_cases hlt : t.strength < level.strength
  · rw [enclosed, if_pos (by simpa using hlt)]
    exact chained_unary level (spells_parenthesized h.expression t.isA_value)
  · rw [enclosed, if_neg (by simpa using hlt)]
    exact h.chain level (by omega)

/-- A right operand is one operand of the level, in parentheses unless it binds more tightly. -/
theorem IsSpelled.enclosed_right (h : t.IsSpelled) (level : Level) :
    Spells (.phrase level.operand) (enclosed (t.strength ≤ level.strength) t.words) [t.value] := by
  by_cases hle : t.strength ≤ level.strength
  · rw [enclosed, if_pos (by simpa using hle)]
    have hunary := spells_parenthesized h.expression t.isA_value
    rcases level.operand_cases with ⟨next, hnext, -⟩ | ⟨hnext, -⟩
    · rw [hnext]
      exact (chained_unary next hunary).phrase
    · rw [hnext]
      exact hunary
  · rw [enclosed, if_neg (by simpa using hle)]
    rcases level.operand_cases with ⟨next, hnext, hstrength⟩ | ⟨hnext, hstrength⟩
    · rw [hnext]
      exact (h.chain next (by omega)).phrase
    · rw [hnext]
      exact h.unary (by omega)

/-- A condition is on the chain of the loosest level, unless it is conditional itself. -/
theorem IsSpelled.enclosed_condition (h : t.IsSpelled) :
    Chained .logicalOr (enclosed (t.strength = 0) t.words) t.value := by
  by_cases hzero : t.strength = 0
  · rw [enclosed, if_pos (by simpa using hzero)]
    exact chained_unary _ (spells_parenthesized h.expression t.isA_value)
  · rw [enclosed, if_neg (by simpa using hzero)]
    exact h.chain .logicalOr (by rw [Level.strength]; omega)

/-- **The words of a term spell an expression that stands for the term.** -/
theorem isSpelled (t : Term) : t.IsSpelled := by
  induction t with
  | name text => exact isSpelled_of_unary (spells_primary (spells_name text.2))
  | number text => exact isSpelled_of_unary (spells_primary (spells_number text.2))
  | unary sign operand ih => exact isSpelled_of_unary (spells_unary sign.2 ih.enclosed_unary)
  | binary level sign left right ihl ihr =>
    have hchain : Chained level (Term.binary level sign left right).words
        (Term.binary level sign left right).value :=
      (ihl.enclosed_left level).snoc sign.2 (ihr.enclosed_right level)
    have hbounds := level.strength_bounds
    -- as an expression, as a chain of looser levels, and as a unary expression, which it is not
    refine ⟨?_, fun looser hle => hchain.loosen hle, fun htight => ?_⟩
    · exact spells_chain (hchain.loosen hbounds.1) (isA_value _)
    · rw [strength] at htight
      omega
  | conditional condition first second ihc ihx ihy =>
    -- a conditional is looser than every chain
    refine ⟨?_, fun level hle => ?_, fun htight => ?_⟩
    · exact spells_conditional ihc.enclosed_condition ihx.expression ihy.expression
        condition.isA_value first.isA_value second.isA_value
    · have hbounds := level.strength_bounds
      rw [strength] at hle
      omega
    · rw [strength] at htight
      omega

end Term

/-- **A term that is written with a blank between all tokens and no more parentheses than needed is read as
that term.** -/
theorem parse_printed (origin : String) (t : Term) :
    ∃ parsed, parseSymbol (.phrase .expression) true origin t.printed = .ok parsed ∧
      parsed.built.withoutPositions = .one t.value :=
  parseSymbol_of_spells t.isSpelled.expression (by decide) (by decide)

end VerilogLoops
