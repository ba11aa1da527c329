import VerilogLoops.Lexical.Token
/-!
# Phrases

The nonterminal symbols of the grammar, from loop statements down to primary expressions, and the
names under which they stand in parse trees. The eleven levels of binary operators are one family
of phrases, from the loosest level to the tightest.
-/

namespace VerilogLoops.Grammar

open VerilogLoops.Lexical

/-- The levels of binary operators, the loosest first. -/
inductive Level where
  | logicalOr | logicalAnd | binaryOr | binaryXor | binaryAnd | equality | relational | shift
  | additive | multiplicative | power
deriving DecidableEq, Repr

/-- The levels, the loosest first. -/
def Level.all : List Level :=
  [.logicalOr, .logicalAnd, .binaryOr, .binaryXor, .binaryAnd, .equality, .relational, .shift,
   .additive, .multiplicative, .power]

/-- The operators of a level. -/
def Level.operator : Level → Token
  | .logicalOr => .logicalOr
  | .logicalAnd => .logicalAnd
  | .binaryOr => .binaryOr
  | .binaryXor => .binaryXor
  | .binaryAnd => .binaryAnd
  | .equality => .equality
  | .relational => .relational
  | .shift => .shift
  | .additive => .additive
  | .multiplicative => .multiplicative
  | .power => .power

/-- The next tighter level, if there is one. -/
def Level.tighter : Level → Option Level
  | .logicalOr => some .logicalAnd
  | .logicalAnd => some .binaryOr
  | .binaryOr => some .binaryXor
  | .binaryXor => some .binaryAnd
  | .binaryAnd => some .equality
  | .equality => some .relational
  | .relational => some .shift
  | .shift => some .additive
  | .additive => some .multiplicative
  | .multiplicative => some .power
  | .power => none

/-- The name of a level in a parse tree. -/
def Level.name : Level → String
  | .logicalOr => "prec_logical_or"
  | .logicalAnd => "prec_logical_and"
  | .binaryOr => "prec_binary_or"
  | .binaryXor => "prec_binary_xor"
  | .binaryAnd => "prec_binary_and"
  | .equality => "prec_equality"
  | .relational => "prec_relational"
  | .shift => "prec_shift"
  | .additive => "prec_additive"
  | .multiplicative => "prec_multiplicative"
  | .power => "prec_power"

/-- The nonterminal symbols. -/
inductive Phrase where
  /-- A comment as a phrase of its own. -/
  | comment
  /-- A loop statement and then the end of the input. -/
  | loopUnit
  /-- The equals sign of an assignment, which no other equals sign follows. -/
  | assignSign
  /-- An identifier that is no reserved word. -/
  | identifier
  | variableName | indexName | hierarchicalName | packageScope | classHandle | qualifier
  /-- The array of a foreach loop. -/
  | arrayName
  /-- The name of a called task or function. -/
  | routineName
  | loop | foreverLoop | repeatLoop | whileLoop | forLoop | doWhileLoop | foreachLoop
  | forInit | forInitAssignments | forInitDeclarations | forDeclaration | forBinding
  | forStep | forStepItem | loopVariables
  | statementOrNull | nullStatement | statement | statementLabel | statementItem
  | block | conditional | jump | assignmentStatement | stepStatement | callStatement
  | attribute | attributeEntry
  | dataType | integerVectorType | integerAtomType | nonIntegerType | simpleType | namedType
  | packedDimension
  | variableAssignments | variableAssignment | operatorAssignment
  /-- An increment or decrement. -/
  | stepExpression
  | lvalue | lvalueConcatenation | variableReference | select
  | call | systemCall | routineCall
  /-- A call whose parentheses are written, the only kind inside an expression. -/
  | appliedCall
  | arguments | argument | namedArgument
  | expression | conditionalExpression
  /-- Operands joined by the operators of one level. -/
  | chain (level : Level)
  | unary | primary | parenthesized | concatenation
deriving DecidableEq, Repr

/-- The name of a phrase in a parse tree. -/
def Phrase.name : Phrase → String
  | .comment => "comment"
  | .loopUnit => "loop_statement_unit"
  | .assignSign => "TOK_ASSIGN"
  | .identifier => "identifier"
  | .variableName => "variable_identifier"
  | .indexName => "index_variable_identifier"
  | .hierarchicalName => "hierarchical_identifier"
  | .packageScope => "package_scope"
  | .classHandle => "implicit_class_handle"
  | .qualifier => "class_qualifier"
  | .arrayName => "ps_or_hierarchical_array_identifier"
  | .routineName => "ps_or_hierarchical_tf_identifier"
  | .loop => "loop_statement"
  | .foreverLoop => "loop_statement_forever"
  | .repeatLoop => "loop_statement_repeat"
  | .whileLoop => "loop_statement_while"
  | .forLoop => "loop_statement_for"
  | .doWhileLoop => "loop_statement_do_while"
  | .foreachLoop => "loop_statement_foreach"
  | .forInit => "for_initialization"
  | .forInitAssignments => "for_init_assignments"
  | .forInitDeclarations => "for_init_declarations"
  | .forDeclaration => "for_variable_declaration"
  | .forBinding => "for_variable_binding"
  | .forStep => "for_step"
  | .forStepItem => "for_step_assignment"
  | .loopVariables => "loop_variables"
  | .statementOrNull => "statement_or_null"
  | .nullStatement => "null_statement"
  | .statement => "statement"
  | .statementLabel => "statement_label"
  | .statementItem => "statement_item"
  | .block => "seq_block"
  | .conditional => "conditional_statement"
  | .jump => "jump_statement"
  | .assignmentStatement => "blocking_assignment_statement"
  | .stepStatement => "inc_or_dec_statement"
  | .callStatement => "subroutine_call_statement"
  | .attribute => "attribute_instance"
  | .attributeEntry => "attr_spec"
  | .dataType => "data_type"
  | .integerVectorType => "integer_vector_type"
  | .integerAtomType => "integer_atom_type"
  | .nonIntegerType => "non_integer_type"
  | .simpleType => "simple_type"
  | .namedType => "named_type"
  | .packedDimension => "packed_dimension"
  | .variableAssignments => "list_of_variable_assignments"
  | .variableAssignment => "variable_assignment"
  | .operatorAssignment => "operator_assignment"
  | .stepExpression => "inc_or_dec_expression"
  | .lvalue => "variable_lvalue"
  | .lvalueConcatenation => "lvalue_concatenation"
  | .variableReference => "variable_reference"
  | .select => "select"
  | .call => "function_subroutine_call"
  | .systemCall => "system_tf_call"
  | .routineCall => "tf_call"
  | .appliedCall => "tf_call_with_arguments"
  | .arguments => "list_of_arguments"
  | .argument => "argument"
  | .namedArgument => "named_argument"
  | .expression => "expression"
  | .conditionalExpression => "conditional_expression"
  | .chain level => level.name
  | .unary => "prec_unary"
  | .primary => "primary"
  | .parenthesized => "paren_expr"
  | .concatenation => "concatenation"

/-- All phrases. -/
def Phrase.all : List Phrase :=
  ([.comment, .loopUnit, .assignSign, .identifier, .variableName, .indexName, .hierarchicalName,
   .packageScope, .classHandle, .qualifier, .arrayName, .routineName, .loop, .foreverLoop,
   .repeatLoop, .whileLoop, .forLoop, .doWhileLoop, .foreachLoop, .forInit, .forInitAssignments,
   .forInitDeclarations, .forDeclaration, .forBinding, .forStep, .forStepItem, .loopVariables,
   .statementOrNull, .nullStatement, .statement, .statementLabel, .statementItem, .block,
   .conditional, .jump, .assignmentStatement, .stepStatement, .callStatement, .attribute,
   .attributeEntry, .dataType, .integerVectorType, .integerAtomType, .nonIntegerType,
   .simpleType, .namedType, .packedDimension, .variableAssignments, .variableAssignment,
   .operatorAssignment, .stepExpression, .lvalue, .lvalueConcatenation, .variableReference,
   .select, .call, .systemCall, .routineCall, .appliedCall, .arguments, .argument,
   .namedArgument, .expression, .conditionalExpression] : List Phrase)
  ++ Level.all.map .chain ++ ([.unary, .primary, .parenthesized, .concatenation] : List Phrase)

/-- Every level is listed. -/
theorem Level.mem_all (level : Level) : level ∈ Level.all := by
  cases level <;> decide

/-- Every phrase is listed. -/
theorem Phrase.mem_all (p : Phrase) : p ∈ Phrase.all := by
  cases p with
  | chain level => simp [Phrase.all, Level.mem_all]
  | _ => decide

/-- What holds of every level is decided level by level. -/
instance Level.decidableForall {P : Level → Prop} [DecidablePred P] : Decidable (∀ level, P level) :=
  decidable_of_iff (∀ level ∈ Level.all, P level)
    ⟨fun h level => h level level.mem_all, fun h level _ => h level⟩

/-- What holds of every phrase is decided phrase by phrase. -/
instance Phrase.decidableForall {P : Phrase → Prop} [DecidablePred P] : Decidable (∀ p, P p) :=
  decidable_of_iff (∀ p ∈ Phrase.all, P p) ⟨fun h p => h p p.mem_all, fun h p _ => h p⟩

end VerilogLoops.Grammar
