/-!
# Kinds of nodes

A syntax tree is made of nodes of forty-nine kinds. A kind has a name, under which it stands in
documents, and named fields in a fixed order, some of which may be left out of a document. Kinds
are grouped into families: a loop statement is one of the items of a statement, and a call is one
of the expressions.
-/

namespace VerilogLoops.Ast

/-- The kinds of nodes. -/
inductive Kind where
  -- Names
  | identifier | hierarchicalIdentifier | packageScope | classHandle | scopedIdentifier
  -- Expressions and their parts
  | numberLiteral | stringLiteral | select | variableReference | concatenation
  | unaryOp | binaryOp | conditionalOp | incOrDecExpression | namedArgument | tfCall | systemTfCall
  -- Assignments
  | variableAssignment | operatorAssignment
  -- Data types
  | packedDimension | integerVectorType | integerAtomType | builtinType | namedType
  -- Statements
  | attrSpec | attributeInstance | statement | nullStatement | seqBlock | conditionalStatement
  | jumpStatement | blockingAssignment | incOrDecStatement | subroutineCallStatement
  -- Parts of loop headers
  | varKeyword | forVariableBinding | forVariableDeclaration | forInitAssignmentList
  | forInitDeclarationList | forStepOperatorAssignment | forStepIncOrDec | forStepSubroutineCall
  | loopVariables
  -- Loop statements
  | loopForever | loopRepeat | loopWhile | loopFor | loopDoWhile | loopForeach
deriving DecidableEq, Repr

/-- The name of a kind. -/
def Kind.name : Kind → String
  | .identifier => "Identifier"
  | .hierarchicalIdentifier => "HierarchicalIdentifier"
  | .packageScope => "PackageScope"
  | .classHandle => "ClassHandle"
  | .scopedIdentifier => "ScopedIdentifier"
  | .numberLiteral => "NumberLiteral"
  | .stringLiteral => "StringLiteral"
  | .select => "Select"
  | .variableReference => "VariableReference"
  | .concatenation => "Concatenation"
  | .unaryOp => "UnaryOp"
  | .binaryOp => "BinaryOp"
  | .conditionalOp => "ConditionalOp"
  | .incOrDecExpression => "IncOrDecExpression"
  | .namedArgument => "NamedArgument"
  | .tfCall => "TfCall"
  | .systemTfCall => "SystemTfCall"
  | .variableAssignment => "VariableAssignment"
  | .operatorAssignment => "OperatorAssignment"
  | .packedDimension => "PackedDimension"
  | .integerVectorType => "IntegerVectorType"
  | .integerAtomType => "IntegerAtomType"
  | .builtinType => "BuiltinType"
  | .namedType => "NamedType"
  | .attrSpec => "AttrSpec"
  | .attributeInstance => "AttributeInstance"
  | .statement => "Statement"
  | .nullStatement => "NullStatement"
  | .seqBlock => "SeqBlock"
  | .conditionalStatement => "ConditionalStatement"
  | .jumpStatement => "JumpStatement"
  | .blockingAssignment => "BlockingAssignment"
  | .incOrDecStatement => "IncOrDecStatement"
  | .subroutineCallStatement => "SubroutineCallStatement"
  | .varKeyword => "VarKeyword"
  | .forVariableBinding => "ForVariableBinding"
  | .forVariableDeclaration => "ForVariableDeclaration"
  | .forInitAssignmentList => "ForInitAssignmentList"
  | .forInitDeclarationList => "ForInitDeclarationList"
  | .forStepOperatorAssignment => "ForStepOperatorAssignment"
  | .forStepIncOrDec => "ForStepIncOrDec"
  | .forStepSubroutineCall => "ForStepSubroutineCall"
  | .loopVariables => "LoopVariables"
  | .loopForever => "LoopForever"
  | .loopRepeat => "LoopRepeat"
  | .loopWhile => "LoopWhile"
  | .loopFor => "LoopFor"
  | .loopDoWhile => "LoopDoWhile"
  | .loopForeach => "LoopForeach"

/-- All kinds. -/
def Kind.all : List Kind :=
  [.identifier, .hierarchicalIdentifier, .packageScope, .classHandle, .scopedIdentifier,
   .numberLiteral, .stringLiteral, .select, .variableReference, .concatenation, .unaryOp,
   .binaryOp, .conditionalOp, .incOrDecExpression, .namedArgument, .tfCall, .systemTfCall,
   .variableAssignment, .operatorAssignment, .packedDimension, .integerVectorType,
   .integerAtomType, .builtinType, .namedType, .attrSpec, .attributeInstance, .statement,
   .nullStatement, .seqBlock, .conditionalStatement, .jumpStatement, .blockingAssignment,
   .incOrDecStatement, .subroutineCallStatement, .varKeyword, .forVariableBinding,
   .forVariableDeclaration, .forInitAssignmentList, .forInitDeclarationList,
   .forStepOperatorAssignment, .forStepIncOrDec, .forStepSubroutineCall, .loopVariables,
   .loopForever, .loopRepeat, .loopWhile, .loopFor, .loopDoWhile, .loopForeach]

/-- Every kind is listed. -/
theorem Kind.mem_all (k : Kind) : k ∈ Kind.all := by
  cases k <;> decide

/-- What holds of every kind is decided kind by kind. -/
instance Kind.decidableForall {P : Kind → Prop} [DecidablePred P] : Decidable (∀ k, P k) :=
  decidable_of_iff (∀ k ∈ Kind.all, P k) ⟨fun h k => h k k.mem_all, fun h k _ => h k⟩

/-- The kind of a name. -/
def Kind.ofName? (name : String) : Option Kind :=
  Kind.all.find? (·.name = name)

/-- What becomes of a field that a document leaves out. -/
inductive Fallback where
  /-- The field may not be left out. -/
  | required
  /-- The field has no value. -/
  | nothing
  /-- The field is an empty sequence. -/
  | emptySequence
deriving DecidableEq, Repr

/-- A field of a kind. -/
structure Field where
  name : String
  fallback : Fallback
deriving DecidableEq, Repr

/-- A field that may not be left out. -/
def Field.needed (name : String) : Field :=
  ⟨name, .required⟩

/-- A field without a value when it is left out. -/
def Field.maybe (name : String) : Field :=
  ⟨name, .nothing⟩

/-- A field that is empty when it is left out. -/
def Field.several (name : String) : Field :=
  ⟨name, .emptySequence⟩

/-- The fields of a kind, in order. -/
def Kind.fields : Kind → List Field
  | .identifier => [.needed "name"]
  | .hierarchicalIdentifier => [.needed "root", .needed "path"]
  | .packageScope => [.needed "name"]
  | .classHandle => [.needed "keyword"]
  | .scopedIdentifier => [.needed "scope", .needed "name"]
  | .numberLiteral => [.needed "text"]
  | .stringLiteral => [.needed "val"]
  | .select => [.needed "index", .maybe "operator", .maybe "width"]
  | .variableReference => [.needed "name", .several "selects"]
  | .concatenation => [.needed "items"]
  | .unaryOp => [.needed "op", .needed "operand"]
  | .binaryOp => [.needed "op", .needed "left", .needed "right"]
  | .conditionalOp => [.needed "condition", .needed "true_expr", .needed "false_expr"]
  | .incOrDecExpression => [.needed "lvalue", .needed "operator", .needed "prefix"]
  | .namedArgument => [.needed "name", .needed "expr"]
  | .tfCall => [.needed "name", .maybe "arguments"]
  | .systemTfCall => [.needed "name", .maybe "arguments"]
  | .variableAssignment => [.needed "lvalue", .needed "expr"]
  | .operatorAssignment => [.needed "lvalue", .needed "operator", .needed "expr"]
  | .packedDimension => [.needed "msb", .needed "lsb"]
  | .integerVectorType => [.needed "keyword", .maybe "signing", .several "dimensions"]
  | .integerAtomType => [.needed "keyword", .maybe "signing"]
  | .builtinType => [.needed "keyword"]
  | .namedType => [.needed "scope", .needed "name", .several "dimensions"]
  | .attrSpec => [.needed "name", .maybe "value"]
  | .attributeInstance => [.needed "specs"]
  | .statement => [.needed "label", .needed "attributes", .needed "item"]
  | .nullStatement => [.several "attributes"]
  | .seqBlock => [.needed "name", .needed "items", .maybe "end_name"]
  | .conditionalStatement =>
    [.needed "condition", .needed "then_branch", .maybe "else_branch"]
  | .jumpStatement => [.needed "keyword", .maybe "expr"]
  | .blockingAssignment => [.needed "assignment"]
  | .incOrDecStatement => [.needed "expr"]
  | .subroutineCallStatement => [.needed "call"]
  | .varKeyword => []
  | .forVariableBinding => [.needed "name", .needed "init"]
  | .forVariableDeclaration => [.needed "var", .needed "data_type", .needed "bindings"]
  | .forInitAssignmentList => [.needed "assignments"]
  | .forInitDeclarationList => [.needed "declarations"]
  | .forStepOperatorAssignment => [.needed "assignment"]
  | .forStepIncOrDec => [.needed "expr"]
  | .forStepSubroutineCall => [.needed "call"]
  | .loopVariables => [.needed "slots"]
  | .loopForever => [.needed "body"]
  | .loopRepeat => [.needed "count", .needed "body"]
  | .loopWhile => [.needed "condition", .needed "body"]
  | .loopFor =>
    [.needed "initialization", .needed "condition", .needed "step", .needed "body"]
  | .loopDoWhile => [.needed "body", .needed "condition"]
  | .loopForeach => [.needed "array", .needed "variables", .needed "body"]

/-- The forms of a loop statement. -/
def Kind.loops : List Kind :=
  [.loopForever, .loopRepeat, .loopWhile, .loopFor, .loopDoWhile, .loopForeach]

/-- The forms of the first clause of a for loop. -/
def Kind.forInits : List Kind :=
  [.forInitAssignmentList, .forInitDeclarationList]

/-- The forms of an element of the last clause of a for loop. -/
def Kind.forSteps : List Kind :=
  [.forStepOperatorAssignment, .forStepIncOrDec, .forStepSubroutineCall]

/-- The expressions. -/
def Kind.expressions : List Kind :=
  [.numberLiteral, .stringLiteral, .variableReference, .concatenation, .unaryOp, .binaryOp,
   .conditionalOp, .incOrDecExpression, .tfCall, .systemTfCall]

/-- A set of kinds that stand for each other somewhere. -/
inductive Family where
  | only (k : Kind)
  | expression
  | call
  | dataType
  | statementItem
  | loop
  | forInit
  | forStep
  /-- A statement or a null statement. -/
  | statementOrNull
  /-- A package scope or a class handle. -/
  | qualifier
  /-- An expression or a named argument. -/
  | argument
deriving DecidableEq, Repr

/-- The kinds of a family. -/
def Family.kinds : Family → List Kind
  | .only k => [k]
  | .expression => Kind.expressions
  | .call => [.tfCall, .systemTfCall]
  | .dataType => [.integerVectorType, .integerAtomType, .builtinType, .namedType]
  | .statementItem =>
    [.seqBlock, .conditionalStatement, .jumpStatement, .blockingAssignment, .incOrDecStatement,
     .subroutineCallStatement] ++ Kind.loops
  | .loop => Kind.loops
  | .forInit => Kind.forInits
  | .forStep => Kind.forSteps
  | .statementOrNull => [.statement, .nullStatement]
  | .qualifier => [.packageScope, .classHandle]
  | .argument => .namedArgument :: Kind.expressions

/-- The name of a family. The last three have none. -/
def Family.name? : Family → Option String
  | .only k => some k.name
  | .expression => some "Expression"
  | .call => some "SubroutineCall"
  | .dataType => some "DataType"
  | .statementItem => some "StatementItem"
  | .loop => some "LoopStatement"
  | .forInit => some "ForInitialization"
  | .forStep => some "ForStepAssignment"
  | .statementOrNull | .qualifier | .argument => none

end VerilogLoops.Ast
