import VerilogLoops.Grammar.Pattern
/-!
# The grammar

The pattern of every phrase. The order of alternatives is part of the language: an assignment list
is tried before a declaration list, `this.super` before `this`, an increment before a unary
operator, and a call with parentheses before a plain reference.
-/

namespace VerilogLoops.Grammar

open VerilogLoops.Lexical Pattern

/-- What the operators of a level join: the next tighter level, or unary expressions. -/
def Level.operand (level : Level) : Phrase :=
  match level.tighter with
  | some next => .chain next
  | none => .unary

/-- What a phrase is made of. -/
def Phrase.body : Phrase → Pattern
  | .comment => oneOf Token.lineComment [Token.blockComment]
  | .loopUnit => row Phrase.loop [Token.endOfInput]
  | .assignSign => row Token.equals [absent Token.equals]
  -- Names
  | .identifier =>
    row (absent Token.reservedWord) [oneOf Token.identifier [Token.escapedIdentifier]]
  | .variableName => Phrase.identifier
  | .indexName => Phrase.identifier
  | .hierarchicalName =>
    row (opt (row Token.rootScope [Token.period])) [separated Phrase.identifier .period]
  | .packageScope => row (oneOf Token.unitScope [Phrase.identifier]) [Token.scope]
  | .classHandle =>
    oneOf (row Token.keywordThis [Token.period, Token.keywordSuper])
      [Token.keywordThis, Token.keywordSuper]
  | .qualifier => oneOf (row Phrase.classHandle [Token.period]) [Phrase.packageScope]
  | .arrayName => row (opt Phrase.qualifier) [Phrase.hierarchicalName]
  | .routineName => row (opt Phrase.qualifier) [Phrase.hierarchicalName]
  -- Loop statements
  | .loop =>
    oneOf Phrase.foreverLoop
      [Phrase.repeatLoop, Phrase.whileLoop, Phrase.forLoop, Phrase.doWhileLoop,
       Phrase.foreachLoop]
  | .foreverLoop => row Token.keywordForever [Phrase.statementOrNull]
  | .repeatLoop =>
    row Token.keywordRepeat
      [Token.openParen, Phrase.expression, Token.closeParen, Phrase.statementOrNull]
  | .whileLoop =>
    row Token.keywordWhile
      [Token.openParen, Phrase.expression, Token.closeParen, Phrase.statementOrNull]
  | .forLoop =>
    row Token.keywordFor
      [Token.openParen, opt Phrase.forInit, Token.semicolon, opt Phrase.expression,
       Token.semicolon, opt Phrase.forStep, Token.closeParen, Phrase.statementOrNull]
  | .doWhileLoop =>
    row Token.keywordDo
      [Phrase.statementOrNull, Token.keywordWhile, Token.openParen, Phrase.expression,
       Token.closeParen, Token.semicolon]
  | .foreachLoop =>
    row Token.keywordForeach
      [Token.openParen, Phrase.arrayName, Phrase.loopVariables, Token.closeParen,
       Phrase.statement]
  | .forInit => oneOf Phrase.forInitAssignments [Phrase.forInitDeclarations]
  | .forInitAssignments => Phrase.variableAssignments
  | .forInitDeclarations => separated Phrase.forDeclaration .comma
  | .forDeclaration =>
    row (opt Token.keywordVar) [Phrase.dataType, separated Phrase.forBinding .comma]
  | .forBinding => row Phrase.variableName [Phrase.assignSign, Phrase.expression]
  | .forStep => separated Phrase.forStepItem .comma
  | .forStepItem => oneOf Phrase.operatorAssignment [Phrase.stepExpression, Phrase.call]
  | .loopVariables =>
    row Token.openBracket
      [opt Phrase.indexName, many (row Token.comma [opt Phrase.indexName]), Token.closeBracket]
  -- Statements
  | .statementOrNull => oneOf Phrase.statement [Phrase.nullStatement]
  | .nullStatement => row (many Phrase.attribute) [Token.semicolon]
  | .statement =>
    row (opt Phrase.statementLabel) [many Phrase.attribute, Phrase.statementItem]
  | .statementLabel => row Phrase.identifier [Token.colon]
  | .statementItem =>
    oneOf Phrase.block
      [Phrase.conditional, Phrase.loop, Phrase.jump, Phrase.assignmentStatement,
       Phrase.stepStatement, Phrase.callStatement]
  | .block =>
    row Token.keywordBegin
      [opt (row Token.colon [Phrase.identifier]), many Phrase.statementOrNull, Token.keywordEnd,
       opt (row Token.colon [Phrase.identifier])]
  | .conditional =>
    row Token.keywordIf
      [Token.openParen, Phrase.expression, Token.closeParen, Phrase.statementOrNull,
       opt (row Token.keywordElse [Phrase.statementOrNull])]
  | .jump =>
    oneOf (row Token.keywordReturn [opt Phrase.expression, Token.semicolon])
      [row Token.keywordBreak [Token.semicolon], row Token.keywordContinue [Token.semicolon]]
  | .assignmentStatement => row Phrase.operatorAssignment [Token.semicolon]
  | .stepStatement => row Phrase.stepExpression [Token.semicolon]
  | .callStatement => row Phrase.call [Token.semicolon]
  | .attribute =>
    row Token.openAttribute [separated Phrase.attributeEntry .comma, Token.closeAttribute]
  | .attributeEntry =>
    row Phrase.identifier [opt (row Phrase.assignSign [Phrase.expression])]
  -- Data types
  | .dataType =>
    oneOf Phrase.integerVectorType
      [Phrase.integerAtomType, Phrase.nonIntegerType, Phrase.simpleType, Phrase.namedType]
  | .integerVectorType =>
    row Token.integerVectorKeyword [opt Token.signing, many Phrase.packedDimension]
  | .integerAtomType => row Token.integerAtomKeyword [opt Token.signing]
  | .nonIntegerType => Token.nonIntegerKeyword
  | .simpleType => Token.simpleTypeKeyword
  | .namedType =>
    row (opt Phrase.packageScope) [Phrase.identifier, many Phrase.packedDimension]
  | .packedDimension =>
    oneOf
      (row Token.openBracket
        [Phrase.expression, Token.colon, Phrase.expression, Token.closeBracket])
      [row Token.openBracket [Token.closeBracket]]
  -- Assignments
  | .variableAssignments => separated Phrase.variableAssignment .comma
  | .variableAssignment => row Phrase.lvalue [Phrase.assignSign, Phrase.expression]
  | .operatorAssignment => row Phrase.lvalue [Token.assignmentOperator, Phrase.expression]
  | .stepExpression =>
    oneOf (row Token.stepOperator [Phrase.lvalue]) [row Phrase.lvalue [Token.stepOperator]]
  | .lvalue => oneOf Phrase.lvalueConcatenation [Phrase.variableReference]
  | .lvalueConcatenation =>
    row Token.openBrace [separated Phrase.lvalue .comma, Token.closeBrace]
  | .variableReference =>
    row (opt Phrase.qualifier) [Phrase.hierarchicalName, many Phrase.select]
  | .select =>
    row Token.openBracket
      [Phrase.expression, opt (row Token.partSelect [Phrase.expression]), Token.closeBracket]
  -- Calls
  | .call => oneOf Phrase.systemCall [Phrase.routineCall]
  | .systemCall =>
    row Token.systemName
      [opt (row Token.openParen [opt Phrase.arguments, Token.closeParen])]
  | .routineCall =>
    row Phrase.routineName
      [opt (row Token.openParen [opt Phrase.arguments, Token.closeParen])]
  | .appliedCall =>
    row Phrase.routineName [Token.openParen, opt Phrase.arguments, Token.closeParen]
  | .arguments => separated Phrase.argument .comma
  | .argument => oneOf Phrase.namedArgument [Phrase.expression]
  | .namedArgument =>
    row Token.period
      [Phrase.identifier, Token.openParen, opt Phrase.expression, Token.closeParen]
  -- Expressions
  | .expression => oneOf Phrase.conditionalExpression [Phrase.chain .logicalOr]
  | .conditionalExpression =>
    row (Phrase.chain .logicalOr)
      [Token.question, Phrase.expression, Token.colon, Phrase.expression]
  | .chain level => separated level.operand level.operator
  | .unary =>
    oneOf Phrase.stepExpression [row Token.unaryOperator [Phrase.unary], Phrase.primary]
  | .primary =>
    oneOf Token.number
      [Token.string, Phrase.parenthesized, Phrase.concatenation, Phrase.systemCall,
       Phrase.appliedCall, Phrase.variableReference]
  | .parenthesized => row Token.openParen [Phrase.expression, Token.closeParen]
  | .concatenation =>
    row Token.openBrace [separated Phrase.expression .comma, Token.closeBrace]

-- The equations of the rules are derived here, once for every proof that opens a rule.
attribute [local simp] Phrase.body

end VerilogLoops.Grammar
