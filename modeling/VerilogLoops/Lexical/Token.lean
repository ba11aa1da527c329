import VerilogLoops.Lexical.Name
import VerilogLoops.Lexical.Number
import VerilogLoops.Lexical.Spelling
import VerilogLoops.Text.Trivia
/-!
# Tokens

The terminal symbols of the grammar. Most are fixed spellings; the others are recognised by a
function of their own. `Token.length?` is the one entry: the length of the token at the head of a
text, if it stands there. Trivia in front of a token is not its concern.
-/

namespace VerilogLoops.Lexical

open VerilogLoops.Text

/-- The words that no identifier may be. -/
def reservedWords : List String :=
  ["always", "assign", "automatic", "begin", "bit", "break", "byte", "case", "chandle", "class",
   "const", "continue", "do", "else", "end", "endcase", "endclass", "endfunction", "endmodule",
   "endpackage", "endtask", "enum", "event", "for", "force", "foreach", "forever", "fork",
   "function", "if", "initial", "int", "integer", "join", "logic", "longint", "module", "null",
   "package", "packed", "priority", "real", "realtime", "reg", "release", "repeat", "return",
   "shortint", "shortreal", "signed", "static", "string", "struct", "super", "task", "this",
   "time", "typedef", "union", "unique", "unique0", "unsigned", "var", "void", "wait", "while",
   "wire"]

/-- The terminal symbols. -/
inductive Token where
  | lineComment | blockComment | reservedWord
  | identifier | escapedIdentifier | systemName | number | string
  | comma | semicolon | colon | scope | period | question
  | openParen | closeParen | openBracket | closeBracket | openBrace | closeBrace
  | openAttribute | closeAttribute
  | equals | assignmentOperator | stepOperator | partSelect
  | logicalOr | logicalAnd | binaryOr | binaryXor | binaryAnd | equality | relational | shift
  | additive | multiplicative | power | unaryOperator
  | keywordForever | keywordRepeat | keywordWhile | keywordFor | keywordDo | keywordForeach
  | keywordVar | keywordIf | keywordElse | keywordBegin | keywordEnd | keywordBreak
  | keywordContinue | keywordReturn | keywordThis | keywordSuper
  | unitScope | rootScope | signing | integerVectorKeyword | integerAtomKeyword
  | nonIntegerKeyword | simpleTypeKeyword
  | endOfInput
deriving DecidableEq, Repr

/-- The spellings of a token, in the order in which they are tried. A token of free text has
none. -/
def Token.spellings : Token → List Spelling
  | .reservedWord => reservedWords.map .wholeWord
  | .comma => [.plain ","]
  | .semicolon => [.plain ";"]
  | .colon => [.notBefore ":" ":"]
  | .scope => [.plain "::"]
  | .period => [.plain "."]
  | .question => [.plain "?"]
  | .openParen => [.plain "("]
  | .closeParen => [.plain ")"]
  | .openBracket => [.plain "["]
  | .closeBracket => [.plain "]"]
  | .openBrace => [.plain "\x7b"]
  | .closeBrace => [.plain "\x7d"]
  | .openAttribute => [.notBefore "(*" ")"]
  | .closeAttribute => [.plain "*)"]
  | .equals => [.plain "="]
  -- the first spelling that fits counts, so the longer ones stand in front
  | .assignmentOperator =>
    [.plain "<<<=", .plain ">>>=", .plain "<<=", .plain ">>=", .plain "+=", .plain "-=",
     .plain "*=", .plain "/=", .plain "%=", .plain "&=", .plain "|=", .plain "^=",
     .notBefore "=" "="]
  | .stepOperator => [.plain "++", .plain "--"]
  | .partSelect => [.plain "+:", .plain "-:", .notBefore ":" ":"]
  | .logicalOr => [.plain "||"]
  | .logicalAnd => [.plain "&&"]
  | .binaryOr => [.notBefore "|" "|="]
  | .binaryXor => [.plain "^~", .plain "~^", .notBefore "^" "="]
  | .binaryAnd => [.notBefore "&" "&="]
  | .equality =>
    [.plain "===", .plain "!==", .plain "==?", .plain "!=?", .plain "==", .plain "!="]
  | .relational => [.plain "<=", .plain ">=", .notBefore "<" "<=", .notBefore ">" ">="]
  | .shift =>
    [.notBefore "<<<" "=", .notBefore ">>>" "=", .notBefore "<<" "<=", .notBefore ">>" ">="]
  | .additive => [.notBefore "+" "+=:", .notBefore "-" "-=:>"]
  | .multiplicative => [.notBefore "*" "*=)", .notBefore "/" "=", .notBefore "%" "="]
  | .power => [.plain "**"]
  | .unaryOperator =>
    [.plain "~&", .plain "~|", .plain "~^", .plain "^~", .notBefore "!" "=", .plain "~",
     .notBefore "&" "&", .notBefore "|" "|", .plain "^", .notBefore "+" "+", .notBefore "-" "-"]
  | .keywordForever => [.keyword "forever"]
  | .keywordRepeat => [.keyword "repeat"]
  | .keywordWhile => [.keyword "while"]
  | .keywordFor => [.keyword "for"]
  | .keywordDo => [.keyword "do"]
  | .keywordForeach => [.keyword "foreach"]
  | .keywordVar => [.keyword "var"]
  | .keywordIf => [.keyword "if"]
  | .keywordElse => [.keyword "else"]
  | .keywordBegin => [.keyword "begin"]
  | .keywordEnd => [.keyword "end"]
  | .keywordBreak => [.keyword "break"]
  | .keywordContinue => [.keyword "continue"]
  | .keywordReturn => [.keyword "return"]
  | .keywordThis => [.keyword "this"]
  | .keywordSuper => [.keyword "super"]
  | .unitScope => [.wholeWord "$unit"]
  | .rootScope => [.wholeWord "$root"]
  | .signing => [.wholeWord "signed", .wholeWord "unsigned"]
  | .integerVectorKeyword => [.wholeWord "bit", .wholeWord "logic", .wholeWord "reg"]
  | .integerAtomKeyword =>
    [.wholeWord "byte", .wholeWord "shortint", .wholeWord "int", .wholeWord "longint",
     .wholeWord "integer", .wholeWord "time"]
  | .nonIntegerKeyword => [.wholeWord "shortreal", .wholeWord "realtime", .wholeWord "real"]
  | .simpleTypeKeyword => [.wholeWord "string", .wholeWord "chandle", .wholeWord "event"]
  | .lineComment | .blockComment | .identifier | .escapedIdentifier | .systemName | .number
  | .string | .endOfInput => []

/-- The length of the token at the head of a text, if it stands there. -/
def Token.length? (t : Token) (cs : List Char) : Option Nat :=
  match t with
  | .lineComment => lineComment? cs
  | .blockComment => blockComment? cs
  | .identifier => identifier? cs
  | .escapedIdentifier => escapedIdentifier? cs
  | .systemName => systemName? cs
  | .number => number? cs
  | .string => string? cs
  | .endOfInput => if cs.isEmpty then some 0 else none
  | t => firstFit t.spellings cs

/-- The name under which a token stands in a parse tree. The equals sign of an assignment has no
name of its own. -/
def Token.name : Token → String
  | .lineComment => "comment_line"
  | .blockComment => "comment_multi"
  | .reservedWord => "reserved_word"
  | .identifier => "TOK_ID"
  | .escapedIdentifier => "TOK_ESCAPED_ID"
  | .systemName => "TOK_SYSTEM_ID"
  | .number => "TOK_NUMBER"
  | .string => "TOK_STRING"
  | .comma => "TOK_COMMA"
  | .semicolon => "TOK_SEMICOLON"
  | .colon => "TOK_COLON"
  | .scope => "TOK_SCOPE"
  | .period => "TOK_PERIOD"
  | .question => "TOK_QUESTION"
  | .openParen => "TOK_PAREN"
  | .closeParen => "TOK_ENDPAREN"
  | .openBracket => "TOK_BRACKET"
  | .closeBracket => "TOK_ENDBRACKET"
  | .openBrace => "TOK_BRACE"
  | .closeBrace => "TOK_ENDBRACE"
  | .openAttribute => "TOK_ATTR_START"
  | .closeAttribute => "TOK_ATTR_END"
  | .equals => ""
  | .assignmentOperator => "TOK_ASSIGNMENT_OP"
  | .stepOperator => "TOK_INC_OR_DEC"
  | .partSelect => "TOK_PART_SELECT"
  | .logicalOr => "TOK_LOGICAL_OR"
  | .logicalAnd => "TOK_LOGICAL_AND"
  | .binaryOr => "TOK_BINARY_OR"
  | .binaryXor => "TOK_BINARY_XOR"
  | .binaryAnd => "TOK_BINARY_AND"
  | .equality => "TOK_EQUALITY_OP"
  | .relational => "TOK_RELATIONAL_OP"
  | .shift => "TOK_SHIFT_OP"
  | .additive => "TOK_ADDITIVE_OP"
  | .multiplicative => "TOK_MULTIPLICATIVE_OP"
  | .power => "TOK_POWER"
  | .unaryOperator => "TOK_UNARY_OP"
  | .keywordForever => "KWD_FOREVER"
  | .keywordRepeat => "KWD_REPEAT"
  | .keywordWhile => "KWD_WHILE"
  | .keywordFor => "KWD_FOR"
  | .keywordDo => "KWD_DO"
  | .keywordForeach => "KWD_FOREACH"
  | .keywordVar => "KWD_VAR"
  | .keywordIf => "KWD_IF"
  | .keywordElse => "KWD_ELSE"
  | .keywordBegin => "KWD_BEGIN"
  | .keywordEnd => "KWD_END"
  | .keywordBreak => "KWD_BREAK"
  | .keywordContinue => "KWD_CONTINUE"
  | .keywordReturn => "KWD_RETURN"
  | .keywordThis => "KWD_THIS"
  | .keywordSuper => "KWD_SUPER"
  | .unitScope => "KWD_UNIT"
  | .rootScope => "KWD_ROOT"
  | .signing => "KWD_SIGNING"
  | .integerVectorKeyword => "KWD_INTEGER_VECTOR_TYPE"
  | .integerAtomKeyword => "KWD_INTEGER_ATOM_TYPE"
  | .nonIntegerKeyword => "KWD_NON_INTEGER_TYPE"
  | .simpleTypeKeyword => "KWD_SIMPLE_TYPE"
  | .endOfInput => "EOF"

/-- The tokens that are rules of the grammar in their own right: all but the nameless equals sign
and the end of the input. -/
def Token.all : List Token :=
  [.lineComment, .blockComment, .reservedWord, .identifier, .escapedIdentifier, .systemName,
   .number, .string, .comma, .semicolon, .colon, .scope, .period, .question, .openParen,
   .closeParen, .openBracket, .closeBracket, .openBrace, .closeBrace, .openAttribute,
   .closeAttribute, .assignmentOperator, .stepOperator, .partSelect, .logicalOr, .logicalAnd,
   .binaryOr, .binaryXor, .binaryAnd, .equality, .relational, .shift, .additive, .multiplicative,
   .power, .unaryOperator, .keywordForever, .keywordRepeat, .keywordWhile, .keywordFor,
   .keywordDo, .keywordForeach, .keywordVar, .keywordIf, .keywordElse, .keywordBegin,
   .keywordEnd, .keywordBreak, .keywordContinue, .keywordReturn, .keywordThis, .keywordSuper,
   .unitScope, .rootScope, .signing, .integerVectorKeyword, .integerAtomKeyword,
   .nonIntegerKeyword, .simpleTypeKeyword]

/-- Every token but two is listed. -/
theorem Token.mem_all (t : Token) : t ∈ Token.all ∨ t = .equals ∨ t = .endOfInput := by
  cases t <;> decide

/-- What holds of every token is decided token by token. -/
instance Token.decidableForall {P : Token → Prop} [DecidablePred P] : Decidable (∀ t, P t) :=
  decidable_of_iff ((∀ t ∈ Token.all, P t) ∧ P .equals ∧ P .endOfInput)
    ⟨fun h t => t.mem_all.elim (h.1 t) fun ht => ht.elim (· ▸ h.2.1) (· ▸ h.2.2),
      fun h => ⟨fun t _ => h t, h .equals, h .endOfInput⟩⟩

end VerilogLoops.Lexical
