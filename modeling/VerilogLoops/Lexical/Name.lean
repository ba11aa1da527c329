import VerilogLoops.Text.Word
/-!
# Names and strings

The tokens whose text is free: identifiers, escaped identifiers, names of system tasks and
functions, and string literals. Each recogniser gives the length of the token at the head of a
text.
-/

namespace VerilogLoops.Lexical

open VerilogLoops.Text

/-- The length of an identifier: a letter or underscore and then identifier characters. -/
def identifier? : List Char → Option Nat
  | c :: rest =>
    if isIdentifierStart c then some (1 + (rest.takeWhile isIdentifierCharacter).length) else none
  | [] => none

/-- The graphic characters of ASCII: the printable ones without the space. -/
def isGraphic (c : Char) : Bool :=
  '!' ≤ c && c ≤ '~'

/-- The length of an escaped identifier: a backslash and then graphic characters. -/
def escapedIdentifier? : List Char → Option Nat
  | '\\' :: rest =>
    match rest.takeWhile isGraphic with
    | [] => none
    | name => some (1 + name.length)
  | _ => none

/-- The names behind a dollar sign that are scopes and not system tasks or functions. -/
def scopeNames : List String :=
  ["unit", "root"]

/-- The length of the name of a system task or function: a dollar sign and then identifier
characters that do not spell a scope. -/
def systemName? : List Char → Option Nat
  | '$' :: rest =>
    match rest.takeWhile isIdentifierCharacter with
    | [] => none
    | name => if scopeNames.any (·.toList = name) then none else some (1 + name.length)
  | _ => none

/-- The length of the inside of a string and of the quote that closes it. A backslash hides the
character behind it, and a line feed is not allowed, hidden or not. -/
def stringEnd? : List Char → Option Nat
  | [] => none
  | '"' :: _ => some 1
  | ['\\'] => none
  | '\\' :: c :: rest => if c = '\n' then none else (stringEnd? rest).map (2 + ·)
  | c :: rest => if c = '\n' then none else (stringEnd? rest).map (1 + ·)

/-- The length of a string literal, its quotes included. -/
def string? : List Char → Option Nat
  | '"' :: rest => (stringEnd? rest).map (1 + ·)
  | _ => none

end VerilogLoops.Lexical
