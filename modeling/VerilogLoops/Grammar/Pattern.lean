import VerilogLoops.Grammar.Phrase
/-!
# Patterns

What a phrase is made of. Matching is deterministic: a choice takes its first alternative that
matches and never comes back to it, and a repetition takes as much as it can.

A separated repetition has one peculiarity. When a separator matches and the item behind it does
not, the separator is given back to the text, but it stays in the parse tree. So `tail` is an
operator of its own and not made of the others.
-/

namespace VerilogLoops.Grammar

open VerilogLoops.Lexical

/-- A pattern over tokens and phrases. -/
inductive Pattern where
  | token (t : Token)
  | phrase (p : Phrase)
  /-- One after the other. -/
  | seq (first second : Pattern)
  /-- The first alternative that matches. -/
  | alt (first second : Pattern)
  /-- Once or not at all. -/
  | opt (body : Pattern)
  /-- As often as possible. -/
  | many (body : Pattern)
  /-- As often as possible a separator and an item; a separator that no item follows is given back
  and stays in the tree. -/
  | tail (separator : Token) (item : Pattern)
  /-- Nothing, provided that the body does not match here. -/
  | absent (body : Pattern)
deriving DecidableEq, Repr

instance : Coe Token Pattern := ⟨.token⟩
instance : Coe Phrase Pattern := ⟨.phrase⟩

/-- Several patterns in a row, at least one. -/
def Pattern.row (first : Pattern) : List Pattern → Pattern
  | [] => first
  | second :: rest => .seq first (row second rest)

/-- The first that matches of several patterns, at least one. -/
def Pattern.oneOf (first : Pattern) : List Pattern → Pattern
  | [] => first
  | second :: rest => .alt first (oneOf second rest)

/-- One or more items with separators between them. -/
def Pattern.separated (item : Pattern) (separator : Token) : Pattern :=
  .seq item (.tail separator item)

end VerilogLoops.Grammar
