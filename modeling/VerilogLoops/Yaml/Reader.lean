import VerilogLoops.Text.Utf16
import VerilogLoops.Yaml.Block
import VerilogLoops.Yaml.Folding
import VerilogLoops.Yaml.Node
import VerilogLoops.Yaml.Resolution
/-!
# Documents from YAML texts

A YAML text is read that holds at most one document, made of block maps and block lists, maps and
lists in braces and brackets, scalars of every style, tags in front of nodes, and comments. Anchors,
directives and maps with written-out key marks are not read.

First the text becomes a node, and then the node a document. The column of a word decides what it
belongs to. A *cursor* is therefore a place in the text with its line and column, and with whether a
line has ended since the last word. Reading consumes fuel with every node, and a few units for every
character are enough.
-/

namespace VerilogLoops.Yaml

open VerilogLoops.Document VerilogLoops.Number VerilogLoops.Text

/-- Why a text is not made of nodes. -/
inductive SyntaxError where
  | malformed
  /-- An escape has a code that no character has. -/
  | noCharacter (code : Nat)
deriving DecidableEq, Repr

/-- The largest code that is looked up among those of the characters. -/
def greatestCode : Nat := 0x7fffffff

/-- The error in words. What is malformed has none. -/
def SyntaxError.message : SyntaxError → String
  | .malformed => ""
  | .noCharacter code =>
    if code ≤ greatestCode then "chr() arg not in range(0x110000)"
    else "Python int too large to convert to C int"

/-- What is expected and not found makes a text malformed. -/
def required {α : Type} (found : Option α) : Except SyntaxError α :=
  found.elim (.error .malformed) .ok

/-- A place in a text and the text behind it. -/
structure Cursor where
  line : Nat
  column : Nat
  /-- Nothing but gaps stands in front of the place on its line. -/
  fresh : Bool
  rest : List Char
deriving DecidableEq, Repr

/-- The line and the column of a place. -/
def Cursor.mark (cursor : Cursor) : Mark :=
  ⟨cursor.line, cursor.column⟩

/-- The place some characters further on. -/
def Cursor.advance : Nat → Cursor → Cursor
  | 0, cursor => cursor
  | n + 1, ⟨line, column, fresh, rest⟩ =>
    match rest with
    | [] => ⟨line, column, fresh, []⟩
    | c :: rest =>
      advance n (if isBreak c then ⟨line + 1, 0, true, rest⟩ else ⟨line, column + 1, false, rest⟩)

/-- The next place behind blanks, line breaks and comments. -/
def skipFrom (inComment fresh : Bool) (line column : Nat) : List Char → Cursor
  | [] => ⟨line, column, fresh, []⟩
  | c :: rest =>
    if isBreak c then skipFrom false true (line + 1) 0 rest
    else if inComment then skipFrom true fresh line (column + 1) rest
    else if c = ' ' then skipFrom false fresh line (column + 1) rest
    else if c = '#' then skipFrom true fresh line (column + 1) rest
    else ⟨line, column, fresh, c :: rest⟩

/-- The next place with a word. -/
def Cursor.next (cursor : Cursor) : Cursor :=
  skipFrom false cursor.fresh cursor.line cursor.column cursor.rest

/-- A text starts with the border of a document. -/
def startsBorder (cs : List Char) : Bool :=
  ("---".toList.isPrefixOf cs || "...".toList.isPrefixOf cs) && headIsOrEnd isGap (cs.drop 3)

/-- The document ends here. -/
def Cursor.atEnd (cursor : Cursor) : Bool :=
  cursor.rest.isEmpty || (cursor.column = 0 && startsBorder cursor.rest)

/-- An item of a block list starts here. -/
def Cursor.atDash (cursor : Cursor) : Bool :=
  headIs (· = '-') cursor.rest && headIsOrEnd isGap (cursor.rest.drop 1)

/-- The marks of maps and lists in braces and brackets. -/
def isFlowMark (c : Char) : Bool :=
  c = ',' || c = '[' || c = ']' || c = '\x7b' || c = '\x7d'

/-- The colon of an entry starts a text. -/
def startsColon (inFlow : Bool) : List Char → Bool
  | ':' :: rest => headIsOrEnd (fun c => isGap c || inFlow && isFlowMark c) rest
  | _ => false

/-- A plain scalar may start a text. -/
def startsPlain (inFlow : Bool) : List Char → Bool
  | [] => false
  | c :: rest =>
    if c = '-' || c = '?' || c = ':' then
      !headIsOrEnd isGap rest && (c = '-' || !inFlow)
    else !isGap c && !",[]\x7b\x7d#&*!|>'\"%@\x60".toList.contains c

/-- The length of a plain scalar, given the column and the number of blanks and breaks since its
last word. It ends in front of a comment, the colon of an entry, a mark, a tab, and a line that is
indented too little. -/
def plainLength (inFlow : Bool) (least : Nat) : Nat → Nat → List Char → Nat
  | _, _, [] => 0
  | column, gap, c :: rest =>
    if c = ' ' then plainLength inFlow least (column + 1) (gap + 1) rest
    else if isBreak c then
      if startsBorder rest then 0 else plainLength inFlow least 0 (gap + 1) rest
    -- a comment, or a line that belongs further out
    else if 0 < gap && (c = '#' || (!inFlow && column < least)) then 0
    else if isGap c || startsColon inFlow (c :: rest)
        || (inFlow && (isFlowMark c || c = '?')) then 0
    else gap + 1 + plainLength inFlow least (column + 1) 0 rest

/-- The pieces of a scalar behind its opening single quote, and the number of characters up to its
closing one. -/
def readSingle? : List Char → Option (List Piece × Nat)
  | [] => none
  -- two quotes stand for one
  | '\'' :: '\'' :: rest => (readSingle? rest).map fun r => (.bare '\'' :: r.1, r.2 + 2)
  | c :: rest =>
    if c = '\'' then some ([], 1)
    else (readSingle? rest).map fun r => (.bare c :: r.1, r.2 + 1)

/-- The characters that a letter behind a backslash stands for. -/
def letterEscapes : List (Char × Char) :=
  [('0', '\x00'), ('a', '\x07'), ('b', '\x08'), ('t', '\t'), ('\t', '\t'), ('n', '\n'),
   ('v', '\x0b'), ('f', '\x0c'), ('r', '\r'), ('e', '\x1b'), (' ', ' '), ('"', '"'), ('/', '/'),
   ('\\', '\\'), ('N', '\x85'), ('_', '\xa0'), ('L', '\u2028'), ('P', '\u2029')]

/-- The number of hexadecimal digits behind a letter. -/
def codeWidths : List (Char × Nat) :=
  [('x', 2), ('u', 4), ('U', 8)]

/-- The code behind a letter, and the number of characters that both take. -/
def code? : List Char → Option (Nat × Nat)
  | [] => none
  | c :: rest => do
    let width ← codeWidths.lookup c
    let ds := rest.take width
    if ds.length = width && ds.all isHexDigit then some (valueInBase 16 ds, width + 1) else none

/-- The character of a code and of the code behind it. Two codes of UTF-16 that belong together
stand for one character. -/
def coded (code length : Nat) (rest : List Char) : Piece × Nat :=
  match rest.drop length with
  | '\\' :: more =>
    match code? more with
    | some (low, lowLength) =>
      -- one half of a pair that lacks the other stands for itself
      if isHighUnit code && isLowUnit low then
        (.escaped (joinedUnits code low), length + 1 + lowLength)
      else (.escaped (characterOf code), length)
    | none => (.escaped (characterOf code), length)
  | _ => (.escaped (characterOf code), length)

/-- The character of an escape and the number of characters it takes behind the backslash. -/
def readEscape : List Char → Except SyntaxError (Piece × Nat)
  | [] => .error .malformed
  | c :: rest =>
    if isBreak c then .ok (.joint, 1)
    else
      match letterEscapes.lookup c with
      | some e => .ok (.escaped e, 1)
      | none => do
        let (code, length) ← required (code? (c :: rest))
        if code < 0x110000 then return coded code length (c :: rest)
        else .error (.noCharacter code)

/-- The pieces of a scalar behind its opening double quote, and the number of characters up to its
closing one, when so many characters still belong to an escape. -/
def readDouble : Nat → List Char → Except SyntaxError (List Piece × Nat)
  | _, [] => .error .malformed
  -- the characters of an escape have been read with the backslash
  | inEscape + 1, _ :: rest => do
    let (pieces, n) ← readDouble inEscape rest
    return (pieces, n + 1)
  | 0, c :: rest => do
    if c = '"' then return ([], 1)
    else if c = '\\' then
      let (piece, length) ← readEscape rest
      let (pieces, n) ← readDouble length rest
      return (piece :: pieces, n + 1)
    else
      let (pieces, n) ← readDouble 0 rest
      return (.bare c :: pieces, n + 1)

/-- A tag as it is written in front of a node, with the place at which it stands. -/
abbrev GivenTag :=
  WrittenTag × Mark

/-- The tag in front of a node, if there is one, and the place behind it. -/
def readTag (cursor : Cursor) : Except SyntaxError (Option GivenTag × Cursor) :=
  if headIs (· = '!') cursor.rest then do
    let (tag, length) ← required (writtenTag? cursor.rest)
    return (some (tag, cursor.mark), cursor.advance length)
  else .ok (none, cursor)

/-- The tag of a scalar, which its text decides if it is plain or asked to be taken as such. -/
def tagOfScalar (given : Option GivenTag) (isPlain : Bool) (cs : List Char) : Tag :=
  match given with
  | some (.named tag, _) => tag
  | some (.asPlain, _) => .ofPlain cs
  | none => if isPlain then .ofPlain cs else .text

/-- The tag of a list or a map. -/
def tagOr (usual : Tag) : Option GivenTag → Tag
  | some (.named tag, _) => tag
  | _ => usual

/-- The place at which a node starts, its tag included. -/
def startOf (given : Option GivenTag) (cursor : Cursor) : Mark :=
  (given.map (·.2)).getD cursor.mark

/-- A scalar with its tag. -/
def scalarFrom (given : Option GivenTag) (isPlain : Bool) (cursor : Cursor) (cs : List Char) :
    Node :=
  .scalar (tagOfScalar given isPlain cs) (startOf given cursor) cs

/-- A node without any text. -/
def emptyFrom (given : Option GivenTag) (cursor : Cursor) : Node :=
  scalarFrom given true cursor []

/-- A scalar at a place, and the place right behind it. -/
def readScalar (inFlow : Bool) (given : Option GivenTag) (least : Nat) (cursor : Cursor) :
    Except SyntaxError (Node × Cursor) :=
  match cursor.rest with
  | '\'' :: rest => do
    let (pieces, n) ← required (readSingle? rest)
    return (scalarFrom given false cursor (folded pieces), cursor.advance (n + 1))
  | '"' :: rest => do
    let (pieces, n) ← readDouble 0 rest
    return (scalarFrom given false cursor (folded pieces), cursor.advance (n + 1))
  | c :: rest =>
    if !inFlow && (c = '|' || c = '>') then do
      let (text, after) ← required (blockScalar? (c = '>') least rest)
      let length := cursor.rest.length - after.length
      return (scalarFrom given false cursor text, cursor.advance length)
    else if startsPlain inFlow (c :: rest) then
      let n := plainLength inFlow least cursor.column 0 (c :: rest)
      let text := folded (((c :: rest).take n).map .bare)
      .ok (scalarFrom given true cursor text, cursor.advance n)
    else .error .malformed
  | [] => .error .malformed

/-- The most characters between the start of a key and its colon. -/
def keyWidth : Nat := 1024

/-- A key that starts at one place may have its colon at another: on the same line and not too far
away. -/
def isWithinKey (start : Mark) (colon : Cursor) : Bool :=
  colon.line = start.line && colon.column ≤ start.column + keyWidth

mutual

/-- A list in brackets, a map in braces or a scalar, and the place right behind it. -/
def readAtom : Nat → Bool → Option GivenTag → Nat → Cursor → Except SyntaxError (Node × Cursor)
  | 0, _, _, _, _ => .error .malformed
  | fuel + 1, inFlow, given, least, cursor =>
    match cursor.rest with
    | '[' :: _ => do
      let (items, after) ← readFlowItems fuel (cursor.advance 1).next
      return (.list (tagOr .list given) (startOf given cursor) items, after)
    | '\x7b' :: _ => do
      let (entries, after) ← readFlowEntries fuel (cursor.advance 1).next
      return (.map (tagOr .map given) (startOf given cursor) entries, after)
    | _ => readScalar inFlow given least cursor

/-- A node in brackets or braces behind a mark, and the next place. Without any text it needs a tag,
unless it may be empty. -/
def readFlowNode : Nat → Bool → Cursor → Except SyntaxError (Node × Cursor)
  | 0, _, _ => .error .malformed
  | fuel + 1, mayBeEmpty, mark => do
    let (given, after) ← readTag mark.next
    let cursor := after.next
    if headIs (fun c => c = ',' || c = ']' || c = '\x7d' || c = ':') cursor.rest then
      if mayBeEmpty || given.isSome then return (emptyFrom given mark, cursor)
      else .error .malformed
    else
      let (node, after) ← readAtom fuel true given 0 cursor
      return (node, after.next)

/-- The value behind the colon of an entry in braces or brackets whose key starts at some place, or
nothing without a colon. -/
def readFlowValue : Nat → Mark → Cursor → Except SyntaxError (Node × Cursor)
  | 0, _, _ => .error .malformed
  | fuel + 1, start, cursor =>
    if !headIs (· = ':') cursor.rest then .ok (emptyFrom none cursor, cursor)
    else if isWithinKey start cursor then readFlowNode fuel true (cursor.advance 1)
    else .error .malformed

/-- The items of a list up to its closing bracket. An item with a colon is a map of one entry. -/
def readFlowItems : Nat → Cursor → Except SyntaxError (List Node × Cursor)
  | 0, _ => .error .malformed
  | fuel + 1, cursor =>
    if headIs (· = ']') cursor.rest then .ok ([], cursor.advance 1)
    else do
      let (key, middle) ← readFlowNode fuel false cursor
      let (value, after) ← readFlowValue fuel cursor.mark middle
      let item :=
        if headIs (· = ':') middle.rest then .map .map cursor.mark [(key, value)] else key
      match after.rest with
      | ',' :: _ =>
        let (items, behind) ← readFlowItems fuel (after.advance 1).next
        return (item :: items, behind)
      | ']' :: _ => return ([item], after.advance 1)
      | _ => .error .malformed

/-- The entries of a map up to its closing brace. -/
def readFlowEntries : Nat → Cursor → Except SyntaxError (List (Node × Node) × Cursor)
  | 0, _ => .error .malformed
  | fuel + 1, cursor =>
    if headIs (· = '\x7d') cursor.rest then .ok ([], cursor.advance 1)
    else do
      let (key, middle) ← readFlowNode fuel false cursor
      let (value, after) ← readFlowValue fuel cursor.mark middle
      match after.rest with
      | ',' :: _ =>
        let (entries, behind) ← readFlowEntries fuel (after.advance 1).next
        return ((key, value) :: entries, behind)
      | '\x7d' :: _ => return ([(key, value)], after.advance 1)
      | _ => .error .malformed

end

/-- The key of an entry of a block map and the place behind its colon. A key that is nothing but a
tag is empty. -/
def readBlockKey (fuel : Nat) (cursor : Cursor) : Except SyntaxError (Node × Cursor) := do
  let (given, behind) ← readTag cursor
  let start := behind.next
  let (key, after) ←
    if given.isSome && startsColon false start.rest then .ok (emptyFrom given start, start)
    else readAtom fuel false given 0 start
  let colon := after.advance (after.rest.takeWhile (· = ' ')).length
  if startsColon false colon.rest && isWithinKey cursor.mark colon then
    return (key, colon.advance 1)
  else .error .malformed

mutual

/-- A block node behind a mark, and the next place. It starts in some column at least, which may be
a smaller one for the dash of a list. Behind a key on the same line there is no room for a block map
or a block list. -/
def readBlockNode :
    Nat → Bool → Option GivenTag → Nat → Nat → Cursor → Except SyntaxError (Node × Cursor)
  | 0, _, _, _, _, _ => .error .malformed
  | fuel + 1, besideKey, given, leastDash, least, mark =>
    let cursor := mark.next
    let hasRoom := !besideKey || cursor.fresh
    if cursor.atEnd || cursor.column < (if cursor.atDash then leastDash else least) then
      .ok (emptyFrom given mark, cursor)
    else if cursor.atDash then
      if hasRoom then do
        let (items, after) ← readBlockItems fuel cursor.column cursor
        return (.list (tagOr .list given) (startOf given cursor) items, after)
      else .error .malformed
    else
      -- a key is only looked for here; with the entries it is read again
      match readBlockKey fuel cursor with
      | .ok _ =>
        if hasRoom then do
          let (entries, after) ← readBlockEntries fuel cursor.column cursor
          return (.map (tagOr .map given) (startOf given cursor) entries, after)
        else .error .malformed
      | .error _ => do
        match ← readTag cursor with
        | (some tag, behind) =>
          if given.isSome then .error .malformed
          -- behind its tag, a block map or a block list needs a line of its own
          else readBlockNode fuel true (some tag) leastDash least behind
        | (none, _) =>
          let (node, after) ← readAtom fuel false given least cursor
          return (node, after.next)

/-- The items of a block list in a column. -/
def readBlockItems : Nat → Nat → Cursor → Except SyntaxError (List Node × Cursor)
  | 0, _, _ => .error .malformed
  | fuel + 1, column, cursor => do
    let (item, after) ←
      readBlockNode fuel false none (column + 1) (column + 1) (cursor.advance 1)
    if after.atEnd || after.column < column || (after.column = column && !after.atDash) then
      return ([item], after)
    else if after.column = column then
      let (items, behind) ← readBlockItems fuel column after
      return (item :: items, behind)
    else .error .malformed

/-- The entries of a block map in a column. The items of a block list may stand in the column of the
key that the list belongs to. -/
def readBlockEntries : Nat → Nat → Cursor → Except SyntaxError (List (Node × Node) × Cursor)
  | 0, _, _ => .error .malformed
  | fuel + 1, column, cursor => do
    let (key, colon) ← readBlockKey fuel cursor
    let (value, after) ← readBlockNode fuel true none column (column + 1) colon
    if after.atEnd || after.column < column then return ([(key, value)], after)
    else if after.column = column && after.fresh then
      let (entries, behind) ← readBlockEntries fuel column after
      return ((key, value) :: entries, behind)
    else .error .malformed

end

/-- The place in front of the document, behind its border if it has one. -/
def firstPlace (cs : List Char) : Cursor :=
  -- the mark of the byte order is no part of the text
  let cs := match cs with
    | '\ufeff' :: rest => rest
    | cs => cs
  let cursor := Cursor.next ⟨0, 0, true, cs⟩
  if cursor.column = 0 && "---".toList.isPrefixOf cursor.rest && startsBorder cursor.rest then
    cursor.advance 3
  else cursor

/-- Nothing but the border that ends a document follows. -/
def endsDocument (cursor : Cursor) : Bool :=
  cursor.rest.isEmpty
    || (cursor.column = 0 && "...".toList.isPrefixOf cursor.rest && startsBorder cursor.rest
      && (cursor.advance 3).next.rest.isEmpty)

/-- The node of a YAML text; a text without one is an empty node. -/
def Node.ofText (text : String) : Except SyntaxError Node := do
  let cs := unifyBreaks text.toList
  let (node, after) ← readBlockNode (8 * (cs.length + 1)) true none 0 0 (firstPlace cs)
  if endsDocument after then return node else .error .malformed

/-- Why a YAML text has no document. -/
inductive ReadError where
  /-- A character that no YAML text may hold, at an offset. -/
  | unacceptable (c : Char) (offset : Nat)
  /-- The text is not made of nodes. -/
  | notNodes (error : SyntaxError)
  | fault (cause : Fault)
deriving DecidableEq, Repr

/-- The error in words, for the text in which it is. -/
def ReadError.message (text : String) : ReadError → String
  | .unacceptable c offset =>
    s!"unacceptable character #x{hexadecimal 4 c.toNat}: special characters are not allowed\n"
      ++ s!"  in \"<unicode string>\", position {offset}"
  | .notNodes error => error.message
  | .fault cause => cause.message text

/-- The characters that a YAML text may hold. -/
def isAcceptable (c : Char) : Bool :=
  c = '\t' || c = '\n' || c = '\r' || (' ' ≤ c && c ≤ '~') || isWide c || c = '\ufeff'
    || c.toNat = 0x10ffff

/-- The document of a YAML text; a text without one is nothing. -/
def read (text : String) : Except ReadError Data :=
  match text.toList.dropWhile isAcceptable with
  | c :: _ => .error (.unacceptable c (text.toList.takeWhile isAcceptable).length)
  | [] =>
    match Node.ofText text with
    | .error error => .error (.notNodes error)
    | .ok node => node.toData.mapError fun failure => .fault failure.fault

end VerilogLoops.Yaml
