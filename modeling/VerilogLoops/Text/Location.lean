/-!
# Lines and columns

An offset into a text is reported to people as a line and a column, both counted from one. The
line feed is the only line break: a carriage return is an ordinary character of its line. So the
line is one more than the line feeds in front of the offset, and the column is one more than the
characters behind the last of them.

Every node of a syntax tree asks for its place, so the places of all offsets are laid out once in a
table. `LocationTable.locate_of` says that the table gives the same places as counting does.
-/

namespace VerilogLoops.Text

/-- A place in a text as people read it, both numbers counted from one. -/
structure Location where
  line : Nat
  column : Nat
deriving DecidableEq, Repr, Inhabited

/-- The place one character further on. -/
def Location.after (loc : Location) (c : Char) : Location :=
  if c = '\n' then ⟨loc.line + 1, 1⟩ else ⟨loc.line, loc.column + 1⟩

/-- The place behind a text that begins at a place. -/
def Location.behind (loc : Location) (text : List Char) : Location :=
  text.foldl Location.after loc

/-- The first place of a text. -/
def Location.first : Location :=
  ⟨1, 1⟩

/-- The place of an offset. An offset behind the end counts as the end. -/
def Location.ofOffset (text : List Char) (offset : Nat) : Location :=
  Location.first.behind (text.take offset)

/-- The places of all offsets of a text that begins at a place, its end included. -/
def Location.along (loc : Location) : List Char → List Location
  | [] => [loc]
  | c :: rest => loc :: Location.along (loc.after c) rest

/-- The places of all offsets of a text, and the last of them for every offset behind. -/
structure LocationTable where
  places : Array Location
  last : Location

/-- The table of a text. -/
def LocationTable.of (text : List Char) : LocationTable :=
  ⟨(Location.first.along text).toArray, Location.first.behind text⟩

/-- The place of an offset by the table. -/
def LocationTable.locate (table : LocationTable) (offset : Nat) : Location :=
  table.places[offset]?.getD table.last

/-- Going along a text gives the places that counting gives. -/
theorem Location.getD_along (text : List Char) : ∀ (loc : Location) (offset : Nat),
    (loc.along text)[offset]?.getD (loc.behind text) = loc.behind (text.take offset) := by
  induction text with
  | nil => intro loc offset; cases offset <;> simp [along, behind]
  | cons c rest ih =>
    intro loc offset
    cases offset with
    | zero => simp [along, behind]
    | succ n => simpa [along, behind] using ih (loc.after c) n

/-- The table of a text gives the places that counting gives. -/
theorem LocationTable.locate_of (text : List Char) (offset : Nat) :
    (LocationTable.of text).locate offset = Location.ofOffset text offset := by
  simp only [locate, of, List.getElem?_toArray]
  exact Location.getD_along text Location.first offset

end VerilogLoops.Text
