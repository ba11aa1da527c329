/-!
# Source files

What has to be done to the contents of a file before they are source text: the octets are UTF-8,
and a line may end with a carriage return, a line feed or both, all of which become a line feed.
The name of a file is brought into the shortest form that names the same file.
-/

namespace VerilogLoops.Text

/-- The text with every kind of line end made a line feed. -/
def normalizeLineEnds : List Char → List Char
  | [] => []
  | '\r' :: '\n' :: rest => '\n' :: normalizeLineEnds rest
  | c :: rest => (if c = '\r' then '\n' else c) :: normalizeLineEnds rest

/-- The source text of some octets, unless they are not UTF-8. -/
def sourceText? (octets : ByteArray) : Option String :=
  (String.fromUTF8? octets).map fun s => String.ofList (normalizeLineEnds s.toList)

/-- The parts of a path without empty parts, dots and parts that two dots undo. -/
def pathParts (path : String) : List String :=
  (path.splitOn "/").foldl
    (fun parts part =>
      if part = "" || part = "." then parts
      else if part = ".." then parts.dropLast
      else parts ++ [part])
    []

/-- The path of a file in a directory, in its shortest form. -/
def pathIn (directory name : String) : String :=
  "/".intercalate (directory :: pathParts name)

end VerilogLoops.Text
