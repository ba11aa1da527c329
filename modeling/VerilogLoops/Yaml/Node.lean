import VerilogLoops.Yaml.Mark
import VerilogLoops.Yaml.Value
/-!
# Nodes and what they stand for

The nodes of a YAML text and the document that they stand for. A node is a scalar, a list or a map.
It has a tag, which may not fit, and the place at which it starts.

A document is made level by level. First the node on the outside is looked at, then its items or
entries, then theirs, so of several faults the one on the outermost level counts, and of those on
one level the first in the text. A failure therefore carries its depth (`Failure`), and two results
are put together by `both`.

A map takes over the entries of the maps that stand behind its merge signs. They come first, so that
its own entries override them.
-/

namespace VerilogLoops.Yaml

open VerilogLoops.Document

/-- A node with its tag and the place at which it starts. -/
inductive Node where
  | scalar (tag : Tag) (mark : Mark) (text : List Char)
  | list (tag : Tag) (mark : Mark) (items : List Node)
  | map (tag : Tag) (mark : Mark) (entries : List (Node × Node))
deriving Repr

/-- The tag of a node. -/
def Node.tag : Node → Tag
  | .scalar tag _ _ | .list tag _ _ | .map tag _ _ => tag

/-- The place at which a node starts. -/
def Node.mark : Node → Mark
  | .scalar _ mark _ | .list _ mark _ | .map _ mark _ => mark

/-- The name of the form of a node. -/
def Node.formName : Node → String
  | .scalar .. => "scalar"
  | .list .. => "sequence"
  | .map .. => "mapping"

/-- Why a node is no list of pairs. -/
inductive PairProblem where
  /-- The node has another form than a list. -/
  | noList (found : String)
  /-- An item has another form than a map. -/
  | noMap (found : String)
  /-- An item has so many entries. -/
  | size (entries : Nat)
deriving DecidableEq, Repr

/-- The problem in words. -/
def PairProblem.message : PairProblem → String
  | .noList found => s!"expected a sequence, but found {found}"
  | .noMap found => s!"expected a mapping of length 1, but found {found}"
  | .size entries => s!"expected a single mapping item, but found {entries} items"

/-- Why a node stands for no document. -/
inductive Fault where
  /-- A scalar has no value. -/
  | scalar (error : ScalarError) (mark : Mark)
  /-- The tag asks for a form that the node does not have. -/
  | form (wanted found : String) (mark : Mark)
  /-- A key of a map is a list, a map or a set. -/
  | compoundKey (map key : Mark)
  /-- A list of pairs, whose keys differ or may repeat, is not made of pairs. -/
  | notPairs (tag : Tag) (problem : PairProblem) (list item : Mark)
  /-- What stands behind a merge sign is neither a map nor a list, or an item of such a list is no
  map. -/
  | notMergeable (isItem : Bool) (found : String) (map value : Mark)
deriving DecidableEq, Repr

/-- Two places with what is said about each of them. The first place is not repeated if it is the
second one too. -/
def twoPlaces (text context : String) (contextMark : Mark) (problem : String) (mark : Mark) :
    String :=
  context ++ "\n" ++ (if contextMark = mark then "" else contextMark.display text ++ "\n")
    ++ problem ++ "\n" ++ mark.display text

/-- The error is about the text of a node and not about the value it spells. -/
def ScalarError.isPlaced : ScalarError → Bool
  | .notAscii .. | .base64 _ | .unknownTag _ => true
  | _ => false

/-- The fault in words, for the text in which it is. -/
def Fault.message (text : String) : Fault → String
  | .scalar error mark =>
    error.message ++ (if error.isPlaced then "\n" ++ mark.display text else "")
  | .form wanted found mark =>
    s!"expected a {wanted} node, but found {found}\n" ++ mark.display text
  | .compoundKey map key =>
    twoPlaces text "while constructing a mapping" map "found unhashable key" key
  | .notPairs tag problem list item =>
    let what := if tag = .orderedMap then "an ordered map" else "pairs"
    twoPlaces text ("while constructing " ++ what) list problem.message item
  | .notMergeable isItem found map value =>
    let wanted := if isItem then "mapping" else "mapping or list of mappings"
    twoPlaces text "while constructing a mapping" map
      s!"expected a {wanted} for merging, but found {found}" value

/-- A fault so many levels further inside. -/
structure Failure where
  depth : Nat
  fault : Fault
deriving DecidableEq, Repr

/-- The failure seen from one level further outside. -/
def Failure.deeper (f : Failure) : Failure :=
  { f with depth := f.depth + 1 }

/-- A result seen from one level further outside. -/
def inside {α : Type} (result : Except Failure α) : Except Failure α :=
  result.mapError Failure.deeper

/-- A failure on the level of the node itself. -/
def fail {α : Type} (fault : Fault) : Except Failure α :=
  .error ⟨0, fault⟩

/-- Two results in the order of the text. Of two failures the one on the outer level counts. -/
def both {α β : Type} (first : Except Failure α) (second : Except Failure β) :
    Except Failure (α × β) :=
  match first, second with
  | .ok a, .ok b => .ok (a, b)
  | .ok _, .error g => .error g
  | .error f, .ok _ => .error f
  | .error f, .error g => .error (if g.depth < f.depth then g else f)

/-- What succeeds on the inside succeeds. -/
@[simp]
theorem inside_ok {α : Type} (a : α) : inside (.ok a) = .ok a :=
  rfl

/-- Two results that succeed succeed together. -/
@[simp]
theorem both_ok {α β : Type} (a : α) (b : β) : both (.ok a) (.ok b) = .ok (a, b) :=
  rfl

/-- Of two failures the second counts only if it is less deep. -/
theorem both_error {α β : Type} (f g : Failure) :
    both (.error f : Except Failure α) (.error g : Except Failure β)
      = .error (if g.depth < f.depth then g else f) :=
  rfl

/-- What becomes of the entries of a map. -/
structure MapParts where
  /-- Nothing, if all that is merged can be merged. -/
  sound : Except Failure Unit
  /-- The entries that are merged in. -/
  merged : Except Failure (List (Data × Data))
  /-- The entries of the map itself. -/
  own : Except Failure (List (Data × Data))

/-- The parts of a map without entries. -/
def MapParts.none : MapParts :=
  ⟨.ok (), .ok [], .ok []⟩

/-- Some entries and more of them. -/
def append {α : Type} (first second : Except Failure (List α)) : Except Failure (List α) :=
  (both first second).map fun r => r.1 ++ r.2

/-- All entries of a map, those that are merged in before its own. -/
def MapParts.entries (parts : MapParts) : Except Failure (List (Data × Data)) :=
  append parts.merged parts.own

/-- The parts of a map with some entries of other maps merged in. -/
def MapParts.merge (sound : Except Failure Unit) (entries : Except Failure (List (Data × Data)))
    (parts : MapParts) : MapParts :=
  ⟨(both sound parts.sound).map (·.1), append entries parts.merged, parts.own⟩

/-- The parts of a map with an entry more. -/
def MapParts.add (entry : Except Failure (Data × Data)) (parts : MapParts) : MapParts :=
  { parts with own := (both entry parts.own).map fun r => r.1 :: r.2 }

/-- A tag asks for a list, a map or a set. -/
def Tag.isCompound (tag : Tag) : Bool :=
  [.list, .map, .set, .orderedMap, .pairs].contains tag

/-- The failure of a node whose tag asks for another form. -/
def misplacedTag (tag : Tag) (mark : Mark) (found : String) : Except Failure Data :=
  match tag with
  | .list => inside (fail (.form "sequence" found mark))
  | .map | .set => inside (fail (.form "mapping" found mark))
  | .orderedMap | .pairs => inside (fail (.notPairs tag (.noList found) mark mark))
  | .merge | .value | .other _ => fail (.scalar (.unknownTag tag) mark)
  | _ => fail (.form "scalar" found mark)

/-- The value of a scalar that is a node of its own. -/
def scalarNode (tag : Tag) (mark : Mark) (text : List Char) : Except Failure Data :=
  if tag.isCompound then misplacedTag tag mark "scalar"
  else (scalarValue tag text).mapError fun error => ⟨0, .scalar error mark⟩

/-- The keys of a map. -/
def keysOf : Data → List Data
  | .map entries => entries.map (·.1)
  | _ => []

/-- A key, unless it is a list, a map or a set. A value sign is an ordinary text here. -/
def keyOf (map : Mark) (key : Node) (data : Except Failure Data) : Except Failure Data :=
  match key with
  | .scalar .value _ text => .ok (.text (String.ofList text))
  | key =>
    if key.tag.isCompound then
      (both data (fail (α := Unit) (.compoundKey map key.mark))).map (·.1)
    else data

mutual

/-- The document of a node. -/
def Node.toData : Node → Except Failure Data
  | .scalar tag mark text => scalarNode tag mark text
  | .list tag mark items =>
    if tag = .list then (inside (itemsData items)).map .list
    else if tag = .orderedMap || tag = .pairs then
      (inside (pairsData tag mark items)).map .list
    else misplacedTag tag mark "sequence"
  | .map tag mark entries =>
    if tag = .map || tag = .set then
      let parts := mapParts mark entries
      (inside (both parts.sound parts.entries)).map fun r =>
        let map := Data.ofEntries r.2
        if tag = .set then .set (keysOf map) else map
    else misplacedTag tag mark "mapping"

/-- The documents of the items of a list. -/
def itemsData : List Node → Except Failure (List Data)
  | [] => .ok []
  | item :: rest => (both item.toData (itemsData rest)).map fun r => r.1 :: r.2

/-- The pairs of a list of maps of one entry each, where the list starts at a place. -/
def pairsData (tag : Tag) (list : Mark) : List Node → Except Failure (List Data)
  | [] => .ok []
  | item :: rest =>
    let pair : Except Failure Data := match item with
      | .map _ _ [(key, value)] => (both key.toData value.toData).map fun r => .pair r.1 r.2
      | .map _ mark entries => fail (.notPairs tag (.size entries.length) list mark)
      | item => fail (.notPairs tag (.noMap item.formName) list item.mark)
    (both pair (pairsData tag list rest)).map fun r => r.1 :: r.2

/-- What becomes of the entries of a map that starts at a place. -/
def mapParts (map : Mark) : List (Node × Node) → MapParts
  | [] => .none
  | (key, value) :: rest =>
    let parts := mapParts map rest
    if key.tag = .merge then
      match value with
      | .map _ mark entries =>
        let inner := mapParts mark entries
        parts.merge inner.sound inner.entries
      | .list _ _ items =>
        let inner := itemParts map items
        parts.merge inner.sound inner.merged
      | .scalar _ mark _ => parts.merge (fail (.notMergeable false "scalar" map mark)) (.ok [])
    else parts.add (both (keyOf map key key.toData) value.toData)

/-- What becomes of a list of maps that are merged into a map. The entries of earlier items override
those of later ones. -/
def itemParts (map : Mark) : List Node → MapParts
  | [] => .none
  | item :: rest =>
    let parts := itemParts map rest
    match item with
    | .map _ mark entries =>
      let inner := mapParts mark entries
      ⟨(both inner.sound parts.sound).map (·.1), append parts.merged inner.entries, .ok []⟩
    | item =>
      parts.merge (fail (.notMergeable true item.formName map item.mark)) (.ok [])

end

end VerilogLoops.Yaml
