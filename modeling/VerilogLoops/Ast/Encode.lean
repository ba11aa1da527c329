import VerilogLoops.Ast.Value
/-!
# Syntax trees as documents

A node becomes a map: the name of its kind under `_type`, its position under `_position` unless
positions are left out, and then its fields by name in the order of the kind. A sequence becomes a
list, and a scalar itself.
-/

namespace VerilogLoops.Ast

open VerilogLoops.Document

/-- A position as a document. -/
def Position.encode (p : Position) : Data :=
  .record [("origin", p.origin), ("line", p.line), ("column", p.column)]

/-- A node as a document, given the documents of its fields. -/
def encodeNode (withPositions : Bool) (kind : Kind) (position : Position) (fields : List Data) :
    Data :=
  .record
    (("_type", .text kind.name) :: (if withPositions then [("_position", position.encode)] else [])
      ++ (kind.fields.map (·.name)).zip fields)

mutual

/-- A value as a document. -/
def Value.encode (withPositions : Bool) : Value → Data
  | .null => .null
  | .bool b => .bool b
  | .int i => .int i
  | .real r => .real r
  | .text s => .text s
  | .seq items => .list (encodeAll withPositions items)
  | .node kind position fields =>
    encodeNode withPositions kind position (encodeAll withPositions fields)

/-- Some values as documents. -/
def encodeAll (withPositions : Bool) : List Value → List Data
  | [] => []
  | v :: rest => v.encode withPositions :: encodeAll withPositions rest

end

end VerilogLoops.Ast
