import CellLisp.Cell

namespace CellLisp

-- What running code hands on: a raw word, a cell, or nothing of use.
inductive Kind
  | raw
  | cell
  | void
deriving DecidableEq, Repr

@[reducible]
def Kind.Result : Kind → Type
  | raw => Int64
  | cell => Value
  | void => Unit

inductive Rep
  | pureInt
  | int
  | cons
  | bytes
  | any
  | void
deriving DecidableEq, Repr

namespace Rep

def name : Rep → String
  | pureInt => "pure-int"
  | int => "int"
  | cons => "cons"
  | bytes => "bytes"
  | any => "any"
  | void => "void"

@[reducible]
def kind : Rep → Kind
  | pureInt => .raw
  | void => .void
  | int | cons | bytes | any => .cell

def isCell (r : Rep) : Bool :=
  r.kind == .cell

end Rep

inductive Shape
  | raw
  | cell (tag : Tag)
  | unknown
deriving DecidableEq, Repr

namespace Shape

def name : Shape → String
  | raw => "pure-int"
  | cell tag => tag.name
  | unknown => "unknown"

@[reducible]
def kind : Shape → Kind
  | raw => .raw
  | cell _ | unknown => .cell

end Shape

-- How a value comes into another representation. `unbox` and `keep` trust what is known of the value;
-- the checked ones look at its tag when they run.
inductive Coercion : Kind → Kind → Type
  | keep {k : Kind} : Coercion k k
  | unbox : Coercion .cell .raw
  | unboxChecked : Coercion .cell .raw
  | box : Coercion .raw .cell
  | boxChecked : Coercion .cell .cell
  | discard {k : Kind} : Coercion k .void
deriving DecidableEq, Repr

-- The table of coercions; without an entry, the value cannot be had in that representation.
def plan : (actual : Shape) → (required : Rep) → Option (Coercion actual.kind required.kind)
  | _, .void => some .discard
  | .raw, .pureInt => some .keep
  | .raw, .int => some .box
  | .raw, .any => some .box
  | .raw, .cons => none
  | .raw, .bytes => none
  | .unknown, .pureInt => some .unboxChecked
  | .unknown, .int => some .boxChecked
  | .unknown, .cons => some .keep
  | .unknown, .bytes => some .keep
  | .unknown, .any => some .keep
  | .cell .int, .pureInt => some .unbox
  | .cell .int, .int => some .keep
  | .cell .cons, .cons => some .keep
  | .cell .nil, .cons => some .keep
  | .cell .bytes, .bytes => some .keep
  | .cell _, .any => some .keep
  | .cell _, .pureInt => none
  | .cell _, .int => none
  | .cell _, .cons => none
  | .cell _, .bytes => none

end CellLisp
