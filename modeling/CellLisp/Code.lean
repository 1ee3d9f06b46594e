import CellLisp.Env
import CellLisp.Representation

namespace CellLisp

inductive Arithmetic
  | add
  | sub
  | mul
  | div
  | rem
  | lt
  | gt
deriving DecidableEq, Repr

inductive Primitive : List Kind → Kind → Type
  | arithmetic (op : Arithmetic) : Primitive [.raw, .raw] .raw
  | box : Primitive [.raw] .cell
  | unbox : Primitive [.cell] .raw
  | unboxChecked : Primitive [.cell] .raw
  | boxChecked : Primitive [.cell] .cell
  | cons : Primitive [.cell, .cell] .cell
  | car : Primitive [.cell] .cell
  | carInt : Primitive [.cell] .raw
  | cdr : Primitive [.cell] .cell
  | alloc : Primitive [.raw] .cell
  | concat : Primitive [.cell, .cell] .cell
  | get : Primitive [.cell, .raw] .raw
  | put : Primitive [.cell, .raw, .raw] .cell
  | size : Primitive [.cell] .raw
  | getUnchecked : Primitive [.cell, .raw] .raw
  | putUnchecked : Primitive [.cell, .raw, .raw] .cell
  | sizeUnchecked : Primitive [.cell] .raw
  | write : Primitive [.cell, .cell] .cell
  | print : Primitive [.cell] .cell
  | pixel : Primitive [.raw, .raw, .raw] .raw
  | fillRect : Primitive [.raw, .raw, .raw, .raw, .raw] .raw
  | blit (inverse : Bool) : Primitive [.cell, .raw, .raw, .raw, .raw, .raw] .raw
  | flip : Primitive [] .raw
  | inkey : Primitive [] .raw
  | load : Primitive [.cell] .cell
  | save : Primitive [.cell, .cell] .cell
  | list : Primitive [] .cell
deriving DecidableEq, Repr

-- Whose code a call enters: code that is there already, or what the cell of a function has by then.
inductive Callee
  | code (id : CodeId)
  | lambda (r : Ref)
deriving DecidableEq, Repr

mutual

inductive Code : Kind → Type
  | const (n : Int64) : Code .raw
  | literal (r : Ref) : Code .cell
  | load (e : EntryId) : Code .cell
  -- Binds an entry to the value and gives the value.
  | store (e : EntryId) (value : Code .cell) : Code .cell
  -- Writes the first word of the cell that an entry is bound to, and gives that word.
  | assign (e : EntryId) (value : Code .raw) : Code .raw
  | discard {k : Kind} (value : Code k) : Code .void
  | sequence {k : Kind} (first : Code .void) (last : Code k) : Code k
  | branch {k : Kind} (condition : Code .raw) (yes no : Code k) : Code k
  -- Gives the last value of the body, or the initial value if the body never ran.
  | loop {k : Kind} (initial : Code k) (condition : Code .raw) (body : Code k) : Code k
  | call (callee : Callee) : Code .cell
  | eval (expr : Code .cell) : Code .cell
  | primitive {ks : List Kind} {k : Kind} (p : Primitive ks k) (operands : Operands ks) : Code k
deriving DecidableEq

inductive Operands : List Kind → Type
  | nil : Operands []
  | cons {k : Kind} {ks : List Kind} (first : Code k) (rest : Operands ks) : Operands (k :: ks)
deriving DecidableEq

end

namespace Code

def unary {j k : Kind} (p : Primitive [j] k) (value : Code j) : Code k :=
  .primitive p (.cons value .nil)

def sequences {k : Kind} (firsts : List (Code .void)) (last : Code k) : Code k :=
  firsts.foldr .sequence last

end Code

def Coercion.apply {j k : Kind} : Coercion j k → Code j → Code k
  | keep, value => value
  | unbox, value => .unary .unbox value
  | unboxChecked, value => .unary .unboxChecked value
  | box, value => .unary .box value
  | boxChecked, value => .unary .boxChecked value
  | discard, value => .discard value

end CellLisp
