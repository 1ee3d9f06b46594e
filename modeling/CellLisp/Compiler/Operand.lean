import CellLisp.Compiler

namespace CellLisp

open CompileM

-- A part of an expression, with what compiling it means: as a value, or as a function literal.
structure Part where
  form : Form
  code : (required : Rep) → CompileM (Code required.kind)
  function : (name : Option String) → CompileM Ref

namespace Compile

def coerce (expr : Form) (actual : Shape) (value : Code actual.kind) (required : Rep) :
    CompileM (Code required.kind) := do
  match plan actual required with
  | some coercion => return coercion.apply value
  | none => throw (.typeMismatch (← datum expr.value) actual required)

-- What a branch not written, or a loop that never ran, gives.
def emptyValue : (required : Rep) → Code required.kind
  | .pureInt => .const 0
  | .void => .discard (.const 0)
  | .int => .unary .box (.const 0)
  | .cons | .any => .literal Heap.nilRef
  | .bytes => .unary .alloc (.const 0)

-- What is to be compiled would be found at an address that the cell has lost.
def lost {α : Type} (r : Ref) : CompileM α := do
  throw (.unknownOperator (← datum (some r)) .lost)

-- A constant is its own cell, unless it is an integer of which only the word is required.
def literal : Form → (required : Rep) → CompileM (Code required.kind)
  | .absent, required => return emptyValue required
  | .atom _ (.int n), .pureInt => return .const n
  | .atom r (.spoilt _ (.cons _)), _ => lost r
  | .atom r c, required => coerce (.atom r c) (.cell c.tag) (.literal r) required
  | .cons r head tail, required => coerce (.cons r head tail) (.cell .cons) (.literal r) required

-- What an unbound symbol is bound to when code reads it.
def defaultBinding (name : String) : Rep → CompileM Ref
  | .pureInt | .int | .any | .void => alloc (.int 0)
  | .cons => return Heap.nilRef
  | .bytes => throw (.undefinedSymbol name)

def assumeOr (e : EntryId) (default : CompileM Ref) : CompileM Ref := do
  match ← assume e with
  | some r => return r
  | none =>
    let r ← default
    seed e r
    return r

def tagAt (r : Ref) : CompileM Tag := do
  match ← cell? (some r) with
  | some c => return c.tag
  | none => return .nil

-- A symbol is read when the code runs; the binding it has now decides how.
def symbol (expr : Form) (name : String) (required : Rep) : CompileM (Code required.kind) := do
  let e ← intern name
  let r ← assumeOr e (defaultBinding name required)
  coerce expr (.cell (← tagAt r)) (.load e) required

def atom (r : Ref) (c : Cell) (required : Rep) : CompileM (Code required.kind) :=
  match c with
  | .symbol name => symbol (.atom r c) name required
  | .spoilt _ (.symbol _) => lost r
  | _ => literal (.atom r c) required

end Compile

structure Application where
  whole : Form
  op : Builtin
  args : List Part

namespace Application

def missing {α : Type} (app : Application) : CompileM α := do
  throw (.argumentCount app.op (← datum app.whole.value))

def arg (app : Application) (n : Nat) : CompileM Part :=
  match app.args[n]? with
  | some part => return part
  | none => app.missing

end Application
end CellLisp
