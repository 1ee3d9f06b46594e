import CellLisp.Compiler.Operand

namespace CellLisp

structure Signature where
  operands : List Rep
  result : Shape
  primitive : Primitive (operands.map Rep.kind) result.kind

namespace Signature

def arithmetic (op : Arithmetic) : Signature :=
  ⟨[.pureInt, .pureInt], .raw, .arithmetic op⟩

-- The head of a list is unboxed right away where only its word is required.
def car : Rep → Signature
  | .pureInt => ⟨[.cons], .raw, .carInt⟩
  | _ => ⟨[.cons], .unknown, .car⟩

end Signature

def Builtin.signature? : Builtin → Rep → Option Signature
  | add, _ => some (.arithmetic .add)
  | sub, _ => some (.arithmetic .sub)
  | mul, _ => some (.arithmetic .mul)
  | div, _ => some (.arithmetic .div)
  | rem, _ => some (.arithmetic .rem)
  | lt, _ => some (.arithmetic .lt)
  | gt, _ => some (.arithmetic .gt)
  | car, required => some (.car required)
  | cdr, _ => some ⟨[.cons], .unknown, .cdr⟩
  | cons, _ => some ⟨[.any, .any], .cell .cons, .cons⟩
  | alloc, _ | allocText, _ => some ⟨[.pureInt], .cell .bytes, .alloc⟩
  | concat, _ => some ⟨[.any, .any], .cell .bytes, .concat⟩
  | get, _ => some ⟨[.bytes, .pureInt], .raw, .get⟩
  | put, _ => some ⟨[.bytes, .pureInt, .pureInt], .cell .bytes, .put⟩
  | size, _ => some ⟨[.bytes], .raw, .size⟩
  | getUnchecked, _ => some ⟨[.bytes, .pureInt], .raw, .getUnchecked⟩
  | putUnchecked, _ => some ⟨[.bytes, .pureInt, .pureInt], .cell .bytes, .putUnchecked⟩
  | sizeUnchecked, _ => some ⟨[.bytes], .raw, .sizeUnchecked⟩
  | write, _ => some ⟨[.bytes, .any], .cell .bytes, .write⟩
  | pixel, _ => some ⟨[.pureInt, .pureInt, .pureInt], .raw, .pixel⟩
  | fillRect, _ => some ⟨[.pureInt, .pureInt, .pureInt, .pureInt, .pureInt], .raw, .fillRect⟩
  | blit, _ =>
    some ⟨[.bytes, .pureInt, .pureInt, .pureInt, .pureInt, .pureInt], .raw, .blit false⟩
  | blitInverse, _ =>
    some ⟨[.bytes, .pureInt, .pureInt, .pureInt, .pureInt, .pureInt], .raw, .blit true⟩
  | flip, _ => some ⟨[], .raw, .flip⟩
  | inkey, _ => some ⟨[], .raw, .inkey⟩
  | load, _ => some ⟨[.bytes], .unknown, .load⟩
  | save, _ => some ⟨[.bytes, .bytes], .unknown, .save⟩
  | list, _ => some ⟨[], .unknown, .list⟩
  | _, _ => none

namespace Compile

def operands (app : Application) :
    (reps : List Rep) → List Part → CompileM (Operands (reps.map Rep.kind))
  | [], _ => return .nil
  | _ :: _, [] => app.missing
  | rep :: reps, part :: parts => do
    let first ← part.code rep
    return .cons first (← operands app reps parts)

def primitive (app : Application) (signature : Signature) (required : Rep) :
    CompileM (Code required.kind) := do
  let operands ← operands app signature.operands app.args
  coerce app.whole signature.result (.primitive signature.primitive operands) required

end Compile
end CellLisp
