import CellLisp.Compiler.Operand

namespace CellLisp.Compile

open CompileM

-- The cell of a function literal, with finished code. The last of `args` is the body.
def functionLiteral (whole : Form) (args : List Part) (name : Option String) : CompileM Ref := do
  match args.getLast? with
  | none => throw (.argumentCount .function (← datum whole.value))
  | some body =>
    let params := whole.tail.value
    let lambda ← alloc (.lambda params none)
    let code ← within ⟨name, lambda⟩ (body.code .any)
    finish lambda params code
    return lambda

def function (app : Application) (required : Rep) : CompileM (Code required.kind) := do
  let lambda ← functionLiteral app.whole app.args none
  coerce app.whole (.cell .lambda) (.literal lambda) required

-- Code that binds parameters to arguments, as far as there are both.
def arguments : List Ref → List Part → CompileM (List (Code .void))
  | param :: params, arg :: args => do
    match (← cell? (some param)).bind Cell.symbol? with
    | none => throw (.notSymbol (← datum (some param)) (← tagAt param))
    | some name =>
      let e ← intern name
      let value ← arg.code .any
      return .discard (.store e value) :: (← arguments params args)
  | _, _ => return []

-- The names of the parameters stand before the body.
def parameters (lambda : Ref) : CompileM (List Ref) := do
  let heap := (← get).heap
  return (heap.elements ((heap.cell? (some lambda)).bind Cell.params?)).dropLast

-- Where the code of a function is: in the table, or, while its literal is open, in its cell later.
def callee (whole : Form) (lambda : Ref) : CompileM Callee := do
  match (← cell? (some lambda)).bind Cell.code? with
  | some id => return .code id
  | none =>
    if (← get).nesting.contains lambda then return .lambda lambda
    else throw (.unknownOperator (← datum whole.value) .noCode)

def call (whole : Form) (lambda : Ref) (args : List Part) (required : Rep) :
    CompileM (Code required.kind) := do
  let bindings ← arguments (← parameters lambda) args
  let callee ← callee whole lambda
  coerce whole .unknown (.sequences bindings (.call callee)) required

end CellLisp.Compile
