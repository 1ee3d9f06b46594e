import CellLisp.Compiler.Operand

namespace CellLisp.Compile

open CompileM

def isFunctionForm (expr : Form) : CompileM Bool := do
  match expr.head.symbol? with
  | none => return false
  | some name => return (← cell? (← lookup name)).bind Cell.builtin? == some .function

def target (app : Application) : CompileM (String × EntryId) := do
  let part ← app.arg 0
  match part.form.symbol? with
  | some name => return (name, ← intern name)
  | none => throw (.notSymbol (← datum part.form.value) part.form.tag)

def isConstant (expr : Form) : Bool :=
  match expr.tag with
  | .cons | .symbol => false
  | _ => true

-- A definition binds whatever its value turns out to be; only its own result is narrowed.
def boundCode (part : Part) : (required : Rep) → CompileM (Code .cell)
  | .cons => part.code .cons
  | .bytes => part.code .bytes
  | .pureInt | .int | .any | .void => part.code .any

-- The code of the value that a definition binds, after which the rest of the expression knows it.
def definedValue (name : String) (e : EntryId) (part : Part) (required : Rep) :
    CompileM (Code .cell) := do
  if ← isFunctionForm part.form then
    let lambda ← part.function (some name)
    bindPending e lambda
    return .literal lambda
  else
    let value ← boundCode part required
    if isConstant part.form then
      if let some r := part.form.value then
        bindPending e r
    return value

def definitionResult (expr : Form) (stored : Code .cell) :
    (required : Rep) → CompileM (Code required.kind)
  | .pureInt => narrow .pureInt
  | .int => narrow .int
  | .void => return .discard stored
  | .cons | .bytes | .any => return stored
where
  narrow (required : Rep) : CompileM (Code required.kind) :=
    if isConstant expr then coerce expr (.cell expr.tag) stored required
    else coerce expr .unknown stored required

def definition (app : Application) (required : Rep) : CompileM (Code required.kind) := do
  let (name, e) ← target app
  let part ← app.arg 1
  let value ← definedValue name e part required
  definitionResult part.form (.store e value) required

def assignment (app : Application) (required : Rep) : CompileM (Code required.kind) := do
  let (_, e) ← target app
  let part ← app.arg 1
  let r ← assumeOr e (alloc (.int 0))
  if (← tagAt r) = .int then
    let word ← part.code .pureInt
    coerce app.whole .raw (.assign e word) required
  else
    let value ← part.code .any
    coerce app.whole .unknown (.store e value) required

end CellLisp.Compile
