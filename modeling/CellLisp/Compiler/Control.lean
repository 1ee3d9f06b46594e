import CellLisp.Compiler.Operand

namespace CellLisp.Compile

def branch (app : Application) (required : Rep) : CompileM (Code required.kind) := do
  let condition ← app.arg 0
  let yes ← app.arg 1
  let condition ← condition.code .pureInt
  let yes ← yes.code required
  match app.args[2]? with
  | some no => return .branch condition yes (← no.code required)
  | none => return .branch condition yes (emptyValue required)

def loop (app : Application) (required : Rep) : CompileM (Code required.kind) := do
  let condition ← app.arg 0
  let body ← app.arg 1
  let condition ← condition.code .pureInt
  let body ← body.code required
  return .loop (emptyValue required) condition body

-- The last of one or more expressions gives the value; those before it are for their effects.
def steps (first : Part) : (rest : List Part) → (required : Rep) → CompileM (Code required.kind)
  | [], required => first.code required
  | second :: rest, required => do
    let code ← first.code .void
    return .sequence code (← steps second rest required)

def sequence (app : Application) (required : Rep) : CompileM (Code required.kind) :=
  match app.args with
  | first :: rest => steps first rest required
  | [] => app.missing

end CellLisp.Compile
