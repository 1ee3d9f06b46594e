import CellLisp.Compiler.Control
import CellLisp.Compiler.Definition
import CellLisp.Compiler.Function
import CellLisp.Compiler.Primitive

namespace CellLisp

open CompileM

namespace Compile

def quote (app : Application) (required : Rep) : CompileM (Code required.kind) := do
  literal (← app.arg 0).form required

def eval (app : Application) (required : Rep) : CompileM (Code required.kind) := do
  let expr ← (← app.arg 0).code .any
  coerce app.whole .unknown (.eval expr) required

-- The result of printing counts as zero where only a word is required.
def printed (whole : Form) (value : Code .cell) :
    (required : Rep) → CompileM (Code required.kind)
  | .pureInt => return .sequence (.discard (.unary .print value)) (.const 0)
  | required => coerce whole .unknown (.unary .print value) required

def print (app : Application) (required : Rep) : CompileM (Code required.kind) := do
  let value ← (← app.arg 0).code .any
  printed app.whole value required

def builtin (app : Application) (required : Rep) : CompileM (Code required.kind) :=
  match app.op with
  | .branch => branch app required
  | .loop => loop app required
  | .sequence => sequence app required
  | .define => definition app required
  | .assign => assignment app required
  | .function => function app required
  | .quote => quote app required
  | .eval => eval app required
  | .print => print app required
  | op =>
    match op.signature? required with
    | some signature => primitive app signature required
    | none => do throw (.unknownOperator (← datum app.whole.value) (.unavailable op))

def apply (whole : Form) (operator : Ref) (args : List Part) (required : Rep) :
    CompileM (Code required.kind) := do
  match ← cell? (some operator) with
  | some (.builtin opcode) =>
    match Builtin.ofWord? opcode with
    | some op => builtin ⟨whole, op, args⟩ required
    | none => throw (.unknownOperator (← datum whole.value) .corruptBuiltin)
  | some (.lambda _ _) => call whole operator args required
  | some (.spoilt _ (.lambda _)) => lost operator
  | _ => throw (.unknownOperator (← datum whole.value) (.notApplicable (← tagAt operator)))

-- Applies the function or operation that a symbol names; an open literal comes first.
def applySymbol (whole : Form) (name : String) (args : List Part) (required : Rep) :
    CompileM (Code required.kind) := do
  match (← get).nesting.find? name with
  | some f => call whole f.lambda args required
  | none =>
    match ← lookup name with
    | some operator => apply whole operator args required
    | none => throw (.undefinedSymbol name)

-- An application. Where the operator is itself an application, and no function literal, it stands for
-- the whole.
def application (whole : Form) (operator : Part) (args : List Part) (required : Rep) :
    CompileM (Code required.kind) := do
  match operator.form with
  | .absent => throw (.unknownOperator (← datum whole.value) .emptyApplication)
  | .atom _ (.symbol name) => applySymbol whole name args required
  | .atom r _ => apply whole r args required
  | .cons _ _ _ =>
    if ← isFunctionForm operator.form then
      call whole (← operator.function none) args required
    else operator.code required

end Compile

namespace Form

mutual

def code : Form → (required : Rep) → CompileM (Code required.kind)
  | absent, required => return Compile.emptyValue required
  | atom r c, required => Compile.atom r c required
  | cons r head tail, required =>
    Compile.application (cons r head tail) ⟨head (), (head ()).code, (head ()).function⟩
      (tail ()).parts required

def function : Form → (name : Option String) → CompileM Ref
  | absent, name => Compile.functionLiteral absent [] name
  | atom r c, name => Compile.functionLiteral (atom r c) [] name
  | cons r head tail, name => Compile.functionLiteral (cons r head tail) (tail ()).parts name

-- The elements of a list, up to the first one that is missing.
def parts : Form → List Part
  | absent => []
  | atom _ _ => []
  | cons _ head tail =>
    if (head ()).isAbsent then []
    else ⟨head (), (head ()).code, (head ()).function⟩ :: (tail ()).parts

end

end Form

-- Compiles an expression. Where that fails, no entry stays bound that was unbound before, and no
-- function literal stays open.
def compile (expr : Value) (required : Rep) : CompileM (Code required.kind) := fun c =>
  match (c.heap.form expr).code required c with
  | .ok code c => .ok code { c with pending := [], seeded := [] }
  | .error e c =>
    .error e
      { c with
        env := c.seeded.foldl Env.unbind c.env
        nesting := .empty
        pending := []
        seeded := [] }

end CellLisp
