import CellLisp.Datum.Reader
import CellLisp.Execution

namespace CellLisp

inductive Failure
  | read (e : ReadError)
  | compile (e : CompileError)
  | stopped (why : Stop)
deriving DecidableEq

def Failure.ofCompileError (e : CompileError) : Failure :=
  if e.lossy then stopped (.fault .lostAddress) else compile e

abbrev SessionM := EStateM Failure Session

namespace SessionM

def compile (expr : Value) (required : Rep) : SessionM (Code required.kind)
  | ⟨c, device, output, stdout⟩ =>
    match CellLisp.compile expr required c with
    | .ok code c => .ok code ⟨c, device, output, stdout⟩
    | .error e c => .error (.ofCompileError e) ⟨c, device, output, stdout⟩

def run (link : Link) (fuel : Nat) {k : Kind} (code : Code k) : SessionM k.Result := fun s =>
  match CellLisp.run link fuel code s with
  | .ok result s => .ok result s
  | .error why s => .error (.stopped why) s

def alloc (d : Datum) : SessionM Value :=
  modifyGet (Session.onCompiler (Compiler.onHeap (·.allocDatum d)))

def evalAs (fuel : Nat) (required : Rep) (expr : Value) : SessionM required.kind.Result := do
  run .attached fuel (← compile expr required)

def eval (fuel : Nat) (expr : Value) : SessionM Value := do
  return (← evalAs fuel .any expr) <|> some Heap.nilRef

def evalInt (fuel : Nat) (expr : Value) : SessionM Int64 :=
  evalAs fuel .pureInt expr

def exec (fuel : Nat) (expr : Value) : SessionM Unit :=
  evalAs fuel .void expr

def raise (fault : Option ReadError) : SessionM Unit :=
  match fault with
  | some e => throw (.read e)
  | none => return ()

-- Evaluates forms in order and gives the value of the last one, or else `last`.
def evalForms (fuel : Nat) : List Datum → (last : Value) → SessionM Value
  | [], last => return last
  | d :: ds, _ => do
    let last ← eval fuel (← alloc d)
    evalForms fuel ds last

def evalText (fuel : Nat) (text : String) : SessionM Value := do
  let reading := readText text
  let last ← evalForms fuel reading.forms none
  raise reading.fault
  return last

structure LoadFailure where
  expr : Value
  error : CompileError

-- Executes an expression; that it has no code does not end the evaluation.
def tryExec (fuel : Nat) (expr : Value) : SessionM (Option LoadFailure) := fun s =>
  match exec fuel expr s with
  | .ok () s => .ok none s
  | .error (.compile error) s => .ok (some ⟨expr, error⟩) s
  | .error e s => .error e s

def loadForms (fuel : Nat) : List Datum → SessionM (List LoadFailure)
  | [] => return []
  | d :: ds => do
    let failure ← tryExec fuel (← alloc d)
    return failure.toList ++ (← loadForms fuel ds)

def loadText (fuel : Nat) (text : String) : SessionM (List LoadFailure) := do
  let reading := readText text
  let failures ← loadForms fuel reading.forms
  raise reading.fault
  return failures

end SessionM
end CellLisp
