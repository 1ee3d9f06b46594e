import CellLisp.Compiler.Expression
import CellLisp.Execution.Primitive

namespace CellLisp

namespace RunM

-- Lets the compiler of the session work; an error is a result.
def compiling {α : Type} (m : CompileM α) : RunM (Except CompileError α)
  | ⟨c, device, output, stdout⟩ =>
    match m c with
    | .ok a c => .ok (.ok a) ⟨c, device, output, stdout⟩
    | .error e c => .ok (.error e) ⟨c, device, output, stdout⟩

def binding (e : EntryId) : RunM Value :=
  return (← get).env.binding e

def store (e : EntryId) (v : Value) : RunM Value :=
  modifyGet (Session.onCompiler (Compiler.onEnv fun env => (v, env.setBinding e v)))

-- Writes the first word of the cell that an entry is bound to, whatever its tag.
def assign (e : EntryId) (word : Int64) : RunM Int64 := do
  match (← get).env.binding e with
  | none => throw (.fault .strayWrite)
  | some r =>
    match (← heap).get? r with
    | none => throw (.fault .strayWrite)
    | some c => onHeap fun heap => (word, heap.set r (c.setFirstWord word))

def codeOf (callee : Callee) : RunM (Code .cell) := do
  let s ← get
  let id :=
    match callee with
    | .code id => some id
    | .lambda r => (s.heap.get? r).bind Cell.code?
  match id.bind (s.codes[·]?) with
  | some code => return code
  | none => throw (.fault .missingCode)

def evaluate (link : Link) (runCode : Code .cell → RunM Value) (expr : Value) : RunM Value := do
  match expr, link with
  | none, _ => return some Heap.nilRef
  | some _, .detached => error .noSession
  | some _, .attached =>
    match ← compiling (compile expr .any) with
    | .ok code => return (← runCode code) <|> some Heap.nilRef
    | .error e => if e.lossy then throw (.fault .lostAddress) else error .compile

end RunM

mutual

def run (link : Link) : (fuel : Nat) → {k : Kind} → Code k → RunM k.Result
  | 0, _, _ => throw .outOfFuel
  | fuel + 1, _, code =>
    match code with
    | .const n => return n
    | .literal r => return some r
    | .load e => RunM.binding e
    | .store e value => do RunM.store e (← run link fuel value)
    | .assign e value => do RunM.assign e (← run link fuel value)
    | .discard value => do
      let _ ← run link fuel value
      return ()
    | .sequence first last => do
      run link fuel first
      run link fuel last
    | .branch condition yes no => do
      if (← run link fuel condition) = 0 then run link fuel no else run link fuel yes
    | .loop initial condition body => do
      iterate link fuel condition body (← run link fuel initial)
    | .call callee => do run link fuel (← RunM.codeOf callee)
    | .eval expr => do RunM.evaluate link (run link fuel) (← run link fuel expr)
    | .primitive p operands => do p.run link (← runOperands link fuel operands)

def runOperands (link : Link) : (fuel : Nat) → {ks : List Kind} → Operands ks → RunM (Results ks)
  | 0, _, _ => throw .outOfFuel
  | _ + 1, _, .nil => return ()
  | fuel + 1, _, .cons first rest => do
    let result ← run link fuel first
    let results ← runOperands link fuel rest
    return (result, results)

-- Runs a loop whose last value so far is `last`.
def iterate (link : Link) : (fuel : Nat) → {k : Kind} → (condition : Code .raw) → (body : Code k) →
    (last : k.Result) → RunM k.Result
  | 0, _, _, _, _ => throw .outOfFuel
  | fuel + 1, _, condition, body, last => do
    if (← run link fuel condition) = 0 then return last
    else
      let last ← run link fuel body
      iterate link fuel condition body last

end

end CellLisp
