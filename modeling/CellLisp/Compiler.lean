import CellLisp.Code
import CellLisp.CompileError
import CellLisp.Form

namespace CellLisp

structure Compiler where
  heap : Heap
  env : Env
  codes : Array (Code .cell)
  nesting : Nesting
  pending : List (EntryId × Ref)
  seeded : List EntryId

namespace Compiler

def fresh : Compiler :=
  let (heap, env) := Builtin.all.foldl bindBuiltin (Heap.fresh, Env.empty)
  ⟨heap, env, #[], .empty, [], []⟩
where
  bindBuiltin : Heap × Env → Builtin → Heap × Env
    | (heap, env), op =>
      let (e, env) := env.intern op.name
      let (r, heap) := heap.alloc (.ofBuiltin op)
      (heap, env.bind e r)

-- What an entry is bound to as far as the expression that is being compiled can tell.
def visible (c : Compiler) (e : EntryId) : Value :=
  c.pending.lookup e <|> c.env.binding e

def lookup (c : Compiler) (name : String) : Value :=
  (c.env.entry? name).bind c.visible

def onHeap {α : Type} (f : Heap → α × Heap) : Compiler → α × Compiler
  | ⟨heap, env, codes, nesting, pending, seeded⟩ =>
    let (a, heap) := f heap
    (a, ⟨heap, env, codes, nesting, pending, seeded⟩)

def onEnv {α : Type} (f : Env → α × Env) : Compiler → α × Compiler
  | ⟨heap, env, codes, nesting, pending, seeded⟩ =>
    let (a, env) := f env
    (a, ⟨heap, env, codes, nesting, pending, seeded⟩)

theorem onHeap_eq {α : Type} (f : Heap → α × Heap) (c : Compiler) :
    c.onHeap f = ((f c.heap).1, { c with heap := (f c.heap).2 }) :=
  rfl

end Compiler

-- Compiling changes the state of the compiler also where it fails.
abbrev CompileM := EStateM CompileError Compiler

namespace CompileM

def alloc (cell : Cell) : CompileM Ref :=
  modifyGet (Compiler.onHeap (·.alloc cell))

def intern (name : String) : CompileM EntryId :=
  modifyGet (Compiler.onEnv (·.intern name))

def lookup (name : String) : CompileM Value :=
  return (← get).lookup name

def cell? (v : Value) : CompileM (Option Cell) :=
  return (← get).heap.cell? v

def datum (v : Value) : CompileM Datum :=
  return (← get).heap.datum v

-- Binds an unbound entry because the code that is being made reads it.
def seed (e : EntryId) (r : Ref) : CompileM Unit :=
  modify fun c => { c with env := c.env.bind e r, seeded := e :: c.seeded }

-- Keeps in mind what a definition will bind once it runs.
def bindPending (e : EntryId) (r : Ref) : CompileM Unit :=
  modify fun c => { c with pending := (e, r) :: c.pending }

-- The binding that code which reads an entry is compiled against. An entry that only a definition in
-- the same expression binds is seeded, because that definition may never run.
def assume (e : EntryId) : CompileM Value := do
  let c ← get
  match c.pending.lookup e, c.env.binding e with
  | some r, none =>
    seed e r
    return some r
  | some r, some _ => return some r
  | none, live => return live

def within {α : Type} (f : OpenFunction) (body : CompileM α) : CompileM α := fun c =>
  match c.nesting.push? f with
  | none => .error .nestingOverflow c
  | some nesting =>
    match body { c with nesting } with
    | .ok a c => .ok a { c with nesting := c.nesting.pop }
    | .error e c => .error e { c with nesting := c.nesting.pop }

-- Puts the body of a function into the table and its place into the cell of the function.
def finish (lambda : Ref) (params : Value) (body : Code .cell) : CompileM Unit :=
  modify fun ⟨heap, env, codes, nesting, pending, seeded⟩ =>
    let heap := heap.set lambda (.lambda params (some codes.size))
    ⟨heap, env, codes.push body, nesting, pending, seeded⟩

end CompileM
end CellLisp
