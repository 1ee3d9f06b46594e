import CellLisp.Heap.Buffer
import CellLisp.Heap.Pair
import CellLisp.Session

namespace CellLisp

@[reducible]
def Results : List Kind → Type
  | [] => Unit
  | k :: ks => k.Result × Results ks

def flag (b : Bool) : Int64 :=
  if b then 1 else 0

-- Words wrap around, and a quotient by zero is zero.
def Arithmetic.eval : Arithmetic → Int64 → Int64 → Int64
  | add, a, b => a + b
  | sub, a, b => a - b
  | mul, a, b => a * b
  | div, a, b => a / b
  | rem, a, b => a - a / b * b
  | lt, a, b => flag (decide (a < b))
  | gt, a, b => flag (decide (b < a))

namespace RunM

def heap : RunM Heap :=
  return (← get).heap

def onHeap {α : Type} (f : Heap → α × Heap) : RunM α :=
  modifyGet (Session.onCompiler (Compiler.onHeap f))

def update (v : Value) (f : Heap → Heap) : RunM Value :=
  onHeap fun heap => (v, f heap)

def allocate (make : Heap → Ref × Heap) : RunM Value :=
  onHeap fun heap =>
    let (r, heap) := make heap
    (some r, heap)

def error (e : ErrorCode) : RunM Value :=
  allocate (·.alloc (.ofError e))

-- Uses the device; without a session nothing happens.
def draw (link : Link) (act : Device → Device) : RunM Int64 := do
  if link = .attached then
    modify fun s => { s with device := act s.device }
  return 0

-- Reads a word of a cell without a look at its tag.
def word (select : Cell → Int64) (v : Value) : RunM Int64 := do
  match (← heap).cell? v with
  | some c => return select c
  | none => throw (.fault .strayRead)

def print (link : Link) (v : Value) : RunM Value := do
  let line := (← heap).written (v <|> some Heap.nilRef) ++ "\n"
  match link with
  | .attached => modify fun s => { s with output := s.output ++ line }
  | .detached => modify fun s => { s with stdout := s.stdout ++ line }
  return v

def getUnchecked (buffer : Value) (i : Int64) : RunM Int64 := do
  match (← heap).byteAt buffer i with
  | some b => return Int64.ofNat b.toNat
  | none => throw (.fault .strayByte)

def putUnchecked (buffer : Value) (i n : Int64) : RunM Value := do
  match (← heap).byteAt buffer i with
  | some _ => update buffer (·.putByte buffer i (Buffer.lowByte n))
  | none => throw (.fault .strayByte)

def inkey (link : Link) : RunM Int64 :=
  match link with
  | .detached => return 0
  | .attached =>
    modifyGet fun s =>
      let (key, device) := s.device.inkey
      (key, { s with device })

def load (link : Link) (path : Value) : RunM Value := do
  match (← heap).textOf path with
  | none => error .storage
  | some path =>
    match link with
    | .detached => error .noSession
    | .attached =>
      match (← get).device.load path with
      | .ok content => allocate (·.allocBytes content)
      | .error _ => error .storage

def save (link : Link) (buffer path : Value) : RunM Value := do
  let heap ← heap
  match heap.bytesOf buffer, heap.textOf path with
  | some content, some path =>
    match link with
    | .detached => error .noSession
    | .attached =>
      match (← get).device.save path content with
      | .ok device =>
        modify fun s => { s with device }
        return buffer
      | .error _ => error .storage
  | _, _ => error .storage

def allocTexts (heap : Heap) (texts : List String) : Ref × Heap :=
  let (items, heap) := texts.foldl allocText ([], heap)
  heap.allocList items.reverse
where
  allocText : List Ref × Heap → String → List Ref × Heap
    | (items, heap), text =>
      let (r, heap) := heap.allocBytes (Text.utf8 text)
      (r :: items, heap)

def list (link : Link) : RunM Value :=
  match link with
  | .detached => error .noSession
  | .attached => do
    match (← get).device.list with
    | .ok names => allocate (allocTexts · names)
    | .error _ => error .storage

end RunM

namespace Primitive

-- An address that the primitive has to follow is lost.
def lost : {ks : List Kind} → {k : Kind} → Primitive ks k → Results ks → Heap → Bool
  | _, _, .car, (v, ()), h | _, _, .carInt, (v, ()), h => h.lost .cons v
  | _, _, .concat, (a, b, ()), h => h.lost .bytes a || h.lost .bytes b
  | _, _, .get, (v, i, ()), h | _, _, .put, (v, i, _), h => h.byteLost v i
  | _, _, .size, (v, ()), h => h.sizeLost v
  | _, _, .write, (buffer, v, ()), h => h.writeLost v buffer
  | _, _, .print, (v, ()), h => h.lossy v
  | _, _, .blit _, (v, _), h => h.lost .bytes v
  | _, _, .load, (path, ()), h => h.lost .bytes path
  | _, _, .save, (buffer, path, ()), h => h.lost .bytes buffer || h.lost .bytes path
  | _, _, _, _, _ => false

open RunM in
-- What the primitive does where every address leads to something.
def act (link : Link) :
    {ks : List Kind} → {k : Kind} → Primitive ks k → Results ks → RunM k.Result
  | _, _, .arithmetic op, (a, b, ()) => return op.eval a b
  | _, _, .box, (n, ()) => allocate (·.box n)
  | _, _, .unbox, (v, ()) => word Cell.firstWord v
  | _, _, .unboxChecked, (v, ()) => return (← heap).unbox v
  | _, _, .boxChecked, (v, ()) => onHeap (·.ensureInt v)
  | _, _, .cons, (head, tail, ()) => allocate (·.alloc (.cons head tail))
  | _, _, .car, (v, ()) => return some ((← heap).car v)
  | _, _, .carInt, (v, ()) => return (← heap).carInt v
  | _, _, .cdr, (v, ()) => return some ((← heap).cdr v)
  | _, _, .alloc, (n, ()) => allocate (·.allocZeros n)
  | _, _, .concat, (a, b, ()) => allocate (·.concat a b)
  | _, _, .get, (v, i, ()) => return Int64.ofNat (((← heap).byteAt v i).getD 0).toNat
  | _, _, .put, (v, i, n, ()) => update v (·.putByte v i (Buffer.lowByte n))
  | _, _, .size, (v, ()) => return (← heap).bufferSize v
  | _, _, .getUnchecked, (v, i, ()) => RunM.getUnchecked v i
  | _, _, .putUnchecked, (v, i, n, ()) => RunM.putUnchecked v i n
  | _, _, .sizeUnchecked, (v, ()) => word Cell.secondWord v
  | _, _, .write, (buffer, v, ()) => update buffer fun heap => (heap.writeInto v buffer).2
  | _, _, .print, (v, ()) => RunM.print link v
  | _, _, .pixel, (x, y, c, ()) => draw link (·.pixel x y c)
  | _, _, .fillRect, (x, y, w, h, c, ()) => draw link (·.fillRect x y w h c)
  | _, _, .blit inverse, (v, x, y, w, h, c, ()) => do
    match (← heap).bytesOf v with
    | some bitmap => draw link (·.blit bitmap x y w h c inverse)
    | none => return 0
  | _, _, .flip, () => draw link Device.flip
  | _, _, .inkey, () => RunM.inkey link
  | _, _, .load, (path, ()) => RunM.load link path
  | _, _, .save, (buffer, path, ()) => RunM.save link buffer path
  | _, _, .list, () => RunM.list link

def run (link : Link) {ks : List Kind} {k : Kind} (p : Primitive ks k) (vs : Results ks) :
    RunM k.Result := do
  if p.lost vs (← RunM.heap) then throw (.fault .lostAddress) else p.act link vs

variable {link : Link} {ks : List Kind} {k : Kind} {p : Primitive ks k} {vs : Results ks} {s : Session}

theorem run_eq : p.run link vs s =
    if p.lost vs s.heap then .error (.fault .lostAddress) s else p.act link vs s := by
  have h : p.run link vs s =
      (if p.lost vs s.heap then throw (.fault .lostAddress) else p.act link vs) s :=
    rfl
  rw [h]
  split <;> rfl

theorem run_eq_act (h : p.lost vs s.heap = false) : p.run link vs s = p.act link vs s := by
  simp [run_eq, h]

end Primitive
end CellLisp
