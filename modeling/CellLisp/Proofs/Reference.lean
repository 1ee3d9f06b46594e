import CellLisp.Session
import CellLisp.Proofs.Environment
import Mathlib.Logic.Relation

namespace CellLisp

-- What can be referred to.
inductive Referent
  | cell (r : Ref)
  | entry (e : EntryId)
  | body (id : CodeId)
deriving DecidableEq

-- How many cells, entries and function bodies there are.
structure Extent where
  cells : Nat
  entries : Nat
  bodies : Nat

structure Extent.Le (x y : Extent) : Prop where
  cells : x.cells ≤ y.cells
  entries : x.entries ≤ y.entries
  bodies : x.bodies ≤ y.bodies

instance : LE Extent := ⟨Extent.Le⟩

namespace Referent

def Within (x : Extent) : Referent → Prop
  | cell r   => r < x.cells
  | entry e  => e < x.entries
  | body id => id < x.bodies

theorem Within.mono {x y : Extent} {n : Referent} (h : n.Within x) (hxy : x ≤ y) : n.Within y := by
  cases n
  case cell  => exact Nat.lt_of_lt_of_le h hxy.cells
  case entry => exact Nat.lt_of_lt_of_le h hxy.entries
  case body  => exact Nat.lt_of_lt_of_le h hxy.bodies

def ofValue (v : Value) : List Referent :=
  v.toList.map cell

@[simp]
theorem mem_ofValue {n : Referent} {v : Value} : n ∈ ofValue v ↔ ∃ r, v = some r ∧ n = cell r := by
  cases v <;> simp [ofValue]

end Referent

def Cell.refers : Cell → List Referent
  | cons head tail           => Referent.ofValue head ++ Referent.ofValue tail
  | lambda params code       => Referent.ofValue params ++ code.toList.map .body
  | spoilt _ (.cons tail)    => Referent.ofValue tail
  | spoilt _ (.lambda code)  => code.toList.map .body
  | _                        => []

-- Nothing of the cell is lost.
def Cell.Whole : Cell → Prop
  | spoilt _ _ => False
  | _          => True

instance : DecidablePred Cell.Whole
  | .spoilt _ _ => isFalse id
  | .int _ | .cons _ _ | .symbol _ | .lambda _ _ | .builtin _ | .bytes _ | .error _ | .nil _ => isTrue trivial

theorem Cell.cell_mem_refers {c : Cell} {s : Ref} :
    .cell s ∈ c.refers ↔ c.head? = some s ∨ c.tail? = some s ∨ c.params? = some s := by
  cases c
  case spoilt rest => cases rest <;> simp [refers, head?, tail?, params?]
  all_goals simp [refers, head?, tail?, params?]

theorem Cell.body_mem_refers {c : Cell} {id : CodeId} :
    .body id ∈ c.refers ↔ c.code? = some id := by
  cases c
  case spoilt rest => cases rest <;> simp [refers, code?, eq_comm]
  all_goals simp [refers, code?, eq_comm]

theorem Heap.lt_size_of_get? {h : Heap} {r : Ref} {c : Cell} (hr : h.get? r = some c) :
    r < h.size :=
  (Array.getElem?_eq_some_iff.mp hr).1

def Heap.Whole (h : Heap) : Prop :=
  ∀ r c, h.get? r = some c → c.Whole

theorem Heap.whole_of_forall {h : Heap} (hc : ∀ c ∈ h.cells.toList, c.Whole) : h.Whole :=
  fun _ c hr => hc c (List.mem_of_getElem? (Array.getElem?_toList.trans hr))

theorem Heap.get?_eq_none_iff {h : Heap} {r : Ref} : h.get? r = none ↔ h.size ≤ r :=
  Array.getElem?_eq_none_iff

def Callee.refers : Callee → Referent
  | code id  => .body id
  | lambda r => .cell r

mutual

@[simp]
def Code.refers {k : Kind} : Code k → List Referent
  | .const _                     => []
  | .literal r                   => [.cell r]
  | .load e                      => [.entry e]
  | .store e value               => .entry e :: value.refers
  | .assign e value              => .entry e :: value.refers
  | .discard value               => value.refers
  | .sequence first last         => first.refers ++ last.refers
  | .branch condition yes no     => condition.refers ++ yes.refers ++ no.refers
  | .loop initial condition body => initial.refers ++ condition.refers ++ body.refers
  | .call callee                 => [callee.refers]
  | .eval expr                   => expr.refers
  | .primitive _ operands        => operands.refers

@[simp]
def Operands.refers {ks : List Kind} : Operands ks → List Referent
  | .nil             => []
  | .cons first rest => first.refers ++ rest.refers

end

-- What code does with something that it refers to.
inductive Mention
  | literal (r : Ref)
  | load (e : EntryId)
  | store (e : EntryId)
  | assign (e : EntryId)
  | call (callee : Callee)
deriving DecidableEq

def Mention.refers : Mention → Referent
  | literal r                   => .cell r
  | load e | store e | assign e => .entry e
  | call callee                 => callee.refers

mutual

@[simp]
def Code.mentions {k : Kind} : Code k → List Mention
  | .const _                     => []
  | .literal r                   => [.literal r]
  | .load e                      => [.load e]
  | .store e value               => .store e :: value.mentions
  | .assign e value              => .assign e :: value.mentions
  | .discard value               => value.mentions
  | .sequence first last         => first.mentions ++ last.mentions
  | .branch condition yes no     => condition.mentions ++ yes.mentions ++ no.mentions
  | .loop initial condition body => initial.mentions ++ condition.mentions ++ body.mentions
  | .call callee                 => [.call callee]
  | .eval expr                   => expr.mentions
  | .primitive _ operands        => operands.mentions

@[simp]
def Operands.mentions {ks : List Kind} : Operands ks → List Mention
  | .nil             => []
  | .cons first rest => first.mentions ++ rest.mentions

end

mutual

theorem Code.refers_eq {k : Kind} : (code : Code k) → code.refers = code.mentions.map Mention.refers
  | .const _                     => rfl
  | .literal _                   => rfl
  | .load _                      => rfl
  | .store _ value               => congrArg _ value.refers_eq
  | .assign _ value              => congrArg _ value.refers_eq
  | .discard value               => value.refers_eq
  | .sequence first last         => by simp [first.refers_eq, last.refers_eq]
  | .branch condition yes no     => by simp [condition.refers_eq, yes.refers_eq, no.refers_eq]
  | .loop initial condition body => by simp [initial.refers_eq, condition.refers_eq, body.refers_eq]
  | .call _                      => rfl
  | .eval expr                   => expr.refers_eq
  | .primitive _ operands        => operands.refers_eq

theorem Operands.refers_eq {ks : List Kind} :
    (operands : Operands ks) → operands.refers = operands.mentions.map Mention.refers
  | .nil             => rfl
  | .cons first rest => by simp [first.refers_eq, rest.refers_eq]

end

namespace Compiler

def extent (c : Compiler) : Extent :=
  ⟨c.heap.size, c.env.size, c.codes.size⟩

@[simp]
theorem cell_within {c : Compiler} {r : Ref} : (Referent.cell r).Within c.extent ↔ r < c.heap.size :=
  Iff.rfl

@[simp]
theorem entry_within {c : Compiler} {e : EntryId} :
    (Referent.entry e).Within c.extent ↔ e < c.env.size :=
  Iff.rfl

@[simp]
theorem body_within {c : Compiler} {id : CodeId} :
    (Referent.body id).Within c.extent ↔ id < c.codes.size :=
  Iff.rfl

def refers (c : Compiler) : Referent → List Referent
  | .cell r  => (c.heap.get? r).elim [] Cell.refers
  | .entry e => Referent.ofValue (c.env.binding e)
  | .body id => c.codes[id]?.elim [] Code.refers

-- The cell of a function has its code.
def HasCode (c : Compiler) (r : Ref) (id : CodeId) : Prop :=
  (c.heap.get? r).bind Cell.code? = some id

def Reaches (c : Compiler) : Referent → Referent → Prop :=
  Relation.ReflTransGen fun a b => b ∈ c.refers a

end Compiler

-- Everything that operands mention has a property.
def Operands.All (P : Mention → Prop) {ks : List Kind} (operands : Operands ks) : Prop :=
  ∀ m ∈ operands.mentions, P m

namespace Code

variable {k : Kind} {code : Code k} {c d : Compiler}

-- Everything that the code refers to is there.
def Within (code : Code k) (c : Compiler) : Prop :=
  ∀ n ∈ code.refers, n.Within c.extent

theorem Within.mono (h : code.Within c) (hx : c.extent ≤ d.extent) : code.Within d :=
  fun n hn => (h n hn).mono hx

def All (P : Mention → Prop) (code : Code k) : Prop :=
  ∀ m ∈ code.mentions, P m

theorem within_iff : code.Within c ↔ code.All fun m => m.refers.Within c.extent := by
  simp [Within, All, refers_eq]

@[simp]
theorem within_literal {r : Ref} : (literal r).Within c ↔ r < c.heap.size := by
  simp [Within]

section All

variable {P Q : Mention → Prop} {e : EntryId} {first : Code .void} {condition : Code .raw}
  {yes no body last : Code k}

theorem All.imp (h : code.All P) (hpq : ∀ m, P m → Q m) : code.All Q :=
  fun m hm => hpq m (h m hm)

@[simp]
theorem all_const {i : Int64} : (const i).All P := by
  simp [All]

@[simp]
theorem all_literal {r : Ref} : (literal r).All P ↔ P (.literal r) := by
  simp [All]

@[simp]
theorem all_load : (load e).All P ↔ P (.load e) := by
  simp [All]

@[simp]
theorem all_store {value : Code .cell} : (store e value).All P ↔ P (.store e) ∧ value.All P := by
  simp [All]

@[simp]
theorem all_assign {value : Code .raw} : (assign e value).All P ↔ P (.assign e) ∧ value.All P := by
  simp [All]

@[simp]
theorem all_discard : (discard code).All P ↔ code.All P := by
  simp [All]

@[simp]
theorem all_sequence : (sequence first last).All P ↔ first.All P ∧ last.All P := by
  simp [All, or_imp, forall_and]

@[simp]
theorem all_branch :
    (branch condition yes no).All P ↔ condition.All P ∧ yes.All P ∧ no.All P := by
  simp [All, or_imp, forall_and]

@[simp]
theorem all_loop :
    (loop last condition body).All P ↔ last.All P ∧ condition.All P ∧ body.All P := by
  simp [All, or_imp, forall_and]

@[simp]
theorem all_call {callee : Callee} : (call callee).All P ↔ P (.call callee) := by
  simp [All]

@[simp]
theorem all_eval {expr : Code .cell} : (eval expr).All P ↔ expr.All P := by
  simp [All]

@[simp]
theorem all_nil : Operands.nil.All P := by
  simp [Operands.All]

@[simp]
theorem all_cons {ks : List Kind} {rest : Operands ks} :
    (Operands.cons code rest).All P ↔ code.All P ∧ rest.All P := by
  simp [All, Operands.All, or_imp, forall_and]

@[simp]
theorem all_primitive {ks : List Kind} {p : Primitive ks k} {operands : Operands ks} :
    (primitive p operands).All P ↔ operands.All P := by
  simp [All, Operands.All]

@[simp]
theorem all_unary {j : Kind} {p : Primitive [j] k} {value : Code j} :
    (unary p value).All P ↔ value.All P := by
  simp [unary]

@[simp]
theorem all_sequences {firsts : List (Code .void)} :
    (sequences firsts last).All P ↔ (∀ first ∈ firsts, first.All P) ∧ last.All P := by
  induction firsts
  case nil     => simp [sequences]
  case cons hi => simp [sequences, and_assoc] at hi ⊢; simp [hi]

end All
end Code

namespace Compiler

structure Sound (c : Compiler) : Prop where
  shared   : Heap.nilRef < c.heap.size
  cells    : ∀ r d, c.heap.get? r = some d → ∀ n ∈ d.refers, n.Within { c.extent with cells := r }
  bindings : ∀ e r, c.env.binding e = some r → r < c.heap.size
  bodies   : ∀ (id : CodeId) (code : Code .cell), c.codes[id]? = some code → code.Within c
  pending  : ∀ p ∈ c.pending, p.2 < c.heap.size
  nesting  : ∀ f ∈ c.nesting.stack, f.lambda < c.heap.size

namespace Sound

variable {c : Compiler} (h : c.Sound)

include h

theorem cell_refers {r : Ref} {d : Cell} (hr : c.heap.get? r = some d) {n : Referent}
    (hn : n ∈ d.refers) : n.Within c.extent :=
  (h.cells r d hr n hn).mono
    ⟨Nat.le_of_lt (Heap.lt_size_of_get? hr), Nat.le_refl _, Nat.le_refl _⟩

theorem body_of_hasCode {r : Ref} {id : CodeId} (hr : c.HasCode r id) :
    ∃ body, c.codes[id]? = some body := by
  have ⟨x, hx, hcode⟩ := Option.bind_eq_some_iff.mp hr
  have hid : id < c.codes.size := body_within.mp (h.cell_refers hx (Cell.body_mem_refers.mpr hcode))
  exact ⟨_, Array.getElem?_eq_getElem hid⟩

theorem closed {a b : Referent} (hb : b ∈ c.refers a) : b.Within c.extent := by
  cases a
  case cell r =>
    cases hr : c.heap.get? r <;> simp [refers, hr] at hb
    exact h.cell_refers hr hb
  case entry e =>
    simp only [refers, Referent.mem_ofValue] at hb
    have ⟨r, hr, hn⟩ := hb
    exact hn ▸ h.bindings e r hr
  case body id =>
    cases hid : c.codes[id]? <;> simp [refers, hid] at hb
    exact h.bodies id _ hid b hb

theorem backward : c.heap.Backward :=
  fun r d hr s hs => h.cells r d hr (.cell s) (Cell.cell_mem_refers.mpr hs)

-- The references of cells are all that a new heap has to account for.
theorem withHeap {heap : Heap} (hs : c.heap.size ≤ heap.size)
    (hc : ∀ r d, heap.get? r = some d → ∀ n ∈ d.refers, n.Within { c.extent with cells := r }) :
    Sound { c with heap } where
  shared       := Nat.lt_of_lt_of_le h.shared hs
  cells        := hc
  bindings e r he := Nat.lt_of_lt_of_le (h.bindings e r he) hs
  bodies id code hid := (h.bodies id code hid).mono ⟨hs, Nat.le_refl _, Nat.le_refl _⟩
  pending p hp := Nat.lt_of_lt_of_le (h.pending p hp) hs
  nesting f hf := Nat.lt_of_lt_of_le (h.nesting f hf) hs

theorem alloc {d : Cell} (hd : ∀ n ∈ d.refers, n.Within c.extent) :
    Sound { c with heap := (c.heap.alloc d).2 } := by
  refine h.withHeap (by simp) (fun r d' hr => ?_)
  rw [Heap.get?_alloc] at hr
  split at hr
  case isTrue e => cases hr; subst e; exact hd
  case isFalse  => exact h.cells r d' hr

theorem withEnv {env : Env} (hs : c.env.size ≤ env.size)
    (hb : ∀ e r, env.binding e = some r → r < c.heap.size) : Sound { c with env } :=
  { h with
    cells r d hr n hn := (h.cells r d hr n hn).mono ⟨Nat.le_refl _, hs, Nat.le_refl _⟩
    bindings          := hb
    bodies id code hi := (h.bodies id code hi).mono ⟨Nat.le_refl _, hs, Nat.le_refl _⟩ }

theorem setBinding {e : EntryId} {v : Value} (hv : ∀ r, v = some r → r < c.heap.size) :
    Sound { c with env := c.env.setBinding e v } := by
  refine h.withEnv (by simp) (fun d r hd => ?_)
  rcases Env.eq_or_binding_of_setBinding hd with ⟨_, hr⟩ | hd
  · exact hv r hr
  · exact h.bindings d r hd

theorem pushBody {body : Code .cell} (hb : body.Within c) :
    Sound { c with codes := c.codes.push body } :=
  have hx : c.codes.size ≤ (c.codes.push body).size := by simp
  { h with
    cells r d hr n hn := (h.cells r d hr n hn).mono ⟨Nat.le_refl _, Nat.le_refl _, hx⟩
    bodies id code hi := by
      simp only [Array.getElem?_push] at hi
      split at hi
      case isTrue  => cases hi; exact hb.mono ⟨Nat.le_refl _, Nat.le_refl _, hx⟩
      case isFalse => exact (h.bodies id code hi).mono ⟨Nat.le_refl _, Nat.le_refl _, hx⟩ }

-- A cell that gets its code refers to its parameters, as it did, and to the body that is new.
theorem fill {lambda : Ref} {params : Value} {body : Code .cell}
    (hl : c.heap.get? lambda = some (.lambda params none)) (hb : body.Within c) :
    Sound { c with
      heap  := c.heap.set lambda (.lambda params (some c.codes.size))
      codes := c.codes.push body } := by
  have hx : c.codes.size ≤ (c.codes.push body).size := by simp
  refine (h.pushBody hb).withHeap (by simp) (fun r e hr n hn => ?_)
  by_cases hrl : r = lambda
  case neg =>
    rw [Heap.get?_set_of_ne _ hrl] at hr
    exact (h.cells r e hr n hn).mono ⟨Nat.le_refl _, Nat.le_refl _, hx⟩
  case pos =>
    subst hrl
    rw [Heap.get?_set_self _ (Heap.lt_size_of_get? hl)] at hr
    cases hr
    simp only [Cell.refers, Option.toList_some, List.map_cons, List.map_nil, List.mem_append,
      List.mem_singleton] at hn
    rcases hn with hn | rfl
    · exact (h.cells r _ hl n (by simpa [Cell.refers] using hn)).mono
        ⟨Nat.le_refl _, Nat.le_refl _, hx⟩
    · simp [Referent.Within, extent]

end Sound
end Compiler
end CellLisp
