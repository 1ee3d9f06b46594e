import CellLisp.Form
import CellLisp.Proofs.Safety

namespace CellLisp

namespace Cell

-- A cell as a tree, given the trees of what it refers to.
def datumWith (below : Value → Datum) : Cell → Datum
  | int value       => .atom (.int value)
  | cons head tail  => .cons (below head) (below tail)
  | symbol name     => .atom (.symbol name)
  | lambda params _ => .lambda (below params)
  | builtin opcode  => .atom (.builtin opcode)
  | bytes content   => .atom (.bytes content)
  | error code      => .atom (.error code)
  | nil _           => .atom .nil
  | spoilt _ _      => .atom .lost

-- The elements of a list, given those of its tail.
def elementsWith (below : Value → List Ref) (r : Ref) : Cell → List Ref
  | cons (some head) tail => head :: below tail
  | spoilt _ (.cons tail) => r :: below tail
  | _                     => []

-- A cell as an expression, given the expressions that it refers to.
def formWith (below : Value → Form) (r : Ref) : Cell → Form
  | cons head tail => .cons r (fun _ => below head) (fun _ => below tail)
  | spoilt word (.cons tail) =>
    .cons r (fun _ => .atom r (spoilt word (.cons tail))) (fun _ => below tail)
  | c => .atom r c

end Cell

namespace Heap

variable {h : Heap} {α : Type}

-- One cell refers to another.
def Refers (h : Heap) (s r : Ref) : Prop :=
  ∃ c, h.get? r = some c ∧ .cell s ∈ c.refers

theorem Backward.lt {r s : Ref} (hb : h.Backward) (hs : h.Refers s r) : s < r :=
  have ⟨c, hc, hs⟩ := hs
  hb r c hc s (Cell.cell_mem_refers.mp hs)

theorem Backward.wellFounded (hb : h.Backward) : WellFounded h.Refers :=
  Subrelation.wf hb.lt Nat.lt_wfRel.wf

-- The first step of a walk from a value, which finds nothing where there is no cell.
def stepWith (h : Heap) (nothing : α) (step : Ref → Cell → α) : Value → α
  | none   => nothing
  | some r => (h.get? r).elim nothing (step r)

-- A walk down to some depth. A step looks at one cell, and at what the walk finds from there on.
structure Walk (h : Heap) (α : Type) where
  upto    : Nat → Value → α
  nothing : α
  step    : (Value → α) → Ref → Cell → α
  zero    : ∀ v, upto 0 v = nothing
  succ    : ∀ depth v, upto (depth + 1) v = h.stepWith nothing (step (upto depth)) v
  below   : ∀ f g r c, (∀ v, (∀ s, v = some s → .cell s ∈ c.refers) → f v = g v) →
    step f r c = step g r c

namespace Walk

variable (w : h.Walk α)

def whole (v : Value) : α :=
  w.upto (depthBound v) v

theorem upto_none (depth : Nat) : w.upto depth none = w.nothing := by
  cases depth
  case zero => exact w.zero none
  case succ => exact w.succ _ none

theorem stepWith_congr {f g : Value → α} {r : Ref} (hn : f none = g none)
    (hs : ∀ s, h.Refers s r → f (some s) = g (some s)) :
    h.stepWith w.nothing (w.step f) (some r) = h.stepWith w.nothing (w.step g) (some r) := by
  simp only [stepWith]
  cases hc : h.get? r
  case none   => rfl
  case some c =>
    apply w.below
    intro v hv
    cases v
    case none   => exact hn
    case some s => exact hs s ⟨c, hc, hv s rfl⟩

theorem whole_none : w.whole none = w.nothing :=
  w.upto_none _

theorem upto_eq_whole (hb : h.Backward) {r : Ref} {depth : Nat} (hd : r < depth) :
    w.upto depth (some r) = w.whole (some r) := by
  -- By induction on the place of the cell: both walks go on from earlier cells, with depth to spare.
  induction r using Nat.strongRecOn generalizing depth
  case ind r hi =>
    cases depth
    case zero => cases hd
    case succ depth =>
      have hd := Nat.le_of_lt_succ hd
      have hwhole : w.whole (some r) = h.stepWith w.nothing (w.step (w.upto r)) (some r) := w.succ r _
      rw [w.succ, hwhole]
      apply w.stepWith_congr
      case hn => rw [w.upto_none, w.upto_none]
      case hs =>
        intro s hs
        have hlt := hb.lt hs
        rw [hi s hlt (Nat.lt_of_lt_of_le hlt hd), hi s hlt hlt]

-- The walk goes on until it finds nothing more.
theorem whole_eq (hb : h.Backward) (v : Value) :
    w.whole v = h.stepWith w.nothing (w.step w.whole) v := by
  cases v
  case none   => exact w.whole_none
  case some r =>
    have hwhole : w.whole (some r) = h.stepWith w.nothing (w.step (w.upto r)) (some r) := w.succ r _
    rw [hwhole]
    apply w.stepWith_congr
    case hn => rw [w.upto_none, w.whole_none]
    case hs =>
      intro s hs
      exact w.upto_eq_whole hb (hb.lt hs)

end Walk

-- The walks of the writer, along a list, and of the compiler.
def writing (h : Heap) : h.Walk Datum where
  upto         := h.datumWithin
  nothing      := .absent
  step f _     := Cell.datumWith f
  zero _       := rfl
  succ depth v := by
    rw [datumWithin]
    cases v
    case none   => rfl
    case some r =>
      simp only [cell?, stepWith, Option.bind_some]
      cases h.get? r
      case none   => rfl
      case some c => cases c <;> rfl
  below _ _ _ c hv := by
    cases c
    case cons   =>
      exact congrArg₂ Datum.cons (hv _ fun _ hs => Cell.cell_mem_refers.mpr (.inl hs))
        (hv _ fun _ hs => Cell.cell_mem_refers.mpr (.inr (.inl hs)))
    case lambda => exact congrArg Datum.lambda (hv _ fun _ hs => Cell.cell_mem_refers.mpr (.inr (.inr hs)))
    all_goals rfl

def listing (h : Heap) : h.Walk (List Ref) where
  upto         := h.elementsWithin
  nothing      := []
  step         := Cell.elementsWith
  zero _       := rfl
  succ depth v := by
    rw [elementsWithin]
    cases v
    case none   => rfl
    case some r =>
      simp only [cell?, stepWith, Option.bind_some]
      cases h.get? r
      case none   => rfl
      case some c =>
        cases c
        case cons head _ => cases head <;> rfl
        case spoilt rest => cases rest <;> rfl
        all_goals rfl
  below _ _ _ c hv := by
    cases c
    case cons head _ =>
      cases head
      case none => rfl
      case some => exact congrArg _ (hv _ fun _ hs => Cell.cell_mem_refers.mpr (.inr (.inl hs)))
    case spoilt rest =>
      cases rest
      case cons => exact congrArg _ (hv _ fun _ hs => Cell.cell_mem_refers.mpr (.inr (.inl hs)))
      all_goals rfl
    all_goals rfl

def forming (h : Heap) : h.Walk Form where
  upto         := h.formWithin
  nothing      := .absent
  step         := Cell.formWith
  zero _       := rfl
  succ depth v := by
    rw [formWithin.eq_def]
    cases v
    case none   => rfl
    case some r =>
      simp only [stepWith]
      cases h.get? r
      case none   => rfl
      case some c =>
        cases c
        case spoilt rest => cases rest <;> rfl
        all_goals rfl
  below f g _ c hv := by
    cases c
    case cons head tail =>
      have hhead : f head = g head := hv _ fun _ hs => Cell.cell_mem_refers.mpr (.inl hs)
      have htail : f tail = g tail := hv _ fun _ hs => Cell.cell_mem_refers.mpr (.inr (.inl hs))
      simp only [Cell.formWith, hhead, htail]
    case spoilt rest =>
      cases rest
      case cons tail =>
        have htail : f tail = g tail := hv _ fun _ hs => Cell.cell_mem_refers.mpr (.inr (.inl hs))
        simp only [Cell.formWith, htail]
      all_goals rfl
    all_goals rfl

-- References lead back, so that they end. What the writer, the elements of a list and the compiler find
-- at a cell is made of what they find at the cells it refers to, however deep that goes.
structure Grounded (h : Heap) : Prop where
  backward    : h.Backward
  wellFounded : WellFounded h.Refers
  datum       : ∀ v, h.datum v = h.stepWith .absent (fun _ => Cell.datumWith h.datum) v
  elements    : ∀ v, h.elements v = h.stepWith [] (Cell.elementsWith h.elements) v
  form        : ∀ v, h.form v = h.stepWith .absent (Cell.formWith h.form) v
  code        : ∀ r head tail required, h.get? r = some (.cons head tail) →
    (h.form (some r)).code required = Compile.application (h.form (some r))
      ⟨h.form head, (h.form head).code, (h.form head).function⟩ (h.form tail).parts required

theorem Backward.grounded (hb : h.Backward) : h.Grounded where
  backward    := hb
  wellFounded := hb.wellFounded
  datum       := h.writing.whole_eq hb
  elements    := h.listing.whole_eq hb
  form        := h.forming.whole_eq hb
  code r head tail required hr := by
    have hform : h.form (some r) = .cons r (fun _ => h.form head) (fun _ => h.form tail) := by
      rw [show h.form (some r) = _ from h.forming.whole_eq hb (some r)]
      simp only [stepWith, hr, Option.elim_some]
      rfl
    rw [hform, Form.code]

end Heap

variable {i : Image} {ops : List Operation}

namespace Session

variable {s t : Session}

theorem Sustains.grounded (h : s.Sustains t) : t.heap.Grounded :=
  h.persists.sound.backward.grounded

end Session

end CellLisp
