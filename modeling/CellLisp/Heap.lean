import CellLisp.Cell

namespace CellLisp

structure Heap where
  cells : Array Cell
deriving DecidableEq

namespace Heap

-- The place of the `nil` that is shared wherever only something empty is needed.
def nilRef : Ref := 0

def fresh : Heap := ⟨#[.nil 0]⟩

def size (h : Heap) : Nat :=
  h.cells.size

def get? (h : Heap) (r : Ref) : Option Cell :=
  h.cells[r]?

def cell? (h : Heap) (v : Value) : Option Cell :=
  v.bind h.get?

def alloc (h : Heap) (c : Cell) : Ref × Heap :=
  (h.cells.size, ⟨h.cells.push c⟩)

def set (h : Heap) (r : Ref) (c : Cell) : Heap :=
  ⟨h.cells.setIfInBounds r c⟩

def modify (h : Heap) (r : Ref) (f : Cell → Cell) : Heap :=
  ⟨h.cells.modify r f⟩

@[simp]
theorem alloc_fst (h : Heap) (c : Cell) : (h.alloc c).1 = h.size :=
  rfl

@[simp]
theorem size_alloc (h : Heap) (c : Cell) : (h.alloc c).2.size = h.size + 1 :=
  Array.size_push _

theorem get?_alloc (h : Heap) (c : Cell) (r : Ref) :
    (h.alloc c).2.get? r = if r = h.size then some c else h.get? r := by
  simp only [get?, alloc, size, Array.getElem?_push]
  rfl

theorem get?_alloc_self (h : Heap) (c : Cell) : (h.alloc c).2.get? (h.alloc c).1 = some c := by
  simp [get?_alloc]

theorem get?_alloc_of_lt {h : Heap} {r : Ref} (c : Cell) (hr : r < h.size) :
    (h.alloc c).2.get? r = h.get? r := by
  simp [get?_alloc, Nat.ne_of_lt hr]

@[simp]
theorem size_set (h : Heap) (r : Ref) (c : Cell) : (h.set r c).size = h.size :=
  Array.size_setIfInBounds

theorem get?_set_of_ne {h : Heap} {r s : Ref} (c : Cell) (hs : s ≠ r) :
    (h.set r c).get? s = h.get? s := by
  simp [get?, set, Array.getElem?_setIfInBounds_ne hs.symm]

theorem get?_set_self {h : Heap} {r : Ref} (c : Cell) (hr : r < h.size) :
    (h.set r c).get? r = some c := by
  simp only [get?, set]
  exact Array.getElem?_setIfInBounds_self_of_lt hr

@[simp]
theorem size_modify (h : Heap) (r : Ref) (f : Cell → Cell) : (h.modify r f).size = h.size :=
  Array.size_modify

theorem get?_modify (h : Heap) (r s : Ref) (f : Cell → Cell) :
    (h.modify r f).get? s = if r = s then (h.get? s).map f else h.get? s := by
  simp only [get?, modify, Array.getElem?_modify]

-- Every reference in a cell goes to an earlier cell.
def Backward (h : Heap) : Prop :=
  ∀ r c, h.get? r = some c → ∀ s, c.head? = some s ∨ c.tail? = some s ∨ c.params? = some s → s < r

def intOf (h : Heap) (v : Value) : Option Int64 :=
  (h.cell? v).bind Cell.int?

def bytesOf (h : Heap) (v : Value) : Option Bytes :=
  (h.cell? v).bind Cell.bytes?

def textOf (h : Heap) (v : Value) : Option String :=
  (h.cell? v).bind Cell.text?

def lost (h : Heap) (tag : Tag) (v : Value) : Bool :=
  (h.cell? v).any (·.lost tag)

theorem lost_eq_false_of_bytesOf {h : Heap} {v : Value} {content : Bytes} (tag : Tag)
    (hv : h.bytesOf v = some content) : h.lost tag v = false := by
  obtain ⟨c, hc, hcontent⟩ := Option.bind_eq_some_iff.mp hv
  cases c <;> cases hcontent
  simp [lost, hc, Cell.lost]

theorem lost_eq_false_of_textOf {h : Heap} {v : Value} {text : String} (tag : Tag)
    (hv : h.textOf v = some text) : h.lost tag v = false := by
  obtain ⟨c, hc, htext⟩ := Option.bind_eq_some_iff.mp hv
  obtain ⟨_, hcontent, _⟩ := Option.map_eq_some_iff.mp htext
  exact lost_eq_false_of_bytesOf tag (Option.bind_eq_some_iff.mpr ⟨c, hc, hcontent⟩)

def datumWithin (h : Heap) : Nat → Value → Datum
  | 0, _ => .absent
  | depth + 1, v =>
    match h.cell? v with
    | none => .absent
    | some (.int value) => .atom (.int value)
    | some (.cons head tail) => .cons (h.datumWithin depth head) (h.datumWithin depth tail)
    | some (.symbol name) => .atom (.symbol name)
    | some (.lambda params _) => .lambda (h.datumWithin depth params)
    | some (.builtin opcode) => .atom (.builtin opcode)
    | some (.bytes content) => .atom (.bytes content)
    | some (.error code) => .atom (.error code)
    | some (.nil _) => .atom .nil
    | some (.spoilt _ _) => .atom .lost

-- The depth that is enough to take a whole value out of a heap.
def depthBound (v : Value) : Nat :=
  match v with
  | some r => r + 1
  | none => 0

def datum (h : Heap) (v : Value) : Datum :=
  h.datumWithin (depthBound v) v

def lossy (h : Heap) (v : Value) : Bool :=
  (h.datum v).lossy

def written (h : Heap) (v : Value) : String :=
  (h.datum v).write

def elementsWithin (h : Heap) : Nat → Value → List Ref
  | 0, _ => []
  | depth + 1, v =>
    match h.cell? v with
    | some (.cons (some head) tail) => head :: h.elementsWithin depth tail
    | some (.spoilt _ (.cons tail)) => v.toList ++ h.elementsWithin depth tail
    | _ => []

-- The elements of a list, up to the first pair that has no head or the first tail that is no pair. A
-- pair stands in for its own head where that is lost.
def elements (h : Heap) (v : Value) : List Ref :=
  h.elementsWithin (depthBound v) v

def allocAtom (h : Heap) (a : Atom) : Ref × Heap :=
  h.alloc <|
    match a with
    | .int value => .int value
    | .symbol name => .symbol name
    | .bytes content => .bytes content
    | .builtin opcode => .builtin opcode
    | .error code => .error code
    | .nil => .nil 0
    | .lost => .nil 0

def allocDatum (h : Heap) : Datum → Value × Heap
  | .absent => (none, h)
  | .atom a =>
    let (r, h) := h.allocAtom a
    (some r, h)
  | .cons head tail =>
    let (head, h) := h.allocDatum head
    let (tail, h) := h.allocDatum tail
    let (r, h) := h.alloc (.cons head tail)
    (some r, h)
  | .lambda params =>
    let (params, h) := h.allocDatum params
    let (r, h) := h.alloc (.lambda params none)
    (some r, h)

-- A list of cells; without any it is a new `nil`.
def allocList (h : Heap) (items : List Ref) : Ref × Heap :=
  match chain h items with
  | (some r, h) => (r, h)
  | (none, h) => h.alloc (.nil 0)
where
  chain (h : Heap) : List Ref → Value × Heap
    | [] => (none, h)
    | item :: items =>
      let (tail, h) := chain h items
      let (r, h) := h.alloc (.cons (some item) tail)
      (some r, h)

end Heap
end CellLisp
