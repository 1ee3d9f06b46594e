import CellLisp.Heap

namespace CellLisp.Heap

def box (h : Heap) (n : Int64) : Ref × Heap :=
  h.alloc (.int n)

def unbox (h : Heap) (v : Value) : Int64 :=
  (h.intOf v).getD 0

-- An integer as it is; a new zero for anything else.
def ensureInt (h : Heap) (v : Value) : Value × Heap :=
  match h.intOf v with
  | some _ => (v, h)
  | none =>
    let (r, h) := h.box 0
    (some r, h)

def car (h : Heap) (list : Value) : Ref :=
  ((h.cell? list).bind Cell.head?).getD nilRef

def cdr (h : Heap) (list : Value) : Ref :=
  ((h.cell? list).bind Cell.tail?).getD nilRef

def carInt (h : Heap) (list : Value) : Int64 :=
  h.unbox ((h.cell? list).bind Cell.head?)

end CellLisp.Heap
