import CellLisp.Heap

namespace CellLisp

namespace Buffer

def index? (i : Int64) : Option Nat :=
  if i < 0 then none else some i.toNatClampNeg

def get? (content : Bytes) (i : Int64) : Option UInt8 :=
  (index? i).bind (content[·]?)

def put (content : Bytes) (i : Int64) (b : UInt8) : Bytes :=
  match index? i with
  | some i => content.setIfInBounds i b
  | none => content

-- Copies bytes into a buffer from a place on, as far as there is room, and a zero after them.
def fill (content : Bytes) (start : Nat) : List UInt8 → Bytes
  | [] => content.setIfInBounds start 0
  | b :: bs =>
    if start < content.size then fill (content.setIfInBounds start b) (start + 1) bs else content

@[simp]
theorem size_fill (content : Bytes) (start : Nat) (bs : List UInt8) :
    (fill content start bs).size = content.size := by
  induction bs generalizing content start
  case nil => simp [fill]
  case cons b bs hi =>
    rw [fill]
    split
    case isTrue  => rw [hi, Array.size_setIfInBounds]
    case isFalse => rfl

def lowByte (n : Int64) : UInt8 :=
  n.toUInt64.toUInt8

end Buffer

namespace Heap

-- A buffer of zeros; a negative size counts as zero.
def allocZeros (h : Heap) (size : Int64) : Ref × Heap :=
  h.alloc (.bytes (Array.replicate size.toNatClampNeg 0))

def allocBytes (h : Heap) (content : Bytes) : Ref × Heap :=
  h.alloc (.bytes content)

-- A new buffer with the bytes of two others; what is no buffer has no bytes.
def concat (h : Heap) (a b : Value) : Ref × Heap :=
  h.allocBytes ((h.bytesOf a).getD #[] ++ (h.bytesOf b).getD #[])

def byteAt (h : Heap) (buffer : Value) (i : Int64) : Option UInt8 :=
  (h.bytesOf buffer).bind (Buffer.get? · i)

def putByte (h : Heap) (buffer : Value) (i : Int64) (b : UInt8) : Heap :=
  match buffer with
  | none => h
  | some r => h.modify r (·.mapBytes (Buffer.put · i b))

def bufferSize (h : Heap) (buffer : Value) : Int64 :=
  Int64.ofNat (((h.cell? buffer).bind Cell.bufferSize?).getD 0)

def sizeLost (h : Heap) (buffer : Value) : Bool :=
  (h.cell? buffer).any Cell.sizeLost

def byteLost (h : Heap) (buffer : Value) (i : Int64) : Bool :=
  (h.cell? buffer).any fun c => (Buffer.index? i).any c.byteLost

def writeInto (h : Heap) (value buffer : Value) : Option Nat × Heap :=
  match value, buffer, h.bytesOf buffer with
  | some _, some r, some content =>
    let size := content.size
    let text := (Text.utf8 (h.written value)).toList
    (some (min text.length size), h.modify r (·.mapBytes (Buffer.fill · 0 text)))
  | _, _, _ => (none, h)

-- Both the buffer and everything that is written have to be found.
def writeLost (h : Heap) (value buffer : Value) : Bool :=
  value.isSome && (h.lost .bytes buffer || (h.bytesOf buffer).isSome && h.lossy value)

end Heap
end CellLisp
