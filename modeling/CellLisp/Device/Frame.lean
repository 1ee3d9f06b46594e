import CellLisp.Text.Utf8

namespace CellLisp

abbrev Colour := UInt32

-- The colours stand row by row.
structure Frame where
  width : Nat
  height : Nat
  pixels : Array Colour
  size_pixels : pixels.size = width * height

namespace Frame

def blank (width height : Nat) : Frame where
  width
  height
  pixels := Array.replicate (width * height) 0
  size_pixels := Array.size_replicate

def index? (f : Frame) (x y : Int) : Option Nat :=
  if 0 ≤ x ∧ x < f.width ∧ 0 ≤ y ∧ y < f.height then some (y.toNat * f.width + x.toNat) else none

def get? (f : Frame) (x y : Int) : Option Colour :=
  (f.index? x y).bind (f.pixels[·]?)

def set (f : Frame) (x y : Int) (colour : Colour) : Frame :=
  match f.index? x y with
  | none => f
  | some i =>
    { f with
      pixels := f.pixels.setIfInBounds i colour
      size_pixels := by rw [Array.size_setIfInBounds, f.size_pixels] }

-- The points from `first` on and before `last` that are not negative and below `bound`.
def clip (first last : Int) (bound : Nat) : List Nat :=
  List.range' first.toNat ((min last bound).toNat - first.toNat)

def fillRow (f : Frame) (y : Nat) (colour : Colour) (columns : List Nat) : Frame :=
  columns.foldl (fun f (x : Nat) => f.set x y colour) f

def fillRect (f : Frame) (left right top bottom : Int) (colour : Colour) : Frame :=
  let columns := clip left right f.width
  (clip top bottom f.height).foldl (fun f y => f.fillRow y colour columns) f

def lit (f : Frame) : List (Nat × Nat × Colour) :=
  (List.range f.pixels.size).filterMap fun i =>
    match f.pixels[i]? with
    | some colour => if colour = 0 then none else some (i % f.width, i / f.width, colour)
    | none => none

end Frame

-- A bitmap to draw, one bit for a pixel. Its rows are whole bytes, the first pixel in the highest bit.
-- The pixels whose bit is set are painted, or those whose bit is clear if it is drawn in inverse.
structure Stencil where
  bitmap : Bytes
  x : Int64
  y : Int64
  width : Nat
  height : Nat
  colour : Colour
  inverse : Bool

namespace Stencil

def pitch (s : Stencil) : Nat :=
  (s.width + 7) / 8

def paints? (s : Stencil) (row column : Nat) : Option Bool :=
  s.bitmap[row * s.pitch + column / 8]?.map fun byte =>
    byte.toNat.testBit (7 - column % 8) != s.inverse

def paint (s : Stencil) (f : Frame) (row column : Nat) : Frame :=
  f.set (s.x + Int64.ofNat column).toInt (s.y + Int64.ofNat row).toInt s.colour

-- Draws pixels of a row from a column on; the flag tells whether the bitmap went that far.
def drawRow (s : Stencil) (row : Nat) : (count column : Nat) → Frame → Frame × Bool
  | 0, _, f => (f, true)
  | count + 1, column, f =>
    match s.paints? row column with
    | none => (f, false)
    | some painted =>
      s.drawRow row count (column + 1) (if painted then s.paint f row column else f)

-- Draws rows from a row on, and nothing more once the bitmap has ended.
def drawRows (s : Stencil) : (count row : Nat) → Frame → Frame
  | 0, _, f => f
  | count + 1, row, f =>
    match s.drawRow row s.width 0 f with
    | (f, true) => s.drawRows count (row + 1) f
    | (f, false) => f

def draw (s : Stencil) (f : Frame) : Frame :=
  if s.width = 0 then f else s.drawRows s.height 0 f

end Stencil
end CellLisp
