import CellLisp.Device.Disk
import CellLisp.Device.Frame

namespace CellLisp

structure Device where
  frame : Frame
  flips : Nat
  -- The keys that were pressed and not read yet, the first one first.
  keys : List Int64
  disk : Disk
  -- The path of the directory that storage is confined to.
  root : String

namespace Device

def fresh (width height : Nat) : Device :=
  ⟨.blank width height, 0, [], .empty, "."⟩

def colour (word : Int64) : Colour :=
  word.toUInt64.toUInt32

def pixel (d : Device) (x y c : Int64) : Device :=
  { d with frame := d.frame.set x.toInt y.toInt (colour c) }

-- The sum of two words, or the word nearest to it if it is none.
def saturatingAdd (a b : Int64) : Int64 :=
  Int64.ofInt (max Int64.minValue.toInt (min Int64.maxValue.toInt (a.toInt + b.toInt)))

-- The word that a stretch of points ends before; a negative length counts as zero.
def stretchEnd (start length : Int64) : Int64 :=
  saturatingAdd start (max length 0)

def fillRect (d : Device) (x y w h c : Int64) : Device :=
  let right := stretchEnd x w
  let bottom := stretchEnd y h
  { d with frame := d.frame.fillRect x.toInt right.toInt y.toInt bottom.toInt (colour c) }

-- A bitmap of a negative size is not drawn.
def blit (d : Device) (bitmap : Bytes) (x y w h c : Int64) (inverse : Bool) : Device :=
  if w < 0 ∨ h < 0 then d
  else
    let stencil : Stencil := ⟨bitmap, x, y, w.toNatClampNeg, h.toNatClampNeg, colour c, inverse⟩
    { d with frame := stencil.draw d.frame }

def flip (d : Device) : Device :=
  { d with flips := d.flips + 1 }

def pressKey (d : Device) (key : Int64) : Device :=
  { d with keys := d.keys ++ [key] }

def inkey (d : Device) : Int64 × Device :=
  match d.keys with
  | [] => (0, d)
  | key :: keys => (key, { d with keys })

def resolve (d : Device) (path : String) : Except StorageError String :=
  if Path.isInside path then .ok (Path.join d.root path) else .error (.outsideRoot path)

def load (d : Device) (path : String) : Except StorageError Bytes := do
  d.disk.load (← d.resolve path)

def save (d : Device) (path : String) (content : Bytes) : Except StorageError Device := do
  let disk ← d.disk.save (← d.resolve path) content
  return { d with disk }

def list (d : Device) : Except StorageError (List String) :=
  d.disk.list d.root

end Device
end CellLisp
