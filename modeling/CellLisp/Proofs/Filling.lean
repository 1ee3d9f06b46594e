import CellLisp.Proofs.Drawing

namespace CellLisp

namespace Frame

variable {f g h : Frame} {x y : Int} {i : Nat} {colour : Colour} {area area' : Int → Int → Prop}

theorem mem_clip {first last : Int} {bound n : Nat} :
    n ∈ clip first last bound ↔ first ≤ n ∧ n < last ∧ n < bound := by
  rw [clip, List.mem_range'_1]
  omega

-- Every pixel is the one of a point.
theorem get?_of_pixel (hi : i < f.pixels.size) :
    f.get? (i % f.width : Nat) (i / f.width : Nat) = f.pixels[i]? := by
  have hsize := f.size_pixels ▸ hi
  have hwidth : 0 < f.width := Nat.pos_of_mul_pos_right (Nat.zero_lt_of_lt hsize)
  have hcolumn : i % f.width < f.width := Nat.mod_lt i hwidth
  have hrow : i / f.width < f.height := Nat.div_lt_of_lt_mul hsize
  have hindex : f.index? (i % f.width : Nat) (i / f.width : Nat) = some i := by
    refine index?_eq_some_iff.mpr ⟨⟨Int.natCast_nonneg _, ?_, Int.natCast_nonneg _, ?_⟩, ?_⟩
    · exact Int.ofNat_lt.mpr hcolumn
    · exact Int.ofNat_lt.mpr hrow
    rw [Int.toNat_natCast, Int.toNat_natCast, Nat.mul_comm]
    exact Nat.div_add_mod i f.width
  rw [get?, hindex, Option.bind_some]

theorem exists_get? (hx : 0 ≤ x ∧ x < f.width) (hy : 0 ≤ y ∧ y < f.height) : ∃ old, f.get? x y = some old := by
  have hindex : f.index? x y = some (y.toNat * f.width + x.toNat) :=
    index?_eq_some_iff.mpr ⟨⟨hx.1, hx.2, hy⟩, rfl⟩
  rw [get?, hindex, Option.bind_some]
  exact ⟨_, Array.getElem?_eq_getElem (index?_lt hindex)⟩

namespace Paints

-- There is one way to paint an area, and only its points in the frame matter.
theorem unique (hg : f.Paints area colour g) (hh : f.Paints area' colour h)
    (ha : ∀ x y : Int, 0 ≤ x ∧ x < f.width ∧ 0 ≤ y ∧ y < f.height → (area x y ↔ area' x y)) : g = h := by
  classical
  have hwidth : g.width = h.width := hg.width.trans hh.width.symm
  have hheight : g.height = h.height := hg.height.trans hh.height.symm
  have hget (x y : Int) : g.get? x y = h.get? x y :=
    (hg.get?_eq (ha x y)).trans (hh.get?_eq fun _ => Iff.rfl).symm
  have hpixels : g.pixels = h.pixels := by
    have hsize : g.pixels.size = h.pixels.size := by rw [g.size_pixels, h.size_pixels, hwidth, hheight]
    refine Array.ext_getElem? fun i => ?_
    by_cases hi : i < g.pixels.size
    case pos => rw [← get?_of_pixel hi, hget, hwidth, get?_of_pixel (hsize ▸ hi)]
    case neg => rw [Array.getElem?_eq_none (by omega), Array.getElem?_eq_none (by omega)]
  cases g
  cases h
  simp_all

-- A loop paints all that its rounds paint.
theorem foldl {α : Type} {area : α → Int → Int → Prop} {paint : Frame → α → Frame}
    (hpaint : ∀ (f : Frame) a, f.Paints (area a) colour (paint f a)) (items : List α) (f : Frame) :
    f.Paints (fun x y => ∃ a ∈ items, area a x y) colour (items.foldl paint f) := by
  induction items generalizing f
  case nil             => exact refl.congr fun x y => by simp
  case cons a items hi => exact ((hpaint f a).trans (hi _)).congr fun x y => by simp

end Paints

theorem fillRect_paints (f : Frame) (left right top bottom : Int) (colour : Colour) :
    f.Paints (fun x y => (left ≤ x ∧ x < right ∧ 0 ≤ x ∧ x < f.width) ∧
      (top ≤ y ∧ y < bottom ∧ 0 ≤ y ∧ y < f.height)) colour (f.fillRect left right top bottom colour) := by
  let columns := clip left right f.width
  have hrow (g : Frame) (row : Nat) := Paints.foldl
    (fun g (column : Nat) => Paints.set g column row colour) columns g
  refine (Paints.foldl hrow (clip top bottom f.height) f).congr fun x y => ⟨?_, ?_⟩
  · rintro ⟨row, hrow, column, hcolumn, rfl, rfl⟩
    have hrow := mem_clip.mp hrow
    have hcolumn := mem_clip.mp hcolumn
    omega
  · rintro ⟨hx, hy⟩
    refine ⟨y.toNat, mem_clip.mpr (by omega), x.toNat, mem_clip.mpr (by omega), ?_⟩
    omega

end Frame

namespace Device

variable {d : Device} {x y w h c a b : Int64}

theorem toInt_stretchEnd (start length : Int64) :
    (stretchEnd start length).toInt = min (start.toInt + max length.toInt 0) (2 ^ 63 - 1) := by
  have hlength : (max length 0).toInt = max length.toInt 0 := by
    by_cases hle : length ≤ 0
    case pos =>
      have hmax : max length 0 = 0 := if_pos hle
      have hle : length.toInt ≤ 0 := Int64.le_iff_toInt_le.mp hle
      rw [hmax, Int64.toInt_zero]
      omega
    case neg =>
      have hmax : max length 0 = length := if_neg hle
      have hlt : ¬ length.toInt ≤ 0 := fun h => hle (Int64.le_iff_toInt_le.mpr h)
      rw [hmax]
      omega
  have hleast : Int64.minValue.toInt = -2 ^ 63 := by decide
  have hgreatest : Int64.maxValue.toInt = 2 ^ 63 - 1 := by decide
  have hlow := start.le_toInt
  have hhigh := start.toInt_lt
  rw [stretchEnd, saturatingAdd, hlength, hleast, hgreatest, Int64.toInt_ofInt_of_le (by omega) (by omega)]
  omega

-- The words from one on and before another.
def words (first last : Int64) : List Int64 :=
  (List.range (last.toInt - first.toInt).toNat).map fun n : Nat => Int64.ofInt (first.toInt + n)

theorem mem_words : c ∈ words a b ↔ a.toInt ≤ c.toInt ∧ c.toInt < b.toInt := by
  have hlow := a.le_toInt
  have hhigh := b.toInt_lt
  simp only [words, List.mem_map, List.mem_range]
  constructor
  case mp =>
    rintro ⟨n, hn, rfl⟩
    rw [Int64.toInt_ofInt_of_le (by omega) (by omega)]
    omega
  case mpr =>
    intro hc
    have hword : a.toInt + (c.toInt - a.toInt).toNat = c.toInt := by omega
    exact ⟨(c.toInt - a.toInt).toNat, by omega, by rw [hword, Int64.ofInt_toInt]⟩

end Device

-- Goes through all the points of some columns and rows, whether they are in the frame or not.
def Frame.sweep (f : Frame) (columns rows : List Int64) (colour : Colour) : Frame :=
  rows.foldl (fun f row => columns.foldl (fun f column => f.set column.toInt row.toInt colour) f) f

theorem Frame.sweep_paints (f : Frame) (columns rows : List Int64) (colour : Colour) :
    f.Paints (fun x y => ∃ row ∈ rows, ∃ column ∈ columns, x = column.toInt ∧ y = row.toInt) colour
      (f.sweep columns rows colour) :=
  Paints.foldl (fun f row => .foldl (fun f column => .set f column.toInt row.toInt colour) columns f) rows f

namespace Device

variable {d : Device} {x y w h c : Int64} {px py : Int}

-- A rectangle that is `w` wide and `h` high, with its first corner at `x` and `y`. One with a negative side
-- has no points.
@[mk_iff]
structure InRect (x y w h : Int64) (px py : Int) : Prop where
  left   : x.toInt ≤ px
  right  : px < x.toInt + max w.toInt 0
  top    : y.toInt ≤ py
  bottom : py < y.toInt + max h.toInt 0

instance : Decidable (InRect x y w h px py) :=
  decidable_of_iff _ (inRect_iff x y w h px py).symm

-- The last word is no column of the frame and no row, so that nothing is lost where a side is cut off.
theorem get?_fillRect (hwidth : d.frame.width < 2 ^ 63) (hheight : d.frame.height < 2 ^ 63) :
    (d.fillRect x y w h c).frame.get? px py =
      (d.frame.get? px py).map fun old => if InRect x y w h px py then colour c else old := by
  refine (d.frame.fillRect_paints _ _ _ _ (colour c)).get?_eq fun hin => ?_
  rw [toInt_stretchEnd, toInt_stretchEnd]
  constructor
  case mp =>
    rintro ⟨hx, hy⟩
    exact ⟨by omega, by omega, by omega, by omega⟩
  case mpr =>
    rintro ⟨hleft, hright, htop, hbottom⟩
    omega

theorem frame_fillRect (d : Device) (x y w h c : Int64) : (d.fillRect x y w h c).frame =
    d.frame.sweep (words x (stretchEnd x w)) (words y (stretchEnd y h)) (colour c) := by
  refine (d.frame.fillRect_paints _ _ _ _ (colour c)).unique (d.frame.sweep_paints _ _ (colour c)) ?_
  intro px py hin
  constructor
  case mp =>
    rintro ⟨hx, hy⟩
    have hright := (stretchEnd x w).toInt_lt
    have hbottom := (stretchEnd y h).toInt_lt
    have hcolumn : (Int64.ofInt px).toInt = px := Int64.toInt_ofInt_of_le (by omega) (by omega)
    have hrow : (Int64.ofInt py).toInt = py := Int64.toInt_ofInt_of_le (by omega) (by omega)
    exact ⟨_, mem_words.mpr (by omega), _, mem_words.mpr (by omega), hcolumn.symm, hrow.symm⟩
  case mpr =>
    rintro ⟨row, hrow, column, hcolumn, rfl, rfl⟩
    have hrow := mem_words.mp hrow
    have hcolumn := mem_words.mp hcolumn
    omega

-- A rectangle is filled, and nothing else changes. No two points share a pixel, and none is outside of the
-- pixels, in whatever frame.
structure Fills (d : Device) (x y w h c : Int64) : Prop where
  pixel    : ∀ px py, (d.fillRect x y w h c).frame.get? px py =
    (d.frame.get? px py).map fun old => if InRect x y w h px py then colour c else old
  shows    : ∀ px py, (∃ old, d.frame.get? px py = some old) ↔
    0 ≤ px ∧ px < d.frame.width ∧ 0 ≤ py ∧ py < d.frame.height
  colours  : (colour c).toNat = (c.toInt % 2 ^ 32).toNat
  others   : ∃ f : Frame, d.fillRect x y w h c = { d with frame := f } ∧
    f.width = d.frame.width ∧ f.height = d.frame.height ∧ f.pixels.size = d.frame.pixels.size
  bounds   : ∀ (f : Frame) px py i, f.index? px py = some i → i < f.pixels.size
  distinct : ∀ (f : Frame) px py px' py' i, f.index? px py = some i → f.index? px' py' = some i →
    px = px' ∧ py = py'
  sweeps   : (d.fillRect x y w h c).frame =
    d.frame.sweep (words x (stretchEnd x w)) (words y (stretchEnd y h)) (colour c)

theorem fillRect_exact (hwidth : d.frame.width < 2 ^ 63) (hheight : d.frame.height < 2 ^ 63) :
    d.Fills x y w h c where
  pixel _ _ := get?_fillRect hwidth hheight
  shows _ _ :=
    ⟨fun ⟨_, hold⟩ => Frame.index?_of_get? hold, fun ⟨hx, hxw, hy⟩ => Frame.exists_get? ⟨hx, hxw⟩ hy⟩
  colours   := toNat_colour c
  others    := by
    have hpaints := d.frame.fillRect_paints x.toInt (stretchEnd x w).toInt y.toInt (stretchEnd y h).toInt (colour c)
    refine ⟨_, rfl, hpaints.width, hpaints.height, ?_⟩
    rw [Frame.size_pixels, Frame.size_pixels, hpaints.width, hpaints.height]
  bounds _ _ _ _       := Frame.index?_lt
  distinct _ _ _ _ _ _ := Frame.index?_inj
  sweeps               := d.frame_fillRect x y w h c

-- From the last columns on, further than words go.
theorem fillRect_exact_overflowing : (fresh 16 8).frame.width < 2 ^ 63 ∧ (fresh 16 8).frame.height < 2 ^ 63 ∧
    (fresh 16 8).Fills 14 (-3) Int64.maxValue 5 (-1) :=
  ⟨by decide, by decide, fillRect_exact (by decide) (by decide)⟩

end Device
end CellLisp
