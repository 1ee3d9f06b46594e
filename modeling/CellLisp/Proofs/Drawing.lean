import CellLisp.Device
import Mathlib.Algebra.Ring.Int.Defs
import Mathlib.Algebra.Ring.Nat
import Mathlib.Order.Defs.LinearOrder

namespace CellLisp

namespace Frame

variable {f g h : Frame} {x y x' y' : Int} {i : Nat} {colour : Colour} {area area' : Int → Int → Prop}

theorem index?_eq_some_iff : f.index? x y = some i ↔
    (0 ≤ x ∧ x < f.width ∧ 0 ≤ y ∧ y < f.height) ∧ y.toNat * f.width + x.toNat = i := by
  unfold index?
  split
  case isTrue hin   => simp [hin]
  case isFalse hout => simp [hout]

theorem index?_lt (h : f.index? x y = some i) : i < f.pixels.size := by
  obtain ⟨⟨hx, hxw, hy, hyh⟩, rfl⟩ := index?_eq_some_iff.mp h
  have hrow : (y.toNat + 1) * f.width ≤ f.height * f.width := Nat.mul_le_mul_right _ (by omega)
  rw [f.size_pixels, Nat.mul_comm f.width]
  rw [Nat.succ_mul] at hrow
  omega

theorem index?_of_get? (h : f.get? x y = some colour) :
    0 ≤ x ∧ x < f.width ∧ 0 ≤ y ∧ y < f.height := by
  obtain ⟨i, hi, _⟩ := Option.bind_eq_some_iff.mp h
  exact (index?_eq_some_iff.mp hi).1

-- No two points have the same place.
theorem index?_inj (h : f.index? x y = some i) (h' : f.index? x' y' = some i) : x = x' ∧ y = y' := by
  obtain ⟨⟨hx, hxw, hy, hyh⟩, rfl⟩ := index?_eq_some_iff.mp h
  obtain ⟨⟨hx', hxw', hy', hyh'⟩, heq⟩ := index?_eq_some_iff.mp h'
  have hxs : x.toNat < f.width := by omega
  have hxs' : x'.toNat < f.width := by omega
  have hcolumn : x'.toNat = x.toNat := by
    have hmod := congrArg (· % f.width) heq
    simpa only [Nat.mul_add_mod_of_lt hxs, Nat.mul_add_mod_of_lt hxs'] using hmod
  have hrow : y'.toNat = y.toNat := by
    have hwidth : 0 < f.width := by omega
    rw [hcolumn] at heq
    exact Nat.eq_of_mul_eq_mul_right hwidth (Nat.add_right_cancel heq)
  omega

theorem get?_set : (f.set x y colour).get? x' y' =
    if x' = x ∧ y' = y then (f.get? x' y').map fun _ => colour else f.get? x' y' := by
  unfold set
  split
  case h_1 hout =>
    split
    case isFalse => rfl
    case isTrue heq =>
      obtain ⟨rfl, rfl⟩ := heq
      simp [get?, hout]
  case h_2 i hi =>
    have hlt := index?_lt hi
    simp only [get?]
    change ((f.index? x' y').bind fun j => (f.pixels.setIfInBounds i colour)[j]?) = _
    split
    case isTrue heq =>
      obtain ⟨rfl, rfl⟩ := heq
      simp [hi, hlt]
    case isFalse hne =>
      cases hj : f.index? x' y'
      case none   => rfl
      case some j =>
        have hij : i ≠ j := by
          rintro rfl
          exact hne (index?_inj hj hi)
        simp [Array.getElem?_setIfInBounds, hij]

-- A frame comes from another one by painting an area.
structure Paints (f : Frame) (area : Int → Int → Prop) (colour : Colour) (g : Frame) : Prop where
  width   : g.width = f.width
  height  : g.height = f.height
  inside  : ∀ x y, area x y → g.get? x y = (f.get? x y).map fun _ => colour
  outside : ∀ x y, ¬ area x y → g.get? x y = f.get? x y

namespace Paints

theorem refl : f.Paints (fun _ _ => False) colour f :=
  ⟨rfl, rfl, fun _ _ => False.elim, fun _ _ _ => rfl⟩

theorem congr (h : f.Paints area colour g) (ha : ∀ x y, area x y ↔ area' x y) :
    f.Paints area' colour g where
  width            := h.width
  height           := h.height
  inside x y harea := h.inside x y ((ha x y).mpr harea)
  outside x y hnot := h.outside x y (hnot ∘ (ha x y).mp)

theorem trans (hf : f.Paints area colour g) (hg : g.Paints area' colour h) :
    f.Paints (fun x y => area x y ∨ area' x y) colour h where
  width  := hg.width.trans hf.width
  height := hg.height.trans hf.height
  inside x y ha := by
    by_cases ha' : area' x y
    case neg => exact (hg.outside x y ha').trans (hf.inside x y (ha.resolve_right ha'))
    case pos =>
      rw [hg.inside x y ha']
      by_cases ha : area x y
      case pos => simp [hf.inside x y ha, Function.comp_def]
      case neg => rw [hf.outside x y ha]
  outside x y ha := by
    have ⟨ha, ha'⟩ := not_or.mp ha
    exact (hg.outside x y ha').trans (hf.outside x y ha)

theorem set (f : Frame) (x y : Int) (colour : Colour) :
    f.Paints (fun x' y' => x' = x ∧ y' = y) colour (f.set x y colour) where
  width         := by unfold Frame.set; split <;> rfl
  height        := by unfold Frame.set; split <;> rfl
  inside _ _ h  := by rw [get?_set, if_pos h]
  outside _ _ h := by rw [get?_set, if_neg h]

-- Only the points of the frame matter for the area.
theorem get?_eq {p : Prop} [Decidable p] (h : f.Paints area colour g)
    (hp : 0 ≤ x ∧ x < f.width ∧ 0 ≤ y ∧ y < f.height → (area x y ↔ p)) :
    g.get? x y = (f.get? x y).map fun old => if p then colour else old := by
  by_cases harea : area x y
  case pos =>
    rw [h.inside x y harea]
    refine Option.map_congr fun old hold => ?_
    exact (if_pos ((hp (index?_of_get? hold)).mp harea)).symm
  case neg =>
    rw [h.outside x y harea]
    refine Option.map_id'.symm.trans (Option.map_congr fun old hold => ?_)
    exact (if_neg (mt (hp (index?_of_get? hold)).mpr harea)).symm

end Paints
end Frame

namespace Stencil

open CellLisp.Frame (Paints)

variable {s : Stencil} {f : Frame} {row row' column column' : Nat} {px py : Int}

-- The point that a pixel of the bitmap is drawn at. Words wrap around.
structure At (s : Stencil) (row column : Nat) (px py : Int) : Prop where
  x : px = (s.x + Int64.ofNat column).toInt
  y : py = (s.y + Int64.ofNat row).toInt

end Stencil

namespace Stencil

variable {s : Stencil} {px py : Int}

end Stencil

namespace Device

variable {d : Device} {bitmap : Bytes} {x y w h c c' : Int64} {inverse : Bool} {px py : Int}

theorem toNat_colour (c : Int64) : (colour c).toNat = (c.toInt % 2 ^ 32).toNat := by
  have hword : c.toInt = (c.toUInt64.toNat : Int).bmod (2 ^ 64) := c.toBitVec.toInt_eq_toNat_bmod
  rw [colour, UInt64.toNat_toUInt32, hword, Int.bmod_def]
  split <;> omega

end Device
end CellLisp
