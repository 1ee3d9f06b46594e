import CellLisp.Text.Utf8

namespace CellLisp

namespace Text

namespace Utf8

variable {n m bits : Nat} {lowest highest : UInt8} {bs : List UInt8}

-- The bytes after the first one carry six bits each.
theorem isContinuation (h : m < 0x40) (hlow : lowest.toNat ≤ m + 0x80) (hhigh : m + 0x80 ≤ highest.toNat) :
    (lowest ≤ UInt8.ofNat (m + 0x80) ∧ UInt8.ofNat (m + 0x80) ≤ highest) ∧
      (UInt8.ofNat (m + 0x80)).toNat % 0x40 = m := by
  have hbyte : (UInt8.ofNat (m + 0x80)).toNat = m + 0x80 := by
    rw [UInt8.toNat_ofNat']
    exact Nat.mod_eq_of_lt (by omega)
  rw [UInt8.le_iff_toNat_le, UInt8.le_iff_toNat_le, hbyte]
  omega

theorem decode_next (following : Nat) (h : m < 0x40) (hlow : lowest.toNat ≤ m + 0x80)
    (hhigh : m + 0x80 ≤ highest.toNat) :
    decode (some ⟨lowest, highest, following + 1, bits⟩) (UInt8.ofNat (m + 0x80) :: bs) =
      decode (some ⟨0x80, 0xbf, following, bits * 0x40 + m⟩) bs := by
  obtain ⟨hin, hbits⟩ := isContinuation h hlow hhigh
  simp only [decode, step]
  rw [if_pos hin, hbits]
  rfl

theorem decode_last (h : m < 0x40) (hlow : lowest.toNat ≤ m + 0x80) (hhigh : m + 0x80 ≤ highest.toNat) :
    decode (some ⟨lowest, highest, 0, bits⟩) (UInt8.ofNat (m + 0x80) :: bs) =
      Char.ofNat (bits * 0x40 + m) :: decode none bs := by
  obtain ⟨hin, hbits⟩ := isContinuation h hlow hhigh
  simp only [decode, step]
  rw [if_pos hin, hbits]
  rfl

theorem decode_lead {b : UInt8} {begun : Begun} (h : lead b = ([], some begun)) :
    decode none (b :: bs) = decode (some begun) bs := by
  simp only [decode, step, h]
  rfl

theorem lead_of_one (h : n < 0x80) : lead (UInt8.ofNat n) = ([Char.ofNat n], none) := by
  have leads : ∀ n < 0x80, lead (UInt8.ofNat n) = ([Char.ofNat n], none) := by decide
  exact leads n h

theorem lead_of_two (h : 2 ≤ n) (h' : n < 0x20) :
    lead (UInt8.ofNat (n + 0xc0)) = ([], some ⟨0x80, 0xbf, 0, n⟩) := by
  have leads : ∀ n < 0x20, 2 ≤ n → lead (UInt8.ofNat (n + 0xc0)) = ([], some ⟨0x80, 0xbf, 0, n⟩) := by decide
  exact leads n h' h

-- A first byte that leaves too few bits or too many for its length bounds the second one.
theorem lead_of_three (h : n < 0x10) : lead (UInt8.ofNat (n + 0xe0)) =
    ([], some ⟨if n = 0 then 0xa0 else 0x80, if n = 0xd then 0x9f else 0xbf, 1, n⟩) := by
  have leads : ∀ n < 0x10, lead (UInt8.ofNat (n + 0xe0)) =
      ([], some ⟨if n = 0 then 0xa0 else 0x80, if n = 0xd then 0x9f else 0xbf, 1, n⟩) := by decide
  exact leads n h

theorem lead_of_four (h : n < 5) : lead (UInt8.ofNat (n + 0xf0)) =
    ([], some ⟨if n = 0 then 0x90 else 0x80, if n = 4 then 0x8f else 0xbf, 2, n⟩) := by
  have leads : ∀ n < 5, lead (UInt8.ofNat (n + 0xf0)) =
      ([], some ⟨if n = 0 then 0x90 else 0x80, if n = 4 then 0x8f else 0xbf, 2, n⟩) := by decide
  exact leads n h

theorem continuation_bounds (n : Nat) :
    (0x80 : UInt8).toNat ≤ n % 64 + 0x80 ∧ n % 64 + 0x80 ≤ (0xbf : UInt8).toNat := by
  show 0x80 ≤ _ ∧ _ ≤ 0xbf
  omega

theorem decode_two (h : 0x7f < n) (h' : n ≤ 0x7ff) :
    decode none (UInt8.ofNat (n / 64 % 32 + 0xc0) :: UInt8.ofNat (n % 64 + 0x80) :: bs) =
      Char.ofNat n :: decode none bs := by
  have hbits : n / 64 % 32 * 0x40 + n % 64 = n := by omega
  have hlast := continuation_bounds n
  rw [decode_lead (lead_of_two (by omega) (by omega)), decode_last (by omega) hlast.1 hlast.2, hbits]

-- No character is a surrogate, so that the bounds of the second byte hold.
theorem decode_three (h : 0x7ff < n) (h' : n ≤ 0xffff) (hn : n < 0xd800 ∨ 0xdfff < n) :
    decode none (UInt8.ofNat (n / 4096 % 16 + 0xe0) :: UInt8.ofNat (n / 64 % 64 + 0x80) ::
      UInt8.ofNat (n % 64 + 0x80) :: bs) = Char.ofNat n :: decode none bs := by
  have hsecond := continuation_bounds (n / 64)
  have hlast := continuation_bounds n
  have hlow : (if n / 4096 % 16 = 0 then 0xa0 else 0x80 : UInt8).toNat ≤ n / 64 % 64 + 0x80 := by
    split
    case isTrue  => exact show 0xa0 ≤ _ by omega
    case isFalse => exact hsecond.1
  have hhigh : n / 64 % 64 + 0x80 ≤ (if n / 4096 % 16 = 0xd then 0x9f else 0xbf : UInt8).toNat := by
    split
    case isTrue  => exact show _ ≤ 0x9f by omega
    case isFalse => exact hsecond.2
  have hbits : (n / 4096 % 16 * 0x40 + n / 64 % 64) * 0x40 + n % 64 = n := by omega
  rw [decode_lead (lead_of_three (by omega)), decode_next 0 (by omega) hlow hhigh,
    decode_last (by omega) hlast.1 hlast.2, hbits]

theorem decode_four (h : 0xffff < n) (h' : n < 0x110000) :
    decode none (UInt8.ofNat (n / 262144 % 8 + 0xf0) :: UInt8.ofNat (n / 4096 % 64 + 0x80) ::
      UInt8.ofNat (n / 64 % 64 + 0x80) :: UInt8.ofNat (n % 64 + 0x80) :: bs) = Char.ofNat n :: decode none bs := by
  have hsecond := continuation_bounds (n / 4096)
  have hthird := continuation_bounds (n / 64)
  have hlast := continuation_bounds n
  have hlow : (if n / 262144 % 8 = 0 then 0x90 else 0x80 : UInt8).toNat ≤ n / 4096 % 64 + 0x80 := by
    split
    case isTrue  => exact show 0x90 ≤ _ by omega
    case isFalse => exact hsecond.1
  have hhigh : n / 4096 % 64 + 0x80 ≤ (if n / 262144 % 8 = 4 then 0x8f else 0xbf : UInt8).toNat := by
    split
    case isTrue  => exact show _ ≤ 0x8f by omega
    case isFalse => exact hsecond.2
  have hbits : ((n / 262144 % 8 * 0x40 + n / 4096 % 64) * 0x40 + n / 64 % 64) * 0x40 + n % 64 = n := by omega
  rw [decode_lead (lead_of_four (by omega)), decode_next 1 (by omega) hlow hhigh,
    decode_next 0 (by omega) hthird.1 hthird.2, decode_last (by omega) hlast.1 hlast.2, hbits]

-- The cases are those of the encoding.
theorem decode_encodeChar (c : Char) (bs : List UInt8) :
    decode none (String.utf8EncodeChar c ++ bs) = c :: decode none bs := by
  have hvalid : c.toNat < 0xd800 ∨ (0xdfff < c.toNat ∧ c.toNat < 0x110000) := c.valid
  have hchar : Char.ofNat c.toNat = c := Char.ofNat_toNat c
  have hcode : c.val.toNat = c.toNat := rfl
  unfold String.utf8EncodeChar
  simp only [hcode]
  generalize c.toNat = n at hvalid hchar
  rw [← hchar]
  split
  case isTrue h =>
    simp only [List.cons_append, List.nil_append, decode, step]
    rw [lead_of_one (by omega)]
    rfl
  case isFalse h =>
    split
    case isTrue h'  => exact decode_two (Nat.not_le.mp h) h'
    case isFalse h' =>
      split
      case isTrue h''  => exact decode_three (Nat.not_le.mp h') h'' (by omega)
      case isFalse h'' => exact decode_four (Nat.not_le.mp h'') (by omega)

theorem decode_flatMap (cs : List Char) : decode none (cs.flatMap String.utf8EncodeChar) = cs := by
  induction cs
  case nil          => rfl
  case cons c cs hi => rw [List.flatMap_cons, decode_encodeChar, hi]

end Utf8

theorem toList_utf8 (s : String) : (utf8 s).toList = s.toList.flatMap String.utf8EncodeChar := by
  obtain ⟨cs, rfl⟩ : ∃ cs, s = String.ofList cs := ⟨s.toList, String.ofList_toList.symm⟩
  simp [utf8, String.toUTF8, List.utf8Encode]

-- A text is read back from its bytes.
theorem ofBytes_utf8 (s : String) : ofBytes (utf8 s).toList = s := by
  rw [ofBytes, toList_utf8, Utf8.decode_flatMap, String.ofList_toList]

theorem byteLE_trans (s t u : String) (h : byteLE s t) (h' : byteLE t u) : byteLE s u :=
  decide_eq_true (List.le_trans (of_decide_eq_true h) (of_decide_eq_true h'))

theorem byteLE_total (s t : String) : byteLE s t || byteLE t s := by
  simpa [byteLE] using List.le_total (utf8 s).toList (utf8 t).toList

theorem utf8_injective {s t : String} (h : (utf8 s).toList = (utf8 t).toList) : s = t := by
  rw [← ofBytes_utf8 s, h, ofBytes_utf8]

theorem lt_of_byteLE_of_ne {s t : String} (h : byteLE s t) (hne : s ≠ t) :
    (utf8 s).toList < (utf8 t).toList := by
  apply Decidable.byContradiction
  intro hlt
  exact hne (utf8_injective (List.le_antisymm (of_decide_eq_true h) hlt))

theorem pairwise_mergeSort (texts : List String) : (texts.mergeSort byteLE).Pairwise (byteLE · ·) :=
  List.pairwise_mergeSort byteLE_trans byteLE_total texts

end Text
end CellLisp
