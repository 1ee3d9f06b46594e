namespace CellLisp

abbrev Bytes := Array UInt8

namespace Text

def utf8 (s : String) : Bytes :=
  s.toUTF8.data

def byteLE (s t : String) : Bool :=
  decide ((utf8 s).toList ≤ (utf8 t).toList)

namespace Utf8

-- A character of which some bytes were read: the bounds of its next byte, how many bytes come after
-- that one, and the bits read so far.
structure Begun where
  lowest : UInt8
  highest : UInt8
  following : Nat
  bits : Nat
deriving DecidableEq

def replacement : Char := Char.ofNat 0xfffd

-- What a byte does that does not continue a character: the characters it completes, what it begins.
def lead (b : UInt8) : List Char × Option Begun :=
  if b < 0x80 then ([Char.ofNat b.toNat], none)
  else if b < 0xc2 then ([replacement], none)
  else if b < 0xe0 then ([], some ⟨0x80, 0xbf, 0, b.toNat % 0x20⟩)
  else if b < 0xf0 then
    let lowest := if b = 0xe0 then 0xa0 else 0x80
    let highest := if b = 0xed then 0x9f else 0xbf
    ([], some ⟨lowest, highest, 1, b.toNat % 0x10⟩)
  else if b < 0xf5 then
    let lowest := if b = 0xf0 then 0x90 else 0x80
    let highest := if b = 0xf4 then 0x8f else 0xbf
    ([], some ⟨lowest, highest, 2, b.toNat % 0x08⟩)
  else ([replacement], none)

def step : Option Begun → UInt8 → List Char × Option Begun
  | none, b => lead b
  | some p, b =>
    if p.lowest ≤ b ∧ b ≤ p.highest then
      let bits := p.bits * 0x40 + b.toNat % 0x40
      match p.following with
      | 0 => ([Char.ofNat bits], none)
      | n + 1 => ([], some ⟨0x80, 0xbf, n, bits⟩)
    else
      let (cs, begun) := lead b
      (replacement :: cs, begun)

def decode : Option Begun → List UInt8 → List Char
  | none, [] => []
  | some _, [] => [replacement]
  | begun, b :: bs =>
    let (cs, begun) := step begun b
    cs ++ decode begun bs

end Utf8

-- The text that bytes stand for, with U+FFFD for what is not UTF-8.
def ofBytes (bs : List UInt8) : String :=
  String.ofList (Utf8.decode none bs)

end Text
end CellLisp
