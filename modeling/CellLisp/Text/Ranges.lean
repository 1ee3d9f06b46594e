namespace CellLisp.Text

abbrev Ranges := List (Nat × Nat)

def Ranges.has (ranges : Ranges) (c : Char) : Bool :=
  ranges.any fun (lowest, highest) => lowest ≤ c.toNat && c.toNat ≤ highest

end CellLisp.Text
