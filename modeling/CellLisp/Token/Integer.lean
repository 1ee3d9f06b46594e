namespace CellLisp.Token.Integer

def hexDigit? (c : Char) : Option Nat :=
  if c.isDigit then some (c.toNat - '0'.toNat)
  else if 'a' ≤ c ∧ c ≤ 'f' then some (c.toNat - 'a'.toNat + 10)
  else if 'A' ≤ c ∧ c ≤ 'F' then some (c.toNat - 'A'.toNat + 10)
  else none

def decimalDigit? (c : Char) : Option Nat :=
  if c.isDigit then some (c.toNat - '0'.toNat) else none

def number? (digit? : Char → Option Nat) (base : Nat) : List Char → Option Nat
  | [] => none
  | cs => cs.foldlM (fun n c => (digit? c).map (n * base + ·)) 0

-- Splits a sign off; the flag tells a minus.
def splitSign : List Char → Bool × List Char
  | '-' :: cs => (true, cs)
  | '+' :: cs => (false, cs)
  | cs => (false, cs)

def dropPlus : List Char → List Char
  | '+' :: cs => cs
  | cs => cs

-- The digits after `0x`, before which one more plus sign may stand.
def pattern? (cs : List Char) : Option Int64 :=
  match number? hexDigit? 16 (dropPlus cs) with
  | some n => if n < 0x10000000000000000 then some (Int64.ofNat n) else none
  | none => none

def decimal? (negative : Bool) (cs : List Char) : Option Int64 :=
  match number? decimalDigit? 10 cs with
  | some n =>
    let value : Int := if negative then -(n : Int) else n
    if -0x8000000000000000 ≤ value ∧ value < 0x8000000000000000 then some (Int64.ofInt value) else none
  | none => none

def parse? (cs : List Char) : Option Int64 :=
  let (negative, digits) := splitSign cs
  match digits with
  | '0' :: 'x' :: hex | '0' :: 'X' :: hex =>
    (pattern? hex).map fun word => if negative then -word else word
  | _ => decimal? negative digits

-- The spellings that have to be integers: a digit comes first, or right after a sign.
def looksNumeric : List Char → Bool
  | [] => false
  | [c] => c.isDigit
  | c :: d :: _ => c.isDigit || ((c == '-' || c == '+') && d.isDigit)

end CellLisp.Token.Integer
