import CellLisp.Text.Cluster

namespace CellLisp.Console

-- The lines of a text without their ends. A line ends in a line feed, which a carriage return may go
-- with; after the last end there is no more line.
def lines : List Char → List (List Char)
  | [] => []
  | '\r' :: '\n' :: cs => [] :: lines cs
  | '\n' :: cs => [] :: lines cs
  | c :: cs =>
    match lines cs with
    | [] => [[c]]
    | line :: rest => (c :: line) :: rest

def backspace : Char := '\x08'

def dropBytes : Nat → List Char → List Char
  | 0, cs => cs
  | _, [] => []
  | n, c :: cs => dropBytes (n - c.utf8Size) cs

-- A line while it is typed: its characters, the last one first, and the sizes of its clusters. A size
-- is kept in one byte.
structure Entry where
  typed : List Char := []
  sizes : List UInt8 := []

namespace Entry

def text (e : Entry) : List Char :=
  e.typed.reverse

def takeBack (e : Entry) : Entry :=
  match e.sizes with
  | [] => e
  | size :: sizes => ⟨dropBytes size.toNat e.typed, sizes⟩

def add (e : Entry) (cluster : List Char) : Entry :=
  if cluster = [backspace] then e.takeBack
  else
    let size := cluster.foldl (· + ·.utf8Size) 0
    ⟨cluster.reverse ++ e.typed, UInt8.ofNat size :: e.sizes⟩

end Entry

def edited (line : List Char) : List Char :=
  ((Text.clusters line).foldl Entry.add {}).text

def typedLines (input : String) : List String :=
  (lines input.toList).map fun line => String.ofList (edited line)

end CellLisp.Console
