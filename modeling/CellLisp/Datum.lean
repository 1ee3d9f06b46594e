import CellLisp.Builtin
import CellLisp.Text.Utf8

namespace CellLisp

inductive Atom
  | int (value : Int64)
  | symbol (name : String)
  | bytes (content : Bytes)
  | builtin (opcode : Int64)
  | error (code : Int64)
  | nil
  | lost
deriving DecidableEq

inductive Datum
  | absent
  | atom (a : Atom)
  | cons (head tail : Datum)
  | lambda (params : Datum)
deriving DecidableEq

namespace Datum

-- A list whose last pair has no tail; without elements it is `nil`.
def list : List Datum → Datum
  | [] => .atom .nil
  | d :: ds => .cons d (chain ds)
where
  chain : List Datum → Datum
    | [] => .absent
    | d :: ds => .cons d (chain ds)

-- Part of the tree is lost, so that it cannot be written.
def lossy : Datum → Bool
  | absent => false
  | atom a => a == .lost
  | cons head tail => head.lossy || tail.lossy
  | lambda params => params.lossy

def quoted (d : Datum) : Datum :=
  list [.atom (.symbol "quote"), d]

end Datum
end CellLisp
