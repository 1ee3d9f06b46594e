import CellLisp.Heap

namespace CellLisp

inductive Form
  | absent
  | atom (r : Ref) (c : Cell)
  | cons (r : Ref) (head tail : Unit → Form)

namespace Form

def value : Form → Value
  | absent => none
  | atom r _ => some r
  | cons r _ _ => some r

-- The tag of the cell that a form is; nothing is like `nil`.
def tag : Form → Tag
  | absent => .nil
  | atom _ c => c.tag
  | cons _ _ _ => .cons

def symbol? : Form → Option String
  | atom _ c => c.symbol?
  | _ => none

def isAbsent : Form → Bool
  | absent => true
  | _ => false

def head : Form → Form
  | cons _ head _ => head ()
  | _ => absent

def tail : Form → Form
  | cons _ _ tail => tail ()
  | _ => absent

end Form

namespace Heap

def formWithin (h : Heap) : Nat → Value → Form
  | 0, _ => .absent
  | depth + 1, v =>
    match v with
    | none => .absent
    | some r =>
      match h.get? r with
      | none => .absent
      | some (.cons head tail) =>
        .cons r (fun _ => h.formWithin depth head) (fun _ => h.formWithin depth tail)
      | some (.spoilt word (.cons tail)) =>
        .cons r (fun _ => .atom r (.spoilt word (.cons tail))) (fun _ => h.formWithin depth tail)
      | some c => .atom r c

def form (h : Heap) (v : Value) : Form :=
  h.formWithin (depthBound v) v

end Heap
end CellLisp
