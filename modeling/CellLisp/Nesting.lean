import CellLisp.Cell

namespace CellLisp

-- An open literal: the name it is being defined as, if any, and its cell.
structure OpenFunction where
  name : Option String
  lambda : Ref
deriving DecidableEq

structure Nesting where
  stack : List OpenFunction
deriving DecidableEq

namespace Nesting

def limit : Nat := 49

def empty : Nesting := ⟨[]⟩

def depth (n : Nesting) : Nat :=
  n.stack.length

def push? (n : Nesting) (f : OpenFunction) : Option Nesting :=
  if n.depth < limit then some ⟨f :: n.stack⟩ else none

def pop (n : Nesting) : Nesting :=
  ⟨n.stack.tail⟩

def top? (n : Nesting) : Option OpenFunction :=
  n.stack.head?

def find? (n : Nesting) (name : String) : Option OpenFunction :=
  n.stack.find? (·.name == some name)

def contains (n : Nesting) (lambda : Ref) : Bool :=
  n.stack.any (·.lambda == lambda)

@[simp]
theorem depth_empty : empty.depth = 0 :=
  rfl

theorem pop_of_push? {n m : Nesting} {f : OpenFunction} (h : n.push? f = some m) : m.pop = n := by
  simp only [push?] at h
  split at h <;> cases h
  rfl

end Nesting
end CellLisp
