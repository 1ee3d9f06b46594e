namespace CellLisp

structure Position where
  line : Nat
  column : Nat
deriving DecidableEq, Repr

namespace Position

def start : Position := ⟨1, 1⟩

def next (p : Position) (c : Char) : Position :=
  if c = '\n' then ⟨p.line + 1, 1⟩ else { p with column := p.column + 1 }

def after (p : Position) (cs : List Char) : Position :=
  cs.foldl next p

@[simp]
theorem after_nil (p : Position) : p.after [] = p :=
  rfl

@[simp]
theorem after_cons (p : Position) (c : Char) (cs : List Char) :
    p.after (c :: cs) = (p.next c).after cs :=
  rfl

@[simp]
theorem after_append (p : Position) (cs ds : List Char) :
    p.after (cs ++ ds) = (p.after cs).after ds :=
  List.foldl_append

def text (p : Position) : String :=
  s!"{p.line}:{p.column}"

end Position
end CellLisp
