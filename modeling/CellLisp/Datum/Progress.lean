import CellLisp.Datum.Reader

namespace CellLisp

structure Progress where
  mode : Lexer.Mode := .gap
  position : Position := .start
  stack : List Reader.Frame := []

namespace Progress

def take (stack : List Reader.Frame) (ts : List Located) : Except ReadError (List Reader.Frame) :=
  ts.foldlM (fun stack t => (·.2) <$> Reader.step stack t) stack

def step (p : Progress) (c : Char) : Except ReadError Progress := do
  let (mode, ts) ← Lexer.step p.mode p.position c
  return ⟨mode, p.position.next c, ← take p.stack ts⟩

def read (p : Progress) (cs : List Char) : Except ReadError Progress :=
  cs.foldlM step p

def fault (p : Progress) : Option ReadError :=
  let ts := Lexer.finish p.mode
  (Reader.parse ts.fault p.stack ts.items).fault

def needsMore (p : Progress) : Bool :=
  p.fault.any (·.isUnfinished)

theorem read_append (p : Progress) (cs ds : List Char) :
    p.read (cs ++ ds) = p.read cs >>= (·.read ds) :=
  List.foldlM_append

theorem fault_parse_append (fault : Option ReadError) (stack : List Reader.Frame)
    (ts us : List Located) :
    (Reader.parse fault stack (ts ++ us)).fault =
      match take stack ts with
      | .ok stack => (Reader.parse fault stack us).fault
      | .error e  => some e := by
  induction ts generalizing stack
  case nil => rfl
  case cons t ts hi =>
    rw [List.cons_append, Reader.parse, take, List.foldlM_cons]
    cases Reader.step stack t
    case error e   => rfl
    case ok result => exact hi result.2

theorem fault_parse_scan (p : Progress) (cs : List Char) :
    (Reader.parse (Lexer.scan p.mode p.position cs).fault p.stack
        (Lexer.scan p.mode p.position cs).items).fault =
      match p.read cs with
      | .ok p    => p.fault
      | .error e => some e := by
  induction cs generalizing p
  case nil => rfl
  case cons c cs hi =>
    rw [Lexer.scan, read, List.foldlM_cons, step]
    cases Lexer.step p.mode p.position c
    case error e   => rfl
    case ok result =>
      refine (fault_parse_append _ _ _ _).trans ?_
      cases h : take p.stack result.2
      case error e  => simp [h, bind, Except.bind]
      case ok stack => simpa [h, read, bind, Except.bind, pure, Except.pure] using hi ⟨_, _, stack⟩

end Progress
end CellLisp
