import CellLisp.Compiler
import CellLisp.Device

namespace CellLisp

structure Session extends Compiler where
  device : Device
  output : String
  -- What code prints that runs without the session within its reach.
  stdout : String

namespace Session

def fresh (device : Device) : Session :=
  { toCompiler := .fresh, device, output := "", stdout := "" }

-- How many function literals are open; none between two compilations.
def depth (s : Session) : Nat :=
  s.nesting.depth

def binding (s : Session) (name : String) : Value :=
  s.env.lookup name

def onCompiler {α : Type} (f : Compiler → α × Compiler) : Session → α × Session
  | ⟨c, device, output, stdout⟩ =>
    let (a, c) := f c
    (a, ⟨c, device, output, stdout⟩)

end Session

-- Whether running code can reach the device and the compiler of its session.
inductive Link
  | attached
  | detached
deriving DecidableEq, Repr

-- What running code can do that no meaning is given to: to read or write a word of a cell that is not
-- there, or a byte that is in no buffer; to follow an address that is lost; to call a function that has
-- no code.
inductive Fault
  | strayRead
  | strayWrite
  | strayByte
  | lostAddress
  | missingCode
deriving DecidableEq, Repr

inductive Stop
  | fault (f : Fault)
  | outOfFuel
deriving DecidableEq, Repr

abbrev RunM := EStateM Stop Session

end CellLisp
