import CellLisp.Datum.Progress
import CellLisp.Evaluation
import CellLisp.Console.Line
import CellLisp.Console.Options

namespace CellLisp.Console

structure Outcome where
  status : Nat
  stdout : String
  stderr : String
  disk : Disk

def describe : StorageError → String
  | .notFound => "No such file or directory (os error 2)"
  | .notADirectory => "Not a directory (os error 20)"
  | .isADirectory => "Is a directory (os error 21)"
  | .invalidFilename => "File name too long (os error 36)"
  | .invalidInput => "file name contained an unexpected NUL byte"
  | .outsideRoot path => s!"path `{path}` is outside the storage root"

def report : Failure → String
  | .read e => s!"read error: {e.message}\n"
  | .compile e => s!"compile error: {e.message}\n"
  | .stopped (.fault _) => "the program did something that has no meaning\n"
  | .stopped .outOfFuel => "the program did not come to an end\n"

structure State where
  session : Session
  stderr : String

namespace State

def outcome (st : State) (status : Nat) : Outcome :=
  ⟨status, st.session.output, st.stderr, st.session.device.disk⟩

def eval (st : State) (fuel : Nat) (text : String) (echo : Bool) : Bool × State :=
  match SessionM.evalText fuel text st.session with
  | .ok (some r) s =>
    if echo && s.heap.lossy (some r) then
      (false, ⟨s, st.stderr ++ report (.stopped (.fault .lostAddress))⟩)
    else
      let line := if echo then s.heap.written (some r) ++ "\n" else ""
      (true, { st with session := { s with output := s.output ++ line } })
  | .ok none s => (true, { st with session := s })
  | .error e s => (false, ⟨s, st.stderr ++ report e⟩)

end State

def isExit (chunk : String) : Bool :=
  let command := String.ofList (Text.trim chunk.toList)
  command == "exit" || command == "(exit)"

-- A dialogue in which lines are typed. `chunk` is what was typed and not evaluated yet, and `progress`
-- is what reading it has come to.
structure Dialogue where
  state : State
  chunk : String := ""
  progress : Progress := {}
  ended : Bool := false

namespace Dialogue

def answer (fuel : Nat) (d : Dialogue) (chunk : String) : Dialogue :=
  if isExit chunk then { d with ended := true }
  else { state := (d.state.eval fuel chunk true).2 }

-- Takes a line. A chunk is evaluated after the first line that leaves nothing open.
def feed (fuel : Nat) (d : Dialogue) (line : String) : Dialogue :=
  if d.ended then d
  else
    let line := line ++ "\n"
    let chunk := d.chunk ++ line
    match d.progress.read line.toList with
    | .ok progress => if progress.needsMore then { d with chunk, progress } else d.answer fuel chunk
    | .error _ => d.answer fuel chunk

end Dialogue

def runFile (st : State) (fuel : Nat) (path : String) : Bool × State :=
  match st.session.device.disk.load path with
  | .ok content => st.eval fuel (Text.ofBytes content.toList) false
  | .error e => (false, { st with stderr := st.stderr ++ s!"{path}: {describe e}\n" })

-- Does one thing after another, up to the first failure.
def runAll (st : State) : List (State → Bool × State) → Outcome
  | [] => st.outcome 0
  | act :: acts =>
    match act st with
    | (true, st) => runAll st acts
    | (false, st) => st.outcome 1

def start (options : Options) (disk : Disk) : State :=
  ⟨.fresh { Device.fresh 320 240 with disk, root := options.storage.getD "." }, ""⟩

def runWith (fuel : Nat) (options : Options) (stdin : String) (disk : Disk) : Outcome :=
  let st := start options disk
  match options.file, options.expr with
  | none, none =>
    let dialogue := (typedLines stdin).foldl (Dialogue.feed fuel) { state := st }
    dialogue.state.outcome 0
  | file, expr =>
    let file := file.map fun path (st : State) => runFile st fuel path
    let expr := expr.map fun text (st : State) => st.eval fuel text true
    runAll st (file.toList ++ expr.toList)

def run (fuel : Nat) (program : String) (args : List String) (stdin : String) (disk : Disk) :
    Outcome :=
  match ({} : Options).parse args with
  | .ok options => runWith fuel options stdin disk
  | .error e => ⟨2, "", e.message program, disk⟩

end CellLisp.Console
