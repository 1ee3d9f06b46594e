import CellLisp.Console

namespace CellLisp.Console

-- Enough for every run that ends.
def unlimited : Nat := 1000000000000000000

partial def addEntry (l : Location) (d : Disk) (entry : IO.FS.DirEntry) : IO Disk := do
  let l := l ++ [entry.fileName]
  if ← entry.path.isDir then
    (← entry.path.readDir).foldlM (addEntry l) (d.makeDirectory l)
  else
    return d.putFile l (← IO.FS.readBinFile entry.path).data

def readDisk (options : Options) : IO Disk := do
  let current ← IO.currentDir
  let mut disk := { Disk.empty with home := Disk.empty.location current.toString }
  let storage := options.storage.getD "."
  let l := disk.location storage
  try
    let entries ← (current / storage).readDir
    disk ← entries.foldlM (addEntry l) (disk.makeDirectory l)
  catch _ => pure ()
  if let some file := options.file then
    try
      disk := disk.putFile (disk.location file) (← IO.FS.readBinFile file).data
    catch _ => pure ()
  return disk

def writeDisk (before after : Disk) : IO Unit := do
  for (l, content) in after.files do
    if before.file? l != some content then
      IO.FS.writeBinFile ("/" ++ "/".intercalate l) ⟨content⟩

def flush (st : State) : IO State := do
  IO.print st.session.output
  IO.eprint st.stderr
  (← IO.getStdout).flush
  return ⟨{ st.session with output := "" }, ""⟩

partial def converse (d : Dialogue) : IO Disk := do
  if d.ended then return d.state.session.device.disk
  let stdin ← IO.getStdin
  if ← stdin.isTty then
    IO.print (if d.chunk.isEmpty then "> " else ". ")
    (← IO.getStdout).flush
  let line ← stdin.getLine
  if line.isEmpty then return d.state.session.device.disk
  let d := (typedLines line).foldl (Dialogue.feed unlimited) d
  converse { d with state := ← flush d.state }

end CellLisp.Console

open CellLisp Console in
def main (args : List String) : IO UInt32 := do
  match ({} : Options).parse args with
  | .error e =>
    IO.eprint (e.message ((← IO.appPath).fileName.getD ""))
    return 2
  | .ok options =>
    let disk ← readDisk options
    if options.file.isNone && options.expr.isNone then
      writeDisk disk (← converse { state := start options disk })
      return 0
    let outcome := runWith unlimited options "" disk
    IO.print outcome.stdout
    IO.eprint outcome.stderr
    writeDisk disk outcome.disk
    return UInt32.ofNat outcome.status
