import CellLisp.Text.Utf8

namespace CellLisp

inductive StorageError
  | notFound
  | notADirectory
  | isADirectory
  | invalidInput
  | invalidFilename
  | outsideRoot (path : String)
deriving DecidableEq

abbrev Location := List String

inductive Node
  | directory
  | file (content : Bytes)
deriving DecidableEq

inductive Step
  -- To the top, for a slash in front.
  | top
  -- To where one is, for a dot.
  | stay
  -- To the directory above, for two dots.
  | up
  | name (s : String)
deriving DecidableEq

-- Where a step leads from a directory, if it can be taken. The top is above itself.
def Location.go (l : Location) : Step → Location
  | .top => []
  | .stay => l
  | .up => l.dropLast
  | .name s => l ++ [s]

namespace Path

def split (cs : List Char) : List (List Char) :=
  cs.foldr push [[]]
where
  push (c : Char) : List (List Char) → List (List Char)
    | s :: ss => if c = '/' then [] :: s :: ss else (c :: s) :: ss
    | [] => [[c]]

def segments (path : String) : List String :=
  (split path.toList).map String.ofList

-- The step of a segment; the empty one is none.
def step? (segment : String) : Option Step :=
  if segment = "" then none
  else if segment = "." then some .stay
  else if segment = ".." then some .up
  else some (.name segment)

def steps (path : String) : List Step :=
  match segments path with
  | "" :: second :: rest => .top :: (second :: rest).filterMap step?
  | segments => segments.filterMap step?

-- A path that is empty, or has a step to the top or to the directory above, is outside of a root.
def isInside (path : String) : Bool :=
  path != "" && (steps path).all fun s => s != .top && s != .up

def endsInSlash (path : String) : Bool :=
  path.toList.getLast? == some '/'

def join (root path : String) : String :=
  if root = "" ∨ endsInSlash root then root ++ path else root ++ "/" ++ path

def maxName : Nat := 255

def maxLength : Nat := 4095

end Path

-- At most one node stands at a location.
structure Disk where
  home : Location
  nodes : List (Location × Node)
  nodup_locations : (nodes.map Prod.fst).Nodup

namespace Disk

-- A disk with a working directory right below the top, of a name that no path spells.
def empty : Disk := ⟨[""], [], List.nodup_nil⟩

-- The working directory and those above it are always there.
def node? (d : Disk) (l : Location) : Option Node :=
  if l.isPrefixOf d.home then some .directory else d.nodes.lookup l

def file? (d : Disk) (l : Location) : Option Bytes :=
  match d.node? l with
  | some (.file content) => some content
  | _ => none

def setNode (d : Disk) (l : Location) (n : Node) : Disk where
  home := d.home
  nodes := (l, n) :: d.nodes.filter (·.1 != l)
  nodup_locations := by
    simp only [List.map_cons, List.nodup_cons]
    constructor
    case left  => simp [List.mem_map, List.mem_filter]
    case right => exact d.nodup_locations.sublist (List.filter_sublist.map _)

theorem node?_setNode (d : Disk) {l : Location} (n : Node) (hl : l.isPrefixOf d.home = false) :
    (d.setNode l n).node? l = some n := by
  simp [node?, setNode, hl]

theorem node?_setNode_of_ne (d : Disk) {l m : Location} (n : Node) (h : m ≠ l) :
    (d.setNode l n).node? m = d.node? m := by
  have rest (ns : List (Location × Node)) : (ns.filter (·.1 != l)).lookup m = ns.lookup m := by
    induction ns
    case nil => rfl
    case cons entry ns hi =>
      obtain ⟨k, _⟩ := entry
      by_cases hk : k = l
      case pos => simp [hk, List.lookup_cons, beq_false_of_ne h, hi]
      case neg => simp [List.lookup_cons, hk, hi]
  simp only [node?, setNode, List.lookup_cons, beq_false_of_ne h, rest]

def child (d : Disk) (l : Location) (name : String) : Except StorageError (Option Node) :=
  if (Text.utf8 name).size > Path.maxName then .error .invalidFilename
  else .ok (d.node? (l ++ [name]))

-- Whether a step can be taken from a directory so that one is in a directory again.
def check (d : Disk) (l : Location) : Step → Except StorageError Unit
  | .top | .stay | .up => .ok ()
  | .name s => do
    match ← d.child l s with
    | none => .error .notFound
    | some (.file _) => .error .notADirectory
    | some .directory => .ok ()

def enter (d : Disk) (l : Location) : List Step → Except StorageError Location
  | [] => .ok l
  | s :: steps =>
    match d.check l s with
    | .error e => .error e
    | .ok () => d.enter (l.go s) steps

def steps (path : String) : Except StorageError (List Step) :=
  if path.toList.contains '\x00' then .error .invalidInput
  else if (Text.utf8 path).size > Path.maxLength then .error .invalidFilename
  else if path = "" then .error .notFound
  else .ok (Path.steps path)

-- Goes to the directory in which the last name of a path stands, if the path ends in a name.
def locate (d : Disk) (path : String) : Except StorageError (Option (Location × String)) := do
  let steps ← steps path
  match steps.getLast? with
  | some (.name last) => return some (← d.enter d.home steps.dropLast, last)
  | _ =>
    let _ ← d.enter d.home steps
    return none

-- A slash at its end asks for a directory.
def load (d : Disk) (path : String) : Except StorageError Bytes := do
  match ← d.locate path with
  | none => .error .isADirectory
  | some (l, name) =>
    match ← d.child l name with
    | none => .error .notFound
    | some .directory => .error .isADirectory
    | some (.file content) =>
      if Path.endsInSlash path then .error .notADirectory else .ok content

def save (d : Disk) (path : String) (content : Bytes) : Except StorageError Disk := do
  match ← d.locate path with
  | none => .error .isADirectory
  | some (l, name) =>
    if Path.endsInSlash path then .error .isADirectory
    else
      match ← d.child l name with
      | some .directory => .error .isADirectory
      | _ => .ok (d.setNode (l ++ [name]) (.file content))

def filesIn (d : Disk) (l : Location) : List String :=
  (d.nodes.filterMap fileIn).mergeSort Text.byteLE
where
  fileIn : Location × Node → Option String
    | (m, .file _) =>
      match m.getLast? with
      | some name => if m = l ++ [name] then some name else none
      | none => none
    | (_, .directory) => none

def list (d : Disk) (path : String) : Except StorageError (List String) := do
  let l ← d.enter d.home (← steps path)
  return d.filesIn l

def location (d : Disk) (path : String) : Location :=
  (Path.steps path).foldl Location.go d.home

-- Makes a directory, with those on the way to it, where nothing is yet.
def makeDirectory (d : Disk) (l : Location) : Disk :=
  (List.range l.length).foldl (fun d n => addDirectory d (l.take (n + 1))) d
where
  addDirectory (d : Disk) (l : Location) : Disk :=
    if (d.node? l).isSome then d else d.setNode l .directory

def putFile (d : Disk) (l : Location) (content : Bytes) : Disk :=
  (d.makeDirectory l.dropLast).setNode l (.file content)

def files (d : Disk) : List (Location × Bytes) :=
  d.nodes.filterMap fun (l, n) =>
    match n with
    | .file content => some (l, content)
    | .directory => none

def ownFiles (d : Disk) : List (String × Bytes) :=
  d.files.filterMap fun (l, content) =>
    if d.home.isPrefixOf l then some ("/".intercalate (l.drop d.home.length), content) else none

end Disk
end CellLisp
