import CellLisp.Execution.Primitive
import CellLisp.Proofs.Outcome

namespace CellLisp

-- Where a segment of a path leads from a directory. An empty one leads nowhere.
def Location.follow (l : Location) (segment : String) : Location :=
  (Path.step? segment).elim l l.go

namespace Path

-- The names that a path spells, without the segments that lead nowhere.
def names (path : String) : List String :=
  (segments path).filter fun s => s ≠ "" ∧ s ≠ "."

theorem split_eq_splitOn (cs : List Char) : split cs = cs.splitOn '/' := by
  induction cs
  case nil          => rfl
  case cons c cs hi =>
    rw [List.splitOn_cons_eq_if_modifyHead, ← hi, split, List.foldr_cons, ← split]
    cases hs : split cs
    case nil  => exact absurd (hi.symm.trans hs) (List.splitOn_ne_nil _ _)
    case cons => simp [split.push]

theorem toList_segments (path : String) : (segments path).map String.toList = path.toList.splitOn '/' := by
  simp [segments, split_eq_splitOn, Function.comp_def]

variable {segment path root : String}

theorem step?_ne_top : step? segment ≠ some .top := by
  simp only [step?]
  grind

theorem step?_eq_up_iff : step? segment = some .up ↔ segment = ".." := by
  simp only [step?]
  grind

theorem step?_eq_none_iff : step? segment = none ↔ segment = "" := by
  simp only [step?]
  grind

theorem eq_of_step?_name {name : String} (h : step? segment = some (.name name)) :
    segment = name ∧ name ≠ "" ∧ name ≠ "." := by
  simp only [step?] at h
  grind

-- A leading slash is a step of its own; the empty segment before it is none.
theorem steps_eq (path : String) :
    steps path =
      (if path.toList.head? = some '/' then [.top] else []) ++ (segments path).filterMap step? := by
  unfold steps segments
  cases path.toList
  case nil => rfl
  case cons c cs =>
    rw [split_eq_splitOn, List.splitOn_cons_eq_if_modifyHead]
    cases hs : cs.splitOn '/'
    case nil  => exact absurd hs (List.splitOn_ne_nil _ _)
    case cons s ss =>
      by_cases hc : c = '/'
      case pos => simp [hc, step?]
      case neg => simp [hc]

theorem isInside_iff :
    isInside path ↔ path ≠ "" ∧ path.toList.head? ≠ some '/' ∧ ".." ∉ segments path := by
  have hlead : Step.top ∈ steps path ↔ path.toList.head? = some '/' := by
    simp [steps_eq, step?_ne_top]
  have hup : Step.up ∈ steps path ↔ ".." ∈ segments path := by
    simp [steps_eq, step?_eq_up_iff]
  have hall : (∀ s ∈ steps path, s ≠ .top ∧ s ≠ .up) ↔ .top ∉ steps path ∧ .up ∉ steps path := by
    constructor
    case mp  => exact fun h => ⟨fun ht => (h _ ht).1 rfl, fun hu => (h _ hu).2 rfl⟩
    case mpr => exact fun ⟨ht, hu⟩ s hs => ⟨fun h => ht (h ▸ hs), fun h => hu (h ▸ hs)⟩
  simp only [isInside, Bool.and_eq_true, bne_iff_ne, List.all_eq_true, hall, hlead, hup, ne_eq]

-- To take the steps of a path is to follow its segments.
theorem foldl_steps (segments : List String) (l : Location) :
    (segments.filterMap step?).foldl Location.go l = segments.foldl Location.follow l := by
  rw [List.foldl_filterMap]
  congr 1
  funext l s
  unfold Location.follow
  cases step? s <;> rfl

theorem foldl_follow {segments : List String} (h : ".." ∉ segments) (l : Location) :
    segments.foldl Location.follow l = l ++ segments.filter fun s => s ≠ "" ∧ s ≠ "." := by
  induction segments generalizing l
  case nil => simp
  case cons s ss hi =>
    simp only [List.mem_cons, not_or] at h
    obtain ⟨hs, hss⟩ := h
    rw [List.foldl_cons, hi hss]
    by_cases hempty : s = ""
    case pos => simp [hempty, Location.follow, step?]
    case neg =>
      by_cases hdot : s = "."
      case pos => simp [hdot, Location.follow, step?, Location.go]
      case neg => simp [hempty, hdot, Ne.symm hs, Location.follow, step?, Location.go]

theorem filterMap_segments (xs ys : List Char) :
    (segments (.ofList (xs ++ '/' :: ys))).filterMap step? =
      (segments (.ofList xs)).filterMap step? ++ (segments (.ofList ys)).filterMap step? := by
  simp [segments, split_eq_splitOn, List.splitOn_append_cons_self]

-- The steps below the root are those of the path.
theorem steps_join (root : String) (h : isInside path) :
    steps (join root path) = steps root ++ steps path := by
  obtain ⟨_, hhead, _⟩ := isInside_iff.mp h
  have hpath : steps path = (segments path).filterMap step? := by rw [steps_eq, if_neg hhead, List.nil_append]
  unfold join
  split
  case isFalse hroot =>
    obtain ⟨hne, _⟩ := not_or.mp hroot
    have hjoined : root ++ "/" ++ path = .ofList (root.toList ++ '/' :: path.toList) := by
      simp [← String.toList_inj]
    have hfirst : (root.toList ++ '/' :: path.toList).head? = root.toList.head? := by
      cases hcs : root.toList
      case nil  => exact absurd (String.toList_eq_nil_iff.mp hcs) hne
      case cons => rfl
    rw [hjoined, steps_eq, filterMap_segments, String.toList_ofList, hfirst, steps_eq root, hpath]
    simp
  case isTrue hroot =>
    rcases hroot with rfl | hslash
    · rw [String.empty_append]
      rfl
    · obtain ⟨cs, hcs⟩ := List.getLast?_eq_some_iff.mp (eq_of_beq hslash)
      have hroot : root = .ofList (cs ++ '/' :: []) := by simp [← String.toList_inj, hcs]
      have hjoined : root ++ path = .ofList (cs ++ '/' :: path.toList) := by
        simp [← String.toList_inj, hcs]
      have hfirst : (cs ++ '/' :: path.toList).head? = (cs ++ ['/']).head? := by cases cs <;> rfl
      have hnothing : (segments (.ofList [])).filterMap step? = [] := rfl
      rw [hjoined, steps_eq, filterMap_segments, String.toList_ofList, hfirst, hroot, steps_eq (.ofList _),
        filterMap_segments, hnothing, hpath]
      simp

-- From wherever one starts, a path that is inside leads to the place that its names spell from there.
theorem foldl_steps_of_isInside (h : isInside path) (l : Location) :
    (steps path).foldl Location.go l = l ++ names path := by
  obtain ⟨_, hhead, hup⟩ := isInside_iff.mp h
  rw [steps_eq, if_neg hhead, List.nil_append, foldl_steps, foldl_follow hup, names]

theorem mem_names_of_mem_steps {name : String} (h : .name name ∈ steps path) : name ∈ names path := by
  have h : .name name ∈ (segments path).filterMap step? := by
    rw [steps_eq] at h
    rcases List.mem_append.mp h with hlead | h
    · split at hlead <;> simp at hlead
    · exact h
  obtain ⟨segment, hmem, hstep⟩ := List.mem_filterMap.mp h
  obtain ⟨rfl, hname⟩ := eq_of_step?_name hstep
  exact List.mem_filter.mpr ⟨hmem, by simpa using hname⟩

theorem steps_ne_nil (h : isInside path) : steps path ≠ [] := by
  obtain ⟨hne, hhead, _⟩ := isInside_iff.mp h
  rw [steps_eq, if_neg hhead, List.nil_append]
  cases hcs : path.toList
  case nil       => exact absurd (String.toList_eq_nil_iff.mp hcs) hne
  case cons c cs =>
    have hc : c ≠ '/' := by simpa [hcs] using hhead
    have hfirst : ∃ s ss, segments path = String.ofList (c :: s) :: ss := by
      unfold segments
      rw [hcs, split_eq_splitOn, List.splitOn_cons_eq_if_modifyHead, if_neg (by simpa using hc)]
      cases hs : cs.splitOn '/'
      case nil  => exact absurd hs (List.splitOn_ne_nil _ _)
      case cons => exact ⟨_, _, rfl⟩
    obtain ⟨s, ss, hsegments⟩ := hfirst
    have hstep : step? (.ofList (c :: s)) ≠ none := by
      rw [ne_eq, step?_eq_none_iff, ← String.toList_inj, String.toList_ofList]
      exact List.cons_ne_nil c s
    obtain ⟨step, hstep⟩ := Option.ne_none_iff_exists'.mp hstep
    rw [hsegments, List.filterMap_cons_some hstep]
    exact List.cons_ne_nil _ _

end Path

namespace Disk

variable {d d' : Disk} {path name : String} {l m : Location} {content : Bytes}

theorem exists_of_bind {ε α β : Type} {x : Except ε α} {f : α → Except ε β} {b : β} (h : (x >>= f) = .ok b) :
    ∃ a, x = .ok a ∧ f a = .ok b := by
  cases x
  case error => cases h
  case ok a  => exact ⟨a, rfl, h⟩

theorem steps_eq_ok {steps : List Step} (h : Disk.steps path = .ok steps) : steps = Path.steps path := by
  unfold Disk.steps at h
  split at h
  case isTrue  => cases h
  case isFalse =>
    split at h
    case isTrue  => cases h
    case isFalse =>
      split at h <;> cases h
      rfl

theorem eq_of_enter {steps : List Step} (h : d.enter l steps = .ok m) : steps.foldl Location.go l = m := by
  induction steps generalizing l
  case nil =>
    cases h
    rfl
  case cons s steps hi =>
    rw [enter] at h
    split at h
    case h_1 => cases h
    case h_2 => exact hi h

-- What is looked for stands at the end of the path, under its last name.
theorem steps_of_locate (h : d.locate path = .ok (some (l, name))) :
    (Path.steps path).getLast? = some (.name name) ∧ d.location path = l ++ [name] := by
  obtain ⟨steps, hsteps, h⟩ := exists_of_bind h
  cases steps_eq_ok hsteps
  split at h
  case h_2 =>
    obtain ⟨_, _, h⟩ := exists_of_bind h
    cases h
  case h_1 last hlast =>
    obtain ⟨m, hm, h⟩ := exists_of_bind h
    cases h
    refine ⟨hlast, ?_⟩
    obtain ⟨before, hbefore⟩ := List.getLast?_eq_some_iff.mp hlast
    rw [hbefore, List.dropLast_concat] at hm
    rw [location, hbefore, List.foldl_append, eq_of_enter hm]
    rfl

theorem child_eq_ok {n : Option Node} (h : d.child l name = .ok n) : d.node? (l ++ [name]) = n := by
  unfold child at h
  split at h <;> cases h
  rfl

theorem file?_of_load (h : d.load path = .ok content) : d.file? (d.location path) = some content := by
  obtain ⟨place, hplace, h⟩ := exists_of_bind h
  cases place
  case none => cases h
  case some place =>
    obtain ⟨n, hn, h⟩ := exists_of_bind h
    rw [(steps_of_locate hplace).2]
    split at h
    case h_1 => cases h
    case h_2 => cases h
    case h_3 =>
      split at h <;> cases h
      rw [file?, child_eq_ok hn]

-- A file is put where the path leads, which ends in a name.
theorem eq_of_save (h : d.save path content = .ok d') :
    (∃ name, (Path.steps path).getLast? = some (.name name)) ∧
      d' = d.setNode (d.location path) (.file content) := by
  obtain ⟨place, hplace, h⟩ := exists_of_bind h
  cases place
  case none => cases h
  case some place =>
    obtain ⟨hlast, hlocation⟩ := steps_of_locate hplace
    refine ⟨⟨_, hlast⟩, ?_⟩
    rw [hlocation]
    simp only at h
    split at h
    case isTrue  => cases h
    case isFalse =>
      obtain ⟨n, _, h⟩ := exists_of_bind h
      split at h <;> cases h
      rfl

end Disk

namespace Primitive

variable {link : Link} {s : Session} {v buffer : Value} {path : String} {content : Bytes}

theorem run_load (hv : s.heap.textOf v = some path) : load.run link (v, ()) s = RunM.load link v s := by
  have hlost : load.lost (v, ()) s.heap = false := Heap.lost_eq_false_of_textOf _ hv
  exact run_eq_act hlost

theorem run_save (hv : s.heap.textOf v = some path) : save.run link (buffer, v, ()) s =
    if s.heap.lost .bytes buffer then .error (.fault .lostAddress) s else RunM.save link buffer v s := by
  have hlost : save.lost (buffer, v, ()) s.heap = s.heap.lost .bytes buffer := by
    rw [lost, Heap.lost_eq_false_of_textOf _ hv, Bool.or_false]
  rw [run_eq, hlost]
  rfl

theorem run_save_of_bytesOf (hb : s.heap.bytesOf buffer = some content) (hv : s.heap.textOf v = some path) :
    save.run link (buffer, v, ()) s = RunM.save link buffer v s := by
  rw [run_save hv, Heap.lost_eq_false_of_bytesOf _ hb]
  rfl

end Primitive

namespace RunM

variable {s : Session} {v : Value}

-- Code gets an error cell where the device gives an error.
theorem load_of_error {path : String} {e : StorageError} (hv : s.heap.textOf v = some path)
    (h : s.device.load path = .error e) : load .attached v s = error .storage s := by
  unfold load
  rw [bind_eq_of_ok (show heap s = .ok s.heap s from rfl)]
  simp only [hv]
  rw [bind_eq_of_ok (show (get : RunM Session) s = .ok s s from rfl)]
  simp only [h]

theorem save_of_error {path : String} {e : StorageError} (buffer : Value) (hv : s.heap.textOf v = some path)
    (h : ∀ content, s.device.save path content = .error e) :
    save .attached buffer v s = error .storage s := by
  unfold save
  rw [bind_eq_of_ok (show heap s = .ok s.heap s from rfl)]
  simp only [hv]
  cases s.heap.bytesOf buffer
  case none => rfl
  case some content =>
    simp only
    rw [bind_eq_of_ok (show (get : RunM Session) s = .ok s s from rfl)]
    simp only [h]

end RunM

namespace Device

variable {d d' : Device} {path p : String} {content : Bytes} {e : StorageError}

-- The place of the root.
def storage (d : Device) : Location :=
  d.disk.location d.root

theorem resolve_eq_ok_iff : (∃ p, d.resolve path = .ok p) ↔ Path.isInside path := by
  unfold resolve
  split <;> simp_all

theorem resolve_eq_error (h : d.resolve path = .error e) : e = .outsideRoot path := by
  unfold resolve at h
  split at h <;> cases h
  rfl

theorem location_of_resolve (h : d.resolve path = .ok p) :
    p = Path.join d.root path ∧ d.disk.location p = d.storage ++ Path.names path := by
  have hin := resolve_eq_ok_iff.mp ⟨p, h⟩
  rw [resolve, if_pos hin] at h
  cases h
  refine ⟨rfl, ?_⟩
  rw [Disk.location, Path.steps_join _ hin, List.foldl_append, Path.foldl_steps_of_isInside hin]
  rfl

theorem file?_of_load (h : d.load path = .ok content) :
    d.disk.file? (d.storage ++ Path.names path) = some content := by
  obtain ⟨p, hp, h⟩ := Disk.exists_of_bind h
  rw [← (location_of_resolve hp).2]
  exact Disk.file?_of_load h

-- The last step of a path that a file is saved under is a name, and no step of the root.
theorem eq_of_save (h : d.save path content = .ok d') : Path.names path ≠ [] ∧
    d' = { d with disk := d.disk.setNode (d.storage ++ Path.names path) (.file content) } := by
  obtain ⟨p, hp, h⟩ := Disk.exists_of_bind h
  obtain ⟨disk, hsave, h⟩ := Disk.exists_of_bind h
  cases h
  have hin := resolve_eq_ok_iff.mp ⟨p, hp⟩
  obtain ⟨rfl, hlocation⟩ := location_of_resolve hp
  obtain ⟨⟨name, hname⟩, rfl⟩ := Disk.eq_of_save hsave
  refine ⟨fun hnames => ?_, by rw [hlocation]⟩
  rw [Path.steps_join _ hin, List.getLast?_append, List.getLast?_eq_some_getLast (Path.steps_ne_nil hin),
    Option.some_or, ← List.getLast?_eq_some_getLast] at hname
  have hmem := Path.mem_names_of_mem_steps (List.mem_of_getLast? hname)
  simp [hnames] at hmem

-- A path is accepted by its segments alone, and then no beginning of it leads out of any directory. What is
-- loaded stands below the root, and what is saved is put there. Under a path that is refused nothing is
-- loaded or saved, and code that tries to gets an error, or stops at a buffer whose address is lost.
structure Confines (d : Device) (path : String) : Prop where
  segments : (Path.segments path).map String.toList = path.toList.splitOn '/'
  accepts  : (∃ p, d.resolve path = .ok p) ↔
    path ≠ "" ∧ path.toList.head? ≠ some '/' ∧ ".." ∉ Path.segments path
  inside   : ∀ p, d.resolve path = .ok p → ∀ (root : Location) n,
    root <+: ((Path.segments path).take n).foldl Location.follow root
  loads    : ∀ content, d.load path = .ok content →
    d.disk.file? (d.storage ++ Path.names path) = some content
  saves    : ∀ content d', d.save path content = .ok d' → Path.names path ≠ [] ∧
    d' = { d with disk := d.disk.setNode (d.storage ++ Path.names path) (.file content) }
  refuses  : ∀ e, d.resolve path = .error e →
    e = .outsideRoot path ∧ d.load path = .error e ∧ ∀ content, d.save path content = .error e
  fails    : ∀ e (s : Session) v, d.resolve path = .error e → s.device = d → s.heap.textOf v = some path →
    let failed : Session := { s with heap := (s.heap.alloc (.ofError .storage)).2 }
    Primitive.load.run .attached (v, ()) s = .ok (some s.heap.size) failed ∧
      ∀ buffer, Primitive.save.run .attached (buffer, v, ()) s =
        if s.heap.lost .bytes buffer then .error (.fault .lostAddress) s
        else .ok (some s.heap.size) failed

theorem load_of_resolve (h : d.resolve path = .error e) : d.load path = .error e := by
  rw [load, h]
  rfl

theorem save_of_resolve (h : d.resolve path = .error e) : d.save path content = .error e := by
  rw [save, h]
  rfl

theorem resolve_confines (d : Device) (path : String) : d.Confines path where
  segments := Path.toList_segments path
  accepts  := resolve_eq_ok_iff.trans Path.isInside_iff
  inside p hp root n := by
    obtain ⟨_, _, hup⟩ := Path.isInside_iff.mp (resolve_eq_ok_iff.mp ⟨p, hp⟩)
    rw [Path.foldl_follow fun hmem => hup (List.mem_of_mem_take hmem)]
    exact List.prefix_append _ _
  loads _ h    := file?_of_load h
  saves _ _ h  := eq_of_save h
  refuses e he := ⟨resolve_eq_error he, load_of_resolve he, fun _ => save_of_resolve he⟩
  fails e s v he hs hv := by
    subst hs
    refine ⟨?_, fun buffer => ?_⟩
    · rw [Primitive.run_load hv, RunM.load_of_error hv (load_of_resolve he)]
      rfl
    · rw [Primitive.run_save hv, RunM.save_of_error buffer hv fun _ => save_of_resolve he]
      rfl

-- Dots in a name lead nowhere.
example : ["notes", "..a/./b..//", "./."].all Path.isInside ∧
    ["", "/etc", "a/../b", ".."].all (!Path.isInside ·) := by decide

end Device
end CellLisp
