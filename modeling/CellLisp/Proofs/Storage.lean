import CellLisp.Proofs.Encoding
import CellLisp.Proofs.Placement

namespace CellLisp

namespace RunM

variable {s : Session} {v buffer : Value} {path : String} {content : Bytes}

-- Code gets what the device loads, and the device keeps what code saves.
theorem load_of_ok (hv : s.heap.textOf v = some path) (h : s.device.load path = .ok content) :
    load .attached v s = .ok (some s.heap.size) { s with heap := (s.heap.allocBytes content).2 } := by
  unfold load
  rw [bind_eq_of_ok (show heap s = .ok s.heap s from rfl)]
  simp only [hv]
  rw [bind_eq_of_ok (show (get : RunM Session) s = .ok s s from rfl)]
  simp only [h]
  rfl

theorem save_eq (hb : s.heap.bytesOf buffer = some content) (hv : s.heap.textOf v = some path) :
    (∀ device, s.device.save path content = .ok device →
      save .attached buffer v s = .ok buffer { s with device }) ∧
    ∀ e, s.device.save path content = .error e → save .attached buffer v s = error .storage s := by
  unfold save
  rw [bind_eq_of_ok (show heap s = .ok s.heap s from rfl)]
  simp only [hb, hv]
  rw [bind_eq_of_ok (show (get : RunM Session) s = .ok s s from rfl)]
  refine ⟨fun device h => ?_, fun e h => ?_⟩
  · simp only [h]
    rfl
  · simp only [h]

theorem list_of_ok {names : List String} (h : s.device.list = .ok names) : list .attached s =
    .ok (some (allocTexts s.heap names).1) { s with heap := (allocTexts s.heap names).2 } := by
  unfold list
  simp only
  rw [bind_eq_of_ok (show (get : RunM Session) s = .ok s s from rfl)]
  simp only [h]
  rfl

end RunM

namespace Device

variable {d d' : Device} {path : String} {content : Bytes}

-- The root is a directory, as is every place on the way to it.
structure HasStorage (d : Device) : Prop where
  spelled : d.root ≠ "" ∧ '\x00' ∉ d.root.toList
  length  : (Text.utf8 d.root).size ≤ Path.maxLength
  names   : ∀ name ∈ Path.names d.root, (Text.utf8 name).size ≤ Path.maxName
  places  : ∀ n ≤ (Path.steps d.root).length,
    d.disk.node? (((Path.steps d.root).take n).foldl Location.go d.disk.home) = some .directory
  apart   : d.disk.Apart

-- A path that asks for a file, in a directory that is there.
structure Reaches (d : Device) (path : String) : Prop where
  inside  : Path.isInside path
  slash   : ¬ Path.endsInSlash path
  dot     : (Path.segments path).getLast? ≠ some "."
  nul     : '\x00' ∉ path.toList
  length  : (Text.utf8 (Path.join d.root path)).size ≤ Path.maxLength
  names   : ∀ name ∈ Path.names path, (Text.utf8 name).size ≤ Path.maxName
  parents : ∀ n < (Path.names path).length,
    d.disk.node? (d.storage ++ (Path.names path).take n) = some .directory

-- Of two paths with the same names, one can be taken for the other if it asks for a file and is no longer
-- than a path may be.
theorem Reaches.alias_iff {q : String} (hr : d.Reaches path) (hin : Path.isInside q)
    (hnames : Path.names q = Path.names path) : d.Reaches q ↔ ¬ Path.endsInSlash q ∧
      (Path.segments q).getLast? ≠ some "." ∧ (Text.utf8 (Path.join d.root q)).size ≤ Path.maxLength := by
  have hnul : '\x00' ∉ q.toList := by
    rw [Path.mem_toList_iff (by decide) (by decide), hnames, ← Path.mem_toList_iff (by decide) (by decide)]
    exact hr.nul
  constructor
  case mp  => exact fun hq => ⟨hq.slash, hq.dot, hq.length⟩
  case mpr =>
    rintro ⟨hslash, hdot, hlength⟩
    exact ⟨hin, hslash, hdot, hnul, hlength, hnames ▸ hr.names, hnames ▸ hr.parents⟩

namespace HasStorage

theorem enter (h : d.HasStorage) : d.disk.enter d.disk.home (Path.steps d.root) = .ok d.storage :=
  Disk.enter_of_places (fun name hmem => h.names name (Path.mem_names_of_mem_steps hmem)) h.places

theorem directory (h : d.HasStorage) : d.disk.node? d.storage = some .directory := by
  have hplace := h.places _ (Nat.le_refl _)
  rwa [List.take_length] at hplace

-- Below the root only the names count on the way.
theorem enter_steps (h : d.HasStorage) {before : List Step} {names : List String}
    (hnames : before.filter (· ≠ .stay) = names.map .name) :
    d.disk.enter d.disk.home (Path.steps d.root ++ before) = d.disk.enter d.storage (names.map .name) := by
  rw [Disk.enter_append h.enter, ← Disk.enter_filter, hnames]

theorem reaches (h : d.HasStorage) (hin : Path.isInside path) (hfinds : d.disk.Finds (Path.join d.root path)) :
    d.Reaches path := by
  obtain ⟨hend, l, name, hplace, hname⟩ := hfinds
  rw [Path.endsInSlash_join d.root (Path.isInside_iff.mp hin).1] at hend
  obtain ⟨before, hsteps, henter⟩ := Disk.locate_eq_ok_iff.mp hplace
  obtain ⟨hsteps, hnul, hlength, _⟩ := Disk.steps_eq_ok_iff.mp hsteps
  rw [Path.steps_join _ hin] at hsteps
  obtain ⟨own, rfl, hown⟩ := Path.exists_before hin hsteps
  obtain ⟨first, hnames, hfirst⟩ := Path.names_of_steps hin hown
  rw [h.enter_steps hfirst] at henter
  obtain ⟨_, hshort, hdirectories⟩ := Disk.enter_names_iff.mp henter
  have hdot := (Path.getLast?_steps hin hend).mp ⟨name, by rw [hown, List.getLast?_concat]⟩
  have hown : '\x00' ∉ path.toList := fun hmem => hnul ((Path.mem_join_iff (by decide)).mpr (.inr hmem))
  refine ⟨hin, hend, hdot, hown, hlength, ?_, fun n hn => ?_⟩
  · intro name' hmem
    rw [hnames] at hmem
    rcases List.mem_append.mp hmem with hmem | hmem
    · exact hshort name' hmem
    · rwa [List.mem_singleton.mp hmem]
  · cases n
    case zero   => simpa using h.directory
    case succ n =>
      have hn : n < first.length := by simpa [hnames] using hn
      rw [hnames, List.take_append_of_le_length hn]
      exact hdirectories n hn

theorem finds (h : d.HasStorage) (hr : d.Reaches path) : d.disk.Finds (Path.join d.root path) := by
  have hin := hr.inside
  obtain ⟨name, hlast⟩ := (Path.getLast?_steps hin hr.slash).mpr hr.dot
  obtain ⟨own, hown⟩ := List.getLast?_eq_some_iff.mp hlast
  obtain ⟨first, hnames, hfirst⟩ := Path.names_of_steps hin hown
  have hsteps : Disk.steps (Path.join d.root path) = .ok (Path.steps d.root ++ own ++ [.name name]) := by
    refine Disk.steps_eq_ok_iff.mpr ⟨?_, ?_, hr.length, ?_⟩
    · rw [Path.steps_join _ hin, hown, List.append_assoc]
    · exact fun hmem => ((Path.mem_join_iff (by decide)).mp hmem).elim h.spelled.2 hr.nul
    · intro hempty
      have hjoined : Path.steps (Path.join d.root path) = [] := by rw [hempty]; rfl
      rw [Path.steps_join _ hin, hown] at hjoined
      simp at hjoined
  have henter : d.disk.enter d.disk.home (Path.steps d.root ++ own) = .ok (d.storage ++ first) := by
    rw [h.enter_steps hfirst]
    refine Disk.enter_names_iff.mpr ⟨rfl, fun name hmem => hr.names name (by simp [hnames, hmem]), ?_⟩
    intro n hn
    have hparent := hr.parents (n + 1) (by simpa [hnames] using hn)
    rwa [hnames, List.take_append_of_le_length hn] at hparent
  refine ⟨?_, _, name, Disk.locate_eq_ok_iff.mpr ⟨_, hsteps, henter⟩, hr.names name (by simp [hnames])⟩
  rw [Path.endsInSlash_join d.root (Path.isInside_iff.mp hin).1]
  exact hr.slash

theorem load_eq_ok_iff (h : d.HasStorage) : d.load path = .ok content ↔
    d.Reaches path ∧ d.disk.file? (d.storage ++ Path.names path) = some content := by
  constructor
  case mp =>
    intro hload
    refine ⟨?_, file?_of_load hload⟩
    obtain ⟨p, hp, hload⟩ := Disk.exists_of_bind hload
    cases (location_of_resolve hp).1
    exact h.reaches (resolve_eq_ok_iff.mp ⟨_, hp⟩) (Disk.load_eq_ok_iff.mp hload).1
  case mpr =>
    rintro ⟨hr, hfile⟩
    have hp : d.resolve path = .ok (Path.join d.root path) := if_pos hr.inside
    rw [load, hp]
    refine Disk.load_eq_ok_iff.mpr ⟨h.finds hr, ?_⟩
    rwa [(location_of_resolve hp).2]

theorem save_eq_ok_iff (h : d.HasStorage) : d.save path content = .ok d' ↔
    d.Reaches path ∧ d.disk.node? (d.storage ++ Path.names path) ≠ some .directory ∧
      d' = { d with disk := d.disk.setNode (d.storage ++ Path.names path) (.file content) } := by
  constructor
  case mp =>
    intro hsave
    have heq := (eq_of_save hsave).2
    obtain ⟨p, hp, hsave⟩ := Disk.exists_of_bind hsave
    obtain ⟨disk, hsave, _⟩ := Disk.exists_of_bind hsave
    obtain ⟨rfl, hlocation⟩ := location_of_resolve hp
    obtain ⟨hfinds, hnode, _⟩ := Disk.save_eq_ok_iff.mp hsave
    rw [hlocation] at hnode
    exact ⟨h.reaches (resolve_eq_ok_iff.mp ⟨_, hp⟩) hfinds, hnode, heq⟩
  case mpr =>
    rintro ⟨hr, hnode, rfl⟩
    have hp : d.resolve path = .ok (Path.join d.root path) := if_pos hr.inside
    have hlocation := (location_of_resolve hp).2
    have hsave := Disk.save_eq_ok_iff.mpr ⟨h.finds hr, by rwa [hlocation],
      show _ = d.disk.setNode _ (.file content) from rfl⟩
    rw [save, hp, ← hlocation]
    simp only [bind, Except.bind, hsave]
    rfl

end HasStorage

-- Two devices with the same root and directories.
structure SameTree (d d' : Device) : Prop where
  root : d'.root = d.root
  disk : d.disk.SameDirectories d'.disk

namespace SameTree

theorem storage (h : d.SameTree d') : d'.storage = d.storage := by
  rw [Device.storage, Disk.location, h.root, h.disk.home]
  rfl

theorem reaches (h : d.SameTree d') (hr : d.Reaches path) : d'.Reaches path where
  inside       := hr.inside
  slash        := hr.slash
  dot          := hr.dot
  nul          := hr.nul
  length       := h.root ▸ hr.length
  names        := hr.names
  parents n hn := by
    rw [h.storage, h.disk.node]
    exact hr.parents n hn

theorem symm (h : d.SameTree d') : d'.SameTree d where
  root := h.root.symm
  disk := ⟨h.disk.home.symm, fun l => (h.disk.node l).symm⟩

theorem reaches_iff (h : d.SameTree d') : d'.Reaches path ↔ d.Reaches path :=
  ⟨h.symm.reaches, h.reaches⟩

theorem hasStorage (h : d.SameTree d') (hd : d.HasStorage) (ha : d'.disk.Apart) : d'.HasStorage where
  spelled := h.root ▸ hd.spelled
  length  := h.root ▸ hd.length
  names   := h.root ▸ hd.names
  places  := by
    intro n hn
    rw [h.root] at hn
    rw [h.root, h.disk.home, h.disk.node]
    exact hd.places n hn
  apart   := ha

end SameTree

-- What a save does: a file is put where the names lead, and all else stays.
structure Puts (d : Device) (path : String) (content : Bytes) (d' : Device) : Prop where
  tree    : d.SameTree d'
  storage : d'.HasStorage
  reaches : d.Reaches path
  file    : ∀ l, d'.disk.file? l = if d.storage ++ Path.names path = l then some content else d.disk.file? l

theorem HasStorage.puts (h : d.HasStorage) (hsave : d.save path content = .ok d') :
    d.Puts path content d' := by
  obtain ⟨hr, hnode, rfl⟩ := h.save_eq_ok_iff.mp hsave
  have htree : d.SameTree { d with disk := d.disk.setNode (d.storage ++ Path.names path) (.file content) } :=
    ⟨rfl, Disk.sameDirectories_setNode content hnode⟩
  exact ⟨htree, htree.hasStorage h (h.apart.setNode _ hnode), hr, Disk.file?_setNode content hnode⟩

-- After a save, a path with the same names loads what was saved if it asks for a file and is short enough.
structure Saves (d : Device) (path : String) (content : Bytes) (d' : Device) : Prop where
  only    : d' = { d with disk := d'.disk }
  loaded  : d'.load path = .ok content
  aliased : ∀ q, Path.isInside q → Path.names q = Path.names path →
    (∀ content', d'.load q = .ok content' → content' = content) ∧
      (d'.load q = .ok content ↔ ¬ Path.endsInSlash q ∧ (Path.segments q).getLast? ≠ some "." ∧
        (Text.utf8 (Path.join d.root q)).size ≤ Path.maxLength)
  others  : ∀ l ≠ d.storage ++ Path.names path, d'.disk.node? l = d.disk.node? l
  loads   : ∀ q content', Path.names q ≠ Path.names path →
    (d'.load q = .ok content' ↔ d.load q = .ok content')
  kept    : ∀ l, (d.disk.file? l).isSome → (d'.disk.file? l).isSome

theorem HasStorage.saves (h : d.HasStorage) (hsave : d.save path content = .ok d') :
    d.Saves path content d' := by
  obtain ⟨htree, hstorage, hr, hfile⟩ := h.puts hsave
  have hhere : d'.disk.file? (d.storage ++ Path.names path) = some content := by rw [hfile, if_pos rfl]
  have hdisk := (eq_of_save hsave).2
  refine ⟨by rw [hdisk], ?_, fun q hin hnames => ⟨fun content' hload => ?_, ?_⟩, fun l hl => ?_, ?_, ?_⟩
  · exact hstorage.load_eq_ok_iff.mpr ⟨htree.reaches hr, by rwa [htree.storage]⟩
  · have hload := (hstorage.load_eq_ok_iff.mp hload).2
    rw [htree.storage, hnames, hhere] at hload
    exact (Option.some.inj hload).symm
  · rw [hstorage.load_eq_ok_iff, htree.storage, hnames, hhere, htree.reaches_iff, hr.alias_iff hin hnames]
    exact and_iff_left rfl
  · rw [hdisk]
    exact Disk.node?_setNode_of_ne _ _ hl
  · intro q content' hnames
    have hother : d.storage ++ Path.names path ≠ d.storage ++ Path.names q :=
      fun heq => hnames (List.append_cancel_left heq).symm
    rw [hstorage.load_eq_ok_iff, h.load_eq_ok_iff, htree.storage, htree.reaches_iff, hfile, if_neg hother]
  · intro l hl
    rw [hfile]
    split
    case isTrue  => rfl
    case isFalse => exact hl

-- Whether a save puts a file at a location.
def fillsAt (d : Device) (l : Location) (save : String × Bytes) : Bool :=
  (d.save save.1 save.2).isOk && d.storage ++ Path.names save.1 == l

theorem HasStorage.fillsAt_iff (h : d.HasStorage) {l : Location} {save : String × Bytes} :
    d.fillsAt l save ↔ d.Reaches save.1 ∧
      d.disk.node? (d.storage ++ Path.names save.1) ≠ some .directory ∧ d.storage ++ Path.names save.1 = l := by
  have hok : (d.save save.1 save.2).isOk ↔ ∃ d', d.save save.1 save.2 = .ok d' := by
    cases d.save save.1 save.2 <;> simp [Except.isOk, Except.toBool]
  simp only [fillsAt, Bool.and_eq_true, hok, h.save_eq_ok_iff, exists_and_left, exists_eq, and_true,
    beq_iff_eq, and_assoc]

-- Which saves succeed depends on the directories alone, which no save changes.
theorem SameTree.fillsAt (htree : d.SameTree d') (h : d.HasStorage) (h' : d'.HasStorage) (l : Location) :
    d'.fillsAt l = d.fillsAt l := by
  funext save
  rw [Bool.eq_iff_iff, h'.fillsAt_iff, h.fillsAt_iff, htree.storage, htree.reaches_iff, ne_eq, htree.disk.node]

-- Code that loads gets a buffer with the content, code that saves leaves the device as the save does, and
-- code that saves in vain gets an error and leaves the device as it is.
structure Serves (d : Device) : Prop where
  loads : ∀ (s : Session) v path content, s.device = d → s.heap.textOf v = some path →
    d.load path = .ok content → Primitive.load.run .attached (v, ()) s =
      .ok (some s.heap.size) { s with heap := (s.heap.allocBytes content).2 }
  saves : ∀ (s : Session) buffer v path content d', s.device = d → s.heap.bytesOf buffer = some content →
    s.heap.textOf v = some path → d.save path content = .ok d' →
      Primitive.save.run .attached (buffer, v, ()) s = .ok buffer { s with device := d' }
  fails : ∀ (s : Session) buffer v path content e, s.device = d → s.heap.bytesOf buffer = some content →
    s.heap.textOf v = some path → d.save path content = .error e →
      Primitive.save.run .attached (buffer, v, ()) s =
        .ok (some s.heap.size) { s with heap := (s.heap.alloc (.ofError .storage)).2 }
  lists : ∀ (s : Session) names, s.device = d → d.list = .ok names → Primitive.list.run .attached () s =
    .ok (some (RunM.allocTexts s.heap names).1) { s with heap := (RunM.allocTexts s.heap names).2 }

theorem serves (d : Device) : d.Serves where
  loads _ _ _ _ hd hv h        := (Primitive.run_load hv).trans (RunM.load_of_ok hv (hd ▸ h))
  saves _ _ _ _ _ _ hd hb hv h :=
    (Primitive.run_save_of_bytesOf hb hv).trans ((RunM.save_eq hb hv).1 _ (hd ▸ h))
  fails _ _ _ _ _ _ hd hb hv h :=
    (Primitive.run_save_of_bytesOf hb hv).trans ((RunM.save_eq hb hv).2 _ (hd ▸ h))
  lists _ _ hd h               := RunM.list_of_ok (hd ▸ h)

end Device
end CellLisp
