import CellLisp.Proofs.Confinement

namespace CellLisp

namespace Path

variable {path root name : String}

-- Apart from the stays, the steps of a path that is inside are its names.
theorem filter_steps (h : isInside path) : (steps path).filter (· ≠ .stay) = (names path).map .name := by
  obtain ⟨_, hhead, hup⟩ := isInside_iff.mp h
  rw [steps_eq, if_neg hhead, List.nil_append, names]
  generalize segments path = segments at hup
  induction segments
  case nil => rfl
  case cons s ss hi =>
    simp only [List.mem_cons, not_or] at hup
    obtain ⟨hs, hss⟩ := hup
    have hi := hi hss
    by_cases hempty : s = ""
    case pos => simpa [hempty, step?] using hi
    case neg =>
      by_cases hdot : s = "."
      case pos => simpa [hdot, step?] using hi
      case neg => simpa [hempty, hdot, Ne.symm hs, step?] using hi

theorem flatten_split (cs : List Char) : (split cs).flatten = cs.filter (· ≠ '/') := by
  induction cs
  case nil => rfl
  case cons c cs hi =>
    rw [split, List.foldr_cons, ← split]
    cases hs : split cs
    case nil => exact absurd ((split_eq_splitOn cs).symm.trans hs) (List.splitOn_ne_nil _ _)
    case cons s ss =>
      rw [hs] at hi
      by_cases hc : c = '/'
      case pos => simpa [split.push, hc] using hi
      case neg => simpa [split.push, hc] using hi

-- What is no slash ends a segment.
theorem exists_split_concat {c : Char} (hc : c ≠ '/') (cs : List Char) :
    ∃ ss s, split (cs ++ [c]) = ss ++ [s ++ [c]] := by
  induction cs
  case nil => exact ⟨[], [], by simp [split, split.push, hc]⟩
  case cons c' cs hi =>
    obtain ⟨ss, s, hs⟩ := hi
    rw [List.cons_append, split, List.foldr_cons, ← split, hs]
    cases ss
    case nil =>
      by_cases hc' : c' = '/'
      case pos => exact ⟨[[]], s, by simp [split.push, hc']⟩
      case neg => exact ⟨[], c' :: s, by simp [split.push, hc']⟩
    case cons s' ss =>
      by_cases hc' : c' = '/'
      case pos => exact ⟨[] :: s' :: ss, s, by simp [split.push, hc']⟩
      case neg => exact ⟨(c' :: s') :: ss, s, by simp [split.push, hc']⟩

-- A path that ends in no slash ends in the last of its names, unless that is a dot.
theorem getLast?_steps (h : isInside path) (hslash : ¬ endsInSlash path) :
    (∃ name, (steps path).getLast? = some (.name name)) ↔ (segments path).getLast? ≠ some "." := by
  obtain ⟨hne, hhead, hup⟩ := isInside_iff.mp h
  obtain ⟨cs, c, hcs⟩ : ∃ cs c, path.toList = cs ++ [c] :=
    ⟨_, _, (List.dropLast_concat_getLast (mt String.toList_eq_nil_iff.mp hne)).symm⟩
  have hc : c ≠ '/' := by simpa [endsInSlash, hcs] using hslash
  obtain ⟨ss, s, hss⟩ := exists_split_concat hc cs
  have hsegments : segments path = ss.map String.ofList ++ [.ofList (s ++ [c])] := by
    simp [segments, hcs, hss]
  have hempty : String.ofList (s ++ [c]) ≠ "" := by simp [← String.toList_inj]
  rw [steps_eq, if_neg hhead, List.nil_append, hsegments, List.filterMap_append, List.getLast?_concat]
  by_cases hdot : String.ofList (s ++ [c]) = "."
  case pos => simp [hdot, step?]
  case neg =>
    have hup : String.ofList (s ++ [c]) ≠ ".." := by
      rintro hs
      exact hup (by simp [hsegments, hs])
    generalize String.ofList (s ++ [c]) = last at *
    simp [step?, hempty, hdot, hup]

theorem mem_toList_iff {c : Char} (hslash : c ≠ '/') (hdot : c ≠ '.') :
    c ∈ path.toList ↔ ∃ name ∈ names path, c ∈ name.toList := by
  have hpieces : c ∈ path.toList ↔ ∃ piece ∈ split path.toList, c ∈ piece := by
    rw [← List.mem_flatten, flatten_split]
    simp [hslash]
  rw [hpieces]
  constructor
  case mp =>
    rintro ⟨piece, hmem, hc⟩
    have hempty : piece ≠ [] := List.ne_nil_of_mem hc
    have hdot : piece ≠ ['.'] := by
      rintro rfl
      exact hdot (List.mem_singleton.mp hc)
    refine ⟨.ofList piece, List.mem_filter.mpr ⟨List.mem_map_of_mem hmem, ?_⟩, by simpa using hc⟩
    simp [← String.toList_inj, hempty, hdot]
  case mpr =>
    rintro ⟨name, hmem, hc⟩
    obtain ⟨piece, hpiece, rfl⟩ := List.mem_map.mp (List.mem_filter.mp hmem).1
    exact ⟨piece, hpiece, by simpa using hc⟩

-- The names of a path that ends in a name are those on the way and that one.
theorem names_of_steps (h : isInside path) {before : List Step} (hsteps : steps path = before ++ [.name name]) :
    ∃ first, names path = first ++ [name] ∧ before.filter (· ≠ .stay) = first.map .name := by
  have hnames := filter_steps h
  rw [hsteps, List.filter_append] at hnames
  obtain ⟨first, last, hsplit, hfirst, hlast⟩ := List.map_eq_append_iff.mp hnames.symm
  rw [List.filter_cons_of_pos (by simp), List.filter_nil] at hlast
  obtain ⟨last, rfl, hlast⟩ := List.map_eq_singleton_iff.mp hlast
  cases hlast
  exact ⟨first, hsplit, hfirst.symm⟩

-- The last step below a root is the path's own.
theorem exists_before (h : isInside path) {start before : List Step} {s : Step}
    (hsteps : before ++ [s] = start ++ steps path) :
    ∃ own, before = start ++ own ∧ steps path = own ++ [s] := by
  have hlast : (steps path).getLast? = some s := by
    have hlast := congrArg List.getLast? hsteps
    rw [List.getLast?_concat, List.getLast?_append, List.getLast?_eq_some_getLast (steps_ne_nil h),
      Option.some_or] at hlast
    rw [hlast, List.getLast?_eq_some_getLast (steps_ne_nil h)]
  obtain ⟨own, hown⟩ := List.getLast?_eq_some_iff.mp hlast
  rw [hown, ← List.append_assoc] at hsteps
  exact ⟨own, List.append_cancel_right hsteps, hown⟩

-- The path of the root comes first, and only a slash is put between.
theorem toList_join (root path : String) : ∃ cs, (∀ c ∈ cs, c = '/') ∧
    (join root path).toList = root.toList ++ cs ++ path.toList := by
  unfold join
  split
  case isTrue  => exact ⟨[], by simp, by simp⟩
  case isFalse => exact ⟨['/'], by simp, by simp⟩

theorem mem_join_iff {c : Char} (hc : c ≠ '/') :
    c ∈ (join root path).toList ↔ c ∈ root.toList ∨ c ∈ path.toList := by
  obtain ⟨cs, hslashes, hcs⟩ := toList_join root path
  have hnot : c ∉ cs := fun hmem => hc (hslashes c hmem)
  simp [hcs, hnot]

theorem endsInSlash_join (root : String) (h : path ≠ "") :
    endsInSlash (join root path) = endsInSlash path := by
  obtain ⟨cs, _, hcs⟩ := toList_join root path
  have hne : path.toList ≠ [] := mt String.toList_eq_nil_iff.mp h
  rw [endsInSlash, hcs, List.getLast?_append, List.getLast?_eq_some_getLast hne, Option.some_or,
    ← List.getLast?_eq_some_getLast, endsInSlash]

end Path

namespace Disk

variable {d d' : Disk} {path name : String} {l m : Location} {steps rest : List Step} {content : Bytes}

theorem check_name_eq_ok_iff : d.check l (.name name) = .ok () ↔
    (Text.utf8 name).size ≤ Path.maxName ∧ d.node? (l ++ [name]) = some .directory := by
  simp only [check, child]
  split
  case isTrue hlong => simp [bind, Except.bind, Nat.not_le.mpr hlong]
  case isFalse hshort =>
    simp only [bind, Except.bind, Nat.not_lt.mp hshort, true_and]
    rcases d.node? (l ++ [name]) with _ | _ | _ <;> simp

theorem enter_append (h : d.enter l steps = .ok m) : d.enter l (steps ++ rest) = d.enter m rest := by
  induction steps generalizing l
  case nil =>
    cases h
    rfl
  case cons s steps hi =>
    rw [enter] at h
    rw [List.cons_append, enter]
    split at h
    case h_1 => cases h
    case h_2 => exact hi h

theorem enter_filter : d.enter l (steps.filter (· ≠ .stay)) = d.enter l steps := by
  induction steps generalizing l
  case nil => rfl
  case cons s steps hi =>
    by_cases hs : s = .stay
    case pos => simpa [hs, enter, check, Location.go] using hi
    case neg =>
      rw [List.filter_cons_of_pos (by simpa using hs), enter, enter]
      split
      case h_1 => rfl
      case h_2 => exact hi

-- One can go along a way if all the places on it are directories.
theorem enter_of_places (hnames : ∀ name, .name name ∈ steps → (Text.utf8 name).size ≤ Path.maxName)
    (hplaces : ∀ n ≤ steps.length, d.node? ((steps.take n).foldl Location.go l) = some .directory) :
    d.enter l steps = .ok (steps.foldl Location.go l) := by
  induction steps generalizing l
  case nil => rfl
  case cons s steps hi =>
    have hcheck : d.check l s = .ok () := by
      cases s
      case name name =>
        refine check_name_eq_ok_iff.mpr ⟨hnames name List.mem_cons_self, ?_⟩
        simpa [Location.go] using hplaces 1 (by simp)
      all_goals rfl
    rw [enter, hcheck]
    refine hi (fun name hmem => hnames name (List.mem_cons_of_mem _ hmem)) fun n hn => ?_
    simpa using hplaces (n + 1) (by simpa using hn)

-- Along names one can go only so.
theorem enter_names_iff {names : List String} : d.enter l (names.map .name) = .ok m ↔
    m = l ++ names ∧ (∀ name ∈ names, (Text.utf8 name).size ≤ Path.maxName) ∧
      ∀ n < names.length, d.node? (l ++ names.take (n + 1)) = some .directory := by
  induction names generalizing l
  case nil => simp [enter, eq_comm]
  case cons name names hi =>
    have hrest : (∀ n < (name :: names).length, d.node? (l ++ (name :: names).take (n + 1)) = some .directory) ↔
        d.node? (l ++ [name]) = some .directory ∧
          ∀ n < names.length, d.node? (l ++ [name] ++ names.take (n + 1)) = some .directory := by
      constructor
      case mp =>
        intro h
        exact ⟨by simpa using h 0 (by simp), fun n hn => by simpa using h (n + 1) (by simpa using hn)⟩
      case mpr =>
        rintro ⟨hfirst, h⟩ n hn
        cases n
        case zero   => simpa using hfirst
        case succ n => simpa using h n (by simpa using hn)
    rw [List.map_cons, enter, hrest]
    split
    case h_1 e he =>
      have hnot : ¬ d.check l (.name name) = .ok () := by simp [he]
      simp only [reduceCtorEq, false_iff]
      rintro ⟨_, hnames, hdirectory, _⟩
      exact hnot (check_name_eq_ok_iff.mpr ⟨hnames name List.mem_cons_self, hdirectory⟩)
    case h_2 hs =>
      obtain ⟨hname, hdirectory⟩ := check_name_eq_ok_iff.mp hs
      simp [Location.go, hi, hname, hdirectory]

theorem steps_eq_ok_iff : Disk.steps path = .ok steps ↔ steps = Path.steps path ∧
    '\x00' ∉ path.toList ∧ (Text.utf8 path).size ≤ Path.maxLength ∧ path ≠ "" := by
  unfold Disk.steps
  by_cases hnul : '\x00' ∈ path.toList
  case pos => simp [hnul]
  case neg =>
    by_cases hlong : (Text.utf8 path).size > Path.maxLength
    case pos => simp [hnul, hlong, Nat.not_le.mpr hlong]
    case neg =>
      have hshort := Nat.not_lt.mp hlong
      by_cases hempty : path = ""
      case pos =>
        rw [if_neg (by simpa using hnul), if_neg hlong, if_pos hempty]
        simp [hempty]
      case neg => simp [hnul, hlong, hempty, hshort, eq_comm]

theorem locate_eq_ok_iff : d.locate path = .ok (some (l, name)) ↔ ∃ before,
    Disk.steps path = .ok (before ++ [.name name]) ∧ d.enter d.home before = .ok l := by
  constructor
  case mp =>
    intro h
    obtain ⟨steps, hsteps, h⟩ := exists_of_bind h
    split at h
    case h_2 =>
      obtain ⟨_, _, h⟩ := exists_of_bind h
      cases h
    case h_1 last hlast =>
      obtain ⟨m, hm, h⟩ := exists_of_bind h
      cases h
      obtain ⟨before, rfl⟩ := List.getLast?_eq_some_iff.mp hlast
      exact ⟨before, hsteps, by simpa using hm⟩
  case mpr =>
    rintro ⟨before, hsteps, hbefore⟩
    simp [locate, hsteps, hbefore, bind, Except.bind, pure, Except.pure]

-- A place at which a path asks for a file.
structure Finds (d : Disk) (path : String) : Prop where
  slash : ¬ Path.endsInSlash path
  place : ∃ l name, d.locate path = .ok (some (l, name)) ∧ (Text.utf8 name).size ≤ Path.maxName

theorem finds_of_child {n : Option Node} (hslash : ¬ Path.endsInSlash path)
    (hplace : d.locate path = .ok (some (l, name))) (hn : d.child l name = .ok n) : d.Finds path := by
  refine ⟨hslash, l, name, hplace, Nat.not_lt.mp fun hlong => ?_⟩
  rw [child, if_pos hlong] at hn
  cases hn

theorem load_eq_ok_iff :
    d.load path = .ok content ↔ d.Finds path ∧ d.file? (d.location path) = some content := by
  constructor
  case mp =>
    intro h
    refine ⟨?_, file?_of_load h⟩
    obtain ⟨place, hplace, h⟩ := exists_of_bind h
    cases place
    case none => cases h
    case some place =>
      obtain ⟨n, hn, h⟩ := exists_of_bind h
      split at h
      case h_1 => cases h
      case h_2 => cases h
      case h_3 =>
        split at h
        case isTrue         => cases h
        case isFalse hslash => exact finds_of_child hslash hplace hn
  case mpr =>
    rintro ⟨⟨hslash, l, name, hplace, hname⟩, hfile⟩
    rw [(steps_of_locate hplace).2, file?] at hfile
    split at hfile <;> cases hfile
    case h_1 hnode => simp [load, hplace, child, Nat.not_lt.mpr hname, hnode, hslash, bind, Except.bind]

theorem save_eq_ok_iff : d.save path content = .ok d' ↔ d.Finds path ∧
    d.node? (d.location path) ≠ some .directory ∧ d' = d.setNode (d.location path) (.file content) := by
  constructor
  case mp =>
    intro h
    have heq := (eq_of_save h).2
    obtain ⟨place, hplace, h⟩ := exists_of_bind h
    cases place
    case none => cases h
    case some place =>
      simp only at h
      split at h
      case isTrue => cases h
      case isFalse hslash =>
        obtain ⟨n, hn, h⟩ := exists_of_bind h
        refine ⟨finds_of_child hslash hplace hn, ?_, heq⟩
        rw [(steps_of_locate hplace).2, child_eq_ok hn]
        rintro rfl
        cases h
  case mpr =>
    rintro ⟨⟨hslash, l, name, hplace, hname⟩, hnode, rfl⟩
    rw [(steps_of_locate hplace).2] at hnode ⊢
    have hchild : d.child l name = .ok (d.node? (l ++ [name])) := if_neg (Nat.not_lt.mpr hname)
    simp only [save, hplace, bind, Except.bind, hslash, hchild, Bool.false_eq_true, if_false]

-- Two disks with the same directories.
structure SameDirectories (d d' : Disk) : Prop where
  home : d'.home = d.home
  node : ∀ l, d'.node? l = some .directory ↔ d.node? l = some .directory

theorem not_isPrefixOf_home (h : d.node? l ≠ some .directory) : l.isPrefixOf d.home = false := by
  refine Bool.eq_false_iff.mpr fun hl => h ?_
  rw [node?, if_pos hl]

theorem sameDirectories_setNode (content : Bytes) (h : d.node? l ≠ some .directory) :
    d.SameDirectories (d.setNode l (.file content)) where
  home := rfl
  node m := by
    by_cases hm : m = l
    case pos =>
      subst hm
      simp [node?_setNode d _ (not_isPrefixOf_home h), h]
    case neg => rw [node?_setNode_of_ne d _ hm]

theorem file?_setNode (content : Bytes) (h : d.node? l ≠ some .directory) (m : Location) :
    (d.setNode l (.file content)).file? m = if l = m then some content else d.file? m := by
  by_cases hm : m = l
  case pos =>
    subst hm
    simp [file?, node?_setNode d _ (not_isPrefixOf_home h)]
  case neg => rw [if_neg (Ne.symm hm), file?, node?_setNode_of_ne d _ hm, file?]

-- No node is kept for the working directory and those above it.
def Apart (d : Disk) : Prop :=
  ∀ entry ∈ d.nodes, ¬ entry.1.isPrefixOf d.home

theorem Apart.setNode (ha : d.Apart) (n : Node) (h : d.node? l ≠ some .directory) : (d.setNode l n).Apart := by
  intro entry hmem
  rcases List.mem_cons.mp hmem with rfl | hmem
  · exact Bool.eq_false_iff.mp (not_isPrefixOf_home (d := d) h)
  · exact ha entry (List.mem_filter.mp hmem).1

-- A table with one node for each location holds what it finds.
theorem lookup_eq_some_iff {entries : List (Location × Node)} (hnodup : (entries.map Prod.fst).Nodup) {n : Node} :
    entries.lookup l = some n ↔ (l, n) ∈ entries := by
  induction entries
  case nil => simp
  case cons entry entries hi =>
    obtain ⟨k, n'⟩ := entry
    obtain ⟨hk, hnodup⟩ := List.nodup_cons.mp hnodup
    by_cases hl : l = k
    case pos =>
      subst hl
      have hnone : (l, n) ∉ entries := fun hmem => hk (List.mem_map.mpr ⟨_, hmem, rfl⟩)
      simp [hnone, eq_comm]
    case neg => simp [List.lookup_cons, beq_false_of_ne hl, hl, hi hnodup]

end Disk
end CellLisp
