import CellLisp.Proofs.Encoding
import CellLisp.Proofs.Environment
import Mathlib.Data.Finset.Dedup
import Mathlib.Data.Finset.Card
import Mathlib.Data.List.Induction

namespace CellLisp

namespace Env

-- What is done to an environment. Entries are those that interning gives; at a number that is not an entry
-- yet, nothing is bound.
inductive Change
  | intern (name : String)
  | bind (e : EntryId) (r : Ref)
  | unbind (e : EntryId)

namespace Change

def name? : Change → Option String
  | intern name => some name
  | bind _ _    => none
  | unbind _    => none

theorem name?_eq_some_iff {c : Change} {name : String} : c.name? = some name ↔ c = .intern name := by
  cases c <;> simp [name?]

-- The entry that gets another binding.
def target? : Change → Option EntryId
  | intern _ => none
  | bind e _ => some e
  | unbind e => some e

end Change

def perform (env : Env) : Change → Env
  | .intern name => (env.intern name).2
  | .bind e r    => env.bind e r
  | .unbind e    => env.unbind e

-- The environment that changes lead to.
def after (cs : List Change) : Env :=
  cs.foldl perform empty

-- Among the changes, the name was interned and the entry was the answer.
def Gives (cs : List Change) (name : String) (e : EntryId) : Prop :=
  ∃ before later, cs = before ++ .intern name :: later ∧ ((after before).intern name).1 = e

-- After the others, the change is one to the name's binding.
def Change.Concerns (cs : List Change) (name : String) (c : Change) : Prop :=
  ∃ e, c.target? = some e ∧ Gives cs name e

section Listing

variable {env : Env} {name : String} {e : EntryId}

-- Where no name stands twice, an entry is found by its name.
theorem entry?_of_getElem?_names (h : env.names.Nodup) (he : env.names[e]? = some name) :
    env.entry? name = some e := by
  cases hd : env.entry? name
  case none   => exact absurd (List.mem_of_getElem? he) (entry?_eq_none_iff.mp hd)
  case some d =>
    have hlt : e < env.names.length := (List.getElem?_eq_some_iff.mp he).1
    rw [(List.getElem?_inj hlt h).mp (he.trans (getElem?_names hd).symm)]

theorem mem_boundNames (h : env.names.Nodup) :
    name ∈ env.boundNames ↔ ∃ r, env.lookup name = some r := by
  simp only [boundNames, List.mem_mergeSort, List.mem_map, List.mem_filter, lookup, Option.bind_eq_some_iff]
  constructor
  case mp =>
    rintro ⟨entry, ⟨hmem, hbound⟩, hname⟩
    obtain ⟨e, he⟩ := List.getElem?_of_mem hmem
    obtain ⟨r, hr⟩ := Option.isSome_iff_exists.mp hbound
    refine ⟨r, e, entry?_of_getElem?_names h ?_, ?_⟩
    · rw [names, List.getElem?_map, he, Option.map_some, hname]
    · rw [binding, ← Array.getElem?_toList, he, Option.bind_some, hr]
  case mpr =>
    rintro ⟨r, e, he, hr⟩
    have hname := getElem?_names he
    rw [names, List.getElem?_map, Option.map_eq_some_iff] at hname
    obtain ⟨entry, hentry, hname⟩ := hname
    rw [binding, ← Array.getElem?_toList, hentry, Option.bind_some] at hr
    exact ⟨entry, ⟨List.mem_of_getElem? hentry, by rw [hr, Option.isSome_some]⟩, hname⟩

theorem nodup_boundNames (h : env.names.Nodup) : env.boundNames.Nodup := by
  have hsub : ((env.entries.toList.filter (·.binding.isSome)).map (·.name)).Sublist env.names :=
    List.filter_sublist.map _
  exact (List.mergeSort_perm _ _).nodup_iff.mpr (h.sublist hsub)

theorem boundNames_ascending (h : env.names.Nodup) :
    env.boundNames.Pairwise fun s t => (Text.utf8 s).toList < (Text.utf8 t).toList := by
  have hle : env.boundNames.Pairwise (Text.byteLE · ·) := Text.pairwise_mergeSort _
  exact hle.imp₂ (fun _ _ => Text.lt_of_byteLE_of_ne) (nodup_boundNames h)

end Listing

section Step

variable {env : Env} {name : String}

theorem names_perform (env : Env) (c : Change) : env.names <+: (env.perform c).names := by
  cases c
  case intern name => exact env.names_intern name
  case bind e r    => exact (env.names_setBinding e (some r)).symm ▸ List.prefix_refl _
  case unbind e    => exact (env.names_setBinding e none).symm ▸ List.prefix_refl _

theorem mem_names_perform (env : Env) (c : Change) :
    name ∈ (env.perform c).names ↔ name ∈ env.names ∨ c = .intern name := by
  cases c
  case bind   => simp [perform, bind]
  case unbind => simp [perform, unbind]
  case intern other =>
    simp only [perform, names_intern_eq, Change.intern.injEq]
    split
    case isTrue h  => grind
    case isFalse h => grind

theorem nodup_names_perform (h : env.names.Nodup) (c : Change) : (env.perform c).names.Nodup := by
  cases c
  case bind   => simpa [perform, bind] using h
  case unbind => simpa [perform, unbind] using h
  case intern name =>
    rw [perform, names_intern_eq]
    split
    case isTrue       => exact h
    case isFalse hnew => exact List.nodup_append.mpr ⟨h, by simp, by grind⟩

-- A binding is what it was, or what a change to its entry has made of it.
theorem binding_perform_of_ne {c : Change} {e : EntryId} (h : c.target? ≠ some e) :
    (env.perform c).binding e = env.binding e := by
  cases c
  case intern name => exact env.binding_intern name e
  case bind d r    => exact binding_setBinding_of_ne _ fun hde => h (congrArg some hde.symm)
  case unbind d    => exact binding_setBinding_of_ne _ fun hde => h (congrArg some hde.symm)

theorem bind_of_binding_perform {c : Change} {e : EntryId} {r : Ref} (h : c.target? = some e)
    (hr : (env.perform c).binding e = some r) : c = .bind e r ∧ e < env.size := by
  cases c
  case intern name => cases h
  case bind d s    =>
    cases h
    have hlt : e < env.size := by simpa [perform, bind] using lt_size_of_binding hr
    rw [perform, bind, binding_setBinding _ hlt, Option.some.injEq] at hr
    exact ⟨by rw [hr], hlt⟩
  case unbind d    =>
    cases h
    simp [perform, binding_unbind] at hr

theorem lookup_perform_of_ne {c : Change} (h : ∀ e, c.target? = some e → env.entry? name ≠ some e) :
    (env.perform c).lookup name = env.lookup name := by
  cases hc : c.target?
  case none   => exact lookup_eq (names_perform env c) fun e => binding_perform_of_ne (by simp [hc])
  case some d =>
    -- Only interning adds a name.
    have hnames : (env.perform c).names = env.names := by
      cases c
      case intern => cases hc
      case bind   => exact names_setBinding _ _ _
      case unbind => exact names_setBinding _ _ _
    rw [lookup, lookup, entry?_eq_names, hnames, ← entry?_eq_names]
    cases he : env.entry? name
    case none   => rfl
    case some e =>
      have hne : c.target? ≠ some e := fun ht => h e ht he
      exact binding_perform_of_ne hne

end Step

section Run

variable {cs later : List Change} {name : String} {e : EntryId} {r : Ref}

theorem after_concat (cs : List Change) (c : Change) : after (cs ++ [c]) = (after cs).perform c :=
  List.foldl_append

theorem names_after_append (cs later : List Change) : (after cs).names <+: (after (cs ++ later)).names := by
  induction later using List.reverseRecOn
  case nil                         => rw [List.append_nil]
  case append_singleton later c hi =>
    rw [← List.append_assoc, after_concat]
    exact hi.trans (names_perform _ c)

theorem nodup_names_after (cs : List Change) : (after cs).names.Nodup := by
  induction cs using List.reverseRecOn
  case nil                      => exact List.nodup_nil
  case append_singleton cs c hi => exact after_concat cs c ▸ nodup_names_perform hi c

theorem mem_names_after : name ∈ (after cs).names ↔ .intern name ∈ cs := by
  induction cs using List.reverseRecOn
  case nil                      => simp [after, empty, names]
  case append_singleton cs c hi => simp [after_concat, mem_names_perform, hi, eq_comm]

-- The answer of an interning is the name's entry from then on.
theorem entry?_after_intern (before later : List Change) (name : String) :
    Env.entry? (after (before ++ .intern name :: later)) name = some ((after before).intern name).1 := by
  have hnames := names_after_append (before ++ [.intern name]) later
  rw [List.append_assoc, after_concat] at hnames
  exact entry?_of_names_prefix hnames (entry?_intern _ _)

theorem entry?_after_iff : Env.entry? (after cs) name = some e ↔ Gives cs name e := by
  constructor
  case mp =>
    intro he
    have hmem : .intern name ∈ cs := mem_names_after.mp (List.mem_of_getElem? (getElem?_names he))
    obtain ⟨before, later, rfl⟩ := List.append_of_mem hmem
    rw [entry?_after_intern] at he
    exact ⟨before, later, rfl, Option.some.inj he⟩
  case mpr =>
    rintro ⟨before, later, rfl, rfl⟩
    exact entry?_after_intern before later name

theorem intern_after_iff {other : String} (h : Gives cs name e) :
    ((after cs).intern other).1 = e ↔ other = name := by
  have he : Env.entry? (after (cs ++ [.intern other])) name = some e :=
    entry?_of_names_prefix (names_after_append cs _) (entry?_after_iff.mpr h)
  have hother := entry?_after_intern cs [] other
  constructor
  case mp  => exact fun heq => entry?_inj hother (heq ▸ he)
  case mpr =>
    rintro rfl
    exact Option.some.inj (hother.symm.trans he)

theorem binding_after_append (h : ∀ c ∈ later, c.target? ≠ some e) :
    (after (cs ++ later)).binding e = (after cs).binding e := by
  induction later using List.reverseRecOn
  case nil                         => rw [List.append_nil]
  case append_singleton later c hi =>
    have hc : c.target? ≠ some e := h c (by simp)
    have hlater := hi fun c' hc' => h c' (List.mem_append_left [c] hc')
    rw [← List.append_assoc, after_concat, binding_perform_of_ne hc, hlater]

-- The last change to an entry, if it is bound, was the one that bound it.
theorem exists_bind_of_binding_after (h : (after cs).binding e = some r) :
    ∃ before later, cs = before ++ .bind e r :: later ∧ e < (after before).size ∧
      ∀ c ∈ later, c.target? ≠ some e := by
  induction cs using List.reverseRecOn
  case nil => simp [after, empty, binding] at h
  case append_singleton cs c hi =>
    rw [after_concat] at h
    by_cases hc : c.target? = some e
    case pos =>
      obtain ⟨rfl, hlt⟩ := bind_of_binding_perform hc h
      exact ⟨cs, [], rfl, hlt, by simp⟩
    case neg =>
      obtain ⟨before, later, rfl, hlt, hlater⟩ := hi (binding_perform_of_ne hc ▸ h)
      refine ⟨before, later ++ [c], by simp, hlt, fun c' hc' => ?_⟩
      rcases List.mem_append.mp hc' with hc' | hc'
      · exact hlater c' hc'
      · rwa [List.mem_singleton.mp hc']

theorem lookup_after_iff : (after cs).lookup name = some r ↔
    ∃ before e later, cs = before ++ .bind e r :: later ∧ Gives before name e ∧
      ∀ c ∈ later, c.target? ≠ some e := by
  rw [lookup, Option.bind_eq_some_iff]
  constructor
  case mp =>
    rintro ⟨e, he, hr⟩
    obtain ⟨before, later, rfl, hlt, hlater⟩ := exists_bind_of_binding_after hr
    have hbefore := entry?_of_lt (names_after_append before _) he hlt
    exact ⟨before, e, later, rfl, entry?_after_iff.mp hbefore, hlater⟩
  case mpr =>
    rintro ⟨before, e, later, rfl, hgives, hlater⟩
    have he := entry?_after_iff.mpr hgives
    have hlt := lt_size_of_entry? he
    refine ⟨e, entry?_of_names_prefix (names_after_append before _) he, ?_⟩
    have hbound : (after (before ++ [.bind e r])).binding e = some r := by
      rw [after_concat]
      exact binding_setBinding _ hlt
    rw [List.append_cons, binding_after_append hlater, hbound]

theorem lookup_after_append
    (h : ∀ before c, before ++ [c] <+: later → ¬ c.Concerns (cs ++ before) name) :
    (after (cs ++ later)).lookup name = (after cs).lookup name := by
  induction later using List.reverseRecOn
  case nil                         => rw [List.append_nil]
  case append_singleton later c hi =>
    have hc := h later c (List.prefix_refl _)
    have hlater := hi fun before c' hc' => h before c' (hc'.trans (List.prefix_append _ _))
    rw [← List.append_assoc, after_concat, ← hlater]
    exact lookup_perform_of_ne fun e ht he => hc ⟨e, ht, entry?_after_iff.mp he⟩

theorem size_after (cs : List Change) : (after cs).size = (cs.filterMap Change.name?).toFinset.card := by
  have hnames : (after cs).names.toFinset = (cs.filterMap Change.name?).toFinset := by
    ext name
    rw [List.mem_toFinset, List.mem_toFinset, mem_names_after, List.mem_filterMap]
    simp [Change.name?_eq_some_iff]
  rw [← hnames, List.toFinset_card_of_nodup (nodup_names_after cs), length_names]

end Run

-- The environment after the changes is a finite map whose names have identities. What comes later does not
-- matter to a name as long as no change, where it stands, is one to the name's binding.
structure MapsNames (cs : List Change) : Prop where
  identities : ∀ name e other, Gives cs name e → (((after cs).intern other).1 = e ↔ other = name)
  entries    : ∀ name e, Env.entry? (after cs) name = some e ↔ Gives cs name e
  lookups    : ∀ name r, (after cs).lookup name = some r ↔
    ∃ before e later, cs = before ++ .bind e r :: later ∧ Gives before name e ∧
      ∀ c ∈ later, c.target? ≠ some e
  others     : ∀ name later, (∀ before c, before ++ [c] <+: later → ¬ c.Concerns (cs ++ before) name) →
    (after (cs ++ later)).lookup name = (after cs).lookup name
  counts     : (after cs).size = (cs.filterMap Change.name?).toFinset.card
  grows      : ∀ later, (after cs).size ≤ (after (cs ++ later)).size
  ascending  : (after cs).boundNames.Pairwise fun s t => (Text.utf8 s).toList < (Text.utf8 t).toList
  bound      : ∀ name, name ∈ (after cs).boundNames ↔ ∃ r, (after cs).lookup name = some r

theorem mapsNames (cs : List Change) : MapsNames cs where
  identities _ _ _ h := intern_after_iff h
  entries _ _        := entry?_after_iff
  lookups _ _        := lookup_after_iff
  others _ _ h       := lookup_after_append h
  counts             := size_after cs
  grows later        := by simpa using (names_after_append cs later).length_le
  ascending          := boundNames_ascending (nodup_names_after cs)
  bound _            := mem_boundNames (nodup_names_after cs)

end Env
end CellLisp
