import CellLisp.Env
import Mathlib.Data.List.Infix

namespace CellLisp

namespace Env

variable {env env' : Env} {e d : EntryId} {name name' : String}

def names (env : Env) : List String :=
  env.entries.toList.map (·.name)

@[simp]
theorem length_names : env.names.length = env.size := by
  simp [names, size]

section Entries

theorem entry?_eq_names (env : Env) (name : String) :
    env.entry? name = env.names.findIdx? (· == name) := by
  obtain ⟨⟨entries⟩⟩ := env
  simp [ entry?, names, List.findIdx?_map, Function.comp_def]

theorem entry?_eq_none_iff : env.entry? name = none ↔ name ∉ env.names := by
  rw [entry?_eq_names, List.findIdx?_eq_none_iff]
  refine ⟨fun h hmem => by simpa using h name hmem, fun h other hmem => ?_⟩
  exact beq_eq_false_iff_ne.mpr (ne_of_mem_of_not_mem hmem h)

theorem lt_size_of_entry? (h : env.entry? name = some e) : e < env.size := by
  rw [entry?_eq_names, List.findIdx?_eq_some_iff_findIdx_eq] at h
  simpa using h.1

theorem getElem?_names (h : env.entry? name = some e) : env.names[e]? = some name := by
  rw [entry?_eq_names, List.findIdx?_eq_some_iff_getElem] at h
  obtain ⟨hlt, hname, _⟩ := h
  rw [List.getElem?_eq_getElem hlt, eq_of_beq hname]

theorem entry?_inj (h : env.entry? name = some e) (h' : env.entry? name' = some e) : name = name' :=
  Option.some.inj ((getElem?_names h).symm.trans (getElem?_names h'))

theorem entry?_of_names_prefix (hn : env.names <+: env'.names) (he : env.entry? name = some e) :
    env'.entry? name = some e := by
  obtain ⟨new, hn⟩ := hn
  rw [entry?_eq_names] at he ⊢
  rw [← hn, List.findIdx?_append, he, Option.some_or]

-- A name whose entry is an old one is an old name.
theorem entry?_of_lt (hn : env.names <+: env'.names) (he : env'.entry? name = some e)
    (hlt : e < env.size) : env.entry? name = some e := by
  obtain ⟨new, hn⟩ := hn
  rw [entry?_eq_names, ← hn, List.findIdx?_append] at he
  rw [entry?_eq_names]
  cases h : env.names.findIdx? (· == name)
  case some => simpa [h] using he
  case none =>
    simp only [h, Option.none_or, Option.map_eq_some_iff] at he
    obtain ⟨i, _, rfl⟩ := he
    exact absurd hlt (by simp)

end Entries

section Bindings

@[simp]
theorem names_setBinding (env : Env) (e : EntryId) (v : Value) :
    (env.setBinding e v).names = env.names := by
  apply List.ext_getElem?
  intro i
  simp only [names, setBinding, List.getElem?_map, Array.getElem?_toList, Array.getElem?_modify]
  split <;> simp [Function.comp_def]

theorem binding_eq_none_of_le (h : env.size ≤ e) : env.binding e = none := by
  simp [binding, Array.getElem?_eq_none h]

theorem lt_size_of_binding {r : Ref} (h : env.binding e = some r) : e < env.size := by
  by_contra hle
  simp [binding_eq_none_of_le (Nat.le_of_not_lt hle)] at h

-- An entry that is not there is not bound either.
theorem binding_setBinding_eq (env : Env) (e d : EntryId) (v : Value) :
    (env.setBinding e v).binding d = if d = e ∧ e < env.size then v else env.binding d := by
  by_cases hd : d = e
  case neg => simp [hd, binding_setBinding_of_ne]
  case pos =>
    subst hd
    by_cases hlt : d < env.size
    case pos => simp [hlt, binding_setBinding]
    case neg =>
      have hle := Nat.le_of_not_lt hlt
      rw [binding_eq_none_of_le (by simpa using hle), binding_eq_none_of_le hle]
      simp [hlt]

theorem eq_or_binding_of_setBinding {v : Value} {r : Ref} (h : (env.setBinding e v).binding d = some r) :
    d = e ∧ v = some r ∨ env.binding d = some r := by
  rw [binding_setBinding_eq] at h
  split at h
  case isTrue hd => exact .inl ⟨hd.1, h⟩
  case isFalse   => exact .inr h

theorem binding_unbind (env : Env) (e d : EntryId) :
    (env.unbind e).binding d = if d = e then none else env.binding d := by
  rw [unbind, binding_setBinding_eq]
  by_cases hd : d = e
  case neg => simp [hd]
  case pos =>
    by_cases hlt : e < env.size
    case pos => simp [hd, hlt]
    case neg => simp [hd, binding_eq_none_of_le (Nat.le_of_not_lt hlt)]

@[simp]
theorem names_foldl_unbind (es : List EntryId) (env : Env) :
    (es.foldl unbind env).names = env.names := by
  induction es generalizing env
  case nil     => rfl
  case cons hi => simp [hi, unbind]

theorem binding_foldl_unbind (es : List EntryId) (env : Env) (e : EntryId) :
    (es.foldl unbind env).binding e = if e ∈ es then none else env.binding e := by
  induction es generalizing env
  case nil => simp
  case cons d es hi =>
    rw [List.foldl_cons, hi, binding_unbind]
    by_cases hde : e = d
    case pos => simp [hde]
    case neg => simp [hde]

-- A name that is new finds an entry with no binding, so it stays as unbound as it was.
theorem lookup_eq (hn : env.names <+: env'.names) (hb : ∀ e, env'.binding e = env.binding e) :
    env'.lookup name = env.lookup name := by
  obtain ⟨new, hn⟩ := hn
  simp only [lookup, entry?_eq_names, ← hn, List.findIdx?_append]
  cases h : env.names.findIdx? (· == name)
  case some e => simp [hb]
  case none =>
    simp only [Option.none_or, Option.bind_none, Option.bind_eq_none_iff, Option.map_eq_some_iff]
    intro e ⟨i, _, he⟩
    rw [hb, binding_eq_none_of_le]
    simp [← he]

end Bindings

section Interning

theorem intern_cases (env : Env) (name : String) :
    (∃ e, env.entry? name = some e ∧ env.intern name = (e, env)) ∨
    (env.entry? name = none ∧
      env.intern name = (env.size, ⟨env.entries.push ⟨name, none⟩⟩)) := by
  cases h : env.entry? name
  case some e => exact .inl ⟨e, rfl, intern_of_entry? h⟩
  case none   => exact .inr ⟨rfl, by simp [intern, h, size]⟩

theorem names_intern_eq (env : Env) (name : String) :
    (env.intern name).2.names = if name ∈ env.names then env.names else env.names ++ [name] := by
  rcases env.intern_cases name with ⟨e, he, h⟩ | ⟨he, h⟩
  · have hmem : name ∈ env.names := List.mem_of_getElem? (getElem?_names he)
    rw [h, if_pos hmem]
  · rw [h, if_neg (entry?_eq_none_iff.mp he)]
    simp [names]

theorem names_intern (env : Env) (name : String) : env.names <+: (env.intern name).2.names := by
  rw [names_intern_eq]
  split
  case isTrue  => exact List.prefix_refl _
  case isFalse => exact List.prefix_append _ _

theorem binding_intern (env : Env) (name : String) (e : EntryId) :
    (env.intern name).2.binding e = env.binding e := by
  rcases env.intern_cases name with ⟨e, _, h⟩ | ⟨_, h⟩
  · simp [h]
  · simp only [h, binding, Array.getElem?_push]
    split
    case isTrue he => simp [he]
    case isFalse   => rfl

theorem entry?_intern (env : Env) (name : String) :
    Env.entry? (env.intern name).2 name = some (env.intern name).1 := by
  rcases env.intern_cases name with ⟨e, he, h⟩ | ⟨he, h⟩
  · rw [h, he]
  · have hnames := env.names_intern_eq name
    rw [if_neg (entry?_eq_none_iff.mp he)] at hnames
    rw [entry?_eq_names] at he
    rw [entry?_eq_names, hnames, List.findIdx?_append, he, h]
    simp

theorem intern_lt (env : Env) (name : String) : (env.intern name).1 < (env.intern name).2.size :=
  lt_size_of_entry? (env.entry?_intern name)

end Interning

end Env
end CellLisp
