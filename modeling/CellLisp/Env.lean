import CellLisp.Cell

namespace CellLisp

abbrev EntryId := Nat

structure Entry where
  name : String
  binding : Value
deriving DecidableEq

structure Env where
  entries : Array Entry
deriving DecidableEq

namespace Env

def empty : Env := ⟨#[]⟩

def size (env : Env) : Nat :=
  env.entries.size

def entry? (env : Env) (name : String) : Option EntryId :=
  env.entries.findIdx? (·.name == name)

-- The entry of a name, made unbound on first use.
def intern (env : Env) (name : String) : EntryId × Env :=
  match env.entry? name with
  | some e => (e, env)
  | none => (env.entries.size, ⟨env.entries.push ⟨name, none⟩⟩)

def binding (env : Env) (e : EntryId) : Value :=
  env.entries[e]?.bind (·.binding)

def lookup (env : Env) (name : String) : Value :=
  (env.entry? name).bind env.binding

def setBinding (env : Env) (e : EntryId) (v : Value) : Env :=
  ⟨env.entries.modify e ({ · with binding := v })⟩

def bind (env : Env) (e : EntryId) (r : Ref) : Env :=
  env.setBinding e (some r)

def unbind (env : Env) (e : EntryId) : Env :=
  env.setBinding e none

def boundNames (env : Env) : List String :=
  let bound := env.entries.toList.filter (·.binding.isSome)
  (bound.map (·.name)).mergeSort Text.byteLE

@[simp]
theorem size_setBinding (env : Env) (e : EntryId) (v : Value) :
    (env.setBinding e v).size = env.size :=
  Array.size_modify

theorem binding_setBinding {env : Env} {e : EntryId} (v : Value) (he : e < env.size) :
    (env.setBinding e v).binding e = v := by
  have he : e < env.entries.size := he
  simp only [binding, setBinding, Array.getElem?_modify]
  simp [he]

theorem binding_setBinding_of_ne {env : Env} {e d : EntryId} (v : Value) (h : d ≠ e) :
    (env.setBinding e v).binding d = env.binding d := by
  simp [binding, setBinding, Array.getElem?_modify, h.symm]

theorem intern_of_entry? {env : Env} {name : String} {e : EntryId} (h : env.entry? name = some e) :
    env.intern name = (e, env) := by
  simp [intern, h]

theorem size_le_intern (env : Env) (name : String) : env.size ≤ (env.intern name).2.size := by
  unfold intern
  split <;> simp [size]

end Env
end CellLisp
