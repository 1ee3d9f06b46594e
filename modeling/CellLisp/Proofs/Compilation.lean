import CellLisp.Proofs.Discipline

namespace CellLisp

open Compiler (Grows)

variable {c d : Compiler}

def soundness : Discipline where
  Stands   := Compiler.Sound
  Fine r c := r < c.heap.size
  Fair m c := m.refers.Within c.extent
  sound          := id
  lt             := id
  within         := id
  fine_mono h hd := Nat.lt_of_lt_of_le h hd.size
  fair_mono h hd := h.mono hd.extent_le
  shared h       := h.shared
  bindings h     := h.bindings _ _
  pending h      := h.pending _
  nesting h      := h.nesting _
  part h _ hx hs := h.cell_refers hx hs
  literal        := id
  bound _ hb     :=
    have ⟨_, hb⟩ := Option.ne_none_iff_exists'.mp hb
    ⟨Env.lt_size_of_binding hb, Env.lt_size_of_binding hb⟩
  store _ he     := he
  embedded h _ hx hc := h.cell_refers hx (Cell.body_mem_refers.mpr hc)
  forward h hn   :=
    have ⟨f, hf, heq⟩ := Nesting.contains_iff.mp hn
    heq ▸ h.nesting f hf
  alloc h hx _   :=
    ⟨h.alloc fun n hn => (have ⟨_, hr, hlt⟩ := hx n hn; hr ▸ hlt), by simp⟩
  intern name h  := (Grows.intern h name).sound
  seed h he hr   := (Grows.seed h he hr).sound
  bindPending h hr := (Grows.bindPending h hr).sound
  opens h hf hs  :=
    ⟨{ h with nesting := by rw [hs]; exact List.forall_mem_cons.mpr ⟨hf, h.nesting⟩ }, fun _ => id⟩
  closes h hs hl hb := by
    have hfill := h.fill hl (Code.within_iff.mpr hb)
    refine ⟨{ hfill with nesting := fun f hf => hfill.nesting f (List.mem_of_mem_tail hf) }, ?_⟩
    simpa [Compiler.closed] using Heap.lt_size_of_get? hl

namespace Compiler

-- No expression is being compiled.
structure Idle (c : Compiler) : Prop where
  nesting : c.nesting = .empty
  pending : c.pending = []
  seeded  : c.seeded = []

-- What a whole compilation leaves behind.
structure Extends (c d : Compiler) : Prop where
  sound : d.Sound
  idle  : d.Idle
  size  : c.heap.size ≤ d.heap.size
  cells : ∀ r < c.heap.size, d.heap.get? r = c.heap.get? r
  whole : ∀ r x, c.heap.size ≤ r → d.heap.get? r = some x → x.Whole
  names : c.env.names <+: d.env.names
  bound : ∀ e, c.env.binding e ≠ none → d.env.binding e = c.env.binding e
  codes : c.codes.toList <+: d.codes.toList

theorem Extends.extent_le (h : c.Extends d) : c.extent ≤ d.extent :=
  extent_le_of_prefix h.size h.names h.codes

variable {expr : Value} {required : Rep}

-- Success only forgets what the compilation kept in mind.
theorem Grows.committed (h : c.Grows d) (hi : c.Idle) :
    c.Extends { d with pending := [], seeded := [] } :=
  { h with
    sound      := { h.sound with pending := by simp }
    idle       := ⟨h.nesting.trans hi.nesting, rfl, rfl⟩
    bound e he := h.bindings e (.inr he) }

-- The entries that are unbound again are those that were unbound before.
theorem Grows.binding_unwound (h : c.Grows d) (hi : c.Idle) (e : EntryId) :
    (d.seeded.foldl Env.unbind d.env).binding e = c.env.binding e := by
  rw [Env.binding_foldl_unbind]
  split
  case isFalse he => exact h.bindings e (.inl he)
  case isTrue he =>
    rcases h.unbound e he with hc | hc
    · simp [hi.seeded] at hc
    · exact hc.symm

theorem Grows.unwound (h : c.Grows d) (hs : c.Sound) (hi : c.Idle) :
    c.Extends { d with
      env     := d.seeded.foldl Env.unbind d.env
      nesting := .empty
      pending := []
      seeded  := [] } := by
  have hb := h.binding_unwound hi
  have hsize : d.env.size ≤ (d.seeded.foldl Env.unbind d.env).size := by
    simp [← Env.length_names]
  have hsound := h.sound.withEnv hsize fun e r he =>
    Nat.lt_of_lt_of_le (hs.bindings e r (hb e ▸ he)) h.size
  exact { h with
    sound     := { hsound with pending := by simp, nesting := by simp [Nesting.empty] }
    idle      := ⟨rfl, rfl, rfl⟩
    names     := by simpa using h.names
    bound e _ := hb e }

end Compiler

theorem compile_extends (expr : Value) (required : Rep) (h : c.Sound) (hi : c.Idle) :
    Ensures (compile expr required) c (fun code d => c.Extends d ∧ code.Within d)
      (fun d => c.Extends d ∧ ∀ e, d.env.binding e = c.env.binding e) := by
  have hcode := soundness.form_compiles expr required h fun _ _ hr => hr
  unfold Ensures compile
  cases hrun : (c.heap.form expr).code required c
  case ok code d =>
    have ⟨hd, hc⟩ := Ensures.of_ok hcode hrun
    exact ⟨hd.grows.committed hi, Code.within_iff.mpr hc⟩
  case error e d =>
    have hd := Ensures.of_error hcode hrun
    exact ⟨hd.unwound h hi, hd.binding_unwound hi⟩

end CellLisp
