import CellLisp.Proofs.Outcome
import CellLisp.Proofs.Reference
import Mathlib.Data.List.Infix

namespace CellLisp

namespace Compiler

theorem extent_le_of_prefix {c d : Compiler} (hs : c.heap.size ≤ d.heap.size)
    (hn : c.env.names <+: d.env.names) (hc : c.codes.toList <+: d.codes.toList) :
    c.extent ≤ d.extent where
  cells   := hs
  entries := by simpa [extent] using hn.length_le
  bodies  := by simpa [extent] using hc.length_le

-- Besides what stays as it was: an entry that gets a binding is recorded as seeded, and was unbound.
structure Grows (c d : Compiler) : Prop where
  sound    : d.Sound
  size     : c.heap.size ≤ d.heap.size
  cells    : ∀ r < c.heap.size, d.heap.get? r = c.heap.get? r
  whole    : ∀ r x, c.heap.size ≤ r → d.heap.get? r = some x → x.Whole
  names    : c.env.names <+: d.env.names
  seeded   : c.seeded ⊆ d.seeded
  unbound  : ∀ e ∈ d.seeded, e ∈ c.seeded ∨ c.env.binding e = none
  bindings : ∀ e, e ∉ d.seeded ∨ c.env.binding e ≠ none → d.env.binding e = c.env.binding e
  codes    : c.codes.toList <+: d.codes.toList
  nesting  : d.nesting = c.nesting

namespace Grows

variable {b c d : Compiler}

theorem refl (h : c.Sound) : c.Grows c where
  sound          := h
  size           := Nat.le_refl _
  cells _ _      := rfl
  whole _ _ hr hx := by simp [Heap.get?_eq_none_iff.mpr hr] at hx
  names          := List.prefix_refl _
  seeded         := List.Subset.refl _
  unbound _ he   := .inl he
  bindings _ _   := rfl
  codes          := List.prefix_refl _
  nesting        := rfl

theorem trans (h : b.Grows c) (h' : c.Grows d) : b.Grows d where
  sound         := h'.sound
  size          := Nat.le_trans h.size h'.size
  cells r hr    := (h'.cells r (Nat.lt_of_lt_of_le hr h.size)).trans (h.cells r hr)
  whole r x hr hx := by
    by_cases hlt : r < c.heap.size
    case pos => exact h.whole r x hr ((h'.cells r hlt).symm.trans hx)
    case neg => exact h'.whole r x (Nat.not_lt.mp hlt) hx
  names         := h.names.trans h'.names
  seeded        := List.Subset.trans h.seeded h'.seeded
  unbound e he  := by
    rcases h'.unbound e he with hc | hc
    · exact h.unbound e hc
    -- What was bound at first has stayed bound, so what is seeded later was unbound all along.
    · by_cases hb : b.env.binding e = none
      · exact .inr hb
      · exact absurd (h.bindings e (.inr hb) ▸ hc) hb
  bindings e he := by
    have hb : c.env.binding e = b.env.binding e :=
      h.bindings e (he.imp_left fun hd hc => hd (h'.seeded hc))
    rw [← hb] at he ⊢
    exact h'.bindings e he
  codes         := h.codes.trans h'.codes
  nesting       := h'.nesting.trans h.nesting

theorem extent_le (h : c.Grows d) : c.extent ≤ d.extent :=
  extent_le_of_prefix h.size h.names h.codes

-- A name that is bound stays bound to the same cell.
theorem lookup {name : String} {r : Ref} (h : c.Grows d) (hr : c.env.lookup name = some r) :
    d.env.lookup name = some r := by
  have ⟨e, he, hr⟩ := Option.bind_eq_some_iff.mp hr
  rw [Env.lookup, Env.entry?_of_names_prefix h.names he, Option.bind_some]
  exact (h.bindings e (.inr (by simp [hr]))).trans hr

theorem alloc {cell : Cell} (h : c.Sound) (hc : ∀ n ∈ cell.refers, n.Within c.extent)
    (hw : cell.Whole) : c.Grows { c with heap := (c.heap.alloc cell).2 } :=
  { refl h with
    sound       := h.alloc hc
    size        := by simp
    cells _ hr  := Heap.get?_alloc_of_lt cell hr
    whole r x hr hx := by
      rw [Heap.get?_alloc] at hx
      split at hx
      case isTrue  => exact Option.some.inj hx ▸ hw
      case isFalse => exact (refl h).whole r x hr hx }

theorem intern (h : c.Sound) (name : String) : c.Grows { c with env := (c.env.intern name).2 } :=
  { refl h with
    sound        := h.withEnv (Env.size_le_intern _ _) fun e r he =>
                      h.bindings e r (Env.binding_intern c.env name e ▸ he)
    names        := Env.names_intern _ _
    bindings e _ := Env.binding_intern _ _ e }

theorem seed {e : EntryId} {r : Ref} (h : c.Sound) (he : c.env.binding e = none)
    (hr : r < c.heap.size) :
    c.Grows { c with env := c.env.bind e r, seeded := e :: c.seeded } :=
  { refl h with
    sound         := { h.setBinding fun _ hs => Option.some.inj hs ▸ hr with }
    names         := by simp [Env.bind]
    seeded        := List.subset_cons_self _ _
    unbound d hd  := by
      rcases List.mem_cons.mp hd with rfl | hd
      · exact .inr he
      · exact .inl hd
    bindings d hd := Env.binding_setBinding_of_ne _ fun hde => by subst hde; simp [he] at hd }

theorem bindPending {e : EntryId} {r : Ref} (h : c.Sound) (hr : r < c.heap.size) :
    c.Grows { c with pending := (e, r) :: c.pending } :=
  { refl h with
    sound := { h with
      pending p hp := by
        rcases List.mem_cons.mp hp with rfl | hp
        · exact hr
        · exact h.pending p hp } }

-- The cell of a function literal is new to whoever compiles the literal, so filling in its code
-- changes no cell that was there.
theorem finish {lambda : Ref} {params : Value} {body : Code .cell} (h : c.Grows d)
    (hl : c.heap.size ≤ lambda) (hd : d.heap.get? lambda = some (.lambda params none))
    (hb : body.Within d) :
    c.Grows { d with
      heap  := d.heap.set lambda (.lambda params (some d.codes.size))
      codes := d.codes.push body } := by
  refine { h with
    sound := h.sound.fill hd hb
    size  := by simpa using h.size
    cells := fun r hr => ?_
    whole := fun r x hr hx => ?_
    codes := ?_ }
  · rw [Heap.get?_set_of_ne _ (Nat.ne_of_lt (Nat.lt_of_lt_of_le hr hl)), h.cells r hr]
  · by_cases hrl : r = lambda
    case neg => exact h.whole r x hr ((Heap.get?_set_of_ne _ hrl).symm.trans hx)
    case pos =>
      rw [hrl, Heap.get?_set_self _ (Heap.lt_size_of_get? hd)] at hx
      exact Option.some.inj hx ▸ trivial
  · simpa using h.codes.trans (List.prefix_append _ _)

end Grows
end Compiler
end CellLisp
