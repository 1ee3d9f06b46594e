import CellLisp.Proofs.Acyclicity
import CellLisp.Proofs.Simulation

namespace CellLisp

theorem Heap.get?_set (h : Heap) (r s : Ref) (x : Cell) :
    (h.set r x).get? s = if s = r ∧ r < h.size then some x else h.get? s := by
  by_cases hs : s = r
  case neg => simp [hs, get?_set_of_ne]
  case pos =>
    subst hs
    by_cases hlt : s < h.size
    case pos => simp [hlt, get?_set_self]
    case neg =>
      have hnone {g : Heap} (hg : g.size ≤ s) : g.get? s = none := Array.getElem?_eq_none hg
      have hle := Nat.le_of_not_lt hlt
      rw [hnone (by simpa using hle), hnone hle]
      simp [hlt]

-- The place that a cell has if the first `n` cells are followed by `k` more.
def shift (n k r : Nat) : Nat :=
  if r < n then r else r + k

namespace Shift

variable {n k r s : Nat}

theorem of_lt (h : r < n) : shift n k r = r :=
  if_pos h

theorem of_le (h : n ≤ r) : shift n k r = r + k :=
  if_neg (Nat.not_lt.mpr h)

theorem le (n k r : Nat) : r ≤ shift n k r := by
  unfold shift
  split <;> omega

theorem eq_iff : shift n k r = shift n k s ↔ r = s := by
  unfold shift
  split <;> split <;> omega

theorem lt_iff {size : Nat} (h : n ≤ size) : shift n k r < size + k ↔ r < size := by
  unfold shift
  split <;> omega

end Shift

namespace Cell

variable {head tail params : Value} {id : Option CodeId} {s : Ref}

theorem mem_refers_cons : .cell s ∈ (cons head tail).refers ↔ head = some s ∨ tail = some s := by
  simp [cell_mem_refers, head?, tail?, params?]

theorem mem_refers_lambda : .cell s ∈ (lambda params id).refers ↔ params = some s := by
  simp [cell_mem_refers, head?, tail?, params?]

theorem relocate_of_fixed {place : Ref → Ref} {x : Cell} (h : ∀ s, .cell s ∈ x.refers → place s = s) :
    x.relocate place = x := by
  have fixed {v : Value} (hv : ∀ s, v = some s → .cell s ∈ x.refers) : v.map place = v := by
    cases v
    case none   => rfl
    case some s => exact congrArg some (h s (hv s rfl))
  cases x
  case cons =>
    rw [relocate, fixed fun s hs => mem_refers_cons.mpr (.inl hs), fixed fun s hs => mem_refers_cons.mpr (.inr hs)]
  case lambda => rw [relocate, fixed fun s hs => mem_refers_lambda.mpr hs]
  case spoilt rest =>
    cases rest
    case cons tail =>
      have htail : tail.map place = tail := fixed fun s hs => cell_mem_refers.mpr (.inr (.inl hs))
      rw [relocate, htail]
    all_goals rfl
  all_goals rfl

end Cell

theorem lookup_map_snd (place : Ref → Ref) (e : EntryId) (ps : List (EntryId × Ref)) :
    (ps.map fun p => (p.1, place p.2)).lookup e = (ps.lookup e).map place := by
  induction ps
  case nil          => rfl
  case cons p ps hi =>
    obtain ⟨e', r⟩ := p
    simp only [List.map_cons, List.lookup_cons, hi]
    cases e == e' <;> rfl

namespace Heap

variable {h h' : Heap} {place : Ref → Ref} (hc : ∀ r, h'.get? (place r) = (h.get? r).map (·.relocate place))

include hc

theorem Walk.upto_relocate {α : Type} (w : h.Walk α) (w' : h'.Walk α) (move : α → α)
    (hnothing : w'.nothing = move w.nothing)
    (hstep : ∀ f g r x, (∀ v, f (v.map place) = move (g v)) →
      w'.step f (place r) (x.relocate place) = move (w.step g r x)) (depth : Nat) (v : Value) :
    w'.upto depth (v.map place) = move (w.upto depth v) := by
  induction depth generalizing v
  case zero => rw [w.zero, w'.zero, hnothing]
  case succ depth hi =>
    rw [w.succ, w'.succ]
    cases v
    case none   => exact hnothing
    case some r =>
      simp only [stepWith, Option.map_some, hc]
      cases h.get? r
      case none   => exact hnothing
      case some x => exact hstep _ _ r x hi

variable (hb : h.Backward) (hle : ∀ r, r ≤ place r)

include hb hle

-- At its new place, a cell may be walked from as deep as at its old one.
theorem Walk.whole_relocate {α : Type} (w : h.Walk α) (w' : h'.Walk α) (move : α → α)
    (hnothing : w'.nothing = move w.nothing)
    (hstep : ∀ f g r x, (∀ v, f (v.map place) = move (g v)) →
      w'.step f (place r) (x.relocate place) = move (w.step g r x)) (v : Value) :
    w'.whole (v.map place) = move (w.whole v) := by
  unfold whole
  rw [w.upto_relocate hc w' move hnothing hstep]
  cases v
  case none   => rfl
  case some r => exact congrArg move (w.upto_eq_whole hb (Nat.lt_succ_of_le (hle r)))

theorem datum_relocate (v : Value) : h'.datum (v.map place) = h.datum v := by
  refine h.writing.whole_relocate hc hb hle h'.writing id rfl (fun f g r x hf => ?_) v
  cases x
  case spoilt rest => cases rest <;> rfl
  all_goals simp [writing, Cell.relocate, Cell.datumWith, hf]

theorem elements_relocate (v : Value) : h'.elements (v.map place) = (h.elements v).map place := by
  refine h.listing.whole_relocate hc hb hle h'.listing (List.map place) rfl (fun f g r x hf => ?_) v
  cases x
  case cons head _ => cases head <;> simp [listing, Cell.relocate, Cell.elementsWith, hf]
  case spoilt rest => cases rest <;> simp [listing, Cell.relocate, Cell.elementsWith, hf]
  all_goals rfl

theorem form_relocate (v : Value) : h'.form (v.map place) = (h.form v).relocate place := by
  refine h.forming.whole_relocate hc hb hle h'.forming (Form.relocate place) rfl (fun f g r x hf => ?_) v
  cases x
  case spoilt rest => cases rest <;> simp [forming, Cell.relocate, Cell.formWith, Form.relocate, hf]
  all_goals simp [forming, Cell.relocate, Cell.formWith, Form.relocate, hf]

end Heap

namespace Heap

variable {h h' : Heap} {v : Value} {x : Cell}

theorem Backward.alloc (hb : h.Backward) (hx : ∀ s, .cell s ∈ x.refers → s < h.size) :
    (h.alloc x).2.Backward := by
  intro r y hy s hs
  simp only [get?_alloc] at hy
  split at hy
  case isFalse    => exact hb r y hy s hs
  case isTrue heq =>
    cases hy
    exact heq ▸ hx s (Cell.cell_mem_refers.mpr hs)

theorem datum_of_cells (hb : h.Backward) (hc : ∀ r < h.size, h'.get? r = h.get? r) (hv : h.Has v) :
    h'.datum v = h.datum v := by
  suffices hupto : ∀ depth, h'.writing.upto depth v = h.writing.upto depth v from hupto (depthBound v)
  intro depth
  induction depth generalizing v
  case zero => rfl
  case succ depth hi =>
    rw [Walk.succ, Walk.succ]
    cases v
    case none   => rfl
    case some r =>
      simp only [stepWith, hc r (hv r rfl)]
      cases hr : h.get? r
      case none   => rfl
      case some y =>
        refine h.writing.below _ _ r y fun w hw => hi fun s hs => ?_
        exact Nat.lt_trans (hb.lt ⟨y, hr, hw s hs⟩) (hv r rfl)

theorem datum_alloc (hb : h.Backward) (hx : ∀ s, .cell s ∈ x.refers → s < h.size) :
    (h.alloc x).2.datum (some h.size) = x.datumWith h.datum := by
  have hstep := (h.alloc x).2.writing.whole_eq (hb.alloc hx) (some h.size)
  simp only [stepWith, get?_alloc, if_true, Option.elim_some] at hstep
  refine hstep.trans (h.writing.below _ _ h.size x fun v hv => ?_)
  exact datum_of_cells hb (fun r hr => get?_alloc_of_lt x hr) fun s hs => hx s (hv s hs)

-- A datum is put into a heap, after the cells that are there.
structure Stores (h : Heap) (x : Datum) (v : Value) (h' : Heap) : Prop where
  backward : h'.Backward
  size     : h.size ≤ h'.size
  cells    : ∀ r < h.size, h'.get? r = h.get? r
  has      : h'.Has v
  datum    : x.lossy = false → h'.datum v = x

namespace Stores

variable {d e : Datum} {w : Value} {g : Heap}

theorem absent (hb : h.Backward) : h.Stores .absent none h :=
  ⟨hb, Nat.le_refl _, fun _ _ => rfl, nofun, fun _ => rfl⟩

theorem alloc (hs : g.Stores d v h) (hx : ∀ s, .cell s ∈ x.refers → s < h.size)
    (he : e.lossy = false → x.datumWith h.datum = e) : g.Stores e (some h.size) (h.alloc x).2 where
  backward   := hs.backward.alloc hx
  size       := by simpa using Nat.le_succ_of_le hs.size
  cells r hr := (get?_alloc_of_lt x (Nat.lt_of_lt_of_le hr hs.size)).trans (hs.cells r hr)
  has        := has_some.mpr (by simp)
  datum hd   := (datum_alloc hs.backward hx).trans (he hd)

theorem trans (hs : g.Stores d v h) (hs' : h.Stores e w h') : g.Stores e w h' where
  backward   := hs'.backward
  size       := Nat.le_trans hs.size hs'.size
  cells r hr := (hs'.cells r (Nat.lt_of_lt_of_le hr hs.size)).trans (hs.cells r hr)
  has        := hs'.has
  datum      := hs'.datum

end Stores

theorem stores_allocDatum (hb : h.Backward) (d : Datum) :
    h.Stores d (h.allocDatum d).1 (h.allocDatum d).2 := by
  induction d generalizing h
  case absent => exact .absent hb
  case atom a =>
    cases a
    case lost => exact (Stores.absent hb).alloc (by simp [Cell.refers]) nofun
    all_goals exact (Stores.absent hb).alloc (by simp [Cell.refers]) fun _ => rfl
  case cons head tail hhead htail =>
    have hs := hhead hb
    have hs' := htail hs.backward
    refine (hs.trans hs').alloc (fun s hmem => ?_) (fun hd => ?_)
    · rcases Cell.mem_refers_cons.mp hmem with hmem | hmem
      · exact Nat.lt_of_lt_of_le (hs.has s hmem) hs'.size
      · exact hs'.has s hmem
    · obtain ⟨hdhead, hdtail⟩ := Bool.or_eq_false_iff.mp hd
      rw [Cell.datumWith, hs'.datum hdtail, datum_of_cells hs.backward hs'.cells hs.has, hs.datum hdhead]
  case lambda params hparams =>
    have hs := hparams hb
    refine hs.alloc (fun s hmem => ?_) (fun hd => ?_)
    · exact hs.has s (Cell.mem_refers_lambda.mp hmem)
    · rw [Cell.datumWith, hs.datum hd]

end Heap

namespace Compiler

-- The second compiler has `k` more cells than the first one, after the first `n`, and nothing refers to any
-- of these. Expressions are made of the first cells, up to some bound.
structure Padded (n k bound : Nat) (d d' : Compiler) : Prop where
  le       : n ≤ d.heap.size
  held     : bound ≤ d.heap.size
  size     : d'.heap.size = d.heap.size + k
  cells    : ∀ r, d'.heap.get? (shift n k r) = (d.heap.get? r).map (·.relocate (shift n k))
  backward : d.heap.Backward
  names    : d'.env.names = d.env.names
  bindings : ∀ e, d'.env.binding e = (d.env.binding e).map (shift n k)
  pending  : d'.pending = d.pending.map fun p => (p.1, shift n k p.2)
  nesting  : d'.nesting.stack = d.nesting.stack.map (·.relocate (shift n k))
  codes    : d'.codes.size = d.codes.size

namespace Padded

variable {n k bound : Nat} {d d' : Compiler}

theorem alloc {x : Cell} (h : Padded n k bound d d') (hx : ∀ s, .cell s ∈ x.refers → s < d.heap.size) :
    Padded n k bound { d with heap := (d.heap.alloc x).2 }
      { d' with heap := (d'.heap.alloc (x.relocate (shift n k))).2 } :=
  { h with
    le        := by simpa using Nat.le_succ_of_le h.le
    held      := by simpa using Nat.le_succ_of_le h.held
    size      := by simp [h.size, Nat.add_right_comm]
    cells r   := by
      have hnew : shift n k r = d'.heap.size ↔ r = d.heap.size := by
        rw [h.size, ← Shift.of_le h.le, Shift.eq_iff]
      simp only [Heap.get?_alloc, hnew, h.cells]
      split <;> rfl
    backward  := h.backward.alloc hx }

theorem intern (h : Padded n k bound d d') (name : String) :
    Padded n k bound (d.interned name) (d'.interned name) :=
  { h with
    names      := by simp only [interned, Env.names_intern_eq, h.names]
    bindings e := by simpa [interned, Env.binding_intern] using h.bindings e }

theorem seed (h : Padded n k bound d d') (e : EntryId) (r : Ref) :
    Padded n k bound { d with env := d.env.bind e r, seeded := e :: d.seeded }
      { d' with env := d'.env.bind e (shift n k r), seeded := e :: d'.seeded } :=
  { h with
    names       := by simpa [Env.bind] using h.names
    bindings e' := by
      have hsize : d'.env.size = d.env.size := by rw [← Env.length_names, h.names, Env.length_names]
      simp only [Env.bind, Env.binding_setBinding_eq, hsize, h.bindings]
      split <;> rfl }

theorem finish {r : Ref} {params : Value} (h : Padded n k bound d d') (body : Code .cell) (hr : bound ≤ r)
    (hp : ∀ s, params = some s → s < bound) :
    Padded n k bound (d.finished r params body)
      (d'.finished (shift n k r) (params.map (shift n k)) (body.relocate (shift n k))) :=
  { h with
    le        := by simpa [finished] using h.le
    held      := by simpa [finished] using h.held
    size      := by simpa [finished] using h.size
    cells s   := by
      simp only [finished, Heap.get?_set, h.codes, Shift.eq_iff, h.size, Shift.lt_iff h.le, h.cells]
      split <;> rfl
    backward s x hx t ht := by
      simp only [finished, Heap.get?_set] at hx
      split at hx
      case isFalse => exact h.backward s x hx t ht
      case isTrue heq  =>
        cases hx
        have hlt := hp t (by simpa [Cell.head?, Cell.tail?, Cell.params?] using ht)
        exact heq.1 ▸ Nat.lt_of_lt_of_le hlt hr
    codes     := by simp [finished, h.codes] }

end Padded

-- Padding a heap is a simulation.
def padding (n k bound : Nat) (hn : 0 < n) : Simulation where
  Alike := Padded n k bound
  place := shift n k
  Known := (· < bound)
  New   := (bound ≤ ·)
  nil          := Shift.of_lt hn
  cells r h    := h.cells r
  datum v h    := Heap.datum_relocate h.cells h.backward (Shift.le n k) v
  elements v h := Heap.elements_relocate h.cells h.backward (Shift.le n k) v
  names h      := h.names
  bindings e h := h.bindings e
  pending e h  := h.pending ▸ lookup_map_snd _ e _
  named name h := by
    simp only [Nesting.find?, h.nesting, List.find?_map, Function.comp_def, OpenFunction.relocate]
  opened r h := by
    simp only [Nesting.contains, h.nesting, List.any_map, Function.comp_def, OpenFunction.relocate]
    congr 1
    funext f
    rw [Bool.eq_iff_iff]
    simp [Shift.eq_iff]
  depth h      := by simp [Nesting.depth, h.nesting]
  alloc h hx   := h.alloc fun s hs => Nat.lt_of_lt_of_le (hx s hs) h.held
  allocated h  := ⟨h.held, by rw [h.size, Shift.of_le h.le]⟩
  intern name h := h.intern name
  seed e r h   := h.seed e r
  bindPending e r h := { h with pending := by simp [h.pending] }
  push h _     := { h with nesting := by simp [h.nesting] }
  pop h        := { h with nesting := by simp [Nesting.pop, h.nesting] }
  finish body h hr hp := h.finish body hr hp

namespace Padded

variable {n k bound : Nat} {d d' : Compiler} {expr : Value}

theorem compilesAlike (h : Padded n k bound d d') (hn : 0 < n) (he : ∀ r, expr = some r → r < bound)
    (required : Rep) : CompilesAlike (shift n k) required expr d (expr.map (shift n k)) d' := by
  refine (padding n k bound hn).compilesAlike required h ?_
    (Heap.form_relocate h.cells h.backward (Shift.le n k) expr)
  refine Heap.formWithin_all _ (fun r hr _ => he r hr) fun r x s hr hx hs _ => ?_
  exact Nat.lt_trans (h.backward r x hx s (Cell.cell_mem_refers.mp hs)) hr

-- Both read the same data.
theorem allocDatum (h : Padded n k bound d d') (x : Datum) :
    (d'.heap.allocDatum x).1 = (d.heap.allocDatum x).1.map (shift n k) ∧
      Padded n k bound { d with heap := (d.heap.allocDatum x).2 }
        { d' with heap := (d'.heap.allocDatum x).2 } := by
  have hplace {d d' : Compiler} (h : Padded n k bound d d') :
      some d'.heap.size = (some d.heap.size).map (shift n k) := by
    rw [h.size, Option.map_some, Shift.of_le h.le]
  induction x generalizing d d'
  case absent => exact ⟨rfl, h⟩
  case atom a =>
    have ha : ∃ y, (∀ heap : Heap, heap.allocAtom a = heap.alloc y) ∧ y.refers = [] := by
      cases a <;> exact ⟨_, fun _ => rfl, rfl⟩
    obtain ⟨y, hy, hrefers⟩ := ha
    have hfixed : y.relocate (shift n k) = y := Cell.relocate_of_fixed (by simp [hrefers])
    have halloc := h.alloc (x := y) (by simp [hrefers])
    rw [hfixed] at halloc
    simp only [Heap.allocDatum, hy]
    exact ⟨hplace h, halloc⟩
  case cons head tail hhead htail =>
    obtain ⟨hv, h₁⟩ := hhead h
    obtain ⟨hw, h₂⟩ := htail h₁
    have hhead := Heap.stores_allocDatum h.backward head
    have htail := Heap.stores_allocDatum h₁.backward tail
    simp only [Heap.allocDatum]
    rw [hv, hw]
    refine ⟨hplace h₂, h₂.alloc fun s hs => ?_⟩
    rcases Cell.mem_refers_cons.mp hs with hs | hs
    · exact Nat.lt_of_lt_of_le (hhead.has s hs) htail.size
    · exact htail.has s hs
  case lambda params hparams =>
    obtain ⟨hv, h₁⟩ := hparams h
    simp only [Heap.allocDatum]
    rw [hv]
    refine ⟨hplace h₁, h₁.alloc fun s hs => ?_⟩
    exact (Heap.stores_allocDatum h.backward params).has s (Cell.mem_refers_lambda.mp hs)

end Padded

-- New cells are all that one compiler has more than another one.
structure Pads (c d : Compiler) : Prop where
  same  : d = { c with heap := d.heap }
  size  : c.heap.size ≤ d.heap.size
  cells : ∀ r < c.heap.size, d.heap.get? r = c.heap.get? r

namespace Pads

variable {b c d : Compiler}

theorem alloc (c : Compiler) (x : Cell) : c.Pads { c with heap := (c.heap.alloc x).2 } where
  same       := rfl
  size       := by simp
  cells _ hr := Heap.get?_alloc_of_lt x hr

-- All references of a sound compiler go to cells that were there before.
theorem padded (h : c.Pads d) (hs : c.Sound) :
    Padded c.heap.size (d.heap.size - c.heap.size) c.heap.size c d := by
  have hold {r : Ref} (hr : r < c.heap.size) : shift c.heap.size (d.heap.size - c.heap.size) r = r :=
    Shift.of_lt hr
  have hsize := h.size
  constructor
  case le       => exact Nat.le_refl _
  case held     => exact Nat.le_refl _
  case size     => omega
  case backward => exact hs.backward
  case cells =>
    intro r
    by_cases hr : r < c.heap.size
    case pos =>
      rw [hold hr, h.cells r hr]
      cases hx : c.heap.get? r
      case none   => rfl
      case some x =>
        have hfixed := Cell.relocate_of_fixed fun s hs' => hold (Nat.lt_trans (hs.cells r x hx _ hs') hr)
        exact congrArg some hfixed.symm
    case neg =>
      have hle := Nat.le_of_not_lt hr
      have hnone {g : Heap} {s : Nat} (hg : g.size ≤ s) : g.get? s = none := Array.getElem?_eq_none hg
      rw [Shift.of_le hle, hnone hle, hnone (by omega)]
      rfl
  case names => rw [h.same]
  case bindings =>
    intro e
    rw [h.same]
    cases hb : c.env.binding e
    case none   => rfl
    case some r => rw [Option.map_some, hold (hs.bindings e r hb)]
  case pending =>
    have hfixed : ∀ p ∈ c.pending, (p.1, shift c.heap.size (d.heap.size - c.heap.size) p.2) = p :=
      fun p hp => by rw [hold (hs.pending p hp)]
    rw [show d.pending = c.pending by rw [h.same]]
    exact ((List.map_congr_left hfixed).trans (List.map_id' _)).symm
  case nesting =>
    have hfixed : ∀ f ∈ c.nesting.stack, f.relocate (shift c.heap.size (d.heap.size - c.heap.size)) = f :=
      fun f hf => by rw [OpenFunction.relocate, hold (hs.nesting f hf)]
    rw [show d.nesting = c.nesting by rw [h.same]]
    exact ((List.map_congr_left hfixed).trans (List.map_id' _)).symm
  case codes => rw [h.same]

end Pads

-- A compiler goes on as another one would: with the expressions that are there, and with those that are
-- read next. Cells that are new in the code have higher places.
structure GoesOnAs (d c : Compiler) : Prop where
  held : ∀ expr required, c.heap.Has expr →
    CompilesAlike (shift c.heap.size (d.heap.size - c.heap.size)) required expr c expr d
  read : ∀ x required,
    CompilesAlike (shift c.heap.size (d.heap.size - c.heap.size)) required
      (c.onHeap (·.allocDatum x)).1 (c.onHeap (·.allocDatum x)).2
      (d.onHeap (·.allocDatum x)).1 (d.onHeap (·.allocDatum x)).2

theorem Pads.goesOnAs {c d : Compiler} (h : c.Pads d) (hs : c.Sound) : d.GoesOnAs c where
  held expr required he := by
    have hfixed : expr.map (shift c.heap.size (d.heap.size - c.heap.size)) = expr := by
      cases expr
      case none   => rfl
      case some r => exact congrArg some (Shift.of_lt (he r rfl))
    have halike := (h.padded hs).compilesAlike hs.shared he required
    rwa [hfixed] at halike
  read x required := by
    obtain ⟨hv, hread⟩ := (h.padded hs).allocDatum x
    have hhas := (Heap.stores_allocDatum hs.backward x).has
    have halike := Padded.compilesAlike { hread with held := Nat.le_refl _ } hs.shared hhas required
    simp only [onHeap_eq]
    rwa [hv]

end Compiler
end CellLisp
