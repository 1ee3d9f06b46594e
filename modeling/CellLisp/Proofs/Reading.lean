import CellLisp.Proofs.Fuel
import CellLisp.Proofs.History
import CellLisp.Proofs.Symbol

namespace CellLisp

variable {i : Image} {ops : List Operation} {link : Link} {e : EntryId} {s t : Session}

-- The unchecked read of an entry.
def Code.read (e : EntryId) : Code .raw :=
  .unary .unbox (.load e)

theorem run_read_eq (link : Link) (fuel : Nat) (e : EntryId) (s : Session) :
    run link (fuel + 3) (.read e) s =
      match s.heap.cell? (s.env.binding e) with
      | some c => .ok c.firstWord s
      | none   => .error (.fault .strayRead) s :=
  RunM.word_eq Cell.firstWord (s.env.binding e) s

theorem Returns.read {c : Cell} (hc : s.heap.cell? (s.env.binding e) = some c) :
    Returns link (.read e) s c.firstWord s :=
  ⟨3, by rw [run_read_eq link 0, hc]⟩

theorem Returns.cell_of_read {n : Int64} (h : Returns link (.read e) s n t) :
    ∃ c, s.heap.cell? (s.env.binding e) = some c ∧ n = c.firstWord ∧ t = s := by
  obtain ⟨fuel, h⟩ := h
  have h := run_mono h (Nat.le_add_right fuel 3)
  rw [run_read_eq] at h
  split at h <;> cases h
  exact ⟨_, ‹_›, rfl, rfl⟩

-- The word that is obtained is the one that a checked read gives, or the cell is no integer.
theorem Heap.unbox_eq_firstWord_iff {h : Heap} {v : Value} {c : Cell} (hc : h.cell? v = some c) :
    h.unbox v = c.firstWord ↔ c.tag = .int ∨ c.firstWord = 0 := by
  simp only [Heap.unbox, Heap.intOf, hc, Option.bind_some]
  cases c
  case spoilt rest => cases rest <;> simp [Cell.int?, Cell.tag, Remnant.tag, Cell.firstWord, eq_comm]
  all_goals simp [Cell.int?, Cell.tag, Cell.firstWord, eq_comm]

theorem returns_unbox_iff :
    Returns link (.read e) s (s.heap.unbox (s.env.binding e)) s ↔
      ∃ c, s.heap.cell? (s.env.binding e) = some c ∧ (c.tag = .int ∨ c.firstWord = 0) := by
  refine ⟨fun h => ?_, fun ⟨c, hc, hw⟩ => ?_⟩
  · obtain ⟨c, hc, hn, _⟩ := h.cell_of_read
    exact ⟨c, hc, (Heap.unbox_eq_firstWord_iff hc).mp hn⟩
  · rw [(Heap.unbox_eq_firstWord_iff hc).mpr hw]
    exact .read hc

theorem Heap.intOf_eq_some_iff {h : Heap} {v : Value} {n : Int64} :
    h.intOf v = some n ↔ ∃ r, v = some r ∧ h.get? r = some (.int n) := by
  simp only [intOf, cell?, Option.bind_eq_some_iff]
  constructor
  case mp =>
    rintro ⟨c, ⟨r, hr, hc⟩, hn⟩
    cases c <;> cases hn
    exact ⟨r, hr, hc⟩
  case mpr => exact fun ⟨r, hr, hc⟩ => ⟨_, ⟨r, hr, hc⟩, rfl⟩

-- An entry is bound to an integer.
def Session.BindsInt (s : Session) (e : EntryId) : Prop :=
  ∃ n, s.heap.intOf (s.env.binding e) = some n

-- A definition that is run binds the entry to what is no integer.
def Image.Redefines (i : Image) (ops : List Operation) (e : EntryId) : Prop :=
  ∃ link value s v t, i.Passes ops link ⟨.store e value, s⟩ ∧ Returns link value s v t ∧
    t.heap.intOf v = none

theorem Session.BindsInt.cell (h : s.BindsInt e) :
    ∃ r n, s.env.binding e = some r ∧ s.heap.get? r = some (.int n) := by
  obtain ⟨n, hn⟩ := h
  obtain ⟨r, hr, hc⟩ := Heap.intOf_eq_some_iff.mp hn
  exact ⟨r, n, hr, hc⟩

-- The integer may be another one, but the cell stays an integer.
theorem Session.BindsInt.persists (h : s.BindsInt e) (hb : t.env.binding e = s.env.binding e)
    (hc : ∀ r c, s.heap.get? r = some c → ∃ d, t.heap.get? r = some d ∧ c.Becomes d) :
    t.BindsInt e := by
  obtain ⟨r, n, hr, hn⟩ := h.cell
  obtain ⟨d, hd, hcd⟩ := hc r _ hn
  obtain ⟨m, rfl⟩ := Cell.eq_int_of_tag hcd.tag
  exact ⟨m, Heap.intOf_eq_some_iff.mpr ⟨r, hb.trans hr, hd⟩⟩

theorem Session.BindsInt.setBinding {v : Value} {n : Int64} (h : s.BindsInt e)
    (hv : s.heap.intOf v = some n) : BindsInt { s with env := s.env.setBinding e v } e := by
  obtain ⟨_, _, hr, _⟩ := h.cell
  refine ⟨n, ?_⟩
  rw [Env.binding_setBinding v (Env.lt_size_of_binding hr), hv]

def redefining (i : Image) (ops : List Operation) (e : EntryId) : Observation i ops where
  Keeps s t := s.BindsInt e → t.BindsInt e ∨ i.Redefines ops e
  refl _ := .inl
  trans _ hst htu h := (hst h).elim htu .inr
  works hw h := .inl <| h.persists (by rw [hw.rest]) fun r c hc =>
    have ⟨d, hd, hcd⟩ := hw.heap.old r c hc
    ⟨d, hd, hcd.becomes⟩
  compile he h := by
    obtain ⟨r, n, hr, hn⟩ := h.cell
    have hb := he.bound e (by simp [hr])
    exact .inl (h.persists hb fun q c hc => ⟨c, (he.cells q (Heap.lt_size_of_get? hc)).trans hc, .refl⟩)
  store {_ e' _ _ v t} hp hv h := by
    by_cases he : e = e'
    case neg => exact .inl (h.persists (Env.binding_setBinding_of_ne v he) fun _ c hc => ⟨c, hc, .refl⟩)
    case pos =>
      subst he
      cases hn : t.heap.intOf v
      case none   => exact .inr ⟨_, _, _, _, _, hp, hv, hn⟩
      case some n => exact .inl (h.setBinding hn)
  assign _ _ _ hc h := .inl (h.persists rfl (Heap.becomes_set hc (.setFirstWord _ _)))

theorem Session.BindsInt.returns_unbox (h : s.BindsInt e) :
    Returns link (.read e) s (s.heap.unbox (s.env.binding e)) s := by
  obtain ⟨r, n, hr, hn⟩ := h.cell
  exact returns_unbox_iff.mpr ⟨.int n, by rw [hr]; exact hn, .inl rfl⟩

-- Only what is seen as an integer is read at all.
theorem Compile.symbol_pureInt_ok {c d : Compiler} {r : Ref} {name : String}
    {code : Code Rep.pureInt.kind} (h : (Form.atom r (.symbol name)).code .pureInt c = .ok code d) :
    c.tagOf name = .int ∧ code = .read (c.env.intern name).1 := by
  obtain ⟨d', hd⟩ := symbol_pureInt_eq (.atom r (.symbol name)) name c
  have h := hd.symm.trans h
  cases htag : c.tagOf name <;> rw [htag] at h <;> cases h
  exact ⟨rfl, rfl⟩

theorem compile_symbol_ok {c d : Compiler} {r : Ref} {name : String} {code : Code Rep.pureInt.kind}
    (hr : c.heap.get? r = some (.symbol name)) (h : compile (some r) .pureInt c = .ok code d) :
    code = .read (c.env.intern name).1 := by
  have hform : c.heap.form (some r) = .atom r (.symbol name) := by
    simp [Heap.form, Heap.depthBound, Heap.formWithin, hr]
  unfold compile at h
  rw [hform] at h
  split at h <;> cases h
  exact (Compile.symbol_pureInt_ok ‹_›).2

-- How symbols are compiled for a word, when reading them agrees with a checked read, and for how long
-- a symbol that is bound to an integer is safe to read.
structure Image.ReadsWords (i : Image) (ops : List Operation) : Prop where
  compiled : ∀ c d r name code, (Form.atom r (.symbol name)).code .pureInt c = .ok code d →
    c.tagOf name = .int ∧ code = .read (c.env.intern name).1
  word     : ∀ link e s n t, Returns link (.read e) s n t →
    ∃ c, s.heap.cell? (s.env.binding e) = some c ∧ n = c.firstWord ∧ t = s
  agrees   : ∀ link e s, Returns link (.read e) s (s.heap.unbox (s.env.binding e)) s ↔
    ∃ c, s.heap.cell? (s.env.binding e) = some c ∧ (c.tag = .int ∨ c.firstWord = 0)
  safe     : ∀ link e s, i.session.BindsInt e → i.Passes ops link ⟨.read e, s⟩ →
    Returns link (.read e) s (s.heap.unbox (s.env.binding e)) s ∨ i.Redefines ops e

theorem readsWords_of_reachable (hi : i.Reachable) (ops : List Operation) : i.ReadsWords ops where
  compiled := fun _ _ _ _ _ h => Compile.symbol_pureInt_ok h
  word     := fun _ _ _ _ _ h => h.cell_of_read
  agrees   := fun _ _ _ => returns_unbox_iff
  safe     := fun _ e s h hc =>
    have hl : (redefining i ops e).Leads i.session s := (Observation.passes hi hc).2
    (hl.keeps h).imp_left Session.BindsInt.returns_unbox

namespace Image

-- The host has read the symbol `x`, which is bound to an integer.
def integerBound : Image :=
  withInteger.perform (.read (.atom (.symbol "x")))

-- The code of `x` is kept.
def readKept : Image :=
  integerBound.perform (.compile 0 .pureInt)

theorem reachable_readKept : readKept.Reachable :=
  .perform _ (.perform _ reachable_withInteger)

-- A definition binds `x` to an operation.
def redefine : List Operation :=
  Operation.evaluate 100 "(def x (car (cons car nil)))"

theorem codes_compile_symbol {i : Image} {name : String}
    (hx : i.session.heap.cell? (i.values.headD none) = some (.symbol name))
    (hl : (i.perform (.compile 0 .pureInt)).codes.length = i.codes.length + 1) :
    (i.perform (.compile 0 .pureInt)).codes[0]? = some ⟨.read (i.session.env.intern name).1⟩ := by
  have hstep := i.step_perform (.compile 0 .pureInt)
  obtain ⟨r, hr, hcell⟩ := Option.bind_eq_some_iff.mp hx
  have hv : i.values[0]? = some (some r) := by
    cases hi : i.values <;> simp_all
  generalize i.perform (.compile 0 .pureInt) = j at hstep hl ⊢
  cases hstep
  case works      => simp [goOn] at hl
  case rejects    => simp [goOn] at hl
  case compiles hexpr _ hc =>
    cases hv.symm.trans hexpr
    simp [goOn, compile_symbol_ok hcell hc]

theorem passes_kept {i : Image} {ops : List Operation} {kept : Kept} {fuel : Nat}
    (hk : i.codes[0]? = some kept) (hl : (i.performAll ops).codes.length = i.codes.length + 1) :
    i.Passes (ops ++ [.run link fuel 1]) link ⟨kept.code, (i.performAll ops).session⟩ := by
  obtain ⟨new, hnew⟩ := i.codes_performAll ops
  have hone : new.length = 1 := by
    rw [← hnew, List.length_append] at hl
    omega
  have hkept : (i.performAll ops).codes[1]? = some kept := by
    rw [← hnew, List.getElem?_append_right (Nat.le_of_eq hone), hone, hk]
  exact ⟨ops, [], fuel, 1, kept, rfl, hkept, .refl⟩

theorem readKept_facts :
    integerBound.session.heap.cell? (integerBound.values.headD none) = some (.symbol "x") ∧
    readKept.codes.length = integerBound.codes.length + 1 ∧
    (readKept.performAll redefine).codes.length = readKept.codes.length + 1 ∧
    readKept.session.heap.intOf (readKept.session.env.binding (integerBound.session.env.intern "x").1) =
      some 1 ∧
    (readKept.performAll redefine).session.heap.cell? ((readKept.performAll redefine).session.env.binding
      (integerBound.session.env.intern "x").1) = some (.ofBuiltin .car) := by
  decide +kernel

-- The code of `x` is run after the definition.
theorem readKept_passes :
    ∃ e s, readKept.session.BindsInt e ∧ s.heap.cell? (s.env.binding e) = some (.ofBuiltin .car) ∧
      readKept.Passes (redefine ++ [.run .attached 100 1]) .attached ⟨.read e, s⟩ := by
  obtain ⟨hx, hl, hl', hint, hcar⟩ := readKept_facts
  exact ⟨_, _, ⟨1, hint⟩, hcar, passes_kept (codes_compile_symbol hx hl) hl'⟩

end Image

theorem opcode_of_car_read :
    ¬ ∀ (i : Image) (ops : List Operation), i.Reachable →
      ∀ link e s, i.Passes ops link ⟨.read e, s⟩ →
        Returns link (.read e) s (s.heap.unbox (s.env.binding e)) s := by
  intro h
  obtain ⟨e, s, _, hcell, hpasses⟩ := Image.readKept_passes
  obtain ⟨c, hc, hword⟩ := returns_unbox_iff.mp (h _ _ Image.reachable_readKept _ _ _ hpasses)
  cases hcell.symm.trans hc
  exact absurd hword (by decide)

theorem readsWords_of_opcode_read :
    ∃ e s, Image.readKept.Passes (Image.redefine ++ [.run .attached 100 1]) .attached ⟨.read e, s⟩ ∧
      Image.readKept.session.BindsInt e ∧
      Image.readKept.Redefines (Image.redefine ++ [.run .attached 100 1]) e := by
  obtain ⟨e, s, hint, hcell, hpasses⟩ := Image.readKept_passes
  have h := readsWords_of_reachable Image.reachable_readKept (Image.redefine ++ [.run .attached 100 1])
  refine ⟨e, s, hpasses, hint, (h.safe _ e s hint hpasses).resolve_left fun hagrees => ?_⟩
  obtain ⟨c, hc, hword⟩ := (h.agrees _ e s).mp hagrees
  cases hcell.symm.trans hc
  exact absurd hword (by decide)

end CellLisp
