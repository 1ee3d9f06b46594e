import CellLisp.Proofs.Image

namespace CellLisp

namespace Compiler

variable {c d : Compiler}

-- Everything that was there, and every entry.
def Known (c d : Compiler) : Referent → Prop :=
  Referent.Within { c.extent with entries := d.env.size }

structure Restores (c d : Compiler) : Prop where
  lookups     : ∀ name, d.env.lookup name = c.env.lookup name
  bindings    : ∀ e, d.env.binding e = c.env.binding e
  names       : c.env.names <+: d.env.names
  size        : c.heap.size ≤ d.heap.size
  cells       : ∀ r < c.heap.size, d.heap.get? r = c.heap.get? r
  pending     : d.pending = []
  seeded      : d.seeded = []
  nesting     : d.nesting.depth = 0
  unreachable : ∀ a b, Known c d a → d.Reaches a b → Known c d b

-- A reference from what was there is one that was there.
theorem Extends.refers_eq (h : c.Extends d) (hb : ∀ e, d.env.binding e = c.env.binding e)
    {a : Referent} (ha : Known c d a) : d.refers a = c.refers a := by
  cases a
  case cell r  => simp only [refers, h.cells r ha]
  case entry e => simp only [refers, hb]
  case body id =>
    have hid : id < c.codes.toList.length := ha
    obtain ⟨new, hnew⟩ := h.codes
    have hcodes : d.codes[id]? = c.codes[id]? := by
      rw [← Array.getElem?_toList, ← hnew, List.getElem?_append_left hid, Array.getElem?_toList]
    simp only [refers, hcodes]

theorem Extends.known_of_reaches (h : c.Extends d) (hs : c.Sound)
    (hb : ∀ e, d.env.binding e = c.env.binding e) {a b : Referent} (ha : Known c d a)
    (hab : d.Reaches a b) : Known c d b := by
  induction hab
  case refl => exact ha
  case tail hm hi =>
    rw [h.refers_eq hb hi] at hm
    exact (hs.closed hm).mono ⟨Nat.le_refl _, h.extent_le.entries, Nat.le_refl _⟩

end Compiler

theorem restores_of_compile_eq_error {s : Session} {expr : Value} {required : Rep} {e : CompileError}
    {c : Compiler} (hs : s.Reachable) (h : compile expr required s.toCompiler = .error e c) :
    s.toCompiler.Restores c := by
  have ⟨hext, hb⟩ := (compile_extends expr required hs.sound hs.idle).of_error h
  exact {
    lookups     := fun name => Env.lookup_eq hext.names hb
    bindings    := hb
    names       := hext.names
    size        := hext.size
    cells       := hext.cells
    pending     := hext.idle.pending
    seeded      := hext.idle.seeded
    nesting     := by rw [hext.idle.nesting, Nesting.depth_empty]
    unreachable := fun a b => hext.known_of_reaches hs.sound hb }

-- `(do x (()))`, which binds `x` to a new zero before it fails at `(())`.
def Datum.failing : Datum :=
  .list [.atom (.symbol "do"), .atom (.symbol "x"), .list [.list []]]

theorem restores_after_failing :
    let i := (Image.fresh (.fresh 0 0)).perform (.read .failing)
    ∃ expr ∈ i.values, ∃ e c, compile expr .any i.session.toCompiler = .error e c ∧
      i.session.toCompiler.Restores c := by
  intro i
  have hfails : ∃ expr ∈ i.values,
      Ensures (compile expr .any) i.session.toCompiler (fun _ _ => False) (fun _ => True) := by
    decide +kernel
  obtain ⟨expr, hexpr, hfail⟩ := hfails
  cases h : compile expr .any i.session.toCompiler
  case ok => exact (hfail.of_ok h).elim
  case error e c =>
    have hi : i.session.Reachable := .between (.perform _ (.fresh _))
    exact ⟨expr, hexpr, e, c, h, restores_of_compile_eq_error hi h⟩

end CellLisp
