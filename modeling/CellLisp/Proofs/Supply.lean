import CellLisp.Proofs.Fault
import CellLisp.Proofs.Loss
import CellLisp.Proofs.Safety

namespace CellLisp

open Session (Trusted)

variable {i : Image} {ops : List Operation} {link : Link} {s t : Session}

theorem Session.Trusted.cell {v : Value} (h : Trusted v s) :
    ∃ r x, v = some r ∧ s.heap.get? r = some x := by
  obtain ⟨r, rfl, hr⟩ := h
  have hlt : r < s.heap.size := s.accounts_trusts.within _ hr
  exact ⟨r, _, rfl, Array.getElem?_eq_getElem hlt⟩

theorem Session.Trusted.cell?_ne_none {v : Value} (h : Trusted v s) : s.heap.cell? v ≠ none := by
  obtain ⟨r, x, rfl, hx⟩ := h.cell
  simp [Heap.cell?, hx]

-- An entry keeps its name, so that the name finds what the entry is bound to.
theorem Session.Sustains.binding (h : s.Sustains t) {name : String} (hb : s.binding name ≠ none) :
    t.binding name ≠ none := by
  have ⟨r, hr⟩ := Option.ne_none_iff_exists'.mp hb
  have ⟨e, he, hr⟩ := Option.bind_eq_some_iff.mp hr
  have hbound : t.env.binding e ≠ none := h.carries.bound e (by simp [hr])
  rwa [Session.binding, Env.lookup, Env.entry?_of_names_prefix h.persists.names he, Option.bind_some]

-- An unchecked access comes to a byte that is in no buffer.
inductive Config.Strays (link : Link) : Config → Prop
  | get {operands s v j t} : operands.Return link s (v, j, ()) t → t.heap.byteAt v j = none →
    Strays link ⟨.primitive .getUnchecked operands, s⟩
  | put {operands s v j n t} : operands.Return link s (v, j, n, ()) t → t.heap.byteAt v j = none →
    Strays link ⟨.primitive .putUnchecked operands, s⟩

theorem Config.Trusted.strays {c : Config} {f : Fault} (h : c.Trusted) (hf : Faults link c f) :
    c.Strays link ∨ c.Follows link := by
  cases hf
  case assign e value s n t u hn hf =>
    -- The entry is bound, to a cell that is there, so the word finds its place.
    have hs := (trusting link).start h
    have ⟨hst, _⟩ := (trusting link).returns ((trusting link).enters h .assign hs) hn
    have hbound : t.env.binding e ≠ none := hst.carries.bound e (Code.all_assign.mp h.fair).1.serves
    rcases (RunM.faultsOnly_assign e n t f u hf).2 with hnone | ⟨r, hr, hnone⟩
    · exact absurd hnone hbound
    · have hlt : r < t.heap.size := hst.orderly.sound.bindings e r hr
      exact absurd hlt (Nat.not_lt.mpr (Heap.get?_eq_none_iff.mp hnone))
  case call hf =>
    have ⟨_, hcode⟩ := h.codeOf
    cases hf.symm.trans hcode
  case eval hlink hr herr hlossy => exact .inr (.eval hlink hr herr hlossy)
  case primitive hvs hm =>
    have ⟨_, hgood⟩ := (trusting link).operands_return h hvs
    cases hm
    case unbox hv         => exact absurd hv hgood.1.cell?_ne_none
    case sizeUnchecked hv => exact absurd hv hgood.1.cell?_ne_none
    case getUnchecked hb  => exact .inl (.get hvs hb)
    case putUnchecked hb  => exact .inl (.put hvs hb)
    case lost hlost       => exact .inr (.primitive hvs hlost)

-- Names stay bound from one operation to another. Of the code that control passes to: an entry that is
-- loaded is bound; code that gives a cell, as it does in every representation but a raw word and none,
-- gives one that is there; and code stops with a fault at a stray access or at an address that is lost
-- alone. As long as no assignment in place comes to an address, none is lost.
structure Image.Supplies (i : Image) (ops : List Operation) : Prop where
  bound   : ∀ name, i.session.binding name ≠ none → (i.performAll ops).session.binding name ≠ none
  loads   : ∀ link e s, i.Passes ops link ⟨.load e, s⟩ →
    ∃ r x, s.env.binding e = some r ∧ s.heap.get? r = some x
  results : ∀ link (code : Code .cell) s v t, i.Passes ops link ⟨code, s⟩ → Returns link code s v t →
    ∃ r x, v = some r ∧ t.heap.get? r = some x
  stops   : ∀ link (c : Config) fuel f t, i.Passes ops link c →
    CellLisp.run link fuel c.code c.session = .error (.fault f) t →
      ∃ d, Visits link c d ∧ (d.Strays link ∨ d.Follows link)
  whole   : i.session.heap.Whole → (i.performAll ops).session.heap.Whole ∨ i.Spoils ops
  follows : i.session.heap.Whole → ∀ link c, i.Passes ops link c → c.Follows link → i.Spoils ops

theorem supplies_of_reachable (hi : i.Reachable) (ops : List Operation) : i.Supplies ops where
  bound _ hb := (hi.sustains ops).binding hb
  loads link e s hc := by
    have hv : Trusted (s.env.binding e) s := (hi.returns hc (.load e)).2
    exact hv.cell
  results link code s v t hc hv := by
    have hv : Trusted v t := (hi.returns hc hv).2
    exact hv.cell
  stops link c fuel f t hc hf := by
    have ⟨d, hd, hf⟩ := meets_of_run_eq_fault hf
    exact ⟨d, hd, (hi.passes (hc.visits hd)).1.strays hf⟩
  whole           := ((spoiling i ops).performAll hi (List.append_nil ops).symm).keeps
  follows hw _ _ hc h := h.spoils hi hw hc

-- The body of `f` is compiled as if `k` were a zero, which `k` is bound to from then on.
def Image.withDefault : Image :=
  (fresh (.fresh 0 0)).performAll (Operation.evaluate 100 "(def f (fn n (+ n k)))")

theorem Image.reachable_withDefault : withDefault.Reachable :=
  (Reachable.fresh _).performAll _

-- The first expression binds `q` in the same way, and fails at `(())`.
def Operation.failAndCall : List Operation :=
  evaluate 100 "(do (f q) (())) (f 1)"

theorem bound_after_failing :
    let j := Image.withDefault.performAll Operation.failAndCall
    Image.withDefault.session.binding "k" ≠ none ∧ j.session.binding "q" = none ∧
      j.session.binding "k" ≠ none ∧ j.session.binding "f" ≠ none := by
  have h := supplies_of_reachable Image.reachable_withDefault Operation.failAndCall
  have ⟨hk, hf, hq⟩ : Image.withDefault.session.binding "k" ≠ none ∧
      Image.withDefault.session.binding "f" ≠ none ∧
      (Image.withDefault.performAll Operation.failAndCall).session.binding "q" = none := by
    decide +kernel
  exact ⟨hk, hq, h.bound "k" hk, h.bound "f" hf⟩

end CellLisp
