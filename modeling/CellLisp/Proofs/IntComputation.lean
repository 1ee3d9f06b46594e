import CellLisp.Proofs.Fuel
import CellLisp.Proofs.IntExpr
import CellLisp.Proofs.Reference

namespace CellLisp

namespace Kind

-- A result that agrees with a word, as far as it is one.
def Shows : {k : Kind} → k.Result → Int64 → Prop
  | .raw, v, n  => v = n
  | .void, _, _ => True
  | .cell, _, _ => False

end Kind

-- The session `t` is `s`, except that the integers in the given cells are those of the store.
structure Session.Reflects (s : Session) (cells : Ref → Prop) (σ : Store) (t : Session) : Prop where
  rest    : t = { s with heap := t.heap }
  inside  : ∀ r, cells r → t.heap.get? r = some (.int (σ r))
  outside : ∀ r, ¬ cells r → t.heap.get? r = s.heap.get? r

theorem Session.Reflects.env {s t : Session} {cells : Ref → Prop} {σ : Store}
    (h : s.Reflects cells σ t) : t.env = s.env := by
  rw [h.rest]

theorem Session.Reflects.update {s t : Session} {cells : Ref → Prop} {σ : Store}
    (h : s.Reflects cells σ t) {r : Ref} (hr : cells r) (n : Int64) :
    s.Reflects cells (Function.update σ r n) { t with heap := t.heap.set r (.int n) } where
  rest := by rw [h.rest]
  inside q hq := by
    by_cases hqr : q = r
    case pos =>
      subst hqr
      rw [Heap.get?_set_self _ (Heap.lt_size_of_get? (h.inside q hq)), Function.update_self]
    case neg => rw [Heap.get?_set_of_ne _ hqr, h.inside q hq, Function.update_of_ne hqr]
  outside q hq := by
    have hqr : q ≠ r := fun h => hq (h ▸ hr)
    rw [Heap.get?_set_of_ne _ hqr, h.outside q hq]

theorem IntExpr.bind_eq_some {α β : Type} {m : StateT Store Option α} {f : α → StateT Store Option β}
    {σ τ : Store} {b : β} (h : (m >>= f) σ = some (b, τ)) :
    ∃ a ρ, m σ = some (a, ρ) ∧ f a ρ = some (b, τ) := by
  obtain ⟨⟨a, ρ⟩, hm, hf⟩ := Option.bind_eq_some_iff.mp h
  exact ⟨a, ρ, hm, hf⟩

def Computes (s : Session) (cells : Ref → Prop) (place : String → Ref) {k : Kind} (code : Code k)
    (x : IntExpr) : Prop :=
  ∀ link fuel σ t n τ, s.Reflects cells σ t → x.eval place fuel σ = some (n, τ) →
    ∃ v u, Returns link code t v u ∧ Kind.Shows v n ∧ s.Reflects cells τ u

namespace Computes

open IntExpr (bind_eq_some)

variable {s : Session} {cells : Ref → Prop} {place : String → Ref} {k : Kind} {x y z : IntExpr}
variable {condition : Code .raw}

theorem raw {code : Code .raw} (h : Computes s cells place code x) (link : Link) {fuel : Nat}
    {σ τ : Store} {t : Session} {n : Int64} (ht : s.Reflects cells σ t)
    (heval : x.eval place fuel σ = some (n, τ)) :
    ∃ u, Returns link code t n u ∧ s.Reflects cells τ u := by
  obtain ⟨v, u, hv, hn, hu⟩ := h link fuel σ t n τ ht heval
  exact ⟨u, hn ▸ hv, hu⟩

theorem const {n : Int64} : Computes s cells place (.const n) (.literal n) := by
  intro link fuel σ t m τ ht heval
  cases heval
  exact ⟨n, t, .const n, rfl, ht⟩

theorem discard {j : Kind} {code : Code j}
    (h : ∀ link fuel σ t n τ, s.Reflects cells σ t → x.eval place fuel σ = some (n, τ) →
      ∃ v u, Returns link code t v u ∧ s.Reflects cells τ u) :
    Computes s cells place (.discard code) x := by
  intro link fuel σ t n τ ht heval
  have ⟨v, u, hv, hu⟩ := h link fuel σ t n τ ht heval
  exact ⟨(), u, hv.discard, trivial, hu⟩

theorem discard_raw {code : Code .raw} (h : Computes s cells place code x) :
    Computes s cells place (.discard code) x :=
  discard fun link _ _ _ n _ ht heval =>
    have ⟨u, hv, hu⟩ := h.raw link ht heval
    ⟨n, u, hv, hu⟩

theorem discard_literal {r : Ref} {n : Int64} :
    Computes s cells place (.discard (.literal r)) (.literal n) := by
  refine discard (fun link fuel σ t m τ ht heval => ?_)
  cases heval
  exact ⟨_, t, .literal r, ht⟩

theorem discard_load {e : EntryId} {name : String} :
    Computes s cells place (.discard (.load e)) (.symbol name) := by
  refine discard (fun link fuel σ t m τ ht heval => ?_)
  cases heval
  exact ⟨_, t, .load e, ht⟩

theorem unbox_load {e : EntryId} {name : String} (he : s.env.binding e = some (place name))
    (hc : cells (place name)) :
    Computes s cells place (.unary .unbox (.load e)) (.symbol name) := by
  intro link fuel σ t n τ ht heval
  cases heval
  have hload : Returns link (.load e) t (some (place name)) t := by
    rw [← he, ← ht.env]
    exact .load e
  refine ⟨σ (place name), t, .primitive (.cons hload .nil) ?_, rfl, ht⟩
  have hcell : t.heap.cell? (some (place name)) = some (.int (σ (place name))) :=
    ht.inside (place name) hc
  show RunM.word _ _ t = _
  rw [RunM.word_eq, hcell]
  rfl

theorem arithmetic {op : Arithmetic} {a b : Code .raw} (ha : Computes s cells place a x)
    (hb : Computes s cells place b y) :
    Computes s cells place (.primitive (.arithmetic op) (.cons a (.cons b .nil)))
      (.arithmetic op x y) := by
  intro link fuel σ t n τ ht heval
  obtain ⟨l, ρ, hx, heval⟩ := bind_eq_some heval
  obtain ⟨m, ρ', hy, heval⟩ := bind_eq_some heval
  cases heval
  -- The left word is taken before the right operand runs; an assignment there comes too late for it.
  have ⟨u, hl, hu⟩ := ha.raw link ht hx
  have ⟨u', hm, hu'⟩ := hb.raw link hu hy
  exact ⟨op.eval l m, u', .primitive (.cons hl (.cons hm .nil)) rfl, op.eval_eq_onWords l m, hu'⟩

theorem sequence {first : Code .void} {last : Code k} (hx : Computes s cells place first x)
    (hy : Computes s cells place last y) :
    Computes s cells place (.sequence first last) (.andThen x y) := by
  intro link fuel σ t n τ ht heval
  obtain ⟨m, ρ, hfirst, hlast⟩ := bind_eq_some heval
  have ⟨_, u, hv, _, hu⟩ := hx link fuel σ t m ρ ht hfirst
  have ⟨w, u', hw, hn, hu'⟩ := hy link fuel ρ u n τ hu hlast
  exact ⟨w, u', hv.sequence hw, hn, hu'⟩

theorem branch {yes no : Code k} (hx : Computes s cells place condition x)
    (hy : Computes s cells place yes y) (hz : Computes s cells place no z) :
    Computes s cells place (.branch condition yes no) (.branch x y z) := by
  intro link fuel σ t n τ ht heval
  obtain ⟨m, ρ, hcond, heval⟩ := bind_eq_some heval
  have ⟨u, hm, hu⟩ := hx.raw link ht hcond
  split at heval
  case isTrue hzero =>
    have ⟨w, u', hw, hn, hu'⟩ := hz link fuel ρ u n τ hu heval
    exact ⟨w, u', hm.branch (by rwa [if_pos hzero]), hn, hu'⟩
  case isFalse hzero =>
    have ⟨w, u', hw, hn, hu'⟩ := hy link fuel ρ u n τ hu heval
    exact ⟨w, u', hm.branch (by rwa [if_neg hzero]), hn, hu'⟩

-- What is missing, be it a branch or the value of a loop that never ran, counts as zero.
theorem when {yes no : Code k} (hx : Computes s cells place condition x)
    (hy : Computes s cells place yes y) (hz : Computes s cells place no (.literal 0)) :
    Computes s cells place (.branch condition yes no) (.when x y) :=
  branch hx hy hz

theorem assign {e : EntryId} {name : String} {value : Code .raw}
    (he : s.env.binding e = some (place name)) (hc : cells (place name))
    (hx : Computes s cells place value x) :
    Computes s cells place (.assign e value) (.assign name x) := by
  intro link fuel σ t n τ ht heval
  obtain ⟨m, ρ, hvalue, heval⟩ := bind_eq_some heval
  cases heval
  have ⟨u, hn, hu⟩ := hx.raw link ht hvalue
  have hb : u.env.binding e = some (place name) := hu.env ▸ he
  exact ⟨n, _, hn.assign (RunM.assign_of_cell n hb (hu.inside _ hc)), rfl, hu.update hc n⟩

-- The induction is on the rounds: code and expression test and run the body in step.
theorem rounds {body : Code k} (hx : Computes s cells place condition x)
    (hy : Computes s cells place body y) (link : Link) {fuel bound : Nat} {σ τ : Store} {t : Session}
    {v : k.Result} {last n : Int64} (ht : s.Reflects cells σ t) (hv : Kind.Shows v last)
    (heval : IntExpr.rounds (x.eval place fuel) (y.eval place fuel) bound last σ = some (n, τ)) :
    ∃ w u, Loop.Returns link condition body v t w u ∧ Kind.Shows w n ∧ s.Reflects cells τ u := by
  induction bound generalizing σ t v last
  case zero => cases heval
  case succ bound hi =>
    obtain ⟨m, ρ, hcond, heval⟩ := bind_eq_some heval
    have ⟨u, hm, hu⟩ := hx.raw link ht hcond
    split at heval
    case isTrue hzero =>
      cases heval
      exact ⟨v, u, .done (hzero ▸ hm), hv, hu⟩
    case isFalse hzero =>
      obtain ⟨last', ρ', hbody, heval⟩ := bind_eq_some heval
      have ⟨v', u', hv', hlast', hu'⟩ := hy link fuel ρ u last' ρ' hu hbody
      have ⟨w, u'', hw, hn, hu''⟩ := hi hu' hlast' heval
      exact ⟨w, u'', .next hm hzero hv' hw, hn, hu''⟩

theorem loop {initial body : Code k} (hz : Computes s cells place initial (.literal 0))
    (hx : Computes s cells place condition x) (hy : Computes s cells place body y) :
    Computes s cells place (.loop initial condition body) (.loop x y) := by
  intro link fuel σ t n τ ht heval
  have ⟨v, u, hv, hlast, hu⟩ := hz link fuel σ t 0 σ ht rfl
  have ⟨w, u', hw, hn, hu'⟩ := rounds hx hy link hu hlast heval
  exact ⟨w, u', hv.loop hw, hn, hu'⟩

end Computes
end CellLisp
