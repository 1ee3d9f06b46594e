import CellLisp.Proofs.Control

namespace CellLisp

namespace RunM

variable {α β : Type}

-- The second computation does what the first one does, except where the first runs out of fuel.
def Approximates (m m' : RunM α) : Prop :=
  ∀ s, m s = m' s ∨ ∃ t, m s = .error .outOfFuel t

namespace Approximates

variable {m m' : RunM α} {f f' : α → RunM β}

theorem refl : Approximates m m :=
  fun _ => .inl rfl

theorem ok {s t : Session} {a : α} (h : Approximates m m') (hm : m s = .ok a t) :
    m' s = .ok a t := by
  rcases h s with h | ⟨_, h⟩ <;> rw [hm] at h
  · exact h.symm
  · cases h

theorem fault {s t : Session} {f : Fault} (h : Approximates m m') (hm : m s = .error (.fault f) t) :
    m' s = .error (.fault f) t := by
  rcases h s with h | ⟨_, h⟩ <;> rw [hm] at h
  · exact h.symm
  · cases h

theorem outOfFuel : Approximates (throw .outOfFuel) m :=
  fun s => .inr ⟨s, rfl⟩

theorem bind (h : Approximates m m') (hf : ∀ a, Approximates (f a) (f' a)) :
    Approximates (m >>= f) (m' >>= f') := by
  intro s
  simp only [Bind.bind, EStateM.bind]
  rcases h s with h | ⟨t, h⟩
  · rw [← h]
    cases m s
    case ok a t  => exact hf a t
    case error   => exact .inl rfl
  · exact .inr ⟨t, by rw [h]⟩

theorem ite {p : Prop} [Decidable p] {n n' : RunM α} (h : Approximates m m')
    (h' : Approximates n n') : Approximates (if p then m else n) (if p then m' else n') := by
  split
  case isTrue  => exact h
  case isFalse => exact h'

theorem evaluate {link : Link} {run run' : Code .cell → RunM Value}
    (h : ∀ code, Approximates (run code) (run' code)) (expr : Value) :
    Approximates (evaluate link run expr) (evaluate link run' expr) := by
  unfold RunM.evaluate
  split
  case h_1 => exact refl
  case h_2 => exact refl
  case h_3 =>
    refine refl.bind (fun outcome => ?_)
    split
    case h_1 code => exact (h code).bind fun _ => refl
    case h_2      => exact refl

end Approximates
end RunM

open RunM (Approximates)

variable {link : Link} {k : Kind}

-- One more unit of fuel is enough to consider: the parts of the code run with one more as well.
structure FuelGrows (link : Link) (fuel : Nat) : Prop where
  run {k : Kind} (code : Code k) : Approximates (run link fuel code) (run link (fuel + 1) code)
  operands {ks : List Kind} (operands : Operands ks) :
    Approximates (runOperands link fuel operands) (runOperands link (fuel + 1) operands)
  iterate {k : Kind} (condition : Code .raw) (body : Code k) (last : k.Result) :
    Approximates (iterate link fuel condition body last) (iterate link (fuel + 1) condition body last)

namespace FuelGrows

variable {fuel : Nat} (h : FuelGrows link fuel)

include h

theorem run_succ (code : Code k) :
    Approximates (CellLisp.run link (fuel + 1) code) (CellLisp.run link (fuel + 1 + 1) code) := by
  cases code <;> rw [CellLisp.run, CellLisp.run]
  case const     => exact .refl
  case literal   => exact .refl
  case load      => exact .refl
  case store     => exact (h.run _).bind fun _ => .refl
  case assign    => exact (h.run _).bind fun _ => .refl
  case discard   => exact (h.run _).bind fun _ => .refl
  case sequence  => exact (h.run _).bind fun _ => h.run _
  case branch    => exact (h.run _).bind fun _ => .ite (h.run _) (h.run _)
  case loop      => exact (h.run _).bind fun _ => h.iterate _ _ _
  case call      => exact Approximates.refl.bind fun _ => h.run _
  case eval      => exact (h.run _).bind fun expr => .evaluate h.run expr
  case primitive => exact (h.operands _).bind fun _ => .refl

theorem operands_succ {ks : List Kind} (operands : Operands ks) :
    Approximates (runOperands link (fuel + 1) operands) (runOperands link (fuel + 1 + 1) operands) := by
  cases operands <;> rw [runOperands, runOperands]
  case nil  => exact .refl
  case cons => exact (h.run _).bind fun _ => (h.operands _).bind fun _ => .refl

theorem iterate_succ (condition : Code .raw) (body : Code k) (last : k.Result) :
    Approximates (CellLisp.iterate link (fuel + 1) condition body last)
      (CellLisp.iterate link (fuel + 1 + 1) condition body last) := by
  rw [CellLisp.iterate, CellLisp.iterate]
  exact (h.run _).bind fun _ => .ite .refl ((h.run _).bind fun _ => h.iterate _ _ _)

end FuelGrows

theorem fuelGrows (link : Link) (fuel : Nat) : FuelGrows link fuel := by
  induction fuel
  case zero =>
    exact ⟨fun _ => .outOfFuel, fun _ => .outOfFuel, fun _ _ _ => .outOfFuel⟩
  case succ hi => exact ⟨hi.run_succ, hi.operands_succ, hi.iterate_succ⟩

variable {fuel fuel' : Nat} {s t u : Session}

theorem run_mono {code : Code k} {v : k.Result} (h : run link fuel code s = .ok v t)
    (hle : fuel ≤ fuel') : run link fuel' code s = .ok v t := by
  induction hle
  case refl    => exact h
  case step hi => exact ((fuelGrows link _).run code).ok hi

theorem runOperands_mono {ks : List Kind} {operands : Operands ks} {vs : Results ks}
    (h : runOperands link fuel operands s = .ok vs t) (hle : fuel ≤ fuel') :
    runOperands link fuel' operands s = .ok vs t := by
  induction hle
  case refl    => exact h
  case step hi => exact ((fuelGrows link _).operands operands).ok hi

theorem run_mono_fault {code : Code k} {f : Fault} (h : run link fuel code s = .error (.fault f) t)
    (hle : fuel ≤ fuel') : run link fuel' code s = .error (.fault f) t := by
  induction hle
  case refl    => exact h
  case step hi => exact ((fuelGrows link _).run code).fault hi

theorem runOperands_mono_fault {ks : List Kind} {operands : Operands ks} {f : Fault}
    (h : runOperands link fuel operands s = .error (.fault f) t) (hle : fuel ≤ fuel') :
    runOperands link fuel' operands s = .error (.fault f) t := by
  induction hle
  case refl    => exact h
  case step hi => exact ((fuelGrows link _).operands operands).fault hi

theorem iterate_mono {condition : Code .raw} {body : Code k} {last v : k.Result}
    (h : iterate link fuel condition body last s = .ok v t) (hle : fuel ≤ fuel') :
    iterate link fuel' condition body last s = .ok v t := by
  induction hle
  case refl    => exact h
  case step hi => exact ((fuelGrows link _).iterate condition body last).ok hi

def Operands.Return (link : Link) {ks : List Kind} (operands : Operands ks) (s : Session)
    (vs : Results ks) (t : Session) : Prop :=
  ∃ fuel, runOperands link fuel operands s = .ok vs t

def Loop.Returns (link : Link) {k : Kind} (condition : Code .raw) (body : Code k) (last : k.Result)
    (s : Session) (v : k.Result) (t : Session) : Prop :=
  ∃ fuel, iterate link fuel condition body last s = .ok v t

-- Operands that have all returned have good results, in a session that they have led to.
theorem Regime.operands_return {R : Regime link} {ks : List Kind} {p : Primitive ks k}
    {operands : Operands ks} {vs : Results ks} (h : R.Fits ⟨.primitive p operands, s⟩)
    (hv : operands.Return link s vs t) : R.Leads s t ∧ Results.Hold R.Good vs t := by
  obtain ⟨fuel, hv⟩ := hv
  have hoperands := (R.upto fuel).operands (R.start h) fun c hc hl => R.enters h (.operand hc) hl
  exact hoperands.of_ok hv

theorem Operands.Return.nil : Operands.Return link .nil s () s :=
  ⟨1, rfl⟩

theorem Operands.Return.cons {ks : List Kind} {first : Code k} {rest : Operands ks} {v : k.Result}
    {vs : Results ks} (hv : CellLisp.Returns link first s v t) (hvs : rest.Return link t vs u) :
    (Operands.cons first rest).Return link s (v, vs) u := by
  obtain ⟨fuel, hv⟩ := hv
  obtain ⟨fuel', hvs⟩ := hvs
  refine ⟨max fuel fuel' + 1, ?_⟩
  rw [runOperands, bind_eq_of_ok (run_mono hv (Nat.le_max_left _ _)),
    bind_eq_of_ok (runOperands_mono hvs (Nat.le_max_right _ _))]
  rfl

theorem Loop.Returns.done {condition : Code .raw} {body : Code k} {last : k.Result}
    (h : CellLisp.Returns link condition s (0 : Int64) t) :
    Loop.Returns link condition body last s last t := by
  obtain ⟨fuel, h⟩ := h
  refine ⟨fuel + 1, ?_⟩
  rw [iterate, bind_eq_of_ok h, if_pos rfl]
  rfl

theorem Loop.Returns.next {condition : Code .raw} {body : Code k} {last v w : k.Result} {n : Int64}
    {t' : Session} (hn : CellLisp.Returns link condition s n t) (hz : n ≠ 0)
    (hv : CellLisp.Returns link body t v t') (hw : Loop.Returns link condition body v t' w u) :
    Loop.Returns link condition body last s w u := by
  obtain ⟨fuel₁, hn⟩ := hn
  obtain ⟨fuel₂, hv⟩ := hv
  obtain ⟨fuel₃, hw⟩ := hw
  refine ⟨max fuel₁ (max fuel₂ fuel₃) + 1, ?_⟩
  rw [iterate, bind_eq_of_ok (run_mono hn (by omega)), if_neg hz,
    bind_eq_of_ok (run_mono hv (by omega))]
  exact iterate_mono hw (by omega)

namespace Returns

theorem unique {code : Code k} {v w : k.Result} (h : Returns link code s v t)
    (h' : Returns link code s w u) : v = w ∧ t = u := by
  obtain ⟨fuel, h⟩ := h
  obtain ⟨fuel', h'⟩ := h'
  have h := run_mono h (Nat.le_max_left fuel fuel')
  rw [run_mono h' (Nat.le_max_right fuel fuel')] at h
  cases h
  exact ⟨rfl, rfl⟩

theorem const (n : Int64) : Returns link (.const n) s n s :=
  ⟨1, rfl⟩

theorem literal (r : Ref) : Returns link (.literal r) s (some r) s :=
  ⟨1, rfl⟩

theorem load (e : EntryId) : Returns link (.load e) s (s.env.binding e) s :=
  ⟨1, rfl⟩

theorem discard {value : Code k} {v : k.Result} (h : Returns link value s v t) :
    Returns link (.discard value) s () t := by
  obtain ⟨fuel, h⟩ := h
  refine ⟨fuel + 1, ?_⟩
  rw [run, bind_eq_of_ok h]
  rfl

theorem assign {e : EntryId} {value : Code .raw} {n : Int64} (h : Returns link value s n t)
    (ha : RunM.assign e n t = .ok n u) : Returns link (.assign e value) s n u := by
  obtain ⟨fuel, h⟩ := h
  refine ⟨fuel + 1, ?_⟩
  rw [run, bind_eq_of_ok h, ha]

theorem sequence {first : Code .void} {last : Code k} {v : k.Result} (h : Returns link first s () t)
    (h' : Returns link last t v u) : Returns link (.sequence first last) s v u := by
  obtain ⟨fuel, h⟩ := h
  obtain ⟨fuel', h'⟩ := h'
  refine ⟨max fuel fuel' + 1, ?_⟩
  rw [run, bind_eq_of_ok (run_mono h (Nat.le_max_left _ _))]
  exact run_mono h' (Nat.le_max_right _ _)

theorem branch {condition : Code .raw} {yes no : Code k} {n : Int64} {v : k.Result}
    (h : Returns link condition s n t) (h' : Returns link (if n = 0 then no else yes) t v u) :
    Returns link (.branch condition yes no) s v u := by
  obtain ⟨fuel, h⟩ := h
  obtain ⟨fuel', h'⟩ := h'
  have h' := run_mono h' (Nat.le_max_right fuel fuel')
  refine ⟨max fuel fuel' + 1, ?_⟩
  rw [run, bind_eq_of_ok (run_mono h (Nat.le_max_left _ _)), ← h']
  split <;> rfl

theorem loop {initial body : Code k} {condition : Code .raw} {v w : k.Result}
    (h : Returns link initial s v t) (h' : Loop.Returns link condition body v t w u) :
    Returns link (.loop initial condition body) s w u := by
  obtain ⟨fuel, h⟩ := h
  obtain ⟨fuel', h'⟩ := h'
  refine ⟨max fuel fuel' + 1, ?_⟩
  rw [run, bind_eq_of_ok (run_mono h (Nat.le_max_left _ _))]
  exact iterate_mono h' (Nat.le_max_right _ _)

theorem primitive {ks : List Kind} {p : Primitive ks k} {operands : Operands ks} {vs : Results ks}
    {v : k.Result} (h : operands.Return link s vs t) (hp : p.run link vs t = .ok v u) :
    Returns link (.primitive p operands) s v u := by
  obtain ⟨fuel, h⟩ := h
  refine ⟨fuel + 1, ?_⟩
  rw [run, bind_eq_of_ok h, hp]

end Returns
end CellLisp
