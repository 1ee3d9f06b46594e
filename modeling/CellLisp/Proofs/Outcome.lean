import CellLisp.Session
import Mathlib.Order.Defs.Unbundled

namespace CellLisp

variable {ε σ α β : Type}

theorem bind_eq_of_ok {m : EStateM ε σ α} {f : α → EStateM ε σ β} {s t : σ} {a : α}
    (h : m s = .ok a t) : (m >>= f) s = f a t := by
  simp only [bind, EStateM.bind, h]

theorem bind_eq_of_error {m : EStateM ε σ α} {f : α → EStateM ε σ β} {s t : σ} {e : ε}
    (h : m s = .error e t) : (m >>= f) s = .error e t := by
  simp only [bind, EStateM.bind, h]

theorem ok_of_bind {m : EStateM ε σ α} {f : α → EStateM ε σ β} {s t : σ} {b : β}
    (h : (m >>= f) s = .ok b t) : ∃ a u, m s = .ok a u ∧ f a u = .ok b t := by
  cases hm : m s <;> simp only [bind, EStateM.bind, hm, reduceCtorEq] at h
  case ok a u => exact ⟨a, u, rfl, h⟩

theorem error_of_bind {m : EStateM ε σ α} {f : α → EStateM ε σ β} {s t : σ} {e : ε}
    (h : (m >>= f) s = .error e t) : m s = .error e t ∨ ∃ a u, m s = .ok a u ∧ f a u = .error e t := by
  cases hm : m s <;> simp only [bind, EStateM.bind, hm] at h
  case ok a u    => exact .inr ⟨a, u, rfl, h⟩
  case error =>
    cases h
    exact .inl rfl

-- Why a computation failed plays no part here: a failure is judged by the state it leaves.
def Ensures (m : EStateM ε σ α) (s : σ) (post : α → σ → Prop) (fail : σ → Prop) : Prop :=
  match m s with
  | .ok a t    => post a t
  | .error _ t => fail t

instance {m : EStateM ε σ α} {s : σ} {post : α → σ → Prop} {fail : σ → Prop}
    [∀ a t, Decidable (post a t)] [∀ t, Decidable (fail t)] : Decidable (Ensures m s post fail) :=
  match hm : m s with
  | .ok a t    => decidable_of_iff (post a t) (by simp only [Ensures, hm])
  | .error _ t => decidable_of_iff (fail t) (by simp only [Ensures, hm])

namespace Ensures

variable {m : EStateM ε σ α} {f : α → EStateM ε σ β} {s t : σ}
variable {post post' : α → σ → Prop} {fail fail' : σ → Prop}

theorem of_ok {a : α} (h : Ensures m s post fail) (hm : m s = .ok a t) : post a t := by
  simpa [Ensures, hm] using h

theorem of_error {e : ε} (h : Ensures m s post fail) (hm : m s = .error e t) : fail t := by
  simpa [Ensures, hm] using h

theorem intro (ok : ∀ a t, m s = .ok a t → post a t) (error : ∀ e t, m s = .error e t → fail t) :
    Ensures m s post fail := by
  unfold Ensures
  cases hm : m s
  case ok    => exact ok _ _ hm
  case error => exact error _ _ hm

theorem imp (h : Ensures m s post fail) (ok : ∀ a t, post a t → post' a t)
    (error : ∀ t, fail t → fail' t) : Ensures m s post' fail' :=
  intro (fun _ _ hm => ok _ _ (h.of_ok hm)) (fun _ _ hm => error _ (h.of_error hm))

theorem pure {a : α} (h : post a s) : Ensures (Pure.pure a : EStateM ε σ α) s post fail :=
  h

theorem throw {e : ε} (h : fail s) : Ensures (MonadExcept.throw e : EStateM ε σ α) s post fail :=
  h

theorem bind {post : β → σ → Prop} (h : Ensures m s (fun a t => Ensures (f a) t post fail) fail) :
    Ensures (m >>= f) s post fail := by
  unfold Ensures at h ⊢
  simp only [Bind.bind, EStateM.bind]
  split at h <;> simp_all

end Ensures

-- A computation that moves the state along a relation, also where it fails.
def Along (R : σ → σ → Prop) (m : EStateM ε σ α) (s : σ) (post : α → σ → Prop) : Prop :=
  Ensures m s (fun a t => R s t ∧ post a t) (R s)

namespace Along

variable {R : σ → σ → Prop} {m : EStateM ε σ α} {f : α → EStateM ε σ β} {s t : σ}
variable {post : α → σ → Prop}

theorem pure {a : α} (hs : R s s) (h : post a s) : Along R (Pure.pure a : EStateM ε σ α) s post :=
  Ensures.pure ⟨hs, h⟩

theorem throw {e : ε} (hs : R s s) : Along R (MonadExcept.throw e : EStateM ε σ α) s post :=
  Ensures.throw hs

theorem of_ok {a : α} (h : Along R m s post) (hm : m s = .ok a t) : R s t ∧ post a t := by
  unfold Along at h
  exact h.of_ok hm

theorem of_error {e : ε} (h : Along R m s post) (hm : m s = .error e t) : R s t :=
  Ensures.of_error h hm

theorem mono {R' : σ → σ → Prop} (h : Along R m s post) (hr : ∀ t, R s t → R' s t) :
    Along R' m s post :=
  Ensures.imp h (fun _ _ ⟨hst, ha⟩ => ⟨hr _ hst, ha⟩) hr

theorem bind [IsTrans σ R] {post : α → σ → Prop} {post' : β → σ → Prop} (h : Along R m s post)
    (hf : ∀ a t, m s = .ok a t → R s t → post a t → Along R (f a) t post') :
    Along R (m >>= f) s post' := by
  refine Ensures.bind (Ensures.intro (fun a t hm => ?_) (fun _ _ hm => h.of_error hm))
  have ⟨hr, ha⟩ := h.of_ok hm
  exact Ensures.imp (hf a t hm hr ha)
    (fun _ _ ⟨hr', hb⟩ => ⟨IsTrans.trans _ _ _ hr hr', hb⟩) (fun _ => IsTrans.trans _ _ _ hr)

theorem get_bind {f : σ → EStateM ε σ α} (h : Along R (f s) s post) : Along R (get >>= f) s post :=
  h

end Along
end CellLisp
