import CellLisp.Proofs.Fuel

namespace CellLisp

variable {link : Link} {k : Kind} {s t : Session} {c d : Config}

theorem Returns.exists_fuel {code : Code k} {v : k.Result} (h : Returns link code s v t) :
    ∃ fuel, run link (fuel + 1) code s = .ok v t := by
  obtain ⟨fuel, h⟩ := h
  exact ⟨fuel, run_mono h (Nat.le_succ fuel)⟩

-- What is left to do once the first part has returned.
theorem Returns.rest {α : Type} {part : Code k} {w : k.Result} {u : Session} {fuel : Nat}
    {rest : k.Result → RunM α} {a : α} (hw : Returns link part s w u)
    (h : (run link fuel part >>= rest) s = .ok a t) : rest w u = .ok a t := by
  obtain ⟨w', u', hw', h⟩ := ok_of_bind h
  obtain ⟨rfl, rfl⟩ := hw.unique ⟨fuel, hw'⟩
  exact h

theorem Loop.Returns.cases {condition : Code .raw} {body : Code k} {last v : k.Result}
    (h : Loop.Returns link condition body last s v t) :
    ∃ n u, CellLisp.Returns link condition s n u ∧
      (n = 0 ∧ t = u ∨
        n ≠ 0 ∧ ∃ w u', CellLisp.Returns link body u w u' ∧ Loop.Returns link condition body w u' v t) := by
  obtain ⟨fuel, h⟩ := h
  have h := iterate_mono h (Nat.le_succ fuel)
  rw [iterate] at h
  obtain ⟨n, u, hn, h⟩ := ok_of_bind h
  refine ⟨n, u, ⟨fuel, hn⟩, ?_⟩
  split at h
  case isTrue hz =>
    cases h
    exact .inl ⟨hz, rfl⟩
  case isFalse hz =>
    obtain ⟨w, u', hw, h⟩ := ok_of_bind h
    exact .inr ⟨hz, w, u', ⟨fuel, hw⟩, fuel, h⟩

theorem Returns.of_store {e : EntryId} {value : Code .cell} {v : Value}
    (h : Returns link (.store e value) s v t) :
    ∃ u, Returns link value s v u ∧ t = { u with env := u.env.setBinding e v } := by
  obtain ⟨fuel, h⟩ := h.exists_fuel
  rw [run] at h
  obtain ⟨w, u, hw, h⟩ := ok_of_bind h
  cases h
  exact ⟨u, ⟨fuel, hw⟩, rfl⟩

theorem Returns.of_sequence {first : Code .void} {last : Code k} {v : k.Result}
    (h : Returns link (.sequence first last) s v t) :
    ∃ u, Returns link first s () u ∧ Returns link last u v t := by
  obtain ⟨fuel, h⟩ := h.exists_fuel
  rw [run] at h
  obtain ⟨_, u, hfirst, h⟩ := ok_of_bind h
  exact ⟨u, ⟨fuel, hfirst⟩, fuel, h⟩

namespace Regime

variable {R : Regime link}

-- The code has returned, in a session that leads to another.
def Done (R : Regime link) (c : Config) (t : Session) : Prop :=
  ∃ v u, Returns link c.code c.session v u ∧ R.Leads u t

theorem Done.trans {u : Session} (h : R.Done c t) (htu : R.Leads t u) : R.Done c u :=
  have ⟨v, s, hv, hst⟩ := h
  ⟨v, s, hv, R.trans hst htu⟩

section Loop

variable {condition : Code .raw} {body : Code k}

end Loop

end Regime
end CellLisp
