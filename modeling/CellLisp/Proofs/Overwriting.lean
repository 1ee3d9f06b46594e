import CellLisp.Proofs.Fuel
import CellLisp.Proofs.History
import CellLisp.Proofs.Symbol

namespace CellLisp

namespace Cell

variable {c d : Cell}

theorem Refilled.firstWord (h : c.Refilled d) : d.firstWord = c.firstWord := by
  rcases h with rfl | ⟨x, y, rfl, rfl, _⟩ <;> rfl

theorem refilled_of_get? {h h' : Heap} {r : Ref} (hc : h.get? r = some c) (hd : h'.get? r = some d)
    (hr : h'.get? r = h.get? r) : c.Refilled d := by
  cases hd.symm.trans (hr.trans hc)
  exact .refl

theorem firstWord_ofRemnant (word : Int64) (rest : Remnant) : (ofRemnant word rest).firstWord = word := by
  cases rest
  case symbol => rfl
  case bytes  => rfl
  all_goals
    rw [ofRemnant]
    split
    case isTrue h  => exact h.symm
    case isFalse _ => rfl

-- The word that a cell has after it was written is the one that was written.
theorem firstWord_setFirstWord (c : Cell) (word : Int64) : (c.setFirstWord word).firstWord = word := by
  cases c
  case int     => rfl
  case builtin => rfl
  case error   => rfl
  case nil     => rfl
  all_goals
    rw [setFirstWord]
    exact firstWord_ofRemnant word _

end Cell

variable {i : Image} {ops : List Operation} {link : Link}

-- An assignment in place writes the word while its entry is bound to a cell that is no integer.
def Image.Overwrites (i : Image) (ops : List Operation) (r : Ref) (word : Int64) : Prop :=
  ∃ link e value s t c, i.Passes ops link ⟨.assign e value, s⟩ ∧ Returns link value s word t ∧
    t.env.binding e = some r ∧ t.heap.get? r = some c ∧ c.tag ≠ .int

def overwriting (i : Image) (ops : List Operation) : Observation i ops where
  Keeps s t := ∀ r c d, s.heap.get? r = some c → c.tag ≠ .int → t.heap.get? r = some d →
    c.Refilled d ∨ i.Overwrites ops r d.firstWord
  refl s r c d hc _ hd := .inl (Cell.refilled_of_get? hc hd rfl)
  -- In between the cell still has its tag, so it counts as no integer there as well.
  trans hp hst htu r c e hc ht he := by
    have ⟨d, hd, hcd⟩ := hp.cells r c hc
    have hd' : d.tag ≠ .int := hcd.tag ▸ ht
    rcases htu r d e hd hd' he with hde | hhit
    · rcases hst r c d hc ht hd with hcd | hhit
      · exact .inl (hcd.trans hde)
      · exact .inr (hde.firstWord ▸ hhit)
    · exact .inr hhit
  works hw r c d hc _ hd := by
    have ⟨d', hd', hcd⟩ := hw.heap.old r c hc
    cases hd.symm.trans hd'
    exact .inl hcd
  compile he r c d hc _ hd :=
    .inl (Cell.refilled_of_get? hc hd (he.cells r (Heap.lt_size_of_get? hc)))
  store _ _ r c d hc _ hd := .inl (Cell.refilled_of_get? hc hd rfl)
  assign {_ _ _ _ _ _ q c'} hp hn hb hc' r c d hc ht hd := by
    by_cases hrq : r = q
    case neg => exact .inl (Cell.refilled_of_get? hc hd (Heap.get?_set_of_ne _ hrq))
    case pos =>
      subst hrq
      rw [Heap.get?_set_self _ (Heap.lt_size_of_get? hc)] at hd
      cases hd
      rw [Cell.firstWord_setFirstWord]
      exact .inr ⟨_, _, _, _, _, _, hp, hn, hb, hc, ht⟩

-- Cells that are no integers keep their words, but for those that are hit. A word that is kept and is
-- an address still leads to the same name, or to a buffer of the same size.
def Session.Spares (hit : Ref → Int64 → Prop) (s t : Session) : Prop :=
  ∀ r c, s.heap.get? r = some c → c.tag ≠ .int →
    ∃ d, t.heap.get? r = some d ∧ d.tag = c.tag ∧ d.secondWord = c.secondWord ∧
      (d.firstWord = c.firstWord ∧ c.Refilled d ∨ hit r d.firstWord)

theorem Observation.Leads.spares {s t : Session} (h : (overwriting i ops).Leads s t) :
    s.Spares (i.Overwrites ops) t := by
  intro r c hc ht
  have ⟨d, hd, hcd⟩ := h.persists.cells r c hc
  have hword := h.keeps r c d hc ht hd
  exact ⟨d, hd, hcd.tag, hcd.secondWord, hword.imp_left fun hcd => ⟨hcd.firstWord, hcd⟩⟩

end CellLisp
