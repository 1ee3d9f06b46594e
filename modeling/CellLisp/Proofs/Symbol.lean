import CellLisp.Compiler.Expression
import CellLisp.Proofs.Outcome

namespace CellLisp

-- The tag that an entry is taken to have. An unbound one is about to be bound to a zero.
def Compiler.tagSeen (c : Compiler) (e : EntryId) : Tag :=
  match c.visible e with
  | none   => .int
  | some r => (c.heap.get? r).elim .nil Cell.tag

def Compiler.interned (c : Compiler) (name : String) : Compiler :=
  { c with env := (c.env.intern name).2 }

-- The tag that a symbol is taken to have.
def Compiler.tagOf (c : Compiler) (name : String) : Tag :=
  (c.interned name).tagSeen (c.env.intern name).1

namespace Compile

variable {c : Compiler} {name : String}

theorem intern_eq (c : Compiler) (name : String) :
    CompileM.intern name c = .ok (c.env.intern name).1 (c.interned name) :=
  rfl

theorem tagAt_eq (c : Compiler) (r : Ref) :
    tagAt r c = .ok ((c.heap.get? r).elim .nil Cell.tag) c := by
  unfold tagAt
  rw [bind_eq_of_ok (show CompileM.cell? (some r) c = .ok (c.heap.get? r) c from rfl)]
  cases c.heap.get? r <;> rfl

-- A pending binding of an unbound entry is seeded, which leaves the heap alone.
theorem assume_eq (c : Compiler) (e : EntryId) :
    ∃ d, CompileM.assume e c = .ok (c.visible e) d ∧ d.heap = c.heap := by
  unfold CompileM.assume Compiler.visible
  rw [bind_eq_of_ok (show (get : CompileM Compiler) c = .ok c c from rfl)]
  cases c.pending.lookup e <;> cases c.env.binding e
  all_goals exact ⟨_, rfl, rfl⟩

theorem assumeOr_zero_eq (c : Compiler) (e : EntryId) :
    ∃ r d, assumeOr e (CompileM.alloc (.int 0)) c = .ok r d ∧ tagAt r d = .ok (c.tagSeen e) d := by
  obtain ⟨d, ha, hheap⟩ := assume_eq c e
  unfold assumeOr Compiler.tagSeen
  rw [bind_eq_of_ok ha]
  cases c.visible e
  case some r => exact ⟨r, d, rfl, by rw [tagAt_eq, hheap]⟩
  case none   =>
    -- The new zero is the cell that the tag is then looked up of.
    let heap := (d.heap.alloc (.int 0)).2
    have hr : heap.get? d.heap.size = some (.int 0) := Heap.get?_alloc_self d.heap (.int 0)
    let seeded := { d with heap, env := d.env.bind e d.heap.size, seeded := e :: d.seeded }
    refine ⟨d.heap.size, seeded, rfl, ?_⟩
    simp only [seeded, tagAt_eq, hr, Option.elim_some, Cell.tag]

-- A symbol is read as a word without a look at its tag, or not at all.
theorem symbol_pureInt_eq (expr : Form) (name : String) (c : Compiler) :
    ∃ d, symbol expr name .pureInt c =
      coerce expr (.cell (c.tagOf name)) (.load (c.env.intern name).1) .pureInt d := by
  obtain ⟨r, d, hr, ht⟩ := assumeOr_zero_eq (c.interned name) (c.env.intern name).1
  refine ⟨d, (bind_eq_of_ok (intern_eq c name)).trans ?_⟩
  exact (bind_eq_of_ok hr).trans (bind_eq_of_ok ht)

end Compile
end CellLisp
