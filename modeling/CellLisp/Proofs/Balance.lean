import CellLisp.Proofs.Simulation

namespace CellLisp

theorem Form.all_true (f : Form) : f.All fun _ => True := by
  induction f
  case absent            => trivial
  case atom              => trivial
  case cons hhead htail  => exact ⟨trivial, hhead (), htail ()⟩

namespace Nesting

-- The same state on both sides, with no more than some number of open literals.
def steady (bound : Nat) (hb : limit ≤ bound) : Simulation where
  Alike := fun d d' => d' = d ∧ d.nesting.depth ≤ bound
  place := id
  Known := fun _ => True
  New   := fun _ => True
  nil          := rfl
  cells r h    := by simp [h.1]
  datum v h    := by simp [h.1]
  elements v h := by simp [h.1]
  names h      := by rw [h.1]
  bindings e h := by simp [h.1]
  pending e h  := by simp [h.1]
  named name h := by
    rw [h.1]
    exact Option.map_id'.symm
  opened r h   := by rw [h.1, id]
  depth h      := by rw [h.1]
  alloc h _    := ⟨by rw [h.1, Cell.relocate_id], h.2⟩
  allocated h  := ⟨trivial, by rw [h.1, id]⟩
  intern name h := ⟨by rw [h.1], h.2⟩
  seed e r h   := ⟨by rw [h.1, id], h.2⟩
  bindPending e r h := ⟨by rw [h.1, id], h.2⟩
  push h hlt   := ⟨by rw [h.1]; rfl, Nat.le_trans hlt hb⟩
  pop h        := ⟨by rw [h.1], Nat.le_trans (by simp [pop, depth]) h.2⟩
  finish body h _ _ := ⟨by rw [h.1, id, Option.map_id, id, Code.relocate_id], h.2⟩

variable {bound : Nat} {hb : limit ≤ bound} {d : Compiler} {α : Type} {m m' : CompileM α} {move : α → α}

theorem eq_of_matches (h : (steady bound hb).Matches m m' d d move) (hm : ∀ a, move a = a) :
    m' d = m d := by
  refine h.cases (fun a e e' hok hok' hl => ?_) (fun x e e' herror herror' hl => ?_)
  · rw [hok, hok', hm, hl.alike.1]
  · rw [herror, herror', hl.alike.1]

variable (hb)

theorem fits_part (f : Form) : (steady bound hb).Fits f.part f.part := by
  have h := Form.fits_part (S := steady bound hb) f.all_true
  rwa [show (steady bound hb).place = id from rfl, Form.relocate_id] at h

theorem fits_parts (fs : List Form) :
    List.Forall₂ (steady bound hb).Fits (fs.map Form.part) (fs.map Form.part) := by
  induction fs
  case nil            => exact .nil
  case cons f fs hi   => exact .cons (fits_part hb f) hi

end Nesting

-- A part that is not compiled, but sounds an alarm, when more than some number of literals are open.
def Part.guarded (bound : Nat) (alarm : (α : Type) → CompileM α) (p : Part) : Part where
  form := p.form
  code required d := if d.nesting.depth ≤ bound then p.code required d else alarm _ d
  function name d := if d.nesting.depth ≤ bound then p.function name d else alarm _ d

-- An expression all parts of which are guarded.
def Form.guarded (bound : Nat) (alarm : (α : Type) → CompileM α) (f : Form) : Part :=
  (f.rebuilt (Part.guarded bound alarm)).1

theorem Form.fits_guarded {bound : Nat} (hb : Nesting.limit ≤ bound) (alarm : (α : Type) → CompileM α)
    (f : Form) : (Nesting.steady bound hb).Fits f.part (f.guarded bound alarm) := by
  have hwrap (p p' : Part) (h : (Nesting.steady bound hb).Fits p p') :
      (Nesting.steady bound hb).Fits p (p'.guarded bound alarm) := by
    refine { h with
      code     := fun d d' required hd => (h.code d d' required hd).congr ?_
      function := fun d d' name hd => (h.function d d' name hd).congr ?_ }
    all_goals exact if_pos (hd.1 ▸ hd.2)
  have ⟨h, _⟩ := fits_rebuilt (Part.guarded bound alarm) hwrap f.all_true
  rwa [show (Nesting.steady bound hb).place = id from rfl, relocate_id] at h

-- A computation leaves the open literals as it found them.
def Balanced {α : Type} (m : CompileM α) : Prop :=
  ∀ d, Ensures m d (fun _ e => e.nesting = d.nesting) (·.nesting = d.nesting)

-- The routines that expressions are compiled by.
inductive Routine : {α : Type} → CompileM α → Prop
  | code (f : Form) (required : Rep) : Routine (f.code required)
  | function (f : Form) (name : Option String) : Routine (f.function name)
  | application (whole operator : Form) (args : List Form) (required : Rep) :
    Routine (Compile.application whole operator.part (args.map Form.part) required)
  | applySymbol (whole : Form) (name : String) (args : List Form) (required : Rep) :
    Routine (Compile.applySymbol whole name (args.map Form.part) required)
  | apply (whole : Form) (operator : Ref) (args : List Form) (required : Rep) :
    Routine (Compile.apply whole operator (args.map Form.part) required)
  | builtin (whole : Form) (op : Builtin) (args : List Form) (required : Rep) :
    Routine (Compile.builtin ⟨whole, op, args.map Form.part⟩ required)
  | call (whole : Form) (lambda : Ref) (args : List Form) (required : Rep) :
    Routine (Compile.call whole lambda (args.map Form.part) required)
  | functionLiteral (whole : Form) (args : List Form) (name : Option String) :
    Routine (Compile.functionLiteral whole (args.map Form.part) name)

theorem Routine.matches {α : Type} {m : CompileM α} (h : Routine m) {bound : Nat}
    (hb : Nesting.limit ≤ bound) {d : Compiler} (hd : d.nesting.depth ≤ bound) :
    ∃ move, (Nesting.steady bound hb).Matches m m d d move := by
  have hd : (Nesting.steady bound hb).Alike d d := ⟨rfl, hd⟩
  have hid (f : Form) : f.relocate (Nesting.steady bound hb).place = f := f.relocate_id
  have ha (fs : List Form) := Nesting.fits_parts hb fs
  cases h
  case code f required =>
    exact ⟨_, (Nesting.fits_part hb f).code d d required hd⟩
  case function f name =>
    exact ⟨_, (Nesting.fits_part hb f).function d d name hd⟩
  case application whole operator args required =>
    have ho := Nesting.fits_part hb operator
    exact ⟨_, (Compile.application_matches hd whole.all_true (ha args) ho).congr (by rw [hid])⟩
  case applySymbol whole name args required =>
    exact ⟨_, (Compile.applySymbol_matches hd whole.all_true (ha args)).congr (by rw [hid])⟩
  case apply whole operator args required =>
    exact ⟨_, (Compile.apply_matches hd whole.all_true (ha args)).congr (by rw [hid]; rfl)⟩
  case builtin whole op args required =>
    exact ⟨_, (Compile.builtin_matches hd whole.all_true (ha args)).congr (by rw [hid])⟩
  case call whole lambda args required =>
    exact ⟨_, (Compile.call_matches hd (ha args)).congr (by rw [hid]; rfl)⟩
  case functionLiteral whole args name =>
    exact ⟨_, (Compile.functionLiteral_matches hd whole.all_true (ha args) name).congr (by rw [hid])⟩

theorem Routine.balanced {α : Type} {m : CompileM α} (h : Routine m) : Balanced m := by
  intro d
  obtain ⟨move, h⟩ := h.matches (Nat.le_max_left Nesting.limit d.nesting.depth) (Nat.le_max_right _ _)
  refine h.cases (fun a e e' hm _ hl => ?_) (fun x e e' hm _ hl => ?_)
  all_goals
    simp only [Ensures, hm]
    exact hl.nesting

end CellLisp
