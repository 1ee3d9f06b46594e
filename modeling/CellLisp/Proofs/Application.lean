import CellLisp.Compiler.Expression
import CellLisp.Proofs.Outcome

namespace CellLisp

theorem Builtin.ofWord?_opcode (op : Builtin) : ofWord? (Int64.ofNat op.opcode) = some op := by
  cases op <;> rfl

namespace Form

variable {f g : Form}

def part (f : Form) : Part :=
  ⟨f, f.code, f.function⟩

-- The elements of a list, up to the first one that is missing.
def elements : Form → List Form
  | absent           => []
  | atom _ _         => []
  | cons _ head tail => if (head ()).isAbsent then [] else head () :: (tail ()).elements

def args (f : Form) : List Form :=
  f.tail.elements

-- The symbols that occur in an expression, wherever they stand.
def symbols : Form → List String
  | absent           => []
  | atom _ c         => c.symbol?.toList
  | cons _ head tail => (head ()).symbols ++ (tail ()).symbols

theorem parts_eq (f : Form) : f.parts = f.elements.map part := by
  induction f
  case absent => simp [parts, elements]
  case atom   => simp [parts, elements]
  case cons head tail _ hi =>
    simp only [parts, elements, hi ()]
    split <;> rfl

theorem mem_parts_cons {r : Ref} {head tail : Unit → Form} {p : Part} (h : p ∈ (cons r head tail).parts) :
    p = (head ()).part ∨ p ∈ (tail ()).parts := by
  simp only [parts] at h
  split at h
  case isTrue  => cases h
  case isFalse => exact List.mem_cons.mp h

theorem function_eq (f : Form) (name : Option String) :
    f.function name = Compile.functionLiteral f (f.args.map part) name := by
  rw [function.eq_def]
  cases f
  case cons => simp only [parts_eq, args, tail]
  all_goals rfl

theorem present_of_mem_elements (h : g ∈ f.elements) : g.isAbsent = false := by
  induction f
  case absent => simp [elements] at h
  case atom   => simp [elements] at h
  case cons head tail _ hi =>
    simp only [elements] at h
    split at h
    case isTrue  => cases h
    case isFalse hp =>
      cases h
      case head   => simpa using hp
      case tail h => exact hi () h

end Form

namespace Compiler

variable {c : Compiler} {f : Form} {op : Builtin} {required : Rep}

-- The cell that an operator stands for, if it is no function literal and names none that is open.
def operator? (c : Compiler) : Form → Value
  | .atom _ (.symbol name) => if (c.nesting.find? name).isSome then none else c.lookup name
  | .atom r _              => some r
  | _                      => none

-- The operation that a form applies.
def operation? (c : Compiler) (f : Form) : Option Builtin :=
  (c.heap.cell? (c.operator? f.head)).bind Cell.builtin?

end Compiler

namespace Compile

variable {c : Compiler} {whole : Form} {name : String} {args : List Part} {required : Rep} {r : Ref}

theorem applySymbol_eq (hn : c.nesting.find? name = none) (hl : c.lookup name = some r) :
    applySymbol whole name args required c = apply whole r args required c := by
  unfold applySymbol
  rw [bind_eq_of_ok (show (get : CompileM Compiler) c = .ok c c from rfl)]
  simp only [hn]
  rw [bind_eq_of_ok (show CompileM.lookup name c = .ok (some r) c from hl ▸ rfl)]

theorem apply_eq {op : Builtin} {x : Cell} (hr : c.heap.get? r = some x) (hx : x.builtin? = some op) :
    apply whole r args required c = builtin ⟨whole, op, args⟩ required c := by
  unfold apply
  rw [bind_eq_of_ok (show CompileM.cell? (some r) c = .ok (some x) c from hr ▸ rfl)]
  cases x <;> simp only [Cell.builtin?, reduceCtorEq] at hx
  case builtin opcode => simp only [hx]

theorem application_eq {operator : Part} (h : c.operator? operator.form = some r) :
    application whole operator args required c = apply whole r args required c := by
  unfold application
  cases hform : operator.form <;> simp only [hform, Compiler.operator?, reduceCtorEq] at h
  case atom q x =>
    cases x
    case symbol name =>
      simp only at h ⊢
      split at h
      case isTrue  => cases h
      case isFalse hn => exact applySymbol_eq (by simpa using hn) h
    all_goals
      cases h
      rfl

end Compile

theorem Form.code_of_operation? {c : Compiler} {f : Form} {op : Builtin} {required : Rep}
    (h : c.operation? f = some op) :
    f.code required c = Compile.builtin ⟨f, op, f.args.map part⟩ required c := by
  obtain ⟨x, hcell, hop⟩ := Option.bind_eq_some_iff.mp h
  obtain ⟨r, hr, hx⟩ := Option.bind_eq_some_iff.mp hcell
  cases f
  case absent => cases hr
  case atom   => cases hr
  case cons q head tail =>
    rw [Form.code, parts_eq]
    exact (Compile.application_eq hr).trans (Compile.apply_eq hx hop)

end CellLisp
