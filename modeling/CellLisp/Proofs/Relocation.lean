import CellLisp.Compiler.Expression

namespace CellLisp

variable (place : Ref → Ref)

namespace Cell

def relocate : Cell → Cell
  | cons head tail          => cons (head.map place) (tail.map place)
  | lambda params id        => lambda (params.map place) id
  | spoilt word (.cons tail) => spoilt word (.cons (tail.map place))
  | x                       => x

variable (x : Cell)

@[simp]
theorem tag_relocate : (x.relocate place).tag = x.tag := by
  cases x
  case spoilt rest => cases rest <;> rfl
  all_goals rfl

@[simp]
theorem symbol?_relocate : (x.relocate place).symbol? = x.symbol? := by
  cases x
  case spoilt rest => cases rest <;> rfl
  all_goals rfl

@[simp]
theorem builtin?_relocate : (x.relocate place).builtin? = x.builtin? := by
  cases x
  case spoilt rest => cases rest <;> rfl
  all_goals rfl

@[simp]
theorem code?_relocate : (x.relocate place).code? = x.code? := by
  cases x
  case spoilt rest => cases rest <;> rfl
  all_goals rfl

@[simp]
theorem params?_relocate : (x.relocate place).params? = x.params?.map place := by
  cases x
  case spoilt rest => cases rest <;> rfl
  all_goals rfl

@[simp]
theorem relocate_id : x.relocate id = x := by
  cases x
  case spoilt rest => cases rest <;> simp [relocate]
  all_goals simp [relocate]

end Cell

namespace Form

def relocate : Form → Form
  | absent           => absent
  | atom r x         => atom (place r) (x.relocate place)
  | cons r head tail => cons (place r) (fun _ => (head ()).relocate) (fun _ => (tail ()).relocate)

variable (f : Form)

@[simp]
theorem value_relocate : (f.relocate place).value = f.value.map place := by
  cases f <;> rfl

@[simp]
theorem tag_relocate : (f.relocate place).tag = f.tag := by
  cases f <;> simp [relocate, tag]

@[simp]
theorem symbol?_relocate : (f.relocate place).symbol? = f.symbol? := by
  cases f <;> simp [relocate, symbol?]

@[simp]
theorem isAbsent_relocate : (f.relocate place).isAbsent = f.isAbsent := by
  cases f <;> rfl

@[simp]
theorem head_relocate : (f.relocate place).head = f.head.relocate place := by
  cases f <;> rfl

@[simp]
theorem tail_relocate : (f.relocate place).tail = f.tail.relocate place := by
  cases f <;> rfl

@[simp]
theorem relocate_id : f.relocate id = f := by
  induction f
  case absent                => rfl
  case atom                  => simp [relocate]
  case cons hhead htail => simp [relocate, hhead, htail]

end Form

def OpenFunction.relocate (f : OpenFunction) : OpenFunction :=
  ⟨f.name, place f.lambda⟩

def Callee.relocate : Callee → Callee
  | code id  => code id
  | lambda r => lambda (place r)

mutual

def Code.relocate {k : Kind} : Code k → Code k
  | .const n                      => .const n
  | .literal r                    => .literal (place r)
  | .load e                       => .load e
  | .store e value                => .store e value.relocate
  | .assign e value               => .assign e value.relocate
  | .discard value                => .discard value.relocate
  | .sequence first last          => .sequence first.relocate last.relocate
  | .branch condition yes no      => .branch condition.relocate yes.relocate no.relocate
  | .loop initial condition body  => .loop initial.relocate condition.relocate body.relocate
  | .call callee                  => .call (callee.relocate place)
  | .eval expr                    => .eval expr.relocate
  | .primitive p operands         => .primitive p operands.relocate

def Operands.relocate {ks : List Kind} : Operands ks → Operands ks
  | .nil             => .nil
  | .cons first rest => .cons first.relocate rest.relocate

end

mutual

theorem Code.relocate_id {k : Kind} : (code : Code k) → code.relocate id = code
  | .const _            => rfl
  | .literal _          => rfl
  | .load _             => rfl
  | .store _ v          => by rw [Code.relocate, v.relocate_id]
  | .assign _ v         => by rw [Code.relocate, v.relocate_id]
  | .discard v          => by rw [Code.relocate, v.relocate_id]
  | .sequence a b       => by rw [Code.relocate, a.relocate_id, b.relocate_id]
  | .branch a b c       => by rw [Code.relocate, a.relocate_id, b.relocate_id, c.relocate_id]
  | .loop a b c         => by rw [Code.relocate, a.relocate_id, b.relocate_id, c.relocate_id]
  | .call (.code _)     => rfl
  | .call (.lambda _)   => rfl
  | .eval v             => by rw [Code.relocate, v.relocate_id]
  | .primitive _ vs     => by rw [Code.relocate, vs.relocate_id]

theorem Operands.relocate_id {ks : List Kind} : (operands : Operands ks) → operands.relocate id = operands
  | .nil       => rfl
  | .cons v vs => by rw [Operands.relocate, v.relocate_id, vs.relocate_id]

end

theorem Code.relocate_sequences {k : Kind} (firsts : List (Code .void)) (last : Code k) :
    (sequences firsts last).relocate place =
      sequences (firsts.map (relocate place)) (last.relocate place) := by
  induction firsts
  case nil                  => rfl
  case cons first firsts hi => exact congrArg (Code.sequence _) hi

theorem Coercion.relocate_apply {j k : Kind} (coercion : Coercion j k) (value : Code j) :
    (coercion.apply value).relocate place = coercion.apply (value.relocate place) := by
  cases coercion <;> rfl

end CellLisp
