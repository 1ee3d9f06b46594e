import CellLisp.Execution.Primitive
import Mathlib.Logic.Function.Basic

namespace CellLisp

namespace Arithmetic

def builtin : Arithmetic → Builtin
  | add => .add
  | sub => .sub
  | mul => .mul
  | div => .div
  | rem => .rem
  | lt  => .lt
  | gt  => .gt

-- The operation on numbers, of which a word keeps the low 64 bits.
def onInts : Arithmetic → Int → Int → Int
  | add, a, b => a + b
  | sub, a, b => a - b
  | mul, a, b => a * b
  | div, a, b => if b = 0 then 0 else a.tdiv b
  | rem, a, b => a - (if b = 0 then 0 else a.tdiv b) * b
  | lt, a, b  => if a < b then 1 else 0
  | gt, a, b  => if b < a then 1 else 0

def onWords (op : Arithmetic) (a b : Int64) : Int64 :=
  Int64.ofInt (op.onInts a.toInt b.toInt)

theorem div_eq_ofInt (a b : Int64) :
    a / b = Int64.ofInt (if b.toInt = 0 then 0 else a.toInt.tdiv b.toInt) := by
  split
  case isTrue hb =>
    have hb : b = 0 := Int64.toInt_inj.mp hb
    rw [hb, Int64.div_zero]
    rfl
  case isFalse =>
    rw [Int64.ofInt_tdiv a.minValue_le_toInt a.toInt_le b.minValue_le_toInt b.toInt_le,
      Int64.ofInt_toInt, Int64.ofInt_toInt]

theorem flag_eq_ofInt (p : Prop) [Decidable p] : flag (decide p) = Int64.ofInt (if p then 1 else 0) := by
  by_cases hp : p <;> simp only [flag, hp] <;> rfl

theorem eval_eq_onWords (op : Arithmetic) (a b : Int64) : op.eval a b = op.onWords a b := by
  cases op <;> simp only [eval, onWords, onInts]
  case add => rw [Int64.ofInt_add, Int64.ofInt_toInt, Int64.ofInt_toInt]
  case sub => rw [Int64.ofInt_sub, Int64.ofInt_toInt, Int64.ofInt_toInt]
  case mul => rw [Int64.ofInt_mul, Int64.ofInt_toInt, Int64.ofInt_toInt]
  case div => exact div_eq_ofInt a b
  case rem => rw [Int64.ofInt_sub, Int64.ofInt_mul, ← div_eq_ofInt, Int64.ofInt_toInt, Int64.ofInt_toInt]
  case lt  => simp only [Int64.lt_iff_toInt_lt, flag_eq_ofInt]
  case gt  => simp only [Int64.lt_iff_toInt_lt, flag_eq_ofInt]

end Arithmetic

inductive IntExpr
  | literal (n : Int64)
  | symbol (name : String)
  | arithmetic (op : Arithmetic) (left right : IntExpr)
  | when (condition yes : IntExpr)
  | branch (condition yes no : IntExpr)
  | andThen (first second : IntExpr)
  | assign (name : String) (value : IntExpr)
  | loop (condition body : IntExpr)
deriving DecidableEq, Repr

abbrev Store := Ref → Int64

namespace IntExpr

def symbols : IntExpr → List String
  | literal _           => []
  | symbol name         => [name]
  | arithmetic _ a b    => a.symbols ++ b.symbols
  | when c yes          => c.symbols ++ yes.symbols
  | branch c yes no     => c.symbols ++ yes.symbols ++ no.symbols
  | andThen first second => first.symbols ++ second.symbols
  | assign name value   => name :: value.symbols
  | loop c body         => c.symbols ++ body.symbols

-- The rounds of a loop, as many as the fuel allows. A loop gives the last value of its body.
def rounds (condition body : StateT Store Option Int64) : (fuel : Nat) → (last : Int64) →
    StateT Store Option Int64
  | 0, _           => failure
  | fuel + 1, last => do
    if (← condition) = 0 then return last
    else rounds condition body fuel (← body)

-- The value of an expression, where `place` is the cell of a symbol. A missing result means that
-- some loop took more rounds than the fuel allows.
def eval (place : String → Ref) (fuel : Nat) : IntExpr → StateT Store Option Int64
  | literal n        => return n
  | symbol name      => return (← get) (place name)
  | arithmetic op a b => do
    let m ← a.eval place fuel
    let n ← b.eval place fuel
    return op.onWords m n
  | when c yes => do
    if (← c.eval place fuel) = 0 then return 0 else yes.eval place fuel
  | branch c yes no => do
    if (← c.eval place fuel) = 0 then no.eval place fuel else yes.eval place fuel
  | andThen first second => do
    let _ ← first.eval place fuel
    second.eval place fuel
  | assign name value => do
    let n ← value.eval place fuel
    modify (Function.update · (place name) n)
    return n
  | loop c body => rounds (c.eval place fuel) (body.eval place fuel) fuel 0

end IntExpr

namespace Form

-- The elements of a proper list.
inductive Lists : Form → List Form → Prop
  | absent : Lists .absent []
  | nil {r word} : Lists (.atom r (.nil word)) []
  | cons {r head tail fs} : Lists (tail ()) fs → Lists (.cons r head tail) (head () :: fs)

-- The application of an operation, by its name, to arguments.
inductive Applies (op : Builtin) (args : List Form) : Form → Prop
  | intro {r s head tail} : head () = .atom s (.symbol op.name) → Lists (tail ()) args →
    Applies op args (.cons r head tail)

end Form

-- An expression is spelled by a sequence of forms that are to be done in order. A single form is
-- such a sequence, and so are the arguments of a `do`.
inductive Spells : List Form → IntExpr → Prop
  | literal {r n} : Spells [.atom r (.int n)] (.literal n)
  | symbol {r name} : Spells [.atom r (.symbol name)] (.symbol name)
  | arithmetic {op f a b x y} : f.Applies (Arithmetic.builtin op) [a, b] → Spells [a] x → Spells [b] y →
    Spells [f] (.arithmetic op x y)
  | when {f a b x y} : f.Applies .branch [a, b] → Spells [a] x → Spells [b] y →
    Spells [f] (.when x y)
  | branch {f a b c x y z} : f.Applies .branch [a, b, c] → Spells [a] x → Spells [b] y →
    Spells [c] z → Spells [f] (.branch x y z)
  | block {f fs x} : f.Applies .sequence fs → Spells fs x → Spells [f] x
  | andThen {f g fs x y} : Spells [f] x → Spells (g :: fs) y → Spells (f :: g :: fs) (.andThen x y)
  | assign {f a r name x} : f.Applies .assign [.atom r (.symbol name), a] → Spells [a] x →
    Spells [f] (.assign name x)
  | loop {f a b x y} : f.Applies .loop [a, b] → Spells [a] x → Spells [b] y →
    Spells [f] (.loop x y)

namespace Arithmetic

def ofBuiltin? : Builtin → Option Arithmetic
  | .add => some add
  | .sub => some sub
  | .mul => some mul
  | .div => some div
  | .rem => some rem
  | .lt  => some lt
  | .gt  => some gt
  | _    => none

theorem builtin_of_ofBuiltin? {b : Builtin} {op : Arithmetic} (h : ofBuiltin? b = some op) :
    op.builtin = b := by
  cases b <;> cases h <;> rfl

end Arithmetic

namespace IntExpr

def block : (first : IntExpr) → (rest : List (Form × IntExpr)) → IntExpr
  | x, []             => x
  | x, (_, y) :: rest => .andThen x (block y rest)

-- The meaning of an application, from the forms and the meanings of its arguments.
def application? : Builtin → List (Form × IntExpr) → Option IntExpr
  | .branch, [(_, x), (_, y)]                      => some (.when x y)
  | .branch, [(_, x), (_, y), (_, z)]              => some (.branch x y z)
  | .loop, [(_, x), (_, y)]                        => some (.loop x y)
  | .assign, [(.atom _ (.symbol name), _), (_, x)] => some (.assign name x)
  | .sequence, (_, x) :: rest                      => some (block x rest)
  | b, [(_, x), (_, y)]                            => (Arithmetic.ofBuiltin? b).map (.arithmetic · x y)
  | _, _                                           => none

end IntExpr

theorem Spells.of_block {f : Form} {x : IntExpr} {rest : List (Form × IntExpr)} (hf : Spells [f] x)
    (hr : ∀ p ∈ rest, Spells [p.1] p.2) : Spells (f :: rest.map Prod.fst) (x.block rest) := by
  induction rest generalizing f x
  case nil => exact hf
  case cons p rest hi =>
    have ⟨hp, hr⟩ := List.forall_mem_cons.mp hr
    exact .andThen hf (hi hp hr)

theorem Spells.of_application? {f : Form} {b : Builtin} {args : List (Form × IntExpr)} {x : IntExpr}
    (h : IntExpr.application? b args = some x) (hf : f.Applies b (args.map Prod.fst))
    (ha : ∀ p ∈ args, Spells [p.1] p.2) : Spells [f] x := by
  fun_cases IntExpr.application? b args
  case case1 =>
    cases h
    have ⟨hx, hy⟩ := List.forall_mem_cons.mp ha
    exact .when hf hx (hy _ (.head _))
  case case2 =>
    cases h
    have ⟨hx, hyz⟩ := List.forall_mem_cons.mp ha
    have ⟨hy, hz⟩ := List.forall_mem_cons.mp hyz
    exact .branch hf hx hy (hz _ (.head _))
  case case3 =>
    cases h
    have ⟨hx, hy⟩ := List.forall_mem_cons.mp ha
    exact .loop hf hx (hy _ (.head _))
  case case4 =>
    cases h
    have ⟨_, hx⟩ := List.forall_mem_cons.mp ha
    exact .assign hf (hx _ (.head _))
  case case5 =>
    cases h
    have ⟨hx, hrest⟩ := List.forall_mem_cons.mp ha
    exact .block hf (.of_block hx hrest)
  case case6 hbranch hloop hassign hsequence =>
    simp only [IntExpr.application?] at h
    obtain ⟨op, hop, rfl⟩ := Option.map_eq_some_iff.mp h
    have ⟨hx, hy⟩ := List.forall_mem_cons.mp ha
    exact .arithmetic (Arithmetic.builtin_of_ofBuiltin? hop ▸ hf) hx (hy _ (.head _))
  case case7 => simp_all [IntExpr.application?]

namespace Form

mutual

-- The integer expression that a form stands for.
def intExpr? : Form → Option IntExpr
  | atom _ (.int n)       => some (.literal n)
  | atom _ (.symbol name) => some (.symbol name)
  | cons _ head tail      => do
    let b ← Builtin.ofName? (← (head ()).symbol?)
    IntExpr.application? b (← (tail ()).intExprs?)
  | _ => none

def intExprs? : Form → Option (List (Form × IntExpr))
  | absent           => some []
  | atom _ (.nil _)  => some []
  | cons _ head tail => do
    let x ← (head ()).intExpr?
    return (head (), x) :: (← (tail ()).intExprs?)
  | _ => none

end

theorem eq_atom_of_symbol? {f : Form} {name : String} (h : f.symbol? = some name) :
    ∃ r, f = .atom r (.symbol name) := by
  cases f
  case atom r c =>
    cases c <;> cases h
    exact ⟨r, rfl⟩
  all_goals cases h

-- A form stands for what is read off it, and so do the arguments of an application.
theorem spells_intExpr? (f : Form) :
    (∀ x, f.intExpr? = some x → Spells [f] x) ∧
    (∀ args, f.intExprs? = some args →
      f.Lists (args.map Prod.fst) ∧ ∀ p ∈ args, Spells [p.1] p.2) := by
  induction f
  case absent => simp [intExpr?, intExprs?, Lists.absent]
  case atom r c =>
    cases c
    case int    => simp [intExpr?, intExprs?, Spells.literal]
    case symbol => simp [intExpr?, intExprs?, Spells.symbol]
    case nil    => simp [intExpr?, intExprs?, Lists.nil]
    all_goals simp [intExpr?, intExprs?]
  case cons r head tail hhead htail =>
    refine ⟨fun x hx => ?_, fun args hargs => ?_⟩
    · simp only [intExpr?, Option.bind_eq_bind, Option.bind_eq_some_iff] at hx
      obtain ⟨name, hname, b, hb, args, hargs, hx⟩ := hx
      obtain ⟨q, hq⟩ := eq_atom_of_symbol? hname
      have ⟨hlist, hspells⟩ := (htail ()).2 args hargs
      have hb : b.name = name := by simpa using List.find?_some hb
      exact .of_application? hx (.intro (hb ▸ hq) hlist) hspells
    · simp only [intExprs?, Option.bind_eq_bind, Option.bind_eq_some_iff] at hargs
      obtain ⟨x, hx, args, hargs, heq⟩ := hargs
      cases heq
      have ⟨hlist, hspells⟩ := (htail ()).2 args hargs
      exact ⟨.cons hlist, List.forall_mem_cons.mpr ⟨(hhead ()).1 x hx, hspells⟩⟩

end Form
end CellLisp
