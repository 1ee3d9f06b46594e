import CellLisp.Proofs.Application
import CellLisp.Proofs.Fuel
import CellLisp.Proofs.Image
import CellLisp.Proofs.Symbol

namespace CellLisp

-- The shape of what an operation gives, where it does not depend on what the operation is given.
def Builtin.resultShape? : Builtin → Option Shape
  | add | sub | mul | div | rem | lt | gt                   => some .raw
  | cons                                                    => some (.cell .cons)
  | alloc | allocText | concat | put | putUnchecked | write => some (.cell .bytes)
  | get | size | getUnchecked | sizeUnchecked               => some .raw
  | pixel | fillRect | flip | blit | blitInverse | inkey    => some .raw
  | function                                                => some (.cell .lambda)
  | _                                                       => none

theorem Builtin.signature?_of_resultShape? {op : Builtin} {shape : Shape}
    (h : op.resultShape? = some shape) (hf : op ≠ .function) (required : Rep) :
    ∃ signature, op.signature? required = some signature ∧ signature.result = shape := by
  cases op <;> cases h
  case function => exact absurd rfl hf
  all_goals exact ⟨_, rfl, rfl⟩

namespace Compiler

-- A form applies the operation that makes functions.
def isFunction (c : Compiler) (f : Form) : Bool :=
  (f.head.symbol?.bind fun name => (c.heap.cell? (c.lookup name)).bind Cell.builtin?) == some .function

-- A form defines a name as a value.
structure Defines (c : Compiler) (f : Form) (name : String) (value : Form) : Prop where
  operation : c.operation? f = some .define
  target    : f.args[0]?.bind Form.symbol? = some name
  value     : f.args[1]? = some value

-- A form defines a name as a function. The name has got its entry when the value is looked at.
structure DefinesFunction (c : Compiler) (f : Form) (name : String) (value : Form) : Prop where
  defines  : c.Defines f name value
  function : (c.interned name).isFunction value

-- Forms whose result has a shape that is known while they are compiled.
inductive Fixes (c : Compiler) : Form → Shape → Prop
  | literal {r x} : x.tag ≠ .symbol → Fixes c (.atom r x) (.cell x.tag)
  | quoted {f value} : c.operation? f = some .quote → f.args[0]? = some value →
    Fixes c f (.cell value.tag)
  | operation {f op shape} : c.operation? f = some op → op.resultShape? = some shape → Fixes c f shape
  | constant {f name value} : c.Defines f name value → Compile.isConstant value →
    Fixes c f (.cell value.tag)
  | function {f name value} : c.DefinesFunction f name value → Fixes c f (.cell .lambda)

end Compiler

theorem plan_any (shape : Shape) : plan shape .any ≠ none := by
  rcases shape with _ | tag | _
  case raw     => simp [plan]
  case cell    => cases tag <;> simp [plan]
  case unknown => simp [plan]

theorem plan_void (shape : Shape) : plan shape .void ≠ none := by
  simp [plan]

-- A form that stands in for the head which its cell has lost.
def Form.isLost : Form → Bool
  | atom _ (.spoilt _ (.cons _)) => true
  | _                            => false

theorem Form.eq_of_isLost {f : Form} (h : f.isLost) : ∃ r word tail, f = .atom r (.spoilt word (.cons tail)) := by
  unfold isLost at h
  split at h
  case h_1 => exact ⟨_, _, _, rfl⟩
  case h_2 => cases h

namespace Compile

variable {c d : Compiler} {f value : Form} {required : Rep} {code : Code required.kind}

theorem plan_of_coerce_ok {expr : Form} {actual : Shape} {value : Code actual.kind}
    (h : coerce expr actual value required c = .ok code d) : plan actual required ≠ none := by
  intro hn
  unfold coerce at h
  simp only [hn] at h
  obtain ⟨_, _, _, h⟩ := ok_of_bind h
  cases h

theorem plan_of_literal_ok (hf : f.isAbsent = false) (h : literal f required c = .ok code d) :
    plan (.cell f.tag) required ≠ none := by
  unfold literal at h
  split at h
  case h_1 => cases hf
  case h_2 => simp [Form.tag, Cell.tag, plan]
  case h_3 => cases h
  case h_4 => exact plan_of_coerce_ok h
  case h_5 => exact plan_of_coerce_ok h

theorem isFunctionForm_eq (c : Compiler) (f : Form) : isFunctionForm f c = .ok (c.isFunction f) c := by
  unfold isFunctionForm Compiler.isFunction
  cases f.head.symbol? <;> rfl

theorem code_of_atom {r : Ref} {x : Cell} (hx : x.tag ≠ .symbol) :
    (Form.atom r x).code required = literal (.atom r x) required := by
  rw [Form.code]
  cases x
  case symbol => exact absurd rfl hx
  case spoilt rest =>
    cases rest
    case symbol => exact absurd rfl hx
    all_goals rfl
  all_goals rfl

theorem code_of_isConstant (hf : isConstant f) (hp : f.isAbsent = false) :
    f.code required = literal f required := by
  cases f
  case absent   => cases hp
  case cons     => cases hf
  case atom r x =>
    apply code_of_atom
    intro hx
    simp [isConstant, Form.tag, hx] at hf

theorem isFunction_of_isConstant (hf : isConstant f) : c.isFunction f = false := by
  cases f
  case cons => cases hf
  all_goals rfl

theorem builtin_eq_primitive {app : Application} {signature : Signature}
    (h : app.op.signature? required = some signature) :
    builtin app required = primitive app signature required := by
  have hnone {op : Builtin} (heq : app.op = op) (hn : op.signature? required = none) : False := by
    rw [heq, hn] at h
    cases h
  unfold builtin
  split
  case h_10 => simp only [h]
  all_goals exact (hnone ‹_› rfl).elim

theorem plan_of_operation_ok {app : Application} {shape : Shape} (ho : app.op.resultShape? = some shape)
    (h : builtin app required c = .ok code d) : plan shape required ≠ none := by
  by_cases hf : app.op = .function
  case pos =>
    rw [hf] at ho
    cases ho
    unfold builtin at h
    simp only [hf] at h
    obtain ⟨_, _, _, h⟩ := ok_of_bind h
    exact plan_of_coerce_ok h
  case neg =>
    obtain ⟨signature, hs, rfl⟩ := app.op.signature?_of_resultShape? ho hf required
    rw [builtin_eq_primitive hs] at h
    obtain ⟨_, _, _, h⟩ := ok_of_bind h
    exact plan_of_coerce_ok h

-- What a definition gives of the value that it binds, if nothing is known of it.
def definedCode (stored : Code .cell) : (required : Rep) → Code required.kind
  | .pureInt            => .unary .unboxChecked stored
  | .int                => .unary .boxChecked stored
  | .void               => .discard stored
  | .cons | .bytes | .any => stored

theorem definitionResult_eq {stored : Code .cell} (hv : isConstant value = false) :
    definitionResult value stored required = pure (definedCode stored required) := by
  cases required
  case pureInt =>
    simp only [definitionResult, definitionResult.narrow, hv]
    rfl
  case int =>
    simp only [definitionResult, definitionResult.narrow, hv]
    rfl
  all_goals rfl

theorem arg_eq {app : Application} {i : Nat} {part : Part} (h : app.args[i]? = some part)
    (c : Compiler) : app.arg i c = .ok part c := by
  simp only [Application.arg, h]
  rfl

theorem arg_of_bind {β : Type} {whole : Form} {op : Builtin} {fs : List Form} {i : Nat}
    {k : Part → CompileM β} {b : β}
    (h : (Application.arg ⟨whole, op, fs.map Form.part⟩ i >>= k) c = .ok b d) :
    ∃ g, fs[i]? = some g ∧ k g.part c = .ok b d := by
  simp only [Application.arg, List.getElem?_map] at h
  cases hg : fs[i]? <;> simp only [hg, Option.map_none, Option.map_some] at h
  case none =>
    obtain ⟨_, _, hmissing, _⟩ := ok_of_bind h
    obtain ⟨_, _, _, hmissing⟩ := ok_of_bind hmissing
    cases hmissing
  case some g => exact ⟨g, rfl, h⟩

section Definition

variable {app : Application} {target part : Part} {name : String} (h0 : app.args[0]? = some target)
  (ht : target.form.symbol? = some name) (h1 : app.args[1]? = some part)

include h0 ht h1

theorem definition_eq (c : Compiler) : definition app required c =
    (do
      let value ← definedValue name (c.env.intern name).1 part required
      definitionResult part.form (.store (c.env.intern name).1 value) required) (c.interned name) := by
  have htarget : Compile.target app c = .ok (name, (c.env.intern name).1) (c.interned name) := by
    unfold Compile.target
    rw [bind_eq_of_ok (arg_eq h0 c)]
    simp only [ht]
    exact bind_eq_of_ok (intern_eq c name)
  unfold definition
  rw [bind_eq_of_ok htarget]
  exact bind_eq_of_ok (arg_eq h1 _)

-- Where the result is not narrowed, the value itself is compiled as what is required.
theorem plan_of_definition_ok {value : Form} (hp : part = value.part) (hv : isConstant value)
    (hpresent : value.isAbsent = false) (h : definition app required c = .ok code d) :
    plan (.cell value.tag) required ≠ none := by
  subst hp
  rw [definition_eq h0 ht h1] at h
  obtain ⟨stored, d', hvalue, h⟩ := ok_of_bind h
  have hf : ¬ (c.interned name).isFunction value.part.form := by simp [Form.part, isFunction_of_isConstant hv]
  rw [definedValue, bind_eq_of_ok (isFunctionForm_eq _ _), if_neg hf] at hvalue
  obtain ⟨_, _, hbound, _⟩ := ok_of_bind hvalue
  have plan_of_bound {b : Rep} {code : Code b.kind} {d : Compiler}
      (hb : value.code b (c.interned name) = .ok code d) : plan (.cell value.tag) b ≠ none := by
    rw [code_of_isConstant hv hpresent] at hb
    exact plan_of_literal_ok hpresent hb
  have plan_of_narrow {b : Rep} {code : Code b.kind}
      (hn : definitionResult.narrow value (.store (c.env.intern name).1 stored) b d' = .ok code d) :
      plan (.cell value.tag) b ≠ none := by
    unfold definitionResult.narrow at hn
    rw [if_pos hv] at hn
    exact plan_of_coerce_ok hn
  cases required
  case pureInt => exact plan_of_narrow h
  case int     => exact plan_of_narrow h
  case cons    => exact plan_of_bound (b := .cons) hbound
  case bytes   => exact plan_of_bound (b := .bytes) hbound
  case any     => exact plan_any _
  case void    => exact plan_void _

-- No representation is refused: all that can fail is to compile the function.
theorem definition_of_function (hf : (c.interned name).isFunction part.form) :
    definition app required c =
      match part.function (some name) (c.interned name) with
      | .ok r d    => .ok (definedCode (.store (c.env.intern name).1 (.literal r)) required)
        { d with pending := ((c.env.intern name).1, r) :: d.pending }
      | .error e d => .error e d := by
  have hv : isConstant part.form = false := by
    cases hc : isConstant part.form
    case false => rfl
    case true  => simp [isFunction_of_isConstant hc] at hf
  rw [definition_eq h0 ht h1]
  simp only [definitionResult_eq hv]
  unfold definedValue
  rw [bind_assoc, bind_eq_of_ok (isFunctionForm_eq _ _), if_pos hf]
  simp only [bind, EStateM.bind]
  cases part.function (some name) (c.interned name)
  case ok    => rfl
  case error => rfl

end Definition
end Compile

theorem code_of_compile_ok {c d : Compiler} {expr : Value} {required : Rep} {code : Code required.kind}
    (h : compile expr required c = .ok code d) :
    ∃ d', (c.heap.form expr).code required c = .ok code d' ∧ d = { d' with pending := [], seeded := [] } := by
  cases hcode : (c.heap.form expr).code required c <;> simp only [compile, hcode, reduceCtorEq] at h
  case ok code d' =>
    cases h
    exact ⟨d', rfl, rfl⟩

namespace Compiler

variable {c d : Compiler} {f value : Form} {shape : Shape} {name : String} {required : Rep}

open Compile

theorem DefinesFunction.code_eq (h : c.DefinesFunction f name value) (required : Rep) :
    f.code required c =
      match value.function (some name) (c.interned name) with
      | .ok r d    => .ok (definedCode (.store (c.env.intern name).1 (.literal r)) required)
        { d with pending := ((c.env.intern name).1, r) :: d.pending }
      | .error e d => .error e d := by
  obtain ⟨target, h0, ht⟩ := Option.bind_eq_some_iff.mp h.defines.target
  have h0 : (f.args.map Form.part)[0]? = some target.part := by simp [h0]
  have h1 : (f.args.map Form.part)[1]? = some value.part := by simp [h.defines.value]
  have hf : (c.interned name).isFunction value.part.form := h.function
  rw [Form.code_of_operation? h.defines.operation]
  exact definition_of_function h0 ht h1 hf

-- All forms but the definitions of functions go by the table.
theorem Fixes.plan_ne_none {code : Code required.kind} (h : c.Fixes f shape)
    (hf : ∀ name value, ¬ c.DefinesFunction f name value) (hok : f.code required c = .ok code d) :
    plan shape required ≠ none := by
  cases h
  case literal r x hx =>
    rw [code_of_atom hx] at hok
    exact plan_of_literal_ok (f := .atom r x) rfl hok
  case quoted value ho hv =>
    rw [Form.code_of_operation? ho] at hok
    have harg : Application.arg ⟨f, .quote, f.args.map Form.part⟩ 0 c = .ok value.part c :=
      arg_eq (by simp [hv]) c
    have hok := (bind_eq_of_ok harg).symm.trans hok
    exact plan_of_literal_ok (Form.present_of_mem_elements (List.mem_of_getElem? hv)) hok
  case operation op ho hs =>
    rw [Form.code_of_operation? ho] at hok
    exact plan_of_operation_ok hs hok
  case constant name value hv hd =>
    rw [Form.code_of_operation? hd.operation] at hok
    obtain ⟨target, h0, ht⟩ := Option.bind_eq_some_iff.mp hd.target
    have h0 : (f.args.map Form.part)[0]? = some target.part := by simp [h0]
    have h1 : (f.args.map Form.part)[1]? = some value.part := by simp [hd.value]
    have hpresent := Form.present_of_mem_elements (List.mem_of_getElem? hd.value)
    exact plan_of_definition_ok h0 ht h1 rfl hv hpresent hok
  case function name value hd => exact absurd hd (hf name value)

end Compiler

-- Code gives a cell whenever it is run.
def Code.Gives (code : Code .cell) (r : Ref) : Prop :=
  ∀ link s, ∃ t, Returns link code s (some r) t

theorem Code.gives_store_literal (e : EntryId) (r : Ref) : (Code.store e (.literal r)).Gives r :=
  fun _ _ => ⟨_, 2, rfl⟩

-- A form of a known shape is refused where the table of coercions has no entry, both as a part of an
-- expression and as the whole. The definition of a function is compiled whatever is required, if the
-- function can be; code that is to give a list or a buffer then gives that function.
structure Compiler.Checks (c : Compiler) (f : Form) (shape : Shape) : Prop where
  part    : (∀ name value, ¬ c.DefinesFunction f name value) → ∀ required code d,
    f.code required c = .ok code d → plan shape required ≠ none
  whole   : (∀ name value, ¬ c.DefinesFunction f name value) → ∀ expr required code d,
    c.heap.form expr = f → compile expr required c = .ok code d → plan shape required ≠ none
  defined : ∀ name value required, c.DefinesFunction f name value → f.code required c =
    match value.function (some name) (c.interned name) with
    | .ok r d    => .ok (Compile.definedCode (.store (c.env.intern name).1 (.literal r)) required)
      { d with pending := ((c.env.intern name).1, r) :: d.pending }
    | .error e d => .error e d
  given   : ∀ name value r d, c.DefinesFunction f name value →
    value.function (some name) (c.interned name) = .ok r d →
      ∃ code d', f.code .cons c = .ok code d' ∧ f.code .bytes c = .ok code d' ∧ Code.Gives code r

theorem checks_of_fixes {c : Compiler} {f : Form} {shape : Shape} (h : c.Fixes f shape) :
    c.Checks f shape where
  part hf _ _ _ := h.plan_ne_none hf
  whole hf expr required code d hform hok := by
    have ⟨_, hok, _⟩ := code_of_compile_ok hok
    exact h.plan_ne_none hf (hform ▸ hok)
  defined _ _ required hd := hd.code_eq required
  given name value r d hd hr := by
    have hcode (required : Rep) := hd.code_eq required
    simp only [hr] at hcode
    exact ⟨_, _, hcode .cons, hcode .bytes, Code.gives_store_literal _ r⟩

-- `(def f (fn 1))`, which is read and not yet compiled.
def Datum.functionDefinition : Datum :=
  .list [.atom (.symbol "def"), .atom (.symbol "f"), .list [.atom (.symbol "fn"), .atom (.int 1)]]

def Image.holdingDefinition : Image :=
  (fresh (.fresh 0 0)).perform (.read .functionDefinition)

theorem Image.reachable_holdingDefinition : holdingDefinition.session.Reachable :=
  .between (.perform _ (.fresh _))

theorem Image.holdingDefinition_facts :
    let s := holdingDefinition.session
    ∃ expr ∈ holdingDefinition.values, s.operation? (s.heap.form expr) = some .define ∧
      (s.heap.form expr).args[0]?.bind Form.symbol? = some "f" ∧
      (s.heap.form expr).args[1]?.any (s.interned "f").isFunction ∧
      Ensures (CellLisp.compile expr .bytes) s.toCompiler (fun _ _ => True) (fun _ => False) ∧
      Ensures (SessionM.evalAs 10 .bytes expr) s
        (fun v t => (t.heap.cell? v).map Cell.tag = some .lambda) (fun _ => False) := by
  decide +kernel

theorem Image.definesFunction_holdingDefinition :
    let s := holdingDefinition.session
    ∃ expr ∈ holdingDefinition.values, ∃ value, s.DefinesFunction (s.heap.form expr) "f" value ∧
      (∃ code d, CellLisp.compile expr .bytes s.toCompiler = .ok code d) ∧
      ∃ v t, SessionM.evalAs 10 .bytes expr s = .ok v t ∧ (t.heap.cell? v).map Cell.tag = some .lambda := by
  intro s
  obtain ⟨expr, hexpr, ho, ht, hv, hcompile, heval⟩ := holdingDefinition_facts
  obtain ⟨value, hvalue, hf⟩ := (Option.any_eq_true _ _).mp hv
  refine ⟨expr, hexpr, value, ⟨⟨ho, ht, hvalue⟩, hf⟩, ?_, ?_⟩
  · cases hc : CellLisp.compile expr .bytes s.toCompiler
    case ok    => exact ⟨_, _, rfl⟩
    case error => exact (hcompile.of_error hc).elim
  · cases hc : SessionM.evalAs 10 .bytes expr s
    case ok v t => exact ⟨v, t, rfl, heval.of_ok hc⟩
    case error  => exact (heval.of_error hc).elim

theorem function_compiled_as_bytes :
    ¬ ∀ (s : Session) expr shape required code d, s.Reachable → s.Fixes (s.heap.form expr) shape →
      compile expr required s.toCompiler = .ok code d → plan shape required ≠ none := by
  intro h
  obtain ⟨expr, _, value, hd, ⟨code, d, hok⟩, _⟩ := Image.definesFunction_holdingDefinition
  exact h _ expr _ .bytes code d Image.reachable_holdingDefinition (.function hd) hok rfl

theorem checks_holdingDefinition :
    let s := Image.holdingDefinition.session
    ∃ expr ∈ Image.holdingDefinition.values, ∃ value r d code d' v t,
      s.DefinesFunction (s.heap.form expr) "f" value ∧
      value.function (some "f") (s.interned "f") = .ok r d ∧
      (s.heap.form expr).code .bytes s.toCompiler = .ok code d' ∧ Code.Gives code r ∧
      SessionM.evalAs 10 .bytes expr s = .ok v t ∧ (t.heap.cell? v).map Cell.tag = some .lambda := by
  intro s
  obtain ⟨expr, hexpr, value, hd, ⟨_, _, hok⟩, v, t, heval, hv⟩ := Image.definesFunction_holdingDefinition
  have h := checks_of_fixes (.function hd)
  obtain ⟨_, hok, _⟩ := code_of_compile_ok hok
  rw [h.defined "f" value .bytes hd] at hok
  cases hr : value.function (some "f") (s.interned "f") <;> simp only [s, hr, reduceCtorEq] at hok
  case ok r d =>
    obtain ⟨code, d', _, hbytes, hgives⟩ := h.given "f" value r d hd hr
    exact ⟨expr, hexpr, value, r, d, code, d', v, t, hd, hr, hbytes, hgives, heval, hv⟩

end CellLisp
