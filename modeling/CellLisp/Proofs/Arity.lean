import CellLisp.Proofs.Completion
import CellLisp.Proofs.Provenance
import CellLisp.Proofs.PureExpr
import Mathlib.Data.List.Forall2

namespace CellLisp

namespace Builtin

-- The names that the usage of an operation gives to its arguments.
def argumentNames (op : Builtin) : List (List Char) :=
  ((op.usage.toList.filter fun x => x ≠ '(' ∧ x ≠ ')').splitOn ' ').tail

-- How many arguments there must be. One is enough where the usage goes on with dots.
def needs (op : Builtin) : Nat :=
  if "...".toList ∈ op.argumentNames then 1
  else (op.argumentNames.filter (·.head? ≠ some '[')).length

-- How many arguments can make a difference, unless the usage goes on with dots.
def heeds (op : Builtin) : Nat :=
  op.argumentNames.length

theorem length_operands {op : Builtin} {required : Rep} {signature : Signature}
    (h : op.signature? required = some signature) :
    signature.operands.length = op.needs ∧ signature.operands.length = op.heeds := by
  cases op <;> cases h
  case car => cases required <;> decide +kernel
  all_goals decide +kernel

end Builtin

-- An error without the expression that it shows.
def CompileError.kind : CompileError → CompileError
  | argumentCount op _               => argumentCount op .absent
  | undefinedSymbol name             => undefinedSymbol name
  | typeMismatch _ actual required   => typeMismatch .absent actual required
  | notSymbol _ actual               => notSymbol .absent actual
  | nestingOverflow                  => nestingOverflow
  | unknownOperator _ fault          => unknownOperator .absent fault

-- Two compilations give the same, or fail with errors of one kind, and leave the same state.
inductive Compile.Match {α : Type} :
    EStateM.Result CompileError Compiler α → EStateM.Result CompileError Compiler α → Prop
  | ok {a c} : Match (.ok a c) (.ok a c)
  | error {e e' c} : e.kind = e'.kind → Match (.error e c) (.error e' c)

namespace Compile.Match

variable {α β : Type} {c : Compiler} {f f' : Form} {op : Builtin} {required : Rep}

theorem refl (r : EStateM.Result CompileError Compiler α) : Match r r := by
  cases r
  case ok    => exact .ok
  case error => exact .error rfl

theorem bind {m m' : CompileM α} {k k' : α → CompileM β} (hm : Match (m c) (m' c))
    (hk : ∀ a d, Match (k a d) (k' a d)) : Match ((m >>= k) c) ((m' >>= k') c) := by
  show Match (EStateM.bind m k c) (EStateM.bind m' k' c)
  unfold EStateM.bind
  generalize m c = r at hm
  generalize m' c = r' at hm
  cases hm
  case ok a d    => exact hk a d
  case error hee => exact .error hee

theorem coerce {actual : Shape} {value : Code actual.kind} :
    Match (Compile.coerce f actual value required c) (Compile.coerce f' actual value required c) := by
  unfold Compile.coerce
  cases plan actual required
  case some => exact .ok
  case none => exact .error rfl

variable {args args' : List Part}

theorem missing : Match ((Application.missing ⟨f, op, args⟩ : CompileM α) c)
    ((Application.missing ⟨f', op, args'⟩ : CompileM α) c) :=
  .error rfl

theorem arg {i : Nat} (hi : args[i]? = args'[i]?) :
    Match (Application.arg ⟨f, op, args⟩ i c) (Application.arg ⟨f', op, args'⟩ i c) := by
  unfold Application.arg
  simp only [hi]
  cases args'[i]?
  case some => exact .ok
  case none => exact missing

-- The induction is on the operands that are still to be had, along with the arguments that are left.
theorem operands {reps : List Rep} {rest rest' : List Part}
    (h : rest.take reps.length = rest'.take reps.length) :
    Match (Compile.operands ⟨f, op, args⟩ reps rest c) (Compile.operands ⟨f', op, args'⟩ reps rest' c) := by
  induction reps generalizing rest rest' c
  case nil => exact .ok
  case cons rep reps hi =>
    rcases rest with _ | ⟨part, rest⟩ <;> rcases rest' with _ | ⟨part', rest'⟩
    case nil.nil => exact missing
    case cons.cons =>
      obtain ⟨rfl, hrest⟩ := List.cons.inj h
      exact bind (refl _) fun _ _ => bind (hi hrest) fun _ _ => .ok
    all_goals cases h

theorem printed {value : Code .cell} :
    Match (Compile.printed f value required c) (Compile.printed f' value required c) := by
  unfold Compile.printed
  cases required
  case pureInt => exact refl _
  all_goals exact coerce

theorem target (h : args[0]? = args'[0]?) :
    Match (Compile.target ⟨f, op, args⟩ c) (Compile.target ⟨f', op, args'⟩ c) :=
  bind (arg h) fun _ _ => refl _

-- The parts that an operation asks for are the same in both applications, or missing in both.
theorem builtin (hs : op ≠ .sequence) (hf : op ≠ .function)
    (h : args.take op.heeds = args'.take op.heeds) :
    Match (Compile.builtin ⟨f, op, args⟩ required c) (Compile.builtin ⟨f', op, args'⟩ required c) := by
  have hget {i : Nat} (hi : i < op.heeds) : args[i]? = args'[i]? := by
    rw [← List.getElem?_take_of_lt hi, h, List.getElem?_take_of_lt hi]
  cases ho : op.signature? required
  case some signature =>
    rw [builtin_eq_primitive ho, builtin_eq_primitive ho]
    have hoperands : args.take signature.operands.length = args'.take signature.operands.length := by
      rw [(Builtin.length_operands ho).2]
      exact h
    exact bind (operands hoperands) fun _ _ => coerce
  case none =>
    cases op <;> cases ho
    case branch =>
      refine bind (arg (hget (by decide +kernel))) fun _ _ => ?_
      refine bind (arg (hget (by decide +kernel))) fun _ _ => ?_
      refine bind (refl _) fun _ _ => bind (refl _) fun _ _ => ?_
      rw [hget (show 2 < Builtin.branch.heeds by decide +kernel)]
      exact refl _
    case loop =>
      refine bind (arg (hget (by decide +kernel))) fun _ _ => ?_
      exact bind (arg (hget (by decide +kernel))) fun _ _ => refl _
    case define =>
      refine bind (target (hget (by decide +kernel))) fun _ _ => ?_
      exact bind (arg (hget (by decide +kernel))) fun _ _ => refl _
    case assign =>
      refine bind (target (hget (by decide +kernel))) fun _ _ => ?_
      refine bind (arg (hget (by decide +kernel))) fun _ _ => ?_
      refine bind (refl _) fun _ _ => bind (refl _) fun tag _ => ?_
      split
      case isTrue  => exact bind (refl _) fun _ _ => coerce
      case isFalse => exact bind (refl _) fun _ _ => coerce
    case print =>
      exact bind (arg (hget (by decide +kernel))) fun _ _ => bind (refl _) fun _ _ => printed
    case sequence => exact absurd rfl hs
    case function => exact absurd rfl hf
    case quote => exact bind (arg (hget (by decide +kernel))) fun _ _ => refl _
    case eval => exact bind (arg (hget (by decide +kernel))) fun _ _ => bind (refl _) fun _ _ => coerce
    all_goals exact .error rfl

end Compile.Match

namespace Compile

variable {c d : Compiler} {whole : Form} {op : Builtin} {fs : List Form} {required : Rep}

theorem not_ok_of_missing {α : Type} {app : Application} {a : α} : app.missing c ≠ .ok a d := by
  intro h
  obtain ⟨_, _, _, h⟩ := ok_of_bind h
  cases h

theorem length_of_operands_ok {app : Application} {reps : List Rep} {args : List Part}
    {operands : Operands (reps.map Rep.kind)} (h : Compile.operands app reps args c = .ok operands d) :
    reps.length ≤ args.length := by
  induction reps generalizing args c d
  case nil => exact Nat.zero_le _
  case cons rep reps hi =>
    cases args
    case nil  => exact absurd h not_ok_of_missing
    case cons =>
      obtain ⟨_, _, _, h⟩ := ok_of_bind h
      obtain ⟨_, _, hrest, _⟩ := ok_of_bind h
      exact Nat.succ_le_succ (hi hrest)

theorem lt_length_of_arg_bind {β : Type} {i : Nat} {k : Part → CompileM β} {b : β}
    (h : (Application.arg ⟨whole, op, fs.map Form.part⟩ i >>= k) c = .ok b d) :
    i < fs.length ∧ ∃ g, k (Form.part g) c = .ok b d := by
  obtain ⟨g, hg, h⟩ := arg_of_bind h
  exact ⟨(List.getElem?_eq_some_iff.mp hg).1, g, h⟩

theorem length_of_functionLiteral_ok {name : Option String} {r : Ref} {args : List Part}
    (h : functionLiteral whole args name c = .ok r d) : Builtin.function.needs ≤ args.length := by
  cases args
  case nil =>
    obtain ⟨_, _, _, h⟩ := ok_of_bind h
    cases h
  case cons => exact Nat.succ_le_succ (Nat.zero_le _)

-- Whatever is compiled first, the last argument that is needed is asked for at some time.
theorem needs_of_builtin_ok {code : Code required.kind}
    (h : builtin ⟨whole, op, fs.map Form.part⟩ required c = .ok code d) : op.needs ≤ fs.length := by
  cases ho : op.signature? required
  case some signature =>
    rw [builtin_eq_primitive ho] at h
    obtain ⟨operands, _, hoperands, _⟩ := ok_of_bind h
    rw [← (Builtin.length_operands ho).1]
    simpa using length_of_operands_ok hoperands
  case none =>
    cases op <;> cases ho
    case branch =>
      obtain ⟨_, _, h⟩ := lt_length_of_arg_bind h
      exact (lt_length_of_arg_bind h).1
    case loop =>
      obtain ⟨_, _, h⟩ := lt_length_of_arg_bind h
      exact (lt_length_of_arg_bind h).1
    case define =>
      obtain ⟨_, _, _, h⟩ := ok_of_bind h
      exact (lt_length_of_arg_bind h).1
    case assign =>
      obtain ⟨_, _, _, h⟩ := ok_of_bind h
      exact (lt_length_of_arg_bind h).1
    case print    => exact (lt_length_of_arg_bind h).1
    case quote    => exact (lt_length_of_arg_bind h).1
    case eval     => exact (lt_length_of_arg_bind h).1
    case sequence =>
      cases fs
      case nil  => exact absurd h not_ok_of_missing
      case cons => exact Nat.succ_le_succ (Nat.zero_le _)
    case function =>
      obtain ⟨r, _, hliteral, _⟩ := ok_of_bind h
      simpa using length_of_functionLiteral_ok hliteral
    all_goals
      obtain ⟨_, _, _, h⟩ := ok_of_bind h
      cases h

end Compile

-- Two forms have the same operator and the same first arguments. The arguments after these may be any.
structure Form.SameUpTo (n : Nat) (f f' : Form) : Prop where
  head : f'.head = f.head
  args : f.args.take n = f'.args.take n

namespace Compiler

-- The cells of the parameters of a function.
def parameters (c : Compiler) (lambda : Ref) : List Ref :=
  (c.heap.elements ((c.heap.cell? (some lambda)).bind Cell.params?)).dropLast

-- The function that an operator calls, and the state in which the call is compiled. The function may
-- be one whose literal is open, it may have a cell already, or its literal is the operator.
inductive Calls (c : Compiler) (operator : Form) : Ref → Compiler → Prop
  | opened {r name f} : operator = .atom r (.symbol name) → c.nesting.find? name = some f →
    Calls c operator f.lambda c
  | bound {lambda params code} : c.operator? operator = some lambda →
    c.heap.get? lambda = some (.lambda params code) → Calls c operator lambda c
  | literal {r head tail lambda d} : operator = .cons r head tail → c.isFunction operator →
    operator.function none c = .ok lambda d → Calls c operator lambda d

-- Two applications that differ in nothing that counts.
inductive Alike (c : Compiler) (f f' : Form) : Prop
  | operation {op} : c.operation? f = some op → op ≠ .sequence → op ≠ .function →
    f.SameUpTo op.heeds f' → Alike c f f'
  | call {lambda d} : c.Calls f.head lambda d → f.SameUpTo (d.parameters lambda).length f' → Alike c f f'

variable {c d : Compiler} {f f' : Form} {lambda : Ref} {required : Rep}

theorem Calls.code_eq (h : c.Calls f.head lambda d) :
    f.code required c = Compile.call f lambda (f.args.map Form.part) required d := by
  cases f
  case absent => rcases h with ⟨h, _⟩ | ⟨h, _⟩ | ⟨h, _, _⟩ <;> cases h
  case atom   => rcases h with ⟨h, _⟩ | ⟨h, _⟩ | ⟨h, _, _⟩ <;> cases h
  case cons q head tail =>
    rw [Form.code, Form.parts_eq]
    cases h
    case opened r name o hhead ho =>
      have hhead : head () = .atom r (.symbol name) := hhead
      unfold Compile.application Compile.applySymbol
      simp only [hhead]
      rw [bind_eq_of_ok (show (get : CompileM Compiler) c = .ok c c from rfl)]
      simp only [ho]
      rfl
    case bound params code ho hlambda =>
      refine (Compile.application_eq ho).trans ?_
      have hcell : CompileM.cell? (some lambda) c = .ok (some (.lambda params code)) c := hlambda ▸ rfl
      unfold Compile.apply
      rw [bind_eq_of_ok hcell]
      rfl
    case literal r h t hhead hf hlambda =>
      have hhead : head () = .cons r h t := hhead
      have hf : c.isFunction (head ()) := hf
      unfold Compile.application
      simp only [hhead]
      rw [← hhead, bind_eq_of_ok (Compile.isFunctionForm_eq c (head ())), if_pos hf]
      exact bind_eq_of_ok hlambda

end Compiler

namespace Compile

variable {c d : Compiler} {f f' : Form} {lambda : Ref} {required : Rep}

theorem parameters_eq (c : Compiler) (lambda : Ref) :
    parameters lambda c = .ok (c.parameters lambda) c :=
  rfl

-- No argument is looked at for which there is no parameter.
theorem arguments_take (params : List Ref) (args : List Part) :
    arguments params args = arguments params (args.take params.length) := by
  induction params generalizing args
  case nil => cases args <;> rfl
  case cons param params hi =>
    cases args
    case nil           => rfl
    case cons arg args =>
      rw [List.length_cons, List.take_succ_cons, arguments, arguments, hi]

theorem Match.callee : Match (Compile.callee f lambda c) (Compile.callee f' lambda c) := by
  unfold Compile.callee
  refine bind (refl _) fun cell d => ?_
  cases cell.bind Cell.code?
  case some id => exact .ok
  case none    =>
    refine bind (refl _) fun e d => ?_
    split
    case isTrue  => exact .ok
    case isFalse => exact .error rfl

theorem Match.call {args args' : List Part}
    (h : args.take (c.parameters lambda).length = args'.take (c.parameters lambda).length) :
    Match (Compile.call f lambda args required c) (Compile.call f' lambda args' required c) := by
  unfold Compile.call
  rw [bind_eq_of_ok (parameters_eq c lambda), bind_eq_of_ok (parameters_eq c lambda),
    arguments_take _ args, h, ← arguments_take _ args']
  exact bind (refl _) fun _ _ => bind callee fun _ _ => coerce

end Compile

theorem Compiler.Alike.match_code {c : Compiler} {f f' : Form} (h : c.Alike f f') (required : Rep) :
    Compile.Match (f.code required c) (f'.code required c) := by
  have parts {n : Nat} (hs : f.args.take n = f'.args.take n) :
      (f.args.map Form.part).take n = (f'.args.map Form.part).take n := by
    rw [← List.map_take, hs, List.map_take]
  cases h
  case operation op ho hsequence hfunction hs =>
    have ho' : c.operation? f' = some op := by rwa [Compiler.operation?, hs.head]
    rw [Form.code_of_operation? ho, Form.code_of_operation? ho']
    exact .builtin hsequence hfunction (parts hs.args)
  case call lambda d hc hs =>
    have hc' : c.Calls f'.head lambda d := by rwa [hs.head]
    rw [hc.code_eq, hc'.code_eq]
    exact .call (parts hs.args)

-- What a call does before the function runs: for each argument it evaluates it and binds an entry.
def Code.binding (b : EntryId × Code .cell) : Code .void :=
  .discard (.store b.1 b.2)

inductive BindsAll (link : Link) : List (EntryId × Code .cell) → Session → Session → Prop
  | nil {s} : BindsAll link [] s s
  | cons {e value bindings v s t u} : Returns link value s v t →
    BindsAll link bindings { t with env := t.env.setBinding e v } u →
    BindsAll link ((e, value) :: bindings) s u

theorem Returns.store {link : Link} {e : EntryId} {value : Code .cell} {v : Value} {s t : Session}
    (h : Returns link value s v t) :
    Returns link (.store e value) s v { t with env := t.env.setBinding e v } := by
  obtain ⟨fuel, h⟩ := h
  refine ⟨fuel + 1, ?_⟩
  rw [run, bind_eq_of_ok h]
  rfl

theorem Returns.of_discard {link : Link} {k : Kind} {value : Code k} {s t : Session}
    (h : Returns link (.discard value) s () t) : ∃ v, Returns link value s v t := by
  obtain ⟨fuel, h⟩ := h.exists_fuel
  rw [run] at h
  obtain ⟨v, u, hv, h⟩ := ok_of_bind h
  cases h
  exact ⟨v, fuel, hv⟩

-- The induction is on the bindings; the entries are bound one by one, before the function runs.
theorem BindsAll.returns_iff {link : Link} {bindings : List (EntryId × Code .cell)} {last : Code .cell}
    {v : Value} {s t : Session} :
    Returns link (.sequences (bindings.map Code.binding) last) s v t ↔
      ∃ u, BindsAll link bindings s u ∧ Returns link last u v t := by
  induction bindings generalizing s
  case nil =>
    refine ⟨fun h => ⟨s, .nil, h⟩, ?_⟩
    rintro ⟨u, hu, h⟩
    cases hu
    exact h
  case cons b bindings hi =>
    constructor
    case mp =>
      intro h
      obtain ⟨t', hfirst, hrest⟩ := Returns.of_sequence h
      obtain ⟨w, hstore⟩ := hfirst.of_discard
      obtain ⟨t'', hvalue, rfl⟩ := hstore.of_store
      obtain ⟨u, hu, hlast⟩ := hi.mp hrest
      exact ⟨u, .cons hvalue hu, hlast⟩
    case mpr =>
      rintro ⟨u, hu, hlast⟩
      cases hu
      case cons hvalue hu => exact hvalue.store.discard.sequence (hi.mpr ⟨u, hu, hlast⟩)

-- An entry that is none of those is changed by nothing but the evaluation of arguments.
theorem BindsAll.binding_eq {link : Link} {bindings : List (EntryId × Code .cell)} {s u : Session}
    {e : EntryId} (h : BindsAll link bindings s u) (he : e ∉ bindings.map Prod.fst)
    (hk : ∀ b ∈ bindings, ∀ s v t, Returns link b.2 s v t → t.env.binding e = s.env.binding e) :
    u.env.binding e = s.env.binding e := by
  induction h
  case nil => rfl
  case cons e' value bindings v s t u hv hu hi =>
    simp only [List.map_cons, List.mem_cons, not_or] at he
    obtain ⟨hne, he⟩ := he
    obtain ⟨hk, hks⟩ := List.forall_mem_cons.mp hk
    rw [hi he hks, Env.binding_setBinding_of_ne v hne, hk s v t hv]

-- The arguments of a call are compiled in their order, each when the parameter in its place has got an
-- entry, until there are no more parameters or no more arguments.
inductive Compiler.Pairs :
    Compiler → List Ref → List Form → List (EntryId × Code .cell) → Compiler → Prop
  | done {c params args} : params = [] ∨ args = [] → Pairs c params args [] c
  | next {c r params arg args name value d bindings e} : (c.heap.get? r).bind Cell.symbol? = some name →
    arg.code .any (c.interned name) = .ok value d → Pairs d params args bindings e →
    Pairs c (r :: params) (arg :: args) (((c.env.intern name).1, value) :: bindings) e

theorem Compile.pairs_of_arguments_ok {c d : Compiler} {params : List Ref} {args : List Form}
    {codes : List (Code .void)} (h : arguments params (args.map Form.part) c = .ok codes d) :
    ∃ bindings, c.Pairs params args bindings d ∧ codes = bindings.map Code.binding := by
  induction params generalizing args c codes
  case nil =>
    cases h
    exact ⟨[], .done (.inl rfl), rfl⟩
  case cons r params hi =>
    cases args
    case nil =>
      cases h
      exact ⟨[], .done (.inr rfl), rfl⟩
    case cons arg args =>
      rw [List.map_cons, arguments,
        bind_eq_of_ok (show CompileM.cell? (some r) c = .ok (c.heap.get? r) c from rfl)] at h
      cases hname : (c.heap.get? r).bind Cell.symbol? <;> simp only [hname] at h
      case none =>
        obtain ⟨_, _, _, h⟩ := ok_of_bind h
        obtain ⟨_, _, _, h⟩ := ok_of_bind h
        cases h
      case some name =>
        rw [bind_eq_of_ok (intern_eq c name)] at h
        obtain ⟨value, e, hvalue, h⟩ := ok_of_bind h
        obtain ⟨rest, e', hrest, h⟩ := ok_of_bind h
        cases h
        obtain ⟨bindings, hpairs, rfl⟩ := hi hrest
        exact ⟨((c.env.intern name).1, value) :: bindings, .next hname hvalue hpairs, rfl⟩

-- The parameter whose cell is given has an entry.
def Compiler.IsEntry (c : Compiler) (r : Ref) (e : EntryId) : Prop :=
  ∃ name, (c.heap.get? r).bind Cell.symbol? = some name ∧ c.env.entry? name = some e

-- The entries are those of the first parameters. They keep their names while arguments are compiled.
theorem Compiler.Pairs.names {P : Ref → Prop} {c d : Compiler} {params : List Ref} {args : List Form}
    {bindings : List (EntryId × Code .cell)} (h : c.Pairs params args bindings d)
    (hc : soundness.Holds P c) (ha : ∀ arg ∈ args, arg.All P) :
    c.Grows d ∧ List.Forall₂ (fun r b => d.IsEntry r b.1) (params.take args.length) bindings := by
  induction h
  case done c params args hdone =>
    refine ⟨.refl hc.stands, ?_⟩
    rcases hdone with rfl | rfl <;> simp
  case next c r params arg args name value d bindings e hname hvalue hrest hi =>
    have ⟨harg, hargs⟩ := List.forall_mem_cons.mp ha
    have hinterned : c.Grows (c.interned name) := .intern hc.stands name
    have hcode := (soundness.fits harg).1.code (c.interned name) .any
      ⟨hinterned.sound, fun r hr => Nat.lt_of_lt_of_le (hc.fine r hr) hinterned.size⟩
    have hd : (c.interned name).Grows d := (Ensures.of_ok hcode hvalue).1.grows
    have ⟨he, hnames⟩ := hi ⟨hd.sound, fun r hr =>
      Nat.lt_of_lt_of_le (hc.fine r hr) (hinterned.trans hd).size⟩ hargs
    have hgrows := (hinterned.trans hd).trans he
    refine ⟨hgrows, .cons ⟨name, ?_, ?_⟩ hnames⟩
    · obtain ⟨x, hx, _⟩ := Option.bind_eq_some_iff.mp hname
      rwa [hgrows.cells r (Heap.lt_size_of_get? hx)]
    · exact Env.entry?_of_names_prefix (hd.trans he).names (Env.entry?_intern c.env name)

-- An entry with another name than these parameters have is none of those that are bound.
theorem Compiler.not_mem_of_isEntry {d : Compiler} {params : List Ref}
    {bindings : List (EntryId × Code .cell)} {name : String} {e : EntryId}
    (h : List.Forall₂ (fun r b => d.IsEntry r b.1) params bindings) (he : d.env.entry? name = some e)
    (hp : ∀ r ∈ params, (d.heap.get? r).bind Cell.symbol? ≠ some name) : e ∉ bindings.map Prod.fst := by
  induction h
  case nil => simp
  case cons r b params bindings hr _ hi =>
    have ⟨hne, hp⟩ := List.forall_mem_cons.mp hp
    obtain ⟨name', hname, he'⟩ := hr
    simp only [List.map_cons, List.mem_cons, not_or]
    refine ⟨fun heq => hne ?_, hi hp⟩
    rw [hname, Env.entry?_inj he (heq ▸ he')]

theorem Form.All.args {P : Ref → Prop} {f : Form} (h : f.All P) : ∀ arg ∈ f.args, arg.All P := by
  intro arg harg
  have hpart : arg.part ∈ f.tail.parts := by
    rw [parts_eq]
    exact List.mem_map_of_mem harg
  exact ((soundness.fits h.tail).2 _ hpart).form

theorem Compiler.Calls.holds {P : Ref → Prop} {c d : Compiler} {operator : Form} {lambda : Ref}
    (h : c.Calls operator lambda d) (hc : soundness.Holds P c) (ho : operator.All P) :
    soundness.Holds P d := by
  cases h
  case opened => exact hc
  case bound  => exact hc
  case literal hf =>
    have hd := (Ensures.of_ok ((soundness.fits ho).1.function c none hc) hf).1
    exact hd.holds hc

theorem Compile.eq_of_callee_ok {whole : Form} {lambda : Ref} {callee : Callee} {c d : Compiler}
    (h : Compile.callee whole lambda c = .ok callee d) : d = c := by
  rw [Compile.callee,
    bind_eq_of_ok (show CompileM.cell? (some lambda) c = .ok (c.heap.get? lambda) c from rfl)] at h
  cases hid : (c.heap.get? lambda).bind Cell.code? <;> simp only [hid] at h
  case some =>
    cases h
    rfl
  case none =>
    rw [bind_eq_of_ok (show (get : CompileM Compiler) c = .ok c c from rfl)] at h
    split at h
    case isTrue =>
      cases h
      rfl
    case isFalse =>
      obtain ⟨_, _, _, h⟩ := ok_of_bind h
      cases h

-- A call is the bindings of its arguments, and then the function.
theorem Compile.call_ok {whole : Form} {lambda : Ref} {args : List Form} {required : Rep}
    {code : Code required.kind} {c d : Compiler}
    (h : call whole lambda (args.map Form.part) required c = .ok code d) :
    ∃ bindings callee coercion, c.Pairs (c.parameters lambda) args bindings d ∧
      Compile.callee whole lambda d = .ok callee d ∧ plan .unknown required = some coercion ∧
      code = coercion.apply (.sequences (bindings.map Code.binding) (.call callee)) := by
  unfold call at h
  rw [bind_eq_of_ok (parameters_eq c lambda)] at h
  obtain ⟨codes, e, hcodes, h⟩ := ok_of_bind h
  obtain ⟨callee, e', hcallee, h⟩ := ok_of_bind h
  obtain ⟨bindings, hpairs, rfl⟩ := pairs_of_arguments_ok hcodes
  obtain ⟨rfl, coercion, hplan, rfl⟩ := coerce_ok h
  obtain rfl := eq_of_callee_ok hcallee
  exact ⟨bindings, callee, coercion, hpairs, hcallee, hplan, rfl⟩

theorem Compile.Match.compile {c : Compiler} {expr expr' : Value} {required : Rep}
    (h : Match ((c.heap.form expr).code required c) ((c.heap.form expr').code required c)) :
    Match (CellLisp.compile expr required c) (CellLisp.compile expr' required c) := by
  unfold CellLisp.compile
  generalize (c.heap.form expr).code required c = r at h
  generalize (c.heap.form expr').code required c = r' at h
  cases h
  case ok          => exact .ok
  case error hkind => exact .error hkind

theorem SessionM.evalAs_eq (fuel : Nat) (required : Rep) (expr : Value) (s : Session) :
    SessionM.evalAs fuel required expr s =
      match CellLisp.compile expr required s.toCompiler with
      | .ok code c => SessionM.run .attached fuel code { s with toCompiler := c }
      | .error e c => .error (.ofCompileError e) { s with toCompiler := c } := by
  unfold SessionM.evalAs SessionM.compile
  simp only [Bind.bind, EStateM.bind]
  cases CellLisp.compile expr required s.toCompiler <;> rfl

-- Two evaluations are the same, or neither expression has code, for reasons of one kind. A reason that
-- quotes something lost cannot be told.
inductive SessionM.Match {α : Type} :
    EStateM.Result Failure Session α → EStateM.Result Failure Session α → Prop
  | same {r} : Match r r
  | refused {e e' t} : e.kind = e'.kind →
    Match (.error (.ofCompileError e) t) (.error (.ofCompileError e') t)

theorem SessionM.Match.evalAs {s : Session} {expr expr' : Value} {required : Rep} (fuel : Nat)
    (h : Compile.Match (CellLisp.compile expr required s.toCompiler)
      (CellLisp.compile expr' required s.toCompiler)) :
    Match (SessionM.evalAs fuel required expr s) (SessionM.evalAs fuel required expr' s) := by
  rw [evalAs_eq, evalAs_eq]
  generalize CellLisp.compile expr required s.toCompiler = r at h
  generalize CellLisp.compile expr' required s.toCompiler = r' at h
  cases h
  case ok          => exact .same
  case error hkind => exact .refused hkind

-- How arguments count. An application of an operation has code only if it has the arguments that the
-- usage of the operation asks for. Arguments beyond those that count change neither the code nor the
-- kind of an error, and so nothing that an evaluation does. A call has code that evaluates one argument
-- after the other and binds the first parameters to them, as many as there are arguments, and that then
-- runs the function. It writes no other entries: what else is written, the arguments write.
structure Session.Counts (s : Session) : Prop where
  needs     : ∀ {f op required code d}, s.operation? f = some op →
    f.code required s.toCompiler = .ok code d → op.needs ≤ f.args.length
  function  : ∀ {f : Form} {name r d}, f.function name s.toCompiler = .ok r d →
    Builtin.function.needs ≤ f.args.length
  compiles  : ∀ {f f'}, s.Alike f f' → ∀ required,
    Compile.Match (f.code required s.toCompiler) (f'.code required s.toCompiler)
  evaluates : ∀ {expr expr'}, s.Alike (s.heap.form expr) (s.heap.form expr') → ∀ fuel required,
    SessionM.Match (SessionM.evalAs fuel required expr s) (SessionM.evalAs fuel required expr' s)
  calls     : ∀ {f lambda d required code d'}, s.Calls f.head lambda d →
    f.code required s.toCompiler = .ok code d' → ∃ bindings callee coercion,
      d.Pairs (d.parameters lambda) f.args bindings d' ∧
      Compile.callee f lambda d' = .ok callee d' ∧ plan .unknown required = some coercion ∧
      code = coercion.apply (.sequences (bindings.map Code.binding) (.call callee)) ∧
      (s.Sound → f.All (· < s.heap.size) → List.Forall₂ (fun r b => d'.IsEntry r b.1)
        ((d.parameters lambda).take f.args.length) bindings)
  binds     : ∀ {link bindings callee t v u},
    Returns link (.sequences (bindings.map Code.binding) (.call callee)) t v u ↔
      ∃ t', BindsAll link bindings t t' ∧ Returns link (.call callee) t' v u
  others    : ∀ {d : Compiler} {params bindings name e},
    List.Forall₂ (fun r (b : EntryId × Code .cell) => d.IsEntry r b.1) params bindings →
    d.env.entry? name = some e → (∀ r ∈ params, (d.heap.get? r).bind Cell.symbol? ≠ some name) →
    e ∉ bindings.map Prod.fst
  spares    : ∀ {link bindings t u e}, BindsAll link bindings t u → e ∉ bindings.map Prod.fst →
    (∀ b ∈ bindings, ∀ t v u, Returns link b.2 t v u → u.env.binding e = t.env.binding e) →
    u.env.binding e = t.env.binding e

theorem Session.counts (s : Session) : s.Counts where
  needs ho h := Compile.needs_of_builtin_ok (Form.code_of_operation? ho ▸ h)
  function {f name _ _} h := by
    rw [Form.function_eq] at h
    simpa using Compile.length_of_functionLiteral_ok h
  compiles h required := h.match_code required
  evaluates h fuel required := .evalAs fuel (.compile (h.match_code required))
  calls {f lambda d required code d'} hc h := by
    rw [hc.code_eq] at h
    obtain ⟨bindings, callee, coercion, hpairs, hcallee, hplan, hcode⟩ := Compile.call_ok h
    refine ⟨bindings, callee, coercion, hpairs, hcallee, hplan, hcode, fun hs hf => ?_⟩
    exact (hpairs.names (hc.holds ⟨hs, fun _ hr => hr⟩ hf.head) hf.args).2
  binds := BindsAll.returns_iff
  others := Compiler.not_mem_of_isEntry
  spares := BindsAll.binding_eq

-- The second parameter keeps the binding that it had, and the last argument has no code at all.
example : Ensures (SessionM.evalText 100 "(def y 5) (+ ((fn x y y) 1) ((fn x x) 1 (nowhere)))")
    (.fresh (.fresh 0 0)) (fun v s => s.heap.intOf v = some 6) (fun _ => False) := by
  decide +kernel

end CellLisp
