import CellLisp.Proofs.Symbol

namespace CellLisp

namespace CompileError

-- The expression that an error shows.
def expr? : CompileError → Option Datum
  | argumentCount _ expr   => some expr
  | undefinedSymbol _      => none
  | typeMismatch expr _ _  => some expr
  | notSymbol expr _       => some expr
  | nestingOverflow        => none
  | unknownOperator expr _ => some expr

theorem lossy_eq (e : CompileError) : e.lossy = e.expr?.any Datum.lossy := by
  cases e <;> rfl

-- What an error shows is in the heap.
def About (h : Heap) (e : CompileError) : Prop :=
  ∀ expr ∈ e.expr?, ∃ v, expr = h.datum v

theorem about_of_none {h : Heap} {e : CompileError} (he : e.expr? = none) : e.About h := by
  intro expr hexpr
  cases he.symm.trans hexpr

end CompileError

-- A computation that opens no literal.
def Quiet {α : Type} (m : CompileM α) : Prop :=
  ∀ d, match m d with
    | .ok _ e    => e.nesting = d.nesting
    | .error x e => x ≠ .nestingOverflow ∧ x.About e.heap

namespace Quiet

variable {α β : Type} {m : CompileM α} {f : α → CompileM β} {d e : Compiler} {a : α}

theorem of_ok (h : Quiet m) (hm : m d = .ok a e) : e.nesting = d.nesting := by
  simpa only [hm] using h d

theorem of_error (h : Quiet m) : m d ≠ .error .nestingOverflow e := by
  intro hm
  have hne := h d
  simp only [hm] at hne
  exact hne.1 rfl

theorem bind (hm : Quiet m) (hf : ∀ a, Quiet (f a)) : Quiet (m >>= f) := by
  intro d
  have h := hm d
  cases hrun : m d
  case error x e => simpa only [bind_eq_of_error hrun, hrun] using h
  case ok a e    =>
    have ha := hf a e
    rw [bind_eq_of_ok hrun]
    split <;> simp_all

theorem pure (a : α) : Quiet (Pure.pure a : CompileM α) :=
  fun _ => rfl

theorem throw {x : CompileError} (hne : x ≠ .nestingOverflow) (hx : x.expr? = none) :
    Quiet (MonadExcept.throw x : CompileM α) :=
  fun _ => ⟨hne, CompileError.about_of_none hx⟩

-- The error shows an expression as it is in the heap when the error is met.
theorem complain {v : Value} {x : Datum → CompileError} (hx : ∀ expr, (x expr).expr? = some expr) :
    Quiet (CompileM.datum v >>= fun expr => MonadExcept.throw (x expr) : CompileM α) := by
  intro d
  constructor
  case left =>
    intro heq
    have hnone := congrArg CompileError.expr? heq
    cases (hx _).symm.trans hnone
  case right =>
    intro expr hexpr
    exact ⟨v, (Option.some.inj ((hx _).symm.trans hexpr)).symm⟩

end Quiet

namespace Compile

variable {whole : Form} {required : Rep} {name : String} {e : EntryId} {app : Application} {α : Type}

theorem quiet_get : Quiet (get : CompileM Compiler) :=
  fun _ => rfl

theorem quiet_cell? (v : Value) : Quiet (CompileM.cell? v) :=
  fun _ => rfl

theorem quiet_alloc (x : Cell) : Quiet (CompileM.alloc x) :=
  fun _ => rfl

theorem quiet_intern (name : String) : Quiet (CompileM.intern name) :=
  fun _ => rfl

theorem quiet_seed (e : EntryId) (r : Ref) : Quiet (CompileM.seed e r) :=
  fun _ => rfl

theorem quiet_bindPending (e : EntryId) (r : Ref) : Quiet (CompileM.bindPending e r) :=
  fun _ => rfl

theorem quiet_coerce {shape : Shape} {value : Code shape.kind} :
    Quiet (coerce whole shape value required) := by
  unfold coerce
  split
  case h_1 => exact .pure _
  case h_2 => exact .complain fun _ => rfl

theorem quiet_lost (r : Ref) : Quiet (lost r : CompileM α) :=
  .complain fun _ => rfl

theorem quiet_literal (f : Form) : Quiet (literal f required) := by
  unfold literal
  split
  case h_1 => exact .pure _
  case h_2 => exact .pure _
  case h_3 => exact quiet_lost _
  case h_4 => exact quiet_coerce
  case h_5 => exact quiet_coerce

theorem quiet_assumeOr {default : CompileM Ref} (h : Quiet default) : Quiet (assumeOr e default) := by
  have hassume : Quiet (CompileM.assume e) := by
    refine quiet_get.bind fun c => ?_
    split
    case h_1 => exact (quiet_seed _ _).bind fun _ => .pure _
    case h_2 => exact .pure _
    case h_3 => exact .pure _
  refine hassume.bind fun v => ?_
  cases v
  case some => exact .pure _
  case none => exact h.bind fun _ => (quiet_seed _ _).bind fun _ => .pure _

theorem quiet_tagAt (r : Ref) : Quiet (tagAt r) := by
  refine (quiet_cell? _).bind fun x => ?_
  cases x
  case none => exact .pure _
  case some => exact .pure _

-- The tag that is looked up in between changes nothing.
theorem quiet_complain_tag {v : Value} {r : Ref} {x : Datum → Tag → CompileError}
    (hx : ∀ expr tag, (x expr tag).expr? = some expr) :
    Quiet (do throw (x (← CompileM.datum v) (← tagAt r)) : CompileM α) := by
  intro d
  have htag : (tagAt r >>= fun tag => throw (x (d.heap.datum v) tag) : CompileM α) d =
      .error (x (d.heap.datum v) ((d.heap.get? r).elim .nil Cell.tag)) d :=
    bind_eq_of_ok (tagAt_eq d r)
  have hdatum : CompileM.datum v d = .ok (d.heap.datum v) d := rfl
  rw [bind_eq_of_ok hdatum, htag]
  exact Quiet.complain (α := α) (v := v) (x := fun expr => x expr _) (fun expr => hx expr _) d

theorem quiet_symbol : Quiet (symbol whole name required) := by
  have hdefault : Quiet (defaultBinding name required) := by
    cases required
    case cons  => exact .pure _
    case bytes => exact .throw nofun rfl
    all_goals exact quiet_alloc _
  refine (quiet_intern _).bind fun _ => (quiet_assumeOr hdefault).bind fun _ => ?_
  exact (quiet_tagAt _).bind fun _ => quiet_coerce

theorem quiet_atom (r : Ref) (x : Cell) : Quiet (atom r x required) := by
  unfold atom
  split
  case h_1 => exact quiet_symbol
  case h_2 => exact quiet_lost _
  case h_3 => exact quiet_literal _

theorem quiet_missing : Quiet (app.missing : CompileM α) :=
  .complain fun _ => rfl

theorem quiet_arg (n : Nat) : Quiet (app.arg n) := by
  unfold Application.arg
  split
  case h_1 => exact .pure _
  case h_2 => exact quiet_missing

theorem quiet_target : Quiet (target app) := by
  refine (quiet_arg 0).bind fun part => ?_
  cases part.form.symbol?
  case none => exact .complain fun _ => rfl
  case some => exact (quiet_intern _).bind fun _ => .pure _

theorem quiet_definitionResult {expr : Form} {stored : Code .cell} :
    Quiet (definitionResult expr stored required) := by
  have hnarrow (required : Rep) : Quiet (definitionResult.narrow expr stored required) := by
    unfold definitionResult.narrow
    split
    case isTrue  => exact quiet_coerce
    case isFalse => exact quiet_coerce
  cases required
  case pureInt => exact hnarrow .pureInt
  case int     => exact hnarrow .int
  all_goals exact .pure _

theorem quiet_callee (lambda : Ref) : Quiet (callee whole lambda) := by
  refine (quiet_cell? _).bind fun x => ?_
  split
  case h_1 => exact .pure _
  case h_2 =>
    refine quiet_get.bind fun c => ?_
    split
    case isTrue  => exact .pure _
    case isFalse => exact .complain fun _ => rfl

theorem quiet_isFunctionForm (f : Form) : Quiet (isFunctionForm f) := by
  unfold isFunctionForm
  split
  case h_1 => exact .pure _
  case h_2 => exact fun _ => rfl

end Compile

-- Where a computation fails, what it shows is in the heap. It may open literals.
def Candid {α : Type} (m : CompileM α) : Prop :=
  ∀ c e d, m c = .error e d → e.About d.heap

namespace Candid

variable {α β : Type} {m : CompileM α} {f : α → CompileM β}

theorem quiet (h : Quiet m) : Candid m := by
  intro c e d hm
  have herror := h c
  simp only [hm] at herror
  exact herror.2

theorem pure (a : α) : Candid (Pure.pure a : CompileM α) :=
  .quiet (.pure a)

theorem bind (hm : Candid m) (hf : ∀ a, Candid (f a)) : Candid (m >>= f) := by
  intro c e d h
  rcases error_of_bind h with h | ⟨a, u, _, h⟩
  · exact hm c e d h
  · exact hf a u e d h

theorem within {open_ : OpenFunction} (hm : Candid m) : Candid (CompileM.within open_ m) := by
  intro c e d h
  unfold CompileM.within at h
  split at h
  case h_1 =>
    cases h
    exact CompileError.about_of_none rfl
  case h_2 =>
    split at h <;> cases h
    case h_2 hbody =>
      have habout := hm _ e _ hbody
      exact habout

end Candid

structure Part.Candid (p : Part) : Prop where
  code     : ∀ required, CellLisp.Candid (p.code required)
  function : ∀ name, CellLisp.Candid (p.function name)

namespace Compile

variable {whole : Form} {required : Rep} {app : Application} {args : List Part} {α : Type}

theorem candid_arg {n : Nat} {f : Part → CompileM α} (hf : ∀ p ∈ app.args, Candid (f p)) :
    Candid (app.arg n >>= f) := by
  intro c e d h
  rcases error_of_bind h with h | ⟨p, u, hp, h⟩
  · exact Candid.quiet (quiet_arg n) c e d h
  · cases hn : app.args[n]? <;> simp only [Application.arg, hn] at hp <;> cases hp
    exact hf p (List.mem_of_getElem? hn) _ e d h

section Application

variable (ha : ∀ p ∈ app.args, p.Candid)

include ha

theorem candid_branch : Candid (branch app required) := by
  refine candid_arg fun condition hc => candid_arg fun yes hy => ?_
  refine ((ha condition hc).code _).bind fun _ => ((ha yes hy).code _).bind fun _ => ?_
  split
  case h_1 no hn => exact ((ha no (List.mem_of_getElem? hn)).code _).bind fun _ => .pure _
  case h_2       => exact .pure _

theorem candid_loop : Candid (loop app required) := by
  refine candid_arg fun condition hc => candid_arg fun body hb => ?_
  exact ((ha condition hc).code _).bind fun _ => ((ha body hb).code _).bind fun _ => .pure _

omit ha in
theorem candid_steps {first : Part} {rest : List Part} (hf : first.Candid)
    (hr : ∀ p ∈ rest, p.Candid) : Candid (steps first rest required) := by
  induction rest generalizing first
  case nil => exact hf.code required
  case cons second rest hi =>
    refine (hf.code .void).bind fun _ => ?_
    exact (hi (hr second (by simp)) fun p hp => hr p (.tail _ hp)).bind fun _ => .pure _

theorem candid_sequence : Candid (Compile.sequence app required) := by
  unfold Compile.sequence
  split
  case h_1 first rest hargs =>
    exact candid_steps (ha first (by simp [hargs])) fun p hp => ha p (by simp [hargs, hp])
  case h_2 => exact .quiet quiet_missing

omit ha in
theorem candid_operands {reps : List Rep} {parts : List Part} (hp : ∀ p ∈ parts, p.Candid) :
    Candid (operands app reps parts) := by
  induction reps generalizing parts
  case nil => exact .pure _
  case cons rep reps hi =>
    cases parts
    case nil             => exact .quiet quiet_missing
    case cons part parts =>
      refine ((hp part (by simp)).code rep).bind fun _ => ?_
      exact (hi fun p hmem => hp p (.tail _ hmem)).bind fun _ => .pure _

theorem candid_definition : Candid (definition app required) := by
  refine (Candid.quiet quiet_target).bind fun target => candid_arg fun part hp => ?_
  refine Candid.bind ?_ fun _ => .quiet quiet_definitionResult
  refine (Candid.quiet (quiet_isFunctionForm part.form)).bind fun isFunction => ?_
  split
  case isTrue =>
    refine ((ha part hp).function _).bind fun lambda => ?_
    exact .quiet ((quiet_bindPending _ lambda).bind fun _ => .pure _)
  case isFalse =>
    have hbound : Candid (boundCode part required) := by
      cases required <;> exact (ha part hp).code _
    refine hbound.bind fun _ => ?_
    split
    case isFalse => exact .pure _
    case isTrue  =>
      split
      case h_1 => exact .quiet ((quiet_bindPending _ _).bind fun _ => .pure _)
      case h_2 => exact .pure _

theorem candid_assignment : Candid (assignment app required) := by
  refine (Candid.quiet quiet_target).bind fun target => candid_arg fun part hp => ?_
  refine (Candid.quiet (quiet_assumeOr (quiet_alloc _))).bind fun r => ?_
  refine (Candid.quiet (quiet_tagAt r)).bind fun tag => ?_
  split
  case isTrue  => exact ((ha part hp).code _).bind fun _ => .quiet quiet_coerce
  case isFalse => exact ((ha part hp).code _).bind fun _ => .quiet quiet_coerce

end Application

section Call

variable (ha : ∀ p ∈ args, p.Candid)

include ha

theorem candid_functionLiteral (name : Option String) : Candid (functionLiteral whole args name) := by
  unfold functionLiteral
  split
  case h_1            => exact .quiet (.complain fun _ => rfl)
  case h_2 body hbody =>
    refine (Candid.quiet (quiet_alloc _)).bind fun lambda => ?_
    have hcode := (ha body (List.mem_of_getLast? hbody)).code .any
    exact hcode.within.bind fun _ => .quiet fun _ => rfl

theorem candid_builtin {op : Builtin} : Candid (builtin ⟨whole, op, args⟩ required) := by
  unfold builtin
  split
  case h_1  => exact candid_branch ha
  case h_2  => exact candid_loop ha
  case h_3  => exact candid_sequence ha
  case h_4  => exact candid_definition ha
  case h_5  => exact candid_assignment ha
  case h_6  => exact (candid_functionLiteral ha none).bind fun _ => .quiet quiet_coerce
  case h_7  => exact candid_arg fun part _ => .quiet (quiet_literal part.form)
  case h_8  => exact candid_arg fun part hp => ((ha part hp).code _).bind fun _ => .quiet quiet_coerce
  case h_9  =>
    refine candid_arg fun part hp => ((ha part hp).code _).bind fun _ => ?_
    unfold printed
    split
    case h_1 => exact .pure _
    case h_2 => exact .quiet quiet_coerce
  case h_10 =>
    split
    case h_1 => exact (candid_operands ha).bind fun _ => .quiet quiet_coerce
    case h_2 => exact .quiet (.complain fun _ => rfl)

theorem candid_arguments (params : List Ref) : Candid (arguments params args) := by
  induction params generalizing args
  case nil => exact .pure _
  case cons param params hi =>
    cases args
    case nil           => exact .pure _
    case cons arg args =>
      refine (Candid.quiet (quiet_cell? _)).bind fun x => ?_
      split
      case h_1        => exact .quiet (quiet_complain_tag fun _ _ => rfl)
      case h_2 name _ =>
        refine (Candid.quiet (quiet_intern name)).bind fun e => ((ha arg (by simp)).code _).bind fun _ => ?_
        exact (hi fun p hp => ha p (.tail _ hp)).bind fun _ => .pure _

theorem candid_call (lambda : Ref) : Candid (call whole lambda args required) := by
  have hparameters : Quiet (parameters lambda) := fun _ => rfl
  refine (Candid.quiet hparameters).bind fun params => (candid_arguments ha params).bind fun _ => ?_
  exact .quiet ((quiet_callee lambda).bind fun _ => quiet_coerce)

theorem candid_apply (operator : Ref) : Candid (apply whole operator args required) := by
  refine (Candid.quiet (quiet_cell? _)).bind fun x => ?_
  split
  case h_1 =>
    split
    case h_1 => exact candid_builtin ha
    case h_2 => exact .quiet (.complain fun _ => rfl)
  case h_2 => exact candid_call ha _
  case h_3 => exact .quiet (quiet_lost _)
  case h_4 => exact .quiet (quiet_complain_tag fun _ _ => rfl)

theorem candid_application {operator : Part} (ho : operator.Candid) :
    Candid (application whole operator args required) := by
  unfold application
  split
  case h_1 => exact .quiet (.complain fun _ => rfl)
  case h_2 name _ =>
    refine (Candid.quiet quiet_get).bind fun c => ?_
    split
    case h_1 => exact candid_call ha _
    case h_2 =>
      have hlookup : Quiet (CompileM.lookup name) := fun _ => rfl
      refine (Candid.quiet hlookup).bind fun v => ?_
      split
      case h_1 => exact candid_apply ha _
      case h_2 => exact .quiet (.throw nofun rfl)
  case h_3 => exact candid_apply ha _
  case h_4 =>
    refine (Candid.quiet (quiet_isFunctionForm _)).bind fun isFunction => ?_
    split
    case isTrue  => exact (ho.function none).bind fun lambda => candid_call ha lambda
    case isFalse => exact ho.code required

end Call
end Compile

theorem Form.candid (f : Form) : Part.Candid ⟨f, f.code, f.function⟩ ∧ ∀ p ∈ f.parts, p.Candid := by
  induction f
  case absent =>
    refine ⟨⟨fun _ => .pure _, fun name => ?_⟩, by simp [parts]⟩
    exact Compile.candid_functionLiteral (List.forall_mem_nil _) name
  case atom r x =>
    refine ⟨⟨fun _ => .quiet (Compile.quiet_atom r x), fun name => ?_⟩, by simp [parts]⟩
    exact Compile.candid_functionLiteral (List.forall_mem_nil _) name
  case cons r head tail hhead htail =>
    obtain ⟨ho, _⟩ := hhead ()
    obtain ⟨_, ha⟩ := htail ()
    refine ⟨⟨fun _ => ?_, fun name => ?_⟩, fun p hp => ?_⟩
    · exact Compile.candid_application ha ho
    · exact Compile.candid_functionLiteral ha name
    · rw [parts] at hp
      split at hp
      case isTrue  => cases hp
      case isFalse =>
        rcases List.mem_cons.mp hp with rfl | hp
        · exact ho
        · exact ha p hp

theorem about_of_compile {expr : Value} {required : Rep} {c d : Compiler} {e : CompileError}
    (h : compile expr required c = .error e d) : e.About d.heap := by
  unfold compile at h
  split at h <;> cases h
  case h_2 hcode =>
    have habout := (c.heap.form expr).candid.1.code required c e _ hcode
    exact habout

end CellLisp
