import CellLisp.Proofs.History
import CellLisp.Proofs.KnownShape

namespace CellLisp

section Outcome

variable {ε σ α α' β β' : Type}

-- Where the first computation succeeds the second one does, and leaves the same state. If they are
-- strictly in step, the second one also fails like the first.
structure InStep (strict : Prop) (m : EStateM ε σ α) (m' : EStateM ε σ α') (s : σ) : Prop where
  ok    : ∀ a t, m s = .ok a t → ∃ a', m' s = .ok a' t
  error : strict → ∀ e t, m s = .error e t → m' s = .error e t

namespace InStep

variable {strict : Prop} {s : σ}

theorem refl (m : EStateM ε σ α) : InStep strict m m s :=
  ⟨fun a _ h => ⟨a, h⟩, fun _ _ _ h => h⟩

theorem pure (a : α) (a' : α') :
    InStep strict (Pure.pure a : EStateM ε σ α) (Pure.pure a' : EStateM ε σ α') s where
  ok _ _ h      := by cases h; exact ⟨a', rfl⟩
  error _ _ _ h := by cases h

theorem throw (e : ε) :
    InStep strict (MonadExcept.throw e : EStateM ε σ α) (MonadExcept.throw e : EStateM ε σ α') s where
  ok _ _ h      := by cases h
  error _ _ _ h := by cases h; rfl

theorem bind {m : EStateM ε σ α} {m' : EStateM ε σ α'} {f : α → EStateM ε σ β}
    {f' : α' → EStateM ε σ β'} (h : InStep strict m m' s)
    (hf : ∀ a a' t, m s = .ok a t → m' s = .ok a' t → InStep strict (f a) (f' a') t) :
    InStep strict (m >>= f) (m' >>= f') s := by
  cases hm : m s
  case ok a t =>
    obtain ⟨a', hm'⟩ := h.ok a t hm
    have hrest := hf a a' t hm hm'
    constructor
    all_goals rw [bind_eq_of_ok hm, bind_eq_of_ok hm']
    · exact hrest.ok
    · exact hrest.error
  case error e t =>
    constructor
    all_goals rw [bind_eq_of_error hm]
    · intro _ _ hok
      cases hok
    · intro hs _ _ he
      cases he
      exact bind_eq_of_error (h.error hs e t hm)

-- Both runs begin with the same result.
theorem bind_of_eq {m m' : EStateM ε σ α} {f : α → EStateM ε σ β} {f' : α → EStateM ε σ β'}
    (h : m s = m' s) (hf : ∀ a t, m s = .ok a t → InStep strict (f a) (f' a) t) :
    InStep strict (m >>= f) (m' >>= f') s := by
  refine bind ⟨fun a t hm => ⟨a, h ▸ hm⟩, fun _ e t hm => h ▸ hm⟩ (fun a a' t hm hm' => ?_)
  cases hm.symm.trans (h.trans hm')
  exact hf a t hm

-- If two runs are strictly in step, the second one tells as much about the first.
theorem ok_iff {m : EStateM ε σ α} {m' : EStateM ε σ α'} (h : InStep strict m m' s) (hs : strict)
    (t : σ) : (∃ a, m s = .ok a t) ↔ ∃ a', m' s = .ok a' t := by
  constructor
  case mp =>
    rintro ⟨a, hm⟩
    exact h.ok a t hm
  case mpr =>
    rintro ⟨a', hm'⟩
    cases hm : m s
    case ok a u =>
      obtain ⟨_, hu⟩ := h.ok a u hm
      cases hm'.symm.trans hu
      exact ⟨a, rfl⟩
    case error e u => cases hm'.symm.trans (h.error hs e u hm)

theorem error_iff {m : EStateM ε σ α} {m' : EStateM ε σ α'} (h : InStep strict m m' s) (hs : strict)
    (e : ε) (t : σ) : m s = .error e t ↔ m' s = .error e t := by
  constructor
  case mp  => exact h.error hs e t
  case mpr =>
    intro hm'
    cases hm : m s
    case ok a u =>
      obtain ⟨_, hu⟩ := h.ok a u hm
      cases hm'.symm.trans hu
    case error f u =>
      cases hm'.symm.trans (h.error hs f u hm)
      rfl

end InStep
end Outcome

-- Pairs of representations such that what can be had in the first can be had in the second.
inductive Rep.Yields : Rep → Rep → Prop
  | box     : Yields .pureInt .int
  | unbox   : Yields .int .pureInt
  | discard : Yields .any .void
  | widen (a : Rep) : Yields a .any

theorem Rep.Yields.plan {a b : Rep} (h : a.Yields b) {shape : Shape}
    (hp : plan shape a ≠ none) : CellLisp.plan shape b ≠ none := by
  cases h
  case discard => exact plan_void shape
  case widen   => exact plan_any shape
  all_goals
    rcases shape with _ | tag | _
    case raw     => simp [CellLisp.plan]
    case unknown => simp [CellLisp.plan]
    case cell    => cases tag <;> simp [CellLisp.plan] at hp ⊢

-- What is asked of the state. Where any cell is required no symbol may need a default, because the
-- default may not be the one that it has in the other run.
structure Supports (P : Ref → Prop) (names : List String) (b : Rep) (c : Compiler) : Prop where
  holds : soundness.Holds P c
  bound : b = .any → ∀ name ∈ names, c.env.lookup name ≠ none

-- What is known of a part of an expression.
structure Part.Agrees (P : Ref → Prop) (names : List String) (a b : Rep) (p : Part) : Prop where
  fits : soundness.Fits P p
  code : ∀ c, Supports P names b c → InStep (a = .any) (p.code a) (p.code b) c

namespace Supports

variable {P : Ref → Prop} {names : List String} {b : Rep} {c d : Compiler} {strict : Prop}
variable {α β β' : Type} {m : CompileM α} {post : α → Compiler → Prop}

theorem leads (h : Supports P names b c) (hd : soundness.Leads c d) : Supports P names b d where
  holds := hd.holds h.holds
  bound hb name hname := by
    have ⟨r, hr⟩ := Option.ne_none_iff_exists'.mp (h.bound hb name hname)
    simp [hd.grows.lookup hr]

-- Both runs begin with the same computation.
theorem bind {f : α → CompileM β} {f' : α → CompileM β'} (h : Supports P names b c)
    (hm : soundness.Obeys m c post)
    (hf : ∀ x d, Supports P names b d → post x d → InStep strict (f x) (f' x) d) :
    InStep strict (m >>= f) (m >>= f') c := by
  refine .bind_of_eq rfl (fun x d hx => ?_)
  have ⟨hd, hpost⟩ := Ensures.of_ok hm hx
  exact hf x d (h.leads hd) hpost

end Supports

namespace Part.Agrees

variable {P : Ref → Prop} {names : List String} {a b : Rep} {p : Part} {c : Compiler} {strict : Prop}
variable {β β' : Type}

-- A part that is compiled in the same representation in both runs.
theorem same_bind (hp : p.Agrees P names a b) (h : Supports P names b c) (required : Rep)
    {f : Code required.kind → CompileM β} {f' : Code required.kind → CompileM β'}
    (hf : ∀ x d, Supports P names b d → InStep strict (f x) (f' x) d) :
    InStep strict (p.code required >>= f) (p.code required >>= f') c :=
  h.bind (hp.fits.code c required h.holds) (fun x d hd _ => hf x d hd)

theorem code_bind (hp : p.Agrees P names a b) (h : Supports P names b c)
    {f : Code a.kind → CompileM β} {f' : Code b.kind → CompileM β'}
    (hf : ∀ x x' d, Supports P names b d → InStep (a = .any) (f x) (f' x') d) :
    InStep (a = .any) (p.code a >>= f) (p.code b >>= f') c := by
  refine (hp.code c h).bind (fun x x' d hx _ => hf x x' d ?_)
  have ⟨hd, _⟩ := Ensures.of_ok (hp.fits.code c a h.holds) hx
  exact h.leads hd

end Part.Agrees

-- Only the head of a list is taken in more than one way.
theorem Builtin.signature?_eq (op : Builtin) (h : op ≠ .car) (a b : Rep) :
    op.signature? a = op.signature? b := by
  cases op
  case car => exact absurd rfl h
  all_goals rfl

namespace Compile

open Discipline (target_obeys)

variable {P : Ref → Prop} {names : List String} {a b : Rep} {c : Compiler} {strict : Prop}
variable {α α' : Type}

theorem coerce_inStep {expr expr' : Form} {shape shape' : Shape} {value : Code shape.kind}
    {value' : Code shape'.kind} (hp : plan shape a ≠ none → plan shape' b ≠ none) :
    InStep (a = .any) (coerce expr shape value a) (coerce expr' shape' value' b) c := by
  cases ha : plan shape a
  case none =>
    constructor
    · intro _ _ hok
      exact absurd ha (plan_of_coerce_ok hok)
    · rintro rfl
      exact absurd ha (plan_any shape)
  case some coercion =>
    obtain ⟨coercion', hb⟩ := Option.ne_none_iff_exists'.mp (hp (by simp [ha]))
    simp only [coerce, ha, hb]
    exact .pure _ _

theorem literal_of_plan {f : Form} {required : Rep} (hf : f.isLost = false)
    (hp : plan (.cell f.tag) required ≠ none) : ∃ code, literal f required c = .ok code c := by
  have coerced {expr : Form} {tag : Tag} {r : Ref} (hp : plan (.cell tag) required ≠ none) :
      ∃ code, coerce expr (.cell tag) (.literal r) required c = .ok code c := by
    obtain ⟨coercion, hc⟩ := Option.ne_none_iff_exists'.mp hp
    simp only [coerce, hc]
    exact ⟨_, rfl⟩
  unfold literal
  split
  case h_1 => exact ⟨_, rfl⟩
  case h_2 => exact ⟨_, rfl⟩
  case h_3 => cases hf
  case h_4 => exact coerced hp
  case h_5 => exact coerced hp

theorem lost_same {r : Ref} : InStep strict (lost r : CompileM α) (lost r : CompileM α') c :=
  .bind_of_eq rfl (fun _ _ _ => .throw _)

theorem arg_same {app : Application} {i : Nat} {f : Part → CompileM α} {f' : Part → CompileM α'}
    (hf : ∀ p ∈ app.args, InStep strict (f p) (f' p) c) :
    InStep strict (app.arg i >>= f) (app.arg i >>= f') c := by
  refine .bind_of_eq rfl (fun p d hp => ?_)
  cases hq : app.args[i]? <;> simp only [Application.arg, hq] at hp
  case none =>
    obtain ⟨_, _, _, hp⟩ := ok_of_bind hp
    cases hp
  case some q =>
    cases hp
    exact hf _ (List.mem_of_getElem? hq)

theorem missing_same {app : Application} :
    InStep strict (app.missing : CompileM α) (app.missing : CompileM α') c :=
  .bind_of_eq rfl (fun _ _ _ => .throw _)

variable (hab : a.Yields b)

include hab

theorem literal_inStep (f : Form) : InStep (a = .any) (literal f a) (literal f b) c := by
  cases hf : f.isAbsent
  case true =>
    cases f <;> cases hf
    exact .pure _ _
  case false =>
    cases hl : f.isLost
    case true =>
      obtain ⟨r, word, tail, rfl⟩ := f.eq_of_isLost hl
      exact lost_same
    case false =>
      constructor
      · intro code d hok
        have hp := plan_of_literal_ok hf hok
        obtain ⟨_, hc⟩ := literal_of_plan (c := c) hl hp
        cases hok.symm.trans hc
        exact literal_of_plan hl (hab.plan hp)
      · rintro rfl e d he
        obtain ⟨_, hok⟩ := literal_of_plan (c := c) hl (plan_any (.cell f.tag))
        cases he.symm.trans hok

-- The two representations have the same default, or none is needed.
theorem assumeOr_default_eq {e : EntryId} {name : String} (hb : b = .any → c.env.binding e ≠ none) :
    assumeOr e (defaultBinding name a) c = assumeOr e (defaultBinding name b) c := by
  cases hab
  case widen =>
    obtain ⟨d, hd, _⟩ := assume_eq c e
    obtain ⟨r, hr⟩ := Option.ne_none_iff_exists'.mp (hb rfl)
    obtain ⟨s, hs⟩ : ∃ s, c.visible e = some s := by
      cases hp : c.pending.lookup e
      case none   => exact ⟨r, by simp [Compiler.visible, hp, hr]⟩
      case some s => exact ⟨s, by simp [Compiler.visible, hp]⟩
    rw [hs] at hd
    unfold assumeOr
    rw [bind_eq_of_ok hd, bind_eq_of_ok hd]
  all_goals rfl

theorem symbol_inStep (expr : Form) {name : String}
    (hb : b = .any → c.env.lookup name ≠ none) :
    InStep (a = .any) (symbol expr name a) (symbol expr name b) c := by
  refine .bind_of_eq rfl (fun e d he => ?_)
  cases (intern_eq c name).symm.trans he
  have hbound : b = .any → (c.interned name).env.binding (c.env.intern name).1 ≠ none := by
    intro hany hnone
    obtain ⟨r, hr⟩ := Option.ne_none_iff_exists'.mp (hb hany)
    obtain ⟨e, he, hr⟩ := Option.bind_eq_some_iff.mp hr
    rw [Compiler.interned, Env.binding_intern, Env.intern_of_entry? he, hr] at hnone
    cases hnone
  refine .bind_of_eq (assumeOr_default_eq hab hbound) (fun r d' _ => ?_)
  refine .bind_of_eq rfl (fun tag d'' _ => ?_)
  exact coerce_inStep hab.plan

theorem atom_inStep (r : Ref) (x : Cell)
    (hb : b = .any → ∀ name, x.symbol? = some name → c.env.lookup name ≠ none) :
    InStep (a = .any) ((Form.atom r x).code a) ((Form.atom r x).code b) c := by
  by_cases hx : x.tag = .symbol
  case pos =>
    cases x <;> try cases hx
    case symbol name => exact symbol_inStep hab _ (fun hany => hb hany name rfl)
    case spoilt rest =>
      cases rest <;> cases hx
      exact lost_same
  case neg =>
    rw [code_of_atom hx, code_of_atom hx]
    exact literal_inStep hab _

omit hab in
theorem steps_inStep {first : Part} {rest : List Part} (h : Supports P names b c)
    (hf : first.Agrees P names a b) (hr : ∀ p ∈ rest, p.Agrees P names a b) :
    InStep (a = .any) (steps first rest a) (steps first rest b) c := by
  induction rest generalizing first c
  case nil => exact hf.code c h
  case cons second rest hi =>
    refine hf.same_bind h .void (fun _ d hd => ?_)
    have hsteps := hi hd (hr second (by simp)) (fun p hp => hr p (.tail _ hp))
    exact hsteps.bind (fun _ _ _ _ _ => .pure _ _)

theorem call_inStep {whole : Form} {lambda : Ref} {args : List Part} :
    InStep (a = .any) (call whole lambda args a) (call whole lambda args b) c := by
  refine .bind_of_eq rfl (fun params _ _ => .bind_of_eq rfl (fun bindings _ _ => ?_))
  exact .bind_of_eq rfl (fun callee _ _ => coerce_inStep hab.plan)

section Application

variable {app : Application} (h : Supports P names b c) (ha : ∀ p ∈ app.args, p.Agrees P names a b)

include h ha

omit hab in
theorem branch_inStep : InStep (a = .any) (branch app a) (branch app b) c := by
  refine arg_same (fun condition hc => arg_same (fun yes hy => ?_))
  refine (ha _ hc).same_bind h .pureInt (fun _ d hd => ?_)
  refine (ha _ hy).code_bind hd (fun _ _ d' hd' => ?_)
  split
  case h_1 no hn => exact (ha no (List.mem_of_getElem? hn)).code_bind hd' (fun _ _ _ _ => .pure _ _)
  case h_2       => exact .pure _ _

omit hab in
theorem loop_inStep : InStep (a = .any) (loop app a) (loop app b) c := by
  refine arg_same (fun condition hc => arg_same (fun body hb => ?_))
  refine (ha _ hc).same_bind h .pureInt (fun _ d hd => ?_)
  exact (ha _ hb).code_bind hd (fun _ _ _ _ => .pure _ _)

omit hab in
theorem sequence_inStep : InStep (a = .any) (Compile.sequence app a) (Compile.sequence app b) c := by
  unfold Compile.sequence
  split
  case h_1 first rest hargs =>
    exact steps_inStep h (ha first (by simp [hargs])) (fun p hp => ha p (by simp [hargs, hp]))
  case h_2 => exact missing_same

omit h ha in
theorem definitionResult_inStep {expr : Form} {stored stored' : Code .cell} :
    InStep (a = .any) (definitionResult expr stored a) (definitionResult expr stored' b) c := by
  -- A result that is not narrowed is one of which nothing is known, required as any cell.
  have narrowed_any (a : Rep) : InStep (a = .any) (definitionResult.narrow expr stored a)
      (coerce expr .unknown stored' .any) c := by
    unfold definitionResult.narrow
    split
    case isTrue  => exact coerce_inStep (fun _ => plan_any _)
    case isFalse => exact coerce_inStep (fun _ => plan_any _)
  have narrowed : InStep (a = .any) (definitionResult.narrow expr stored a)
      (definitionResult.narrow expr stored' b) c := by
    unfold definitionResult.narrow
    split
    case isTrue  => exact coerce_inStep hab.plan
    case isFalse => exact coerce_inStep hab.plan
  cases hab
  case box     => exact narrowed
  case unbox   => exact narrowed
  case discard => exact .pure _ _
  case widen   =>
    cases a
    case pureInt => exact narrowed_any .pureInt
    case int     => exact narrowed_any .int
    all_goals exact .pure _ _

omit ha in
theorem boundCode_inStep {part : Part} (hp : part.Agrees P names a b) :
    InStep (a = .any) (boundCode part a) (boundCode part b) c := by
  cases hab
  case widen =>
    cases a
    case cons  => exact hp.code c h
    case bytes => exact hp.code c h
    all_goals exact .refl _
  all_goals exact .refl _

omit ha in
theorem definedValue_inStep {name : String} {e : EntryId} {part : Part}
    (hp : part.Agrees P names a b) :
    InStep (a = .any) (definedValue name e part a) (definedValue name e part b) c := by
  refine .bind_of_eq rfl (fun function d hd => ?_)
  cases (isFunctionForm_eq c part.form).symm.trans hd
  split
  case isTrue  => exact .refl _
  case isFalse =>
    refine (boundCode_inStep hab h hp).bind (fun _ _ _ _ _ => ?_)
    split
    case isFalse => exact .pure _ _
    case isTrue  =>
      split
      case h_1 => exact .bind_of_eq rfl (fun _ _ _ => .pure _ _)
      case h_2 => exact .pure _ _

theorem definition_inStep : InStep (a = .any) (definition app a) (definition app b) c := by
  refine h.bind (target_obeys h.holds) (fun ⟨name, e⟩ d hd _ => arg_same (fun part hp => ?_))
  refine (definedValue_inStep hab hd (ha part hp)).bind (fun _ _ _ _ _ => ?_)
  exact definitionResult_inStep hab

omit h ha in
theorem assignment_inStep : InStep (a = .any) (assignment app a) (assignment app b) c := by
  refine .bind_of_eq rfl (fun ⟨_, e⟩ _ _ => .bind_of_eq rfl (fun part _ _ => ?_))
  refine .bind_of_eq rfl (fun r _ _ => .bind_of_eq rfl (fun tag _ _ => ?_))
  split
  case isTrue  => exact .bind_of_eq rfl (fun _ _ _ => coerce_inStep hab.plan)
  case isFalse => exact .bind_of_eq rfl (fun _ _ _ => coerce_inStep hab.plan)

omit h ha in
theorem printed_inStep {whole : Form} {value : Code .cell} :
    InStep (a = .any) (printed whole value a) (printed whole value b) c := by
  cases hab
  case widen => cases a <;> exact .pure _ _
  all_goals exact .pure _ _

omit h ha hab in
theorem primitive_inStep {operands : List Rep} {result result' : Shape}
    {p : Primitive (operands.map Rep.kind) result.kind}
    {p' : Primitive (operands.map Rep.kind) result'.kind}
    (hr : plan result a ≠ none → plan result' b ≠ none) :
    InStep (a = .any) (primitive app ⟨operands, result, p⟩ a)
      (primitive app ⟨operands, result', p'⟩ b) c :=
  .bind_of_eq rfl (fun _ _ _ => coerce_inStep hr)

omit h ha in
theorem car_inStep : InStep (a = .any) (primitive app (.car a) a) (primitive app (.car b) b) c := by
  cases hab
  case widen => cases a <;> exact primitive_inStep (fun _ => by simp [plan])
  all_goals exact primitive_inStep (fun _ => by simp [plan])

omit h ha in
theorem signature_inStep (op : Builtin) :
    InStep (a = .any)
      (match op.signature? a with
        | some signature => primitive app signature a
        | none => do throw (.unknownOperator (← CompileM.datum app.whole.value) (.unavailable op)))
      (match op.signature? b with
        | some signature => primitive app signature b
        | none => do throw (.unknownOperator (← CompileM.datum app.whole.value) (.unavailable op))) c := by
  by_cases hop : op = .car
  case pos =>
    subst hop
    exact car_inStep hab
  case neg =>
    rw [op.signature?_eq hop a b]
    cases op.signature? b
    case none   => exact .bind_of_eq rfl (fun _ _ _ => .throw _)
    case some s => exact primitive_inStep hab.plan

theorem builtin_inStep : InStep (a = .any) (builtin app a) (builtin app b) c := by
  unfold builtin
  split
  case h_1 => exact branch_inStep h ha
  case h_2 => exact loop_inStep h ha
  case h_3 => exact sequence_inStep h ha
  case h_4 => exact definition_inStep hab h ha
  case h_5 => exact assignment_inStep hab
  case h_6 => exact .bind_of_eq rfl (fun _ _ _ => coerce_inStep hab.plan)
  case h_7 => exact .bind_of_eq rfl (fun part _ _ => literal_inStep hab part.form)
  case h_8 =>
    refine .bind_of_eq rfl (fun part _ _ => .bind_of_eq rfl (fun _ _ _ => ?_))
    exact coerce_inStep hab.plan
  case h_9 => exact .bind_of_eq rfl (fun part _ _ => .bind_of_eq rfl (fun _ _ _ => printed_inStep hab))
  case h_10 => exact signature_inStep hab _

end Application

theorem apply_inStep {whole : Form} {operator : Ref} {args : List Part} (h : Supports P names b c)
    (ha : ∀ p ∈ args, p.Agrees P names a b) :
    InStep (a = .any) (apply whole operator args a) (apply whole operator args b) c := by
  refine .bind_of_eq rfl (fun x d hx => ?_)
  cases hx
  split
  case h_1 =>
    split
    case h_1 => exact builtin_inStep hab h ha
    case h_2 => exact .bind_of_eq rfl (fun _ _ _ => .throw _)
  case h_2 => exact call_inStep hab
  case h_3 => exact lost_same
  case h_4 => exact .bind_of_eq rfl (fun _ _ _ => .bind_of_eq rfl (fun _ _ _ => .throw _))

theorem applySymbol_inStep {whole : Form} {name : String} {args : List Part} (h : Supports P names b c)
    (ha : ∀ p ∈ args, p.Agrees P names a b) :
    InStep (a = .any) (applySymbol whole name args a) (applySymbol whole name args b) c := by
  refine .bind_of_eq rfl (fun x d hx => ?_)
  cases hx
  split
  case h_1 => exact call_inStep hab
  case h_2 =>
    refine .bind_of_eq rfl (fun v d hv => ?_)
    cases hv
    split
    case h_1 => exact apply_inStep hab h ha
    case h_2 => exact .throw _

theorem application_inStep {whole : Form} {operator : Part} {args : List Part}
    (h : Supports P names b c) (ho : operator.Agrees P names a b)
    (ha : ∀ p ∈ args, p.Agrees P names a b) :
    InStep (a = .any) (application whole operator args a) (application whole operator args b) c := by
  unfold application
  split
  case h_1 => exact .bind_of_eq rfl (fun _ _ _ => .throw _)
  case h_2 => exact applySymbol_inStep hab h ha
  case h_3 => exact apply_inStep hab h ha
  case h_4 =>
    refine .bind_of_eq rfl (fun function d hd => ?_)
    cases (isFunctionForm_eq c operator.form).symm.trans hd
    split
    case isTrue  => exact .bind_of_eq rfl (fun _ _ _ => call_inStep hab)
    case isFalse => exact ho.code c h

end Compile

-- As with the discipline, what is known of an expression comes from its head and its tail.
theorem Form.agrees {P : Ref → Prop} {names : List String} {a b : Rep} (hab : a.Yields b) {f : Form}
    (hf : f.All P) (hn : f.symbols ⊆ names) :
    f.part.Agrees P names a b ∧ ∀ p ∈ f.parts, p.Agrees P names a b := by
  induction f
  case absent =>
    exact ⟨⟨(soundness.fits hf).1, fun c h => .pure _ _⟩, by simp [parts]⟩
  case atom r x =>
    refine ⟨⟨(soundness.fits hf).1, fun c h => ?_⟩, by simp [parts]⟩
    refine Compile.atom_inStep hab r x (fun hb name hname => ?_)
    exact h.bound hb name (hn (by simp [symbols, hname]))
  case cons r head tail hhead htail =>
    obtain ⟨hnhead, hntail⟩ := List.append_subset.mp hn
    obtain ⟨hh, _⟩ := hhead () hf.2.1 hnhead
    obtain ⟨_, ht⟩ := htail () hf.2.2 hntail
    refine ⟨⟨(soundness.fits hf).1, fun c h => ?_⟩, fun p hp => ?_⟩
    · exact Compile.application_inStep hab h hh ht
    · rcases mem_parts_cons hp with rfl | hp
      · exact hh
      · exact ht p hp

section Compile

variable {c : Compiler} {expr : Value} {a b : Rep}

theorem compile_inStep (hab : a.Yields b) (hs : c.Sound)
    (hb : b = .any → ∀ name ∈ (c.heap.form expr).symbols, c.env.lookup name ≠ none) :
    InStep (a = .any) (compile expr a) (compile expr b) c := by
  have hform : (c.heap.form expr).All (· < c.heap.size) :=
    Heap.formWithin_all _ (fun _ _ hr => hr) (fun _ _ _ _ _ _ hs => hs)
  have ⟨hagrees, _⟩ := Form.agrees hab hform (List.Subset.refl _)
  have hcode : InStep (a = .any) ((c.heap.form expr).code a) ((c.heap.form expr).code b) c :=
    hagrees.code c ⟨⟨hs, fun _ hr => hr⟩, hb⟩
  constructor
  · intro code d hok
    cases ha : (c.heap.form expr).code a c <;> simp only [compile, ha, reduceCtorEq] at hok
    case ok =>
      cases hok
      obtain ⟨code', hb⟩ := hcode.ok _ _ ha
      exact ⟨code', by simp only [compile, hb]⟩
  · intro hany e d he
    cases ha : (c.heap.form expr).code a c <;> simp only [compile, ha, reduceCtorEq] at he
    case error =>
      cases he
      simp only [compile, hcode.error hany _ _ ha]

end Compile

-- What compiling an expression comes to in one representation, as far as it tells what compiling it
-- comes to in another one. Where both succeed they leave the same state.
structure Compiler.Converts (c : Compiler) (expr : Value) : Prop where
  integer : ∀ d, (∃ code, compile expr .pureInt c = .ok code d) ↔ ∃ code, compile expr .int c = .ok code d
  effect  : ∀ d, (∃ code, compile expr .any c = .ok code d) ↔ ∃ code, compile expr .void c = .ok code d
  failure : ∀ e d, compile expr .any c = .error e d ↔ compile expr .void c = .error e d
  widest  : (∀ name ∈ (c.heap.form expr).symbols, c.env.lookup name ≠ none) →
    ∀ required code d, compile expr required c = .ok code d → ∃ code', compile expr .any c = .ok code' d

theorem converts_of_reachable {s : Session} (hs : s.Reachable) (expr : Value) :
    s.toCompiler.Converts expr := by
  have hbox : InStep _ (compile expr .pureInt) (compile expr .int) s.toCompiler :=
    compile_inStep .box hs.sound nofun
  have hunbox : InStep _ (compile expr .int) (compile expr .pureInt) s.toCompiler :=
    compile_inStep .unbox hs.sound nofun
  have hdiscard : InStep _ (compile expr .any) (compile expr .void) s.toCompiler :=
    compile_inStep .discard hs.sound nofun
  constructor
  case integer => exact fun d => ⟨fun ⟨code, h⟩ => hbox.ok code d h, fun ⟨code, h⟩ => hunbox.ok code d h⟩
  case effect  => exact hdiscard.ok_iff rfl
  case failure => exact hdiscard.error_iff rfl
  case widest  =>
    intro hbound required code d h
    exact (compile_inStep (.widen required) hs.sound fun _ => hbound).ok code d h

-- Its first branch is a pair, so that it cannot be had as an integer.
def Image.holdingBranch : Image :=
  (fresh (.fresh 0 0)).performAll
    ((readText "(if (- 1 2) (cons 1 2) (def size (cons 3 4)))").forms.map .read)

theorem Image.reachable_holdingBranch : holdingBranch.session.Reachable :=
  .between ((Reachable.fresh _).performAll _)

theorem Image.holdingBranch_facts :
    let c := holdingBranch.session.toCompiler
    ∃ expr ∈ holdingBranch.values, (∀ name ∈ (c.heap.form expr).symbols, c.env.lookup name ≠ none) ∧
      Ensures (CellLisp.compile expr .cons) c (fun _ _ => True) (fun _ => False) ∧
      Ensures (CellLisp.compile expr .pureInt) c (fun _ _ => False) (fun _ => True) := by
  decide +kernel

theorem converts_holdingBranch :
    let c := Image.holdingBranch.session.toCompiler
    ∃ expr ∈ Image.holdingBranch.values,
      (∀ name ∈ (c.heap.form expr).symbols, c.env.lookup name ≠ none) ∧
      (∃ code code' d, compile expr .cons c = .ok code d ∧ compile expr .any c = .ok code' d) ∧
      ∀ code d, compile expr .int c ≠ .ok code d := by
  intro c
  obtain ⟨expr, hexpr, hbound, hcons, hword⟩ := Image.holdingBranch_facts
  have h := converts_of_reachable Image.reachable_holdingBranch expr
  refine ⟨expr, hexpr, hbound, ?_, fun code d hint => ?_⟩
  · cases hc : compile expr .cons c
    case error     => exact (hcons.of_error hc).elim
    case ok code d =>
      obtain ⟨code', hany⟩ := h.widest hbound .cons code d hc
      exact ⟨code, code', d, rfl, hany⟩
  · obtain ⟨_, hpure⟩ := (h.integer d).mpr ⟨code, hint⟩
    exact hword.of_ok hpure

end CellLisp
