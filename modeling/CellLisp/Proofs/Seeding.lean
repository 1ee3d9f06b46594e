import CellLisp.Proofs.History
import CellLisp.Proofs.Provenance

namespace CellLisp

section Outcome

variable {ε σ α β : Type} {R : σ → σ → Prop} {s : σ}

theorem Along.of_read {m : EStateM ε σ α} {f : α → EStateM ε σ β} {a : α} {post : β → σ → Prop}
    (hm : m s = .ok a s) (h : Along R (f a) s post) : Along R (m >>= f) s post := by
  unfold Along Ensures at h ⊢
  rw [bind_eq_of_ok hm]
  exact h

end Outcome

namespace Compiler

-- One state on the way is followed by another one.
structure Continues (c : Compiler) (whole : Form) (d d' : Compiler) : Prop where
  retains  : d.Retains d'
  explains : c.Explains whole d'

instance {c : Compiler} {whole : Form} : IsTrans Compiler (c.Continues whole) where
  trans _ _ _ h h' := ⟨h.retains.trans h'.retains, h'.explains⟩

theorem Explains.continues {c d : Compiler} {whole : Form} (h : c.Explains whole d) :
    c.Continues whole d d :=
  ⟨.refl, h⟩

theorem Continues.entry {c d d' : Compiler} {whole : Form} {name : String} {e : EntryId}
    (h : c.Continues whole d d') (he : d.env.entry? name = some e) : d'.env.entry? name = some e :=
  Env.entry?_of_names_prefix h.retains.names he

-- A computation that goes on from one explained state to another, also where it fails.
def Tracks (c : Compiler) (whole : Form) {α : Type} (m : CompileM α) (d : Compiler) : Prop :=
  Along (c.Continues whole) m d (fun _ _ => True)

theorem Explains.done {c d : Compiler} {whole : Form} {α : Type} {a : α} (h : c.Explains whole d) :
    c.Tracks whole (pure a) d :=
  .pure h.continues trivial

end Compiler

-- What is known of a part of an expression: a function literal comes with the finished function.
structure Part.Tracked (c : Compiler) (whole : Form) (p : Part) : Prop where
  code     : ∀ d required, c.Explains whole d → c.Tracks whole (p.code required) d
  function : ∀ d name, c.Explains whole d → Along (c.Continues whole) (p.function name) d
    (fun r d' => c.heap.size ≤ r ∧ d'.Realizes name p.form r)

namespace Compile

open Compiler (Retains)

variable {c d : Compiler} {whole : Form} {required : Rep} {name : String} {e : EntryId} {α : Type}
variable {post : α → Compiler → Prop}

theorem coerce_tracks {expr : Form} {shape : Shape} {value : Code shape.kind}
    (h : c.Explains whole d) : c.Tracks whole (coerce expr shape value required) d := by
  unfold coerce
  split
  case h_1 => exact h.done
  case h_2 => exact .of_read rfl (.throw h.continues)

theorem lost_tracks {r : Ref} (h : c.Explains whole d) :
    Along (c.Continues whole) (lost r : CompileM α) d post :=
  .of_read rfl (.throw h.continues)

theorem literal_tracks (f : Form) (h : c.Explains whole d) : c.Tracks whole (literal f required) d := by
  unfold literal
  split
  case h_1 => exact h.done
  case h_2 => exact h.done
  case h_3 => exact lost_tracks h
  case h_4 => exact coerce_tracks h
  case h_5 => exact coerce_tracks h

theorem intern_tracks (h : c.Explains whole d) (name : String) :
    Along (c.Continues whole) (CompileM.intern name) d (fun e d' => d'.env.entry? name = some e) :=
  ⟨⟨.intern d name, h.intern name⟩, Env.entry?_intern _ _⟩

-- A pending binding that is made real comes from a definition of the name that the entry has.
theorem assume_tracks (h : c.Explains whole d) : c.Tracks whole (CompileM.assume e) d := by
  unfold CompileM.assume
  refine .get_bind ?_
  split
  case h_1 r hr _ =>
    obtain ⟨_, _, hl, _⟩ := List.lookup_eq_some_iff.mp hr
    obtain ⟨name, he, hbinds⟩ := h.pending (e, r) (by simp [hl])
    exact ⟨⟨.bind d e r _, h.seed he (.defined hbinds)⟩, trivial⟩
  case h_2 => exact h.done
  case h_3 => exact h.done

-- A default that a name may get bound to.
def Defaults (c : Compiler) (whole : Form) (name : String) (m : CompileM Ref) : Prop :=
  ∀ d, c.Explains whole d → Along (c.Continues whole) m d (fun r d' => c.Seeds whole d' name r)

theorem zero_defaults : Defaults c whole name (CompileM.alloc (.int 0)) :=
  fun d h => ⟨⟨.alloc d _, h.alloc _⟩, .zero h.retains.size (Heap.get?_alloc_self _ _)⟩

theorem defaultBinding_defaults (hc : c.Hosts whole) :
    Defaults c whole name (defaultBinding name required) := by
  intro d h
  cases required
  case cons =>
    obtain ⟨x, hx, ht⟩ := hc.shared
    exact .pure h.continues (.shared (h.retains.get? hx) ht)
  case bytes => exact .throw h.continues
  all_goals exact zero_defaults d h

theorem assumeOr_tracks {default : CompileM Ref} (h : c.Explains whole d)
    (he : d.env.entry? name = some e) (hdefault : Defaults c whole name default) :
    c.Tracks whole (assumeOr e default) d := by
  refine (assume_tracks h).bind (fun v d' _ hd' _ => ?_)
  cases v
  case some => exact hd'.explains.done
  case none =>
    refine (hdefault d' hd'.explains).bind (fun r d'' _ hd'' hr => ?_)
    exact ⟨⟨.bind d'' e r _, hd''.explains.seed (hd''.entry (hd'.entry he)) hr⟩, trivial⟩

theorem symbol_tracks {expr : Form} (hc : c.Hosts whole) (h : c.Explains whole d) :
    c.Tracks whole (symbol expr name required) d := by
  refine (intern_tracks h name).bind (fun e d' _ hd' he => ?_)
  refine (assumeOr_tracks hd'.explains he (defaultBinding_defaults hc)).bind (fun r d'' _ hd'' _ => ?_)
  exact .of_read (tagAt_eq d'' r) (coerce_tracks hd''.explains)

theorem atom_tracks (hc : c.Hosts whole) (r : Ref) (x : Cell) (h : c.Explains whole d) :
    c.Tracks whole (atom r x required) d := by
  unfold atom
  split
  case h_1 => exact symbol_tracks hc h
  case h_2 => exact lost_tracks h
  case h_3 => exact literal_tracks _ h

theorem missing_tracks {app : Application} (h : c.Explains whole d) :
    Along (c.Continues whole) (app.missing : CompileM α) d post :=
  .of_read rfl (.throw h.continues)

theorem arg_tracks {app : Application} {i : Nat} {f : Part → CompileM α} (h : c.Explains whole d)
    (hf : ∀ p, app.args[i]? = some p → Along (c.Continues whole) (f p) d post) :
    Along (c.Continues whole) (app.arg i >>= f) d post := by
  cases hp : app.args[i]?
  case some p => exact .of_read (arg_eq hp d) (hf p hp)
  case none   =>
    have hm : Along (c.Continues whole) (app.arg i) d (fun _ _ => False) := by
      simp only [Application.arg, hp]
      exact missing_tracks h
    exact hm.bind (fun _ _ _ _ hfalse => hfalse.elim)

theorem steps_tracks {first : Part} {rest : List Part} (h : c.Explains whole d)
    (hf : first.Tracked c whole) (hr : ∀ p ∈ rest, p.Tracked c whole) :
    c.Tracks whole (steps first rest required) d := by
  induction rest generalizing first d
  case nil => exact hf.code d required h
  case cons second rest hi =>
    refine (hf.code d .void h).bind (fun _ d' _ hd' _ => ?_)
    have hsteps := hi hd'.explains (hr second (by simp)) (fun p hp => hr p (.tail _ hp))
    exact hsteps.bind (fun _ _ _ hd'' _ => hd''.explains.done)

theorem operands_tracks {app : Application} {reps : List Rep} {parts : List Part}
    (h : c.Explains whole d) (hp : ∀ p ∈ parts, p.Tracked c whole) :
    c.Tracks whole (operands app reps parts) d := by
  induction reps generalizing parts d
  case nil => exact h.done
  case cons rep reps hi =>
    cases parts
    case nil => exact missing_tracks h
    case cons part parts =>
      refine ((hp part (by simp)).code d rep h).bind (fun _ d' _ hd' _ => ?_)
      have hrest := hi hd'.explains (fun p hmem => hp p (.tail _ hmem))
      exact hrest.bind (fun _ _ _ hd'' _ => hd''.explains.done)

theorem arguments_tracks {params : List Ref} {args : List Part} (h : c.Explains whole d)
    (ha : ∀ p ∈ args, p.Tracked c whole) : c.Tracks whole (arguments params args) d := by
  induction params generalizing args d
  case nil => exact h.done
  case cons param params hi =>
    cases args
    case nil => exact h.done
    case cons arg args =>
      refine .of_read rfl ?_
      split
      case h_1 => exact .of_read rfl (.of_read (tagAt_eq d param) (.throw h.continues))
      case h_2 name _ =>
        refine (intern_tracks h name).bind (fun e d' _ hd' _ => ?_)
        refine ((ha arg (by simp)).code d' .any hd'.explains).bind (fun _ d'' _ hd'' _ => ?_)
        have hrest := hi hd''.explains (fun p hp => ha p (.tail _ hp))
        exact hrest.bind (fun _ _ _ hd' _ => hd'.explains.done)

theorem callee_tracks (expr : Form) (lambda : Ref) (h : c.Explains whole d) :
    c.Tracks whole (callee expr lambda) d := by
  refine .of_read rfl ?_
  split
  case h_1 => exact h.done
  case h_2 =>
    refine .get_bind ?_
    split
    case isTrue  => exact h.done
    case isFalse => exact .of_read rfl (.throw h.continues)

theorem call_tracks {expr : Form} {lambda : Ref} {args : List Part} (h : c.Explains whole d)
    (ha : ∀ p ∈ args, p.Tracked c whole) : c.Tracks whole (call expr lambda args required) d := by
  refine .of_read rfl ((arguments_tracks h ha).bind (fun _ d' _ hd' _ => ?_))
  refine (callee_tracks expr lambda hd'.explains).bind (fun _ d'' _ hd'' _ => ?_)
  exact coerce_tracks hd''.explains

-- What is explained does not depend on which literals are open.
theorem within_tracks {f : OpenFunction} {body : CompileM (Code .cell)} (h : c.Explains whole d)
    (hbody : ∀ d, c.Explains whole d → c.Tracks whole body d) :
    Along (c.Continues whole) (CompileM.within f body) d
      (fun code _ => ∃ b b', b.nesting.stack.head? = some f ∧ body b = .ok code b') := by
  unfold Along Ensures CompileM.within
  cases hpush : d.nesting.push? f
  case none => simpa [hpush] using h.continues
  case some nesting =>
    have hstack : nesting.stack.head? = some f := by
      simp only [Nesting.push?] at hpush
      split at hpush <;> cases hpush
      rfl
    have closed {d' : Compiler} (hd' : c.Continues whole { d with nesting } d') :
        c.Continues whole d { d' with nesting := d'.nesting.pop } :=
      ⟨{ hd'.retains with }, hd'.explains.withNesting _⟩
    have hbody := hbody _ (h.withNesting nesting)
    dsimp only
    cases hrun : body { d with nesting }
    case error e d' => exact closed (hbody.of_error hrun)
    case ok code d' => exact ⟨closed (hbody.of_ok hrun).1, _, d', hstack, hrun⟩

theorem functionLiteral_tracks {f : Form} (name : Option String) (h : c.Explains whole d)
    (ha : ∀ p ∈ f.args.map Form.part, p.Tracked c whole) :
    Along (c.Continues whole) (functionLiteral f (f.args.map Form.part) name) d
      (fun r d' => c.heap.size ≤ r ∧ d'.Realizes name f r) := by
  unfold functionLiteral
  cases hlast : f.args.getLast?
  case none =>
    simp only [List.getLast?_map, hlast, Option.map_none]
    exact .of_read rfl (.throw h.continues)
  case some last =>
    simp only [List.getLast?_map, hlast, Option.map_some]
    let x : Cell := .lambda f.tail.value none
    have hnew := Retains.alloc d x
    have hlambda := Heap.get?_alloc_self d.heap x
    have hbody := (ha last.part (List.mem_map_of_mem (List.mem_of_getLast? hlast))).code
    have hwithin := within_tracks (f := ⟨name, d.heap.size⟩) (h.alloc x) (fun d hd => hbody d .any hd)
    -- The step that fills in the code changes a cell, which was not there before.
    refine Ensures.bind (m := CompileM.alloc x) ?_
    refine Ensures.bind (m := CompileM.within _ _) ?_
    refine Ensures.imp hwithin (fun code e he => ?_) (fun e he => ⟨hnew.trans he.retains, he.explains⟩)
    obtain ⟨he, b, b', hopen, hcode⟩ := he
    have hx := he.retains.get? hlambda
    have hretains : d.Retains (e.finished d.heap.size f.tail.value code) :=
      (hnew.trans he.retains).finished (Nat.le_refl _)
    have hexplains := he.explains.finished code h.retains.size hx
    refine ⟨⟨hretains, hexplains⟩, h.retains.size, last, e.codes.size, code, hlast, ?_, ?_, b, b', hopen, hcode⟩
    · exact Heap.get?_set_self _ (Heap.lt_size_of_get? hx)
    · simp

section Application

variable {app : Application} (h : c.Explains whole d) (ha : ∀ p ∈ app.args, p.Tracked c whole)

include h ha

theorem branch_tracks : c.Tracks whole (branch app required) d := by
  refine arg_tracks h (fun condition hc => arg_tracks h (fun yes hy => ?_))
  refine ((ha _ (List.mem_of_getElem? hc)).code d .pureInt h).bind (fun _ d' _ hd' _ => ?_)
  refine ((ha _ (List.mem_of_getElem? hy)).code d' required hd'.explains).bind (fun _ d'' _ hd'' _ => ?_)
  split
  case h_2 => exact hd''.explains.done
  case h_1 no hn =>
    have hno := (ha no (List.mem_of_getElem? hn)).code d'' required hd''.explains
    exact hno.bind (fun _ _ _ hd _ => hd.explains.done)

theorem loop_tracks : c.Tracks whole (loop app required) d := by
  refine arg_tracks h (fun condition hc => arg_tracks h (fun body hb => ?_))
  refine ((ha _ (List.mem_of_getElem? hc)).code d .pureInt h).bind (fun _ d' _ hd' _ => ?_)
  refine ((ha _ (List.mem_of_getElem? hb)).code d' required hd'.explains).bind (fun _ d'' _ hd'' _ => ?_)
  exact hd''.explains.done

theorem sequence_tracks : c.Tracks whole (Compile.sequence app required) d := by
  unfold Compile.sequence
  split
  case h_1 first rest hargs =>
    exact steps_tracks h (ha first (by simp [hargs])) (fun p hp => ha p (by simp [hargs, hp]))
  case h_2 => exact missing_tracks h

omit ha in
theorem target_tracks : Along (c.Continues whole) (target app) d (fun p d' =>
    app.args[0]?.bind (·.form.symbol?) = some p.1 ∧ d'.env.entry? p.1 = some p.2) := by
  refine arg_tracks h (fun part hp => ?_)
  cases hn : part.form.symbol?
  case none      => exact .of_read rfl (.throw h.continues)
  case some name =>
    refine (intern_tracks h name).bind (fun e d' _ hd' he => .pure hd'.explains.continues ?_)
    exact ⟨by simp [hp, hn], he⟩

theorem assignment_tracks : c.Tracks whole (assignment app required) d := by
  refine (target_tracks h).bind (fun ⟨name, e⟩ d₁ _ hd₁ ⟨_, he⟩ => ?_)
  refine arg_tracks hd₁.explains (fun part hp => ?_)
  refine (assumeOr_tracks hd₁.explains he zero_defaults).bind (fun r d₂ _ hd₂ _ => ?_)
  refine .of_read (tagAt_eq d₂ r) ?_
  have hp := (ha part (List.mem_of_getElem? hp)).code
  split
  case isTrue =>
    exact (hp d₂ .pureInt hd₂.explains).bind (fun _ _ _ hd₃ _ => coerce_tracks hd₃.explains)
  case isFalse =>
    exact (hp d₂ .any hd₂.explains).bind (fun _ _ _ hd₃ _ => coerce_tracks hd₃.explains)

omit ha in
theorem definitionResult_tracks {expr : Form} {stored : Code .cell} :
    c.Tracks whole (definitionResult expr stored required) d := by
  have narrowed (required : Rep) : c.Tracks whole (definitionResult.narrow expr stored required) d := by
    unfold definitionResult.narrow
    split
    case isTrue  => exact coerce_tracks h
    case isFalse => exact coerce_tracks h
  cases required
  case pureInt => exact narrowed .pureInt
  case int     => exact narrowed .int
  all_goals exact h.done

omit ha in
-- What is pending from here on is what the definition binds when it runs.
theorem definedValue_tracks {f value : Form} (hc : c.Hosts whole) (hdef : c.Defined whole f name value)
    (he : d.env.entry? name = some e) (hv : value.part.Tracked c whole) :
    c.Tracks whole (definedValue name e value.part required) d := by
  refine .of_read (isFunctionForm_eq d value) ?_
  split
  case isTrue hf =>
    refine (hv.function d (some name) h).bind (fun r d' _ hd' ⟨hsize, hr⟩ => ?_)
    have hbinds : c.Binds whole d' name r := .function hdef (h.applies_function hc hf) hsize hr
    exact ⟨⟨.aside d' _ _ _, hd'.explains.bindPending (hd'.entry he) hbinds⟩, trivial⟩
  case isFalse =>
    have hbound : c.Tracks whole (boundCode value.part required) d := by
      cases required <;> exact hv.code d _ h
    refine hbound.bind (fun _ d' _ hd' _ => ?_)
    split
    case isFalse => exact hd'.explains.done
    case isTrue hconst =>
      split
      case h_2 => exact hd'.explains.done
      case h_1 r hr =>
        have hbinds : c.Binds whole d' name r := .constant hdef hconst hr
        exact ⟨⟨.aside d' _ _ _, hd'.explains.bindPending (hd'.entry he) hbinds⟩, trivial⟩

-- The application stands in the expression, and its arguments are what they are there.
theorem definition_tracks (hc : c.Hosts whole) (hw : app.whole.Occurs whole)
    (ho : c.Applies whole app.whole .define) (hargs : app.args = app.whole.args.map Form.part) :
    c.Tracks whole (definition app required) d := by
  refine (target_tracks h).bind (fun ⟨name, e⟩ d₁ _ hd₁ ⟨hname, he⟩ => ?_)
  refine arg_tracks hd₁.explains (fun part hp => ?_)
  have htracked := ha part (List.mem_of_getElem? hp)
  rw [hargs, List.getElem?_map] at hp hname
  obtain ⟨value, hvalue, rfl⟩ := Option.map_eq_some_iff.mp hp
  have htarget : app.whole.args[0]?.bind Form.symbol? = some name := by
    simpa [Option.bind_map, Function.comp_def, Form.part] using hname
  have hvalue : c.Tracks whole (definedValue name e value.part required) d₁ :=
    definedValue_tracks hd₁.explains hc ⟨hw, ho, htarget, hvalue⟩ he htracked
  exact hvalue.bind (fun _ d₂ _ hd₂ _ => definitionResult_tracks hd₂.explains)

theorem builtin_tracks (hc : c.Hosts whole) (hw : app.whole.Occurs whole)
    (ho : c.Applies whole app.whole app.op) (hargs : app.args = app.whole.args.map Form.part) :
    c.Tracks whole (builtin app required) d := by
  unfold builtin
  split
  case h_1      => exact branch_tracks h ha
  case h_2      => exact loop_tracks h ha
  case h_3      => exact sequence_tracks h ha
  case h_4 heq  => exact definition_tracks h ha hc hw (heq ▸ ho) hargs
  case h_5      => exact assignment_tracks h ha
  case h_6      =>
    have hfunction := functionLiteral_tracks none h (hargs ▸ ha)
    rw [← hargs] at hfunction
    exact hfunction.bind (fun _ _ _ hd' _ => coerce_tracks hd'.explains)
  case h_7      => exact arg_tracks h (fun part _ => literal_tracks part.form h)
  case h_8      =>
    refine arg_tracks h (fun part hp => ?_)
    refine ((ha part (List.mem_of_getElem? hp)).code d .any h).bind (fun _ d' _ hd' _ => ?_)
    exact coerce_tracks hd'.explains
  case h_9      =>
    refine arg_tracks h (fun part hp => ?_)
    refine ((ha part (List.mem_of_getElem? hp)).code d .any h).bind (fun _ d' _ hd' _ => ?_)
    unfold printed
    split
    case h_1 => exact hd'.explains.done
    case h_2 => exact coerce_tracks hd'.explains
  case h_10     =>
    split
    case h_1 => exact (operands_tracks h ha).bind (fun _ _ _ hd' _ => coerce_tracks hd'.explains)
    case h_2 => exact .of_read rfl (.throw h.continues)

end Application

variable {f : Form} {args : List Part} (hc : c.Hosts whole) (h : c.Explains whole d)
  (hf : f.Occurs whole) (hargs : args = f.args.map Form.part) (ha : ∀ p ∈ args, p.Tracked c whole)

include hc h hf hargs ha

theorem apply_tracks {operator : Ref} (ho : ∀ x op, d.heap.get? operator = some x →
    x.builtin? = some op → c.Applies whole f op) :
    c.Tracks whole (apply f operator args required) d := by
  refine .of_read rfl ?_
  split
  case h_1 opcode hx =>
    split
    case h_1 op hop => exact builtin_tracks h ha hc hf (ho _ op hx hop) hargs
    case h_2        => exact .of_read rfl (.throw h.continues)
  case h_2 => exact call_tracks h ha
  case h_3 => exact lost_tracks h
  case h_4 => exact .of_read rfl (.of_read (tagAt_eq d operator) (.throw h.continues))

theorem applySymbol_tracks (hn : f.head.symbol? = some name) :
    c.Tracks whole (applySymbol f name args required) d := by
  refine .get_bind ?_
  split
  case h_1 => exact call_tracks h ha
  case h_2 =>
    refine .of_read rfl ?_
    split
    case h_2 => exact .throw h.continues
    case h_1 operator hr =>
      exact apply_tracks hc h hf hargs ha (fun x op hx hop => h.applies_name hc hn hr hx hop)

theorem application_tracks (ho : f.head.part.Tracked c whole) :
    c.Tracks whole (application f f.head.part args required) d := by
  unfold application
  split
  case h_1 => exact .of_read rfl (.throw h.continues)
  case h_2 r name hform =>
    have hn : f.head.symbol? = some name := congrArg Form.symbol? hform
    exact applySymbol_tracks hc h hf hargs ha hn
  case h_3 r _ _ hform =>
    have hr : f.head.value = some r := congrArg Form.value hform
    exact apply_tracks hc h hf hargs ha (fun x op hx hop => h.applies_cell hc hf hr hx hop)
  case h_4 =>
    refine .of_read (isFunctionForm_eq d _) ?_
    split
    case isTrue =>
      exact (ho.function d none h).bind (fun _ _ _ hd' _ => call_tracks hd'.explains ha)
    case isFalse => exact ho.code d required h

end Compile

theorem Form.tracked {c : Compiler} {whole f : Form} (hc : c.Hosts whole) (hf : f.Occurs whole) :
    f.part.Tracked c whole ∧ ∀ p ∈ f.parts, p.Tracked c whole := by
  have hfunction {f : Form} (ha : ∀ p ∈ f.args.map part, p.Tracked c whole) (d : Compiler)
      (name : Option String) (h : c.Explains whole d) :
      Along (c.Continues whole) (f.function name) d
        (fun r d' => c.heap.size ≤ r ∧ d'.Realizes name f r) := by
    rw [function_eq]
    exact Compile.functionLiteral_tracks name h ha
  induction f
  case absent =>
    refine ⟨⟨fun d required h => h.done, ?_⟩, by simp [parts]⟩
    exact hfunction (List.forall_mem_nil _)
  case atom r x =>
    refine ⟨⟨fun d required h => Compile.atom_tracks hc r x h, ?_⟩, by simp [parts]⟩
    exact hfunction (List.forall_mem_nil _)
  case cons r head tail hhead htail =>
    obtain ⟨hh, _⟩ := hhead () (.trans (.head .self) hf)
    obtain ⟨_, ht⟩ := htail () (.trans (.tail .self) hf)
    have hargs := (tail ()).parts_eq
    refine ⟨⟨fun d required h => ?_, hfunction (hargs ▸ ht)⟩, fun p hp => ?_⟩
    · exact Compile.application_tracks hc h hf hargs ht hh
    · rcases mem_parts_cons hp with rfl | hp
      · exact hh
      · exact ht p hp

-- Cells keep their tags, and so does the cell that empty lists share.
theorem Session.Persists.sharesNil {s t : Session} (h : s.Persists t) (hs : s.heap.SharesNil) :
    t.heap.SharesNil := by
  obtain ⟨x, hx, ht⟩ := hs
  obtain ⟨y, hy, hxy⟩ := h.tag hx
  exact ⟨y, hy, hxy.trans ht⟩

theorem Compiler.fresh_sharesNil : Compiler.fresh.heap.SharesNil := by
  refine Compiler.fresh_induction (P := fun c => c.heap.SharesNil) ⟨.nil 0, rfl, rfl⟩ (fun memory op h => ?_)
  obtain ⟨x, hx, ht⟩ := h
  exact ⟨x, (Retains.alloc (Compiler.bare memory) (.ofBuiltin op)).get? hx, ht⟩

theorem Image.Reachable.sharesNil {i : Image} (h : i.Reachable) : i.session.heap.SharesNil := by
  induction h
  case fresh         => exact Compiler.fresh_sharesNil
  case perform hr hi => exact (hr.ready.step (Image.step_perform _ _)).1.sharesNil hi

theorem Session.Reachable.sharesNil {s : Session} (h : s.Reachable) : s.heap.SharesNil := by
  cases h
  case between hi => exact hi.sharesNil
  case running hi hk hc =>
    have ⟨_, hp⟩ := (persistence _).visits (hi.ready.config hk) hc
    exact hp.sharesNil hi.sharesNil
  case returned hi hk hc hv =>
    have ⟨hr, hp⟩ := (persistence _).visits (hi.ready.config hk) hc
    exact (((persistence _).returns hr hv).1).sharesNil (hp.sharesNil hi.sharesNil)

-- What a compilation that succeeds does to names and cells, before its code is run.
structure Compiler.Conserves (c : Compiler) (expr : Value) (d : Compiler) : Prop where
  bound : ∀ name r, c.env.lookup name = some r → d.env.lookup name = some r
  cells : ∀ r x, c.heap.get? r = some x → d.heap.get? r = some x
  fresh : ∀ name r, c.env.lookup name = none → d.env.lookup name = some r →
    c.Seeds (c.heap.form expr) d name r

theorem conserves_of_compile_eq_ok {s : Session} {expr : Value} {required : Rep}
    {code : Code required.kind} {d : Compiler} (hs : s.Reachable)
    (h : compile expr required s.toCompiler = .ok code d) : s.toCompiler.Conserves expr d := by
  have hform : (s.heap.form expr).All (· < s.heap.size) :=
    Heap.formWithin_all _ (fun _ _ hr => hr) (fun _ _ _ _ _ _ hs => hs)
  have ⟨htracked, _⟩ := Form.tracked ⟨hs.sound, hs.sharesNil, hform⟩ .self
  obtain ⟨d, hcode, rfl⟩ := code_of_compile_ok h
  have ⟨hgrown, _⟩ := Ensures.of_ok (soundness.form_compiles expr required hs.sound fun _ _ hr => hr) hcode
  have ⟨hd, _⟩ := (htracked.code _ required (.start hs.idle.pending hs.idle.seeded)).of_ok hcode
  constructor
  case bound => exact fun name r hr => hgrown.grows.lookup hr
  case cells => exact fun r x hx => hd.retains.get? hx
  case fresh =>
    intro name r hn hr
    have hseeds := (hd.explains.bound_or_seeds hr).resolve_left (by simp [hn])
    -- Nothing that counts is forgotten at the end.
    exact hseeds.mono (Compiler.Retains.aside d d.nesting [] []).secures

-- `x` is bound to an integer. In the expression it is defined anew, `k` is read after its definition,
-- `q` and `w` are read without one, and `f` is defined as a function, the parameter of which is read too.
def Image.holdingSequence : Image :=
  withInteger.performAll ((readText
    "(do (def x 5) (def k 7) (def f (fn n n)) (car w) (cons f (+ k (+ q x))))").forms.map .read)

theorem Image.reachable_holdingSequence : holdingSequence.session.Reachable :=
  .between (reachable_withInteger.performAll _)

theorem Image.holdingSequence_facts :
    let c := holdingSequence.session.toCompiler
    c.env.lookup "k" = none ∧ c.env.lookup "f" = none ∧
      ∃ expr ∈ holdingSequence.values, Ensures (CellLisp.compile expr .any) c
        (fun _ d => (c.env.lookup "x").isSome ∧ d.heap.cell? (d.env.lookup "k") = some (.int 7) ∧
          (d.heap.cell? (d.env.lookup "f")).map Cell.tag = some .lambda) (fun _ => False) := by
  decide +kernel

theorem conserves_holdingSequence :
    let c := Image.holdingSequence.session.toCompiler
    ∃ expr ∈ Image.holdingSequence.values, ∃ code d x k f, compile expr .any c = .ok code d ∧
      c.env.lookup "x" = some x ∧ d.env.lookup "x" = some x ∧
      c.env.lookup "k" = none ∧ d.env.lookup "k" = some k ∧ c.Binds (c.heap.form expr) d "k" k ∧
      c.env.lookup "f" = none ∧ d.env.lookup "f" = some f ∧ c.Binds (c.heap.form expr) d "f" f := by
  intro c
  obtain ⟨hnk, hnf, expr, hexpr, hfacts⟩ := Image.holdingSequence_facts
  cases hok : compile expr .any c
  case error     => exact (hfacts.of_error hok).elim
  case ok code d =>
    obtain ⟨hx, hk, hf⟩ := hfacts.of_ok hok
    have h := conserves_of_compile_eq_ok Image.reachable_holdingSequence hok
    have binds {name : String} {r : Ref} {x : Cell} (hn : c.env.lookup name = none)
        (hr : d.env.lookup name = some r) (hx : d.heap.get? r = some x) (hzero : x ≠ .int 0)
        (hnil : x.tag ≠ .nil) : c.Binds (c.heap.form expr) d name r := by
      cases h.fresh name r hn hr
      case defined h    => exact h
      case zero hy      => exact absurd (Option.some.inj (hx.symm.trans hy)) hzero
      case shared hy ht => exact absurd (Option.some.inj (hx.symm.trans hy) ▸ ht) hnil
    obtain ⟨x, hx⟩ := Option.isSome_iff_exists.mp hx
    obtain ⟨k, hk, hkcell⟩ := Option.bind_eq_some_iff.mp hk
    obtain ⟨y, hf, htag⟩ := Option.map_eq_some_iff.mp hf
    obtain ⟨f, hf, hfcell⟩ := Option.bind_eq_some_iff.mp hf
    refine ⟨expr, hexpr, code, d, x, k, f, hok, hx, h.bound "x" x hx, hnk, hk, ?_, hnf, hf, ?_⟩
    · exact binds hnk hk hkcell (by decide) (by decide)
    · exact binds hnf hf hfcell (by rintro rfl; cases htag) (by simp [htag])

end CellLisp
