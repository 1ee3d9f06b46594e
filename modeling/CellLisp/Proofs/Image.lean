import CellLisp.Evaluation
import CellLisp.Proofs.Persistence

namespace CellLisp

theorem SessionM.compile_eq (expr : Value) (required : Rep) (s : Session) :
    compile expr required s =
      match CellLisp.compile expr required s.toCompiler with
      | .ok code c => .ok code { s with toCompiler := c }
      | .error e c => .error (.ofCompileError e) { s with toCompiler := c } :=
  rfl

structure Kept where
  {kind : Kind}
  code : Code kind

structure Image where
  session : Session
  values : List Value
  codes : List Kept

inductive Operation
  | read (d : Datum)
  | lookup (name : String)
  | compile (value : Nat) (required : Rep)
  | run (link : Link) (fuel : Nat) (code : Nat)
  | device (act : Device → Device)

namespace Kind

-- A host can hold on to a result that is a cell.
def values : {k : Kind} → k.Result → List Value
  | .cell, v => [v]
  | .raw, _  => []
  | .void, _ => []

theorem values_hold {good : Value → Session → Prop} {k : Kind} {v : k.Result} {s : Session}
    (h : Kind.Holds good v s) : ∀ w ∈ values v, good w s := by
  cases k
  case raw  => simp [values]
  case cell => exact List.forall_mem_singleton.mpr h
  case void => simp [values]

end Kind

namespace Image

def fresh (device : Device) : Image :=
  ⟨.fresh device, [], []⟩

-- The session is another one, and the host gets some more values and some more code.
def goOn (i : Image) (s : Session) (values : List Value) (codes : List Kept) : Image :=
  ⟨s, values ++ i.values, codes ++ i.codes⟩

def read (i : Image) (d : Datum) : Image :=
  match SessionM.alloc d i.session with
  | .ok v s    => i.goOn s [v] []
  | .error _ s => i.goOn s [] []

def compile (i : Image) (required : Rep) (expr : Value) : Image :=
  match SessionM.compile expr required i.session with
  | .ok code s => i.goOn s [] [⟨code⟩]
  | .error _ s => i.goOn s [] []

def run (i : Image) (link : Link) (fuel : Nat) (kept : Kept) : Image :=
  match SessionM.run link fuel kept.code i.session with
  | .ok v s    => i.goOn s (Kind.values v) []
  | .error _ s => i.goOn s [] []

-- Numbers of values and of code that are not there name nothing.
def perform (i : Image) : Operation → Image
  | .read d                 => i.read d
  | .lookup name            => i.goOn i.session [i.session.binding name] []
  | .compile value required => i.values[value]?.elim i (i.compile required)
  | .run link fuel code     => i.codes[code]?.elim i (i.run link fuel)
  | .device act             => i.goOn { i.session with device := act i.session.device } [] []

inductive Reachable : Image → Prop
  | fresh (device : Device) : Reachable (fresh device)
  | perform {i : Image} (op : Operation) : i.Reachable → Reachable (i.perform op)

structure Ready (i : Image) : Prop where
  sound  : i.session.Sound
  idle   : i.session.Idle
  values : ∀ v ∈ i.values, Session.Has v i.session
  codes  : ∀ kept ∈ i.codes, kept.code.Within i.session.toCompiler

variable {i : Image}

theorem Ready.goOn {s : Session} {values : List Value} {codes : List Kept} (h : i.Ready)
    (hp : i.session.Persists s) (hv : ∀ v ∈ values, Session.Has v s)
    (hc : ∀ kept ∈ codes, kept.code.Within s.toCompiler) : (i.goOn s values codes).Ready where
  sound := hp.sound
  idle  := hp.idle
  values v hmem := by
    rcases List.mem_append.mp hmem with hmem | hmem
    · exact hv v hmem
    · exact fun r hr => Nat.lt_of_lt_of_le (h.values v hmem r hr) hp.size
  codes kept hmem := by
    rcases List.mem_append.mp hmem with hmem | hmem
    · exact hc kept hmem
    · exact (h.codes kept hmem).mono hp.extent_le

theorem Ready.config (h : i.Ready) {kept : Kept} (hk : kept ∈ i.codes) :
    Config.Ready ⟨kept.code, i.session⟩ :=
  ⟨h.sound, h.idle, h.codes kept hk⟩

-- What one operation can come to, for the session and for the host. Values that are made of nothing but
-- what is bound have every quality that all bindings have. An operation on something that is not there
-- works as well, on nothing.
inductive Step (i : Image) : Operation → Image → Prop
  | works {op t values} : i.session.Works t → (∀ G, Heap.Quality G →
      (∀ e r, i.session.env.binding e = some r → G (some r) i.session.heap) →
      ∀ v ∈ values, ∀ r, v = some r → G (some r) t.heap) →
    Step i op (i.goOn t values [])
  | compiles {value required expr code c} : i.values[value]? = some expr →
    CellLisp.compile expr required i.session.toCompiler = .ok code c →
    Step i (.compile value required) (i.goOn { i.session with toCompiler := c } [] [⟨code⟩])
  | rejects {value required expr e c} : i.values[value]? = some expr →
    CellLisp.compile expr required i.session.toCompiler = .error e c →
    Step i (.compile value required) (i.goOn { i.session with toCompiler := c } [] [])
  | returns {link fuel code kept v t} : i.codes[code]? = some kept →
    CellLisp.run link fuel kept.code i.session = .ok v t →
    Step i (.run link fuel code) (i.goOn t (Kind.values v) [])
  | stops {link fuel code kept e t} : i.codes[code]? = some kept →
    CellLisp.run link fuel kept.code i.session = .error e t →
    Step i (.run link fuel code) (i.goOn t [] [])

theorem step_perform (i : Image) (op : Operation) : i.Step op (i.perform op) := by
  have hnothing : i.Step op (i.goOn i.session [] []) :=
    .works .refl fun _ _ _ => List.forall_mem_nil _
  cases op
  case read d =>
    have ⟨hw, _⟩ := Heap.quality_has.allocDatum (h := i.session.heap) d
    exact .works ⟨hw, rfl⟩ fun _ q _ => List.forall_mem_singleton.mpr (q.allocDatum d).2
  case lookup name =>
    refine .works .refl fun _ _ hb => List.forall_mem_singleton.mpr fun r hr => ?_
    have ⟨e, _, he⟩ := Option.bind_eq_some_iff.mp hr
    exact hb e r he
  case compile value required =>
    simp only [perform]
    cases hv : i.values[value]?
    case none      => exact hnothing
    case some expr =>
      simp only [Option.elim_some, Image.compile, SessionM.compile_eq]
      cases hc : CellLisp.compile expr required i.session.toCompiler
      case ok    => exact .compiles hv hc
      case error => exact .rejects hv hc
  case run link fuel code =>
    simp only [perform]
    cases hk : i.codes[code]?
    case none      => exact hnothing
    case some kept =>
      simp only [Option.elim_some, Image.run, SessionM.run]
      cases hr : CellLisp.run link fuel kept.code i.session
      case ok    => exact .returns hk hr
      case error => exact .stops hk hr
  case device act => exact .works ⟨.refl, rfl⟩ fun _ _ _ => List.forall_mem_nil _

variable {j : Image} {op : Operation}

theorem Ready.step (h : i.Ready) (hs : i.Step op j) : i.session.Persists j.session ∧ j.Ready := by
  have goOn {s : Session} {values : List Value} {codes : List Kept} (hp : i.session.Persists s)
      (hv : ∀ v ∈ values, Session.Has v s) (hc : ∀ kept ∈ codes, kept.code.Within s.toCompiler) :
      i.session.Persists (i.goOn s values codes).session ∧ (i.goOn s values codes).Ready :=
    ⟨hp, h.goOn hp hv hc⟩
  have compiling (expr : Value) (required : Rep) := compile_extends expr required h.sound h.idle
  have running {kept : Kept} {code : Nat} (hk : i.codes[code]? = some kept) (link : Link) (fuel : Nat) :
      Along Session.Persists (CellLisp.run link fuel kept.code) i.session (Kind.Holds Session.Has) :=
    (persistence link).run_along (h.config (List.mem_of_getElem? hk))
  cases hs
  case works hw hv    =>
    have hhas := hv _ Heap.quality_has fun e r he => Heap.has_some.mpr (h.sound.bindings e r he)
    exact goOn (.of_works hw h.sound h.idle) (fun v hmem r hr => hhas v hmem r hr r rfl)
      (List.forall_mem_nil _)
  case compiles _ hc  =>
    have ⟨hext, hcode⟩ := (compiling _ _).of_ok hc
    exact goOn (.of_extends hext) (List.forall_mem_nil _) (List.forall_mem_singleton.mpr hcode)
  case rejects _ hc   =>
    have ⟨hext, _⟩ := (compiling _ _).of_error hc
    exact goOn (.of_extends hext) (List.forall_mem_nil _) (List.forall_mem_nil _)
  case returns hk hr =>
    have ⟨hp, hv⟩ := (running hk _ _).of_ok hr
    exact goOn hp (Kind.values_hold hv) (List.forall_mem_nil _)
  case stops hk hr   =>
    exact goOn ((running hk _ _).of_error hr) (List.forall_mem_nil _) (List.forall_mem_nil _)

-- What an operation does to the session, for any relation that allows it.
theorem Ready.leads {R : Session → Session → Prop} (h : i.Ready) (hs : i.Step op j)
    (works : ∀ t, i.session.Works t → R i.session t)
    (compile : ∀ c, i.session.Extends c → R i.session { i.session with toCompiler := c })
    (run : ∀ link fuel code kept, op = .run link fuel code → i.codes[code]? = some kept →
      ∃ post, Along R (CellLisp.run link fuel kept.code) i.session post) :
    R i.session j.session := by
  cases hs
  case works hw _    => exact works _ hw
  case compiles _ hc => exact compile _ ((compile_extends _ _ h.sound h.idle).of_ok hc).1
  case rejects _ hc  => exact compile _ ((compile_extends _ _ h.sound h.idle).of_error hc).1
  case returns hk hr =>
    have ⟨_, hrun⟩ := run _ _ _ _ rfl hk
    exact (hrun.of_ok hr).1
  case stops hk hr   =>
    have ⟨_, hrun⟩ := run _ _ _ _ rfl hk
    exact hrun.of_error hr

-- A host keeps the code that it has got.
theorem Step.codes (h : i.Step op j) : i.codes <:+ j.codes := by
  cases h <;> exact List.suffix_append _ _

end Image

theorem Heap.eq_nil_of_fresh {r : Ref} {c : Cell} (h : fresh.get? r = some c) : c = .nil 0 := by
  have hr : r = 0 := by simpa [fresh, size] using lt_size_of_get? h
  simpa [hr, fresh, get?, eq_comm] using h

namespace Compiler

-- A compiler with nothing but a heap and an environment.
def bare (memory : Heap × Env) : Compiler :=
  ⟨memory.1, memory.2, #[], .empty, [], []⟩

theorem fresh_eq_bare : fresh = bare (Builtin.all.foldl fresh.bindBuiltin (Heap.fresh, Env.empty)) := by
  unfold fresh
  generalize Builtin.all.foldl fresh.bindBuiltin (Heap.fresh, Env.empty) = memory
  rfl

-- A fresh compiler has its builtins bound one after the other.
theorem fresh_induction {P : Compiler → Prop} (hnothing : P (bare (Heap.fresh, Env.empty)))
    (hbind : ∀ memory op, P (bare memory) → P (bare (fresh.bindBuiltin memory op))) : P fresh := by
  have h (ops : List Builtin) {memory : Heap × Env} (hm : P (bare memory)) :
      P (bare (ops.foldl fresh.bindBuiltin memory)) := by
    induction ops generalizing memory
    case nil     => exact hm
    case cons hi => exact hi (hbind _ _ hm)
  exact fresh_eq_bare ▸ h Builtin.all hnothing

theorem bare_sound : (bare (Heap.fresh, Env.empty)).Sound where
  shared       := by simp [bare, Heap.nilRef, Heap.fresh, Heap.size]
  cells r d hd := by simp [Heap.eq_nil_of_fresh hd, Cell.refers]
  bindings     := by simp [bare, Env.binding, Env.empty]
  bodies       := by simp [bare]
  pending      := by simp [bare]
  nesting      := by simp [bare, Nesting.empty]

theorem bindBuiltin_sound {memory : Heap × Env} (h : (bare memory).Sound) (op : Builtin) :
    (bare (fresh.bindBuiltin memory op)).Sound := by
  have ha : ∀ n ∈ (Cell.ofBuiltin op).refers, n.Within (bare memory).extent := by
    simp [Cell.ofBuiltin, Cell.refers]
  have hi := (Grows.intern (h.alloc ha) op.name).sound
  have hb := hi.setBinding (e := (memory.2.intern op.name).1) (v := some memory.1.size)
    (fun r hr => Option.some.inj hr ▸ by simp [bare])
  exact hb

theorem fresh_sound : fresh.Sound :=
  fresh_induction bare_sound fun _ op h => bindBuiltin_sound h op

end Compiler

theorem Image.Reachable.ready {i : Image} (h : i.Reachable) : i.Ready := by
  induction h
  case fresh =>
    have hi : Compiler.fresh.Idle := Compiler.fresh_eq_bare ▸ ⟨rfl, rfl, rfl⟩
    exact ⟨Compiler.fresh_sound, hi, List.forall_mem_nil _, List.forall_mem_nil _⟩
  case perform op _ hi => exact (hi.step (Image.step_perform _ op)).2

namespace Session

-- A session is reached between operations, and within a run wherever control comes to or returns
-- from.
inductive Reachable : Session → Prop
  | between {i : Image} : i.Reachable → Reachable i.session
  | running {i : Image} {kept : Kept} {link : Link} {c : Config} : i.Reachable → kept ∈ i.codes →
    Visits link ⟨kept.code, i.session⟩ c → Reachable c.session
  | returned {i : Image} {kept : Kept} {link : Link} {c : Config} {v : c.kind.Result} {t : Session} :
    i.Reachable → kept ∈ i.codes → Visits link ⟨kept.code, i.session⟩ c →
    Returns link c.code c.session v t → Reachable t

theorem Reachable.persists {s : Session} (h : s.Reachable) : s.Persists s := by
  cases h
  case between hi => exact .refl hi.ready.sound hi.ready.idle
  case running hi hk hc =>
    have ⟨hr, _⟩ := (persistence _).visits (hi.ready.config hk) hc
    exact .refl hr.sound hr.idle
  case returned hi hk hc hv =>
    have ⟨hr, _⟩ := (persistence _).visits (hi.ready.config hk) hc
    exact (persistence _).refl ((persistence _).returns hr hv).1

theorem Reachable.sound {s : Session} (h : s.Reachable) : s.Sound :=
  h.persists.sound

theorem Reachable.idle {s : Session} (h : s.Reachable) : s.Idle :=
  h.persists.idle

-- The session stands between two operations.
def Rests (s : Session) : Prop :=
  ∃ i : Image, i.Reachable ∧ i.session = s

theorem Rests.reachable {s : Session} (h : s.Rests) : s.Reachable := by
  obtain ⟨i, hi, rfl⟩ := h
  exact .between hi

theorem rests_fresh (device : Device) : (fresh device).Rests :=
  ⟨_, .fresh device, rfl⟩

end Session

-- Evaluating what the host holds is to compile it and to run the code.
theorem Image.Reachable.evalAs {i : Image} (h : i.Reachable) (fuel : Nat) (required : Rep)
    {expr : Value} (he : expr ∈ i.values) :
    Ensures (SessionM.evalAs fuel required expr) i.session (fun _ => Session.Rests) Session.Rests := by
  obtain ⟨n, hn⟩ := List.mem_iff_getElem?.mp he
  have hj := h.perform (.compile n required)
  simp only [Image.perform, hn, Option.elim_some, Image.compile] at hj
  refine .bind (.intro (fun code s hc => ?_) (fun e s hc => ?_)) <;> rw [hc] at hj
  · have hk := hj.perform (.run .attached fuel 0)
    simp only [Image.perform, goOn, List.cons_append, List.getElem?_cons_zero, Option.elim_some,
      Image.run] at hk
    refine .intro (fun v t hr => ?_) (fun e t hr => ?_) <;> rw [hr] at hk <;> exact ⟨_, hk, rfl⟩
  · exact ⟨_, hj, rfl⟩

namespace Session.Rests

variable {s : Session}

theorem evalForms (h : s.Rests) (fuel : Nat) (ds : List Datum) (last : Value) :
    Ensures (SessionM.evalForms fuel ds last) s (fun _ => Rests) Rests := by
  induction ds generalizing s last
  case nil => exact h
  case cons d ds hi =>
    obtain ⟨i, hr, rfl⟩ := h
    have heval := (hr.perform (.read d)).evalAs fuel .any (.head _)
    exact .bind (Ensures.bind (.bind (heval.imp (fun v t ht => hi ht _) (fun _ => id))))

theorem evalText (h : s.Rests) (fuel : Nat) (text : String) :
    Ensures (SessionM.evalText fuel text) s (fun _ => Rests) Rests := by
  refine .bind ((h.evalForms fuel _ none).imp (fun last t ht => ?_) (fun _ => id))
  unfold SessionM.raise
  cases (readText text).fault
  case none   => exact ht
  case some e => exact ht

end Session.Rests
end CellLisp
