import CellLisp.Execution
import CellLisp.Proofs.Outcome
import Mathlib.Logic.Relation

namespace CellLisp

-- Code that is about to run.
structure Config where
  {kind : Kind}
  code : Code kind
  session : Session

variable {link : Link}

def Returns (link : Link) {k : Kind} (code : Code k) (s : Session) (v : k.Result) (t : Session) : Prop :=
  ∃ fuel, run link fuel code s = .ok v t

-- Operands are entered from left to right, once those before have returned.
inductive Operands.Enters (link : Link) : {ks : List Kind} → Operands ks → Session → Config → Prop
  | first {k ks s} {first : Code k} {rest : Operands ks} : Enters link (.cons first rest) s ⟨first, s⟩
  | rest {k ks s t c} {first : Code k} {rest : Operands ks} {v : k.Result} :
    Returns link first s v t → Enters link rest t c → Enters link (.cons first rest) s c

-- What a loop enters from the start of a round on.
inductive Loop.Enters (link : Link) {k : Kind} (condition : Code .raw) (body : Code k) :
    Session → Config → Prop
  | condition {s} : Enters link condition body s ⟨condition, s⟩
  | body {s t n} : Returns link condition s n t → n ≠ 0 → Enters link condition body s ⟨body, t⟩
  | next {s t u n v c} : Returns link condition s n t → n ≠ 0 → Returns link body t v u →
    Enters link condition body u c → Enters link condition body s c

inductive Enters (link : Link) : Config → Config → Prop
  | store {e value s} : Enters link ⟨.store e value, s⟩ ⟨value, s⟩
  | assign {e value s} : Enters link ⟨.assign e value, s⟩ ⟨value, s⟩
  | discard {k s} {value : Code k} : Enters link ⟨.discard value, s⟩ ⟨value, s⟩
  | first {k s first} {last : Code k} : Enters link ⟨.sequence first last, s⟩ ⟨first, s⟩
  | last {k s t first} {last : Code k} : Returns link first s () t →
    Enters link ⟨.sequence first last, s⟩ ⟨last, t⟩
  | condition {k s condition} {yes no : Code k} :
    Enters link ⟨.branch condition yes no, s⟩ ⟨condition, s⟩
  | yes {k s t n condition} {yes no : Code k} : Returns link condition s n t → n ≠ 0 →
    Enters link ⟨.branch condition yes no, s⟩ ⟨yes, t⟩
  | no {k s t condition} {yes no : Code k} : Returns link condition s (0 : Int64) t →
    Enters link ⟨.branch condition yes no, s⟩ ⟨no, t⟩
  | initial {k s condition} {initial body : Code k} :
    Enters link ⟨.loop initial condition body, s⟩ ⟨initial, s⟩
  | round {k s t c condition} {initial body : Code k} {v : k.Result} : Returns link initial s v t →
    Loop.Enters link condition body t c → Enters link ⟨.loop initial condition body, s⟩ c
  | call {callee code s t} : RunM.codeOf callee s = .ok code t →
    Enters link ⟨.call callee, s⟩ ⟨code, t⟩
  | expr {expr s} : Enters link ⟨.eval expr, s⟩ ⟨expr, s⟩
  | operand {k ks s c} {p : Primitive ks k} {operands : Operands ks} : operands.Enters link s c →
    Enters link ⟨.primitive p operands, s⟩ c

-- Besides the code that is there, control can pass to code that is compiled on the way.
inductive Proceeds (link : Link) : Config → Config → Prop
  | enters {c d} : Enters link c d → Proceeds link c d
  | evaluates {expr s t r c} {code : Code .cell} : link = .attached →
    Returns link expr s (some r) t → compile (some r) .any t.toCompiler = .ok code c →
    Proceeds link ⟨.eval expr, s⟩ ⟨code, { t with toCompiler := c }⟩

def Visits (link : Link) : Config → Config → Prop :=
  Relation.ReflTransGen (Proceeds link)

-- The place of the body that a call enters.
def Callee.body? (heap : Heap) : Callee → Option CodeId
  | code id  => some id
  | lambda r => (heap.get? r).bind Cell.code?

theorem RunM.codeOf_eq (callee : Callee) (s : Session) :
    codeOf callee s =
      match (callee.body? s.heap).bind (s.codes[·]?) with
      | some code => .ok code s
      | none      => .error (.fault .missingCode) s := by
  have h : codeOf callee s =
      (match (callee.body? s.heap).bind (s.codes[·]?) with
      | some code => Pure.pure code
      | none      => throw (.fault .missingCode) : RunM (Code .cell)) s := by
    cases callee <;> rfl
  rw [h]
  cases (callee.body? s.heap).bind (s.codes[·]?) <;> rfl

theorem RunM.codeOf_ok {callee : Callee} {s t : Session} {code : Code .cell}
    (h : codeOf callee s = .ok code t) :
    t = s ∧ ∃ id, callee.body? s.heap = some id ∧ s.codes[id]? = some code := by
  rw [codeOf_eq] at h
  split at h <;> cases h
  exact ⟨rfl, Option.bind_eq_some_iff.mp ‹_›⟩

theorem RunM.compiling_of_ok {α : Type} {m : CompileM α} {s : Session} {a : α} {c : Compiler}
    (h : m s.toCompiler = .ok a c) : compiling m s = .ok (.ok a) { s with toCompiler := c } := by
  simp only [compiling, h]

theorem RunM.compiling_of_error {α : Type} {m : CompileM α} {s : Session} {e : CompileError}
    {c : Compiler} (h : m s.toCompiler = .error e c) :
    compiling m s = .ok (.error e) { s with toCompiler := c } := by
  simp only [compiling, h]

theorem RunM.word_eq (select : Cell → Int64) (v : Value) (s : Session) :
    word select v s =
      match s.heap.cell? v with
      | some c => .ok (select c) s
      | none   => .error (.fault .strayRead) s := by
  unfold word
  rw [bind_eq_of_ok (show heap s = .ok s.heap s from rfl)]
  cases s.heap.cell? v <;> rfl

theorem RunM.assign_eq (e : EntryId) (word : Int64) (s : Session) :
    assign e word s =
      match s.env.binding e with
      | none   => .error (.fault .strayWrite) s
      | some r =>
        match s.heap.get? r with
        | none   => .error (.fault .strayWrite) s
        | some c => .ok word { s with heap := s.heap.set r (c.setFirstWord word) } := by
  unfold assign
  rw [bind_eq_of_ok (show (get : RunM Session) s = .ok s s from rfl)]
  cases s.env.binding e
  case none => rfl
  case some r =>
    simp only
    refine (bind_eq_of_ok (show heap s = .ok s.heap s from rfl)).trans ?_
    cases s.heap.get? r <;> rfl

theorem RunM.assign_of_cell {e : EntryId} {s : Session} {r : Ref} {c : Cell} (word : Int64)
    (hb : s.env.binding e = some r) (hc : s.heap.get? r = some c) :
    assign e word s = .ok word { s with heap := s.heap.set r (c.setFirstWord word) } := by
  rw [assign_eq, hb]
  simp only [hc]

theorem RunM.assign_cases (e : EntryId) (word : Int64) (s : Session) :
    assign e word s = .error (.fault .strayWrite) s ∨
    ∃ r c, s.env.binding e = some r ∧ s.heap.get? r = some c ∧
      assign e word s = .ok word { s with heap := s.heap.set r (c.setFirstWord word) } := by
  rw [assign_eq]
  split
  case h_1 => exact .inl rfl
  case h_2 r hb =>
    split
    case h_1      => exact .inl rfl
    case h_2 c hc => exact .inr ⟨r, c, hb, hc, rfl⟩

-- A property of results that only speaks of cells.
def Kind.Holds (good : Value → Session → Prop) : {k : Kind} → k.Result → Session → Prop
  | .cell, v, s => good v s
  | .raw, _, _  => True
  | .void, _, _ => True

def Results.Hold (good : Value → Session → Prop) : {ks : List Kind} → Results ks → Session → Prop
  | [], _, _           => True
  | _ :: _, (v, vs), s => Kind.Holds good v s ∧ Results.Hold good vs s

theorem Kind.Holds.imp {good good' : Value → Session → Prop} {k : Kind} {v : k.Result} {s t : Session}
    (h : Kind.Holds good v s) (hg : ∀ v, good v s → good' v t) : Kind.Holds good' v t := by
  cases k
  case raw  => trivial
  case cell => exact hg v h
  case void => trivial

theorem Results.Hold.imp {good good' : Value → Session → Prop} {ks : List Kind} {vs : Results ks}
    {s t : Session} (h : Results.Hold good vs s) (hg : ∀ v, good v s → good' v t) :
    Results.Hold good' vs t := by
  induction ks
  case nil          => trivial
  case cons _ _ hi => exact ⟨h.1.imp hg, hi h.2⟩

-- `Fits` is asked of code before it runs, `Leads` relates the sessions before and after, and `Good`
-- is said of the cells that come out. The laws speak of one action each.
structure Regime (link : Link) where
  Fits  : Config → Prop
  Leads : Session → Session → Prop
  Good  : Value → Session → Prop
  start   {c} : Fits c → Leads c.session c.session
  refl    {s t} : Leads s t → Leads t t
  trans   {s t u} : Leads s t → Leads t u → Leads s u
  mono    {v s t} : Good v s → Leads s t → Good v t
  enters  {c d} : Fits c → Enters link c d → Leads c.session d.session → Fits d
  evaluates {expr s r t code c} : Fits ⟨.eval expr, s⟩ → link = .attached →
    Returns link expr s (some r) t → Leads s t → Good (some r) t →
    CellLisp.compile (some r) .any t.toCompiler = .ok code c →
    Leads t { t with toCompiler := c } → Fits ⟨code, { t with toCompiler := c }⟩
  literal {r s} : Fits ⟨.literal r, s⟩ → Good (some r) s
  load    {e s} : Fits ⟨.load e, s⟩ → Good (s.env.binding e) s
  shared  {s} : Leads s s → Good (some Heap.nilRef) s
  store   {e value s v t} : Fits ⟨.store e value, s⟩ → Returns link value s v t → Leads s t → Good v t →
    Along Leads (RunM.store e v) t Good
  assign  {e value s n t} : Fits ⟨.assign e value, s⟩ → Returns link value s n t → Leads s t →
    Along Leads (RunM.assign e n) t (fun _ _ => True)
  error   {e s} : Leads s s → Along Leads (RunM.error e) s Good
  compile {r s} : Leads s s → Good (some r) s →
    Along Leads (RunM.compiling (CellLisp.compile (some r) .any)) s (fun _ _ => True)
  primitive {ks k} {p : Primitive ks k} {operands s vs t} : Fits ⟨.primitive p operands, s⟩ →
    Leads s t → Results.Hold Good vs t → Along Leads (p.run link vs) t (Kind.Holds Good)

namespace Regime

variable (R : Regime link)

instance : IsTrans Session R.Leads := ⟨fun _ _ _ => R.trans⟩

theorem holds_mono {k : Kind} {v : k.Result} {s t : Session} (h : Kind.Holds R.Good v s)
    (hst : R.Leads s t) : Kind.Holds R.Good v t :=
  h.imp fun _ hv => R.mono hv hst

-- What is shown of runs by induction on the fuel. For operands and loops the fitting code is named by
-- what they enter, since a later part fits only where control has come to it.
structure Upto (fuel : Nat) : Prop where
  run {k : Kind} {code : Code k} {s : Session} : R.Fits ⟨code, s⟩ →
    Along R.Leads (CellLisp.run link fuel code) s (Kind.Holds R.Good)
  operands {ks : List Kind} {operands : Operands ks} {s : Session} : R.Leads s s →
    (∀ c, operands.Enters link s c → R.Leads s c.session → R.Fits c) →
    Along R.Leads (runOperands link fuel operands) s (Results.Hold R.Good)
  iterate {k : Kind} {condition : Code .raw} {body : Code k} {last : k.Result} {s : Session} :
    R.Leads s s → Kind.Holds R.Good last s →
    (∀ c, Loop.Enters link condition body s c → R.Leads s c.session → R.Fits c) →
    Along R.Leads (CellLisp.iterate link fuel condition body last) s (Kind.Holds R.Good)

variable {R} {fuel : Nat} {k : Kind} {s : Session}

theorem Upto.zero : R.Upto 0 where
  run h            := .throw (R.start h)
  operands hs _    := .throw hs
  iterate hs _ _   := .throw hs

namespace Upto

variable (h : R.Upto fuel)

include h

theorem operands_succ {ks : List Kind} {operands : Operands ks} (hs : R.Leads s s)
    (hf : ∀ c, operands.Enters link s c → R.Leads s c.session → R.Fits c) :
    Along R.Leads (runOperands link (fuel + 1) operands) s (Results.Hold R.Good) := by
  cases operands
  case nil => exact .pure hs trivial
  case cons first rest =>
    rw [runOperands]
    refine (h.run (hf _ .first hs)).bind (fun v t hv hst hg => ?_)
    have hfits : ∀ c, rest.Enters link t c → R.Leads t c.session → R.Fits c :=
      fun c hc htc => hf c (.rest ⟨fuel, hv⟩ hc) (R.trans hst htc)
    -- The first result has to be good still when the rest have returned.
    refine (h.operands (R.refl hst) hfits).bind (fun vs u _ htu hgs => ?_)
    exact .pure (R.refl htu) ⟨R.holds_mono hg htu, hgs⟩

theorem iterate_succ {condition : Code .raw} {body : Code k} {last : k.Result} (hs : R.Leads s s)
    (hl : Kind.Holds R.Good last s)
    (hf : ∀ c, Loop.Enters link condition body s c → R.Leads s c.session → R.Fits c) :
    Along R.Leads (CellLisp.iterate link (fuel + 1) condition body last) s (Kind.Holds R.Good) := by
  rw [CellLisp.iterate]
  refine (h.run (hf _ .condition hs)).bind (fun n t hn hst _ => ?_)
  split
  case isTrue  => exact .pure (R.refl hst) (R.holds_mono hl hst)
  case isFalse hz =>
    refine (h.run (hf _ (.body ⟨fuel, hn⟩ hz) hst)).bind (fun v u hv htu hg => ?_)
    refine h.iterate (R.refl htu) hg (fun c hc huc => ?_)
    exact hf c (.next ⟨fuel, hn⟩ hz ⟨fuel, hv⟩ hc) (R.trans (R.trans hst htu) huc)

theorem evaluate {expr : Code .cell} {v : Value} {t : Session} (hf : R.Fits ⟨.eval expr, s⟩)
    (hv : Returns link expr s v t) (hst : R.Leads s t) (hg : R.Good v t) :
    Along R.Leads (RunM.evaluate link (CellLisp.run link fuel) v) t R.Good := by
  unfold RunM.evaluate
  split
  case h_1 => exact .pure (R.refl hst) (R.shared (R.refl hst))
  case h_2 => exact R.error (R.refl hst)
  case h_3 r =>
    refine (R.compile (R.refl hst) hg).bind (fun outcome u hu htu _ => ?_)
    split
    case h_2 =>
      split
      case isTrue  => exact .throw (R.refl htu)
      case isFalse => exact R.error (R.refl htu)
    case h_1 code =>
      -- The code is run in the session that compiling it has left.
      have hc : ∃ c, CellLisp.compile (some r) .any t.toCompiler = .ok code c ∧
          u = { t with toCompiler := c } := by
        simp only [RunM.compiling] at hu
        split at hu <;> cases hu
        exact ⟨_, ‹_›, rfl⟩
      obtain ⟨c, hc, rfl⟩ := hc
      have hcode := R.evaluates hf rfl hv hst hg hc htu
      refine (h.run hcode).bind (fun w u' _ huu hw => .pure (R.refl huu) ?_)
      cases w
      case none   => exact R.shared (R.refl huu)
      case some r => exact hw

theorem run_succ {code : Code k} (hf : R.Fits ⟨code, s⟩) :
    Along R.Leads (CellLisp.run link (fuel + 1) code) s (Kind.Holds R.Good) := by
  have hs : R.Leads s s := R.start hf
  -- A part that is entered first of all is entered in the session at hand.
  have part {j : Kind} {d : Code j} (hd : Enters link ⟨code, s⟩ ⟨d, s⟩) :=
    h.run (R.enters hf hd hs)
  cases code <;> rw [CellLisp.run]
  case const   => exact .pure hs trivial
  case literal => exact .pure hs (R.literal hf)
  case load    => exact ⟨hs, R.load hf⟩
  case store =>
    exact (part .store).bind (fun v t hv hst hg => R.store hf ⟨fuel, hv⟩ hst hg)
  case assign =>
    exact (part .assign).bind (fun n t hn hst _ => R.assign hf ⟨fuel, hn⟩ hst)
  case discard =>
    exact (part .discard).bind (fun _ _ _ hst _ => .pure (R.refl hst) trivial)
  case sequence =>
    exact (part .first).bind (fun _ t hv hst _ => h.run (R.enters hf (.last ⟨fuel, hv⟩) hst))
  case branch =>
    refine (part .condition).bind (fun n t hn hst _ => ?_)
    split
    case isTrue hz  => exact h.run (R.enters hf (.no ⟨fuel, hz ▸ hn⟩) hst)
    case isFalse hz => exact h.run (R.enters hf (.yes ⟨fuel, hn⟩ hz) hst)
  case loop =>
    refine (part .initial).bind (fun v t hv hst hg => h.iterate (R.refl hst) hg (fun c hc htc => ?_))
    exact R.enters hf (.round ⟨fuel, hv⟩ hc) (R.trans hst htc)
  case call callee =>
    -- To find the body of a function changes nothing, whether it is there or not.
    have hcallee : Along R.Leads (RunM.codeOf callee) s (fun code t => t = s ∧ R.Fits ⟨code, t⟩) := by
      refine Ensures.intro (fun code t hc => ?_) (fun _ _ hc => ?_)
      · obtain ⟨rfl, _⟩ := RunM.codeOf_ok hc
        exact ⟨hs, rfl, R.enters hf (.call hc) hs⟩
      · rw [RunM.codeOf_eq] at hc
        split at hc <;> cases hc
        exact hs
    exact hcallee.bind (fun _ _ _ _ ⟨_, hfits⟩ => h.run hfits)
  case eval =>
    exact (part .expr).bind (fun v t hv hst hg => h.evaluate hf ⟨fuel, hv⟩ hst hg)
  case primitive =>
    refine (h.operands hs (fun c hc hsc => R.enters hf (.operand hc) hsc)).bind
      (fun vs t _ hst hgs => R.primitive hf hst hgs)

end Upto

theorem upto (R : Regime link) (fuel : Nat) : R.Upto fuel := by
  induction fuel
  case zero    => exact .zero
  case succ hi => exact ⟨hi.run_succ, hi.operands_succ, hi.iterate_succ⟩

theorem run_along {code : Code k} (h : R.Fits ⟨code, s⟩) :
    Along R.Leads (run link fuel code) s (Kind.Holds R.Good) :=
  (R.upto fuel).run h

theorem returns {code : Code k} {v : k.Result} {t : Session} (h : R.Fits ⟨code, s⟩)
    (hv : Returns link code s v t) : R.Leads s t ∧ Kind.Holds R.Good v t :=
  have ⟨_, hv⟩ := hv
  (R.run_along h).of_ok hv

theorem operands_leads {ks : List Kind} {operands : Operands ks} {c : Config} (hs : R.Leads s s)
    (hc : operands.Enters link s c)
    (hf : ∀ d, operands.Enters link s d → R.Leads s d.session → R.Fits d) : R.Leads s c.session := by
  induction hc
  case first          => exact hs
  case rest hv _ hi =>
    have ⟨hst, _⟩ := R.returns (hf _ .first hs) hv
    exact R.trans hst (hi (R.refl hst) fun d hd htd => hf d (.rest hv hd) (R.trans hst htd))

theorem loop_leads {condition : Code .raw} {body : Code k} {c : Config} (hs : R.Leads s s)
    (hc : Loop.Enters link condition body s c)
    (hf : ∀ d, Loop.Enters link condition body s d → R.Leads s d.session → R.Fits d) :
    R.Leads s c.session := by
  induction hc
  case condition => exact hs
  case body hn _ => exact (R.returns (hf _ .condition hs) hn).1
  case next hn hz hv _ hi =>
    have ⟨hst, _⟩ := R.returns (hf _ .condition hs) hn
    have ⟨htu, _⟩ := R.returns (hf _ (.body hn hz) hst) hv
    have hsu := R.trans hst htu
    exact R.trans hsu (hi (R.refl htu) fun d hd hud => hf d (.next hn hz hv hd) (R.trans hsu hud))

theorem enters_leads {c d : Config} (hc : R.Fits c) (hd : Enters link c d) :
    R.Leads c.session d.session := by
  have hs := R.start hc
  cases hd
  case last hv    => exact (R.returns (R.enters hc .first hs) hv).1
  case yes hn _   => exact (R.returns (R.enters hc .condition hs) hn).1
  case no hn      => exact (R.returns (R.enters hc .condition hs) hn).1
  case call hcode => exact (RunM.codeOf_ok hcode).1 ▸ hs
  case round hv hd =>
    have ⟨hst, _⟩ := R.returns (R.enters hc .initial hs) hv
    refine R.trans hst (R.loop_leads (R.refl hst) hd fun d hd htd => ?_)
    exact R.enters hc (.round hv hd) (R.trans hst htd)
  case operand hd => exact R.operands_leads hs hd fun d hd hsd => R.enters hc (.operand hd) hsd
  all_goals exact hs

theorem proceeds {c d : Config} (hc : R.Fits c) (hd : Proceeds link c d) :
    R.Fits d ∧ R.Leads c.session d.session := by
  cases hd
  case enters hd =>
    have hl := R.enters_leads hc hd
    exact ⟨R.enters hc hd hl, hl⟩
  case evaluates ha hv hcode =>
    have ⟨hst, hg⟩ := R.returns (R.enters hc .expr (R.start hc)) hv
    have hcompile := R.compile (R.refl hst) hg
    simp only [Along, Ensures, RunM.compiling, hcode] at hcompile
    exact ⟨R.evaluates hc ha hv hst hg hcode hcompile.1, R.trans hst hcompile.1⟩

theorem visits {c d : Config} (hc : R.Fits c) (hd : Visits link c d) :
    R.Fits d ∧ R.Leads c.session d.session := by
  induction hd
  case refl => exact ⟨hc, R.start hc⟩
  case tail hd hi =>
    have ⟨hf, hl⟩ := R.proceeds hi.1 hd
    exact ⟨hf, R.trans hi.2 hl⟩

end Regime
end CellLisp
