import CellLisp.Proofs.Image

namespace CellLisp

-- What a host does to evaluate a text.
def Operation.evaluate (fuel : Nat) (text : String) : List Operation :=
  (readText text).forms.flatMap fun d => [.read d, .compile 0 .any, .run .attached fuel 0]

namespace Image

def performAll (i : Image) (ops : List Operation) : Image :=
  ops.foldl perform i

-- A session in which `x` is bound to an integer.
def withInteger : Image :=
  (fresh (.fresh 0 0)).performAll (Operation.evaluate 100 "(def x 1)")

-- In one of the operations control passes to the given code.
def Passes (i : Image) (ops : List Operation) (link : Link) (c : Config) : Prop :=
  ∃ before after fuel code kept, ops = before ++ .run link fuel code :: after ∧
    (i.performAll before).codes[code]? = some kept ∧
    Visits link ⟨kept.code, (i.performAll before).session⟩ c

theorem Passes.visits {i : Image} {ops : List Operation} {link : Link} {c d : Config}
    (hc : i.Passes ops link c) (hd : Visits link c d) : i.Passes ops link d := by
  obtain ⟨before, after, fuel, code, kept, hops, hk, hv⟩ := hc
  exact ⟨before, after, fuel, code, kept, hops, hk, hv.trans hd⟩

theorem performAll_append (i : Image) (ops ops' : List Operation) :
    i.performAll (ops ++ ops') = (i.performAll ops).performAll ops' :=
  List.foldl_append

theorem Reachable.performAll {i : Image} (h : i.Reachable) (ops : List Operation) :
    (i.performAll ops).Reachable := by
  induction ops generalizing i
  case nil        => exact h
  case cons op _ hi => exact hi (.perform op h)

theorem reachable_withInteger : withInteger.Reachable :=
  (Reachable.fresh _).performAll _

theorem Reachable.persists {i : Image} (h : i.Reachable) (ops : List Operation) :
    i.session.Persists (i.performAll ops).session := by
  induction ops generalizing i
  case nil          => exact .refl h.ready.sound h.ready.idle
  case cons op _ hi => exact (h.ready.step (i.step_perform op)).1.trans (hi (h.perform op))

theorem codes_performAll (i : Image) (ops : List Operation) : i.codes <:+ (i.performAll ops).codes := by
  induction ops generalizing i
  case nil          => exact List.suffix_refl _
  case cons op _ hi => exact (i.step_perform op).codes.trans (hi _)

end Image

variable {i : Image} {ops : List Operation} {link : Link}

structure Observation (i : Image) (ops : List Operation) where
  Keeps : Session → Session → Prop
  refl (s) : Keeps s s
  trans {s t u} : s.Persists t → Keeps s t → Keeps t u → Keeps s u
  works {s t} : s.Works t → Keeps s t
  compile {s : Session} {c} : s.Extends c → Keeps s { s with toCompiler := c }
  store {link e value s v t} : i.Passes ops link ⟨.store e value, s⟩ → Returns link value s v t →
    Keeps t { t with env := t.env.setBinding e v }
  assign {link e value s n t r c} : i.Passes ops link ⟨.assign e value, s⟩ →
    Returns link value s n t → t.env.binding e = some r → t.heap.get? r = some c →
    Keeps t { t with heap := t.heap.set r (c.setFirstWord n) }

namespace Observation

variable (O : Observation i ops)

structure Leads (s t : Session) : Prop where
  persists : s.Persists t
  keeps    : O.Keeps s t

variable {O} {s t u : Session}

theorem Leads.refl (h : s.Persists s) : O.Leads s s :=
  ⟨h, O.refl s⟩

theorem Leads.trans (h : O.Leads s t) (h' : O.Leads t u) : O.Leads s u :=
  ⟨h.persists.trans h'.persists, O.trans h.persists h.keeps h'.keeps⟩

theorem Leads.of_works (hs : s.Persists s) (h : s.Works t) : O.Leads s t :=
  ⟨.of_works h hs.sound hs.idle, O.works h⟩

theorem Leads.of_extends {c : Compiler} (h : s.Extends c) : O.Leads s { s with toCompiler := c } :=
  ⟨.of_extends h, O.compile h⟩

variable (O) in
-- The rules of a run to which every place that control passes to belongs.
def regime (link : Link) : Regime link where
  Fits c := c.Ready ∧ ∀ d, Visits link c d → i.Passes ops link d
  Leads  := O.Leads
  Good   := Session.Has
  start h         := .refl (.refl h.1.sound h.1.idle)
  refl h          := .refl ((persistence link).refl h.persists)
  trans           := .trans
  mono hv h       := (persistence link).mono hv h.persists
  enters h hd hl  :=
    ⟨h.1.enters hd hl.persists, fun d' hd' => h.2 d' (hd'.head (.enters hd))⟩
  evaluates h ha hv hl hg hc hl' :=
    ⟨(persistence link).evaluates h.1 ha hv hl.persists hg hc hl'.persists,
      fun d' hd' => h.2 d' (hd'.head (.evaluates ha hv hc))⟩
  literal h       := (persistence link).literal h.1
  load h          := (persistence link).load h.1
  shared h        := (persistence link).shared h.persists
  store h hv hl hg :=
    ⟨⟨.setBinding hl.persists.sound hl.persists.idle hg, O.store (h.2 _ .refl) hv⟩, hg⟩
  assign h hn hl  :=
    have hp := (persistence link).refl hl.persists
    RunM.assign_along (.refl hp) fun _ c hb hc =>
      ⟨.setCell hp.sound hp.idle hc (.setFirstWord c _), O.assign (h.2 _ .refl) hn hb hc⟩
  error h         := (RunM.error_along Heap.quality_has _).mono fun _ hw => .of_works h.persists hw
  compile h _     := RunM.compiling_along h.persists.sound h.persists.idle fun _ => .of_extends
  primitive _ hl hg :=
    have hp := (persistence link).refl hl.persists
    (Primitive.run_along hp.sound _ _ hg).mono fun _ hw => .of_works hp hw

-- In the run of an operation, everything that control passes to counts as passed.
theorem fits {before after : List Operation} {fuel code : Nat} {kept : Kept} (hi : i.Reachable)
    (hops : ops = before ++ .run link fuel code :: after)
    (hk : (i.performAll before).codes[code]? = some kept) :
    (O.regime link).Fits ⟨kept.code, (i.performAll before).session⟩ :=
  ⟨(hi.performAll before).ready.config (List.mem_of_getElem? hk),
    fun _ hd => ⟨before, after, fuel, code, kept, hops, hk, hd⟩⟩

theorem perform {before after : List Operation} {op : Operation} (hi : i.Reachable)
    (hops : ops = before ++ op :: after) :
    O.Leads (i.performAll before).session (i.performAll (before ++ [op])).session := by
  have hready := (hi.performAll before).ready
  have hp := Session.Persists.refl hready.sound hready.idle
  rw [Image.performAll_append]
  refine hready.leads (Image.step_perform _ op) (fun _ => .of_works hp) (fun _ => .of_extends) ?_
  rintro link fuel code kept rfl hk
  exact ⟨_, (O.regime link).run_along (fits hi hops hk)⟩

theorem performAll {before after : List Operation} (hi : i.Reachable) (hops : ops = before ++ after) :
    O.Leads i.session (i.performAll before).session := by
  induction before using List.reverseRecOn generalizing after
  case nil => exact .refl (.refl hi.ready.sound hi.ready.idle)
  case append_singleton before op hprev =>
    rw [List.append_assoc] at hops
    exact (hprev hops).trans (perform hi hops)

theorem passes {c : Config} (hi : i.Reachable) (hc : i.Passes ops link c) :
    (O.regime link).Fits c ∧ O.Leads i.session c.session := by
  obtain ⟨before, after, fuel, code, kept, hops, hk, hv⟩ := hc
  have ⟨hfits, hl⟩ := (O.regime link).visits (fits hi hops hk) hv
  exact ⟨hfits, (performAll hi hops).trans hl⟩

theorem returns {c : Config} {v : c.kind.Result} (hi : i.Reachable) (hc : i.Passes ops link c)
    (hv : Returns link c.code c.session v t) : O.Leads c.session t :=
  ((O.regime link).returns (passes hi hc).1 hv).1

end Observation
end CellLisp
