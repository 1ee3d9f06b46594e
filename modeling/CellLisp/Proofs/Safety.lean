import CellLisp.Proofs.History
import CellLisp.Proofs.Trust

namespace CellLisp

open Compiler (Carries Trusts)

theorem Heap.Works.carries {c : Compiler} {h h' : Heap} (hw : h.Works h') :
    Carries { c with heap := h } { c with heap := h' } :=
  { Carries.refl { c with heap := h } with
    extent := ⟨hw.size, Nat.le_refl _, Nat.le_refl _⟩
    cells  := fun r x hx =>
      have ⟨y, hy, hxy⟩ := hw.old r x hx
      ⟨y, hy, hxy.becomes⟩ }

namespace Session

variable {s t u : Session} {v : Value}

-- A cell is there, and trusted.
def Trusted (v : Value) (s : Session) : Prop :=
  ∃ r, v = some r ∧ s.Trusts (.cell r)

theorem Trusted.of_some {r : Ref} (h : Trusted (some r) s) : ∀ q, some r = some q → s.Trusts (.cell q) := by
  intro q hq
  have ⟨_, hr, ht⟩ := h
  cases hq
  cases hr
  exact ht

structure Sustains (s t : Session) : Prop where
  persists : s.Persists t
  carries  : s.Carries t.toCompiler
  orderly  : t.Orderly

namespace Sustains

theorem refl (hi : s.Idle) (ho : s.Orderly) : s.Sustains s :=
  ⟨.refl ho.sound hi, .refl _, ho⟩

theorem self (h : s.Sustains t) : t.Sustains t :=
  refl h.persists.idle h.orderly

theorem trans (h : s.Sustains t) (h' : t.Sustains u) : s.Sustains u :=
  ⟨h.persists.trans h'.persists, h.carries.trans h'.carries, h'.orderly⟩

theorem trusted (h : s.Sustains t) (hv : Trusted v s) : Trusted v t :=
  have ⟨r, hr, ht⟩ := hv
  ⟨r, hr, h.carries.trusts ht⟩

theorem of_works (h : s.Sustains s) (hw : s.Works t) : s.Sustains t := by
  have hp := Persists.of_works hw h.persists.sound h.persists.idle
  have hc : s.Carries t.toCompiler := hw.rest ▸ hw.heap.carries
  refine ⟨hp, hc, h.orderly.carries hc hp.sound ?_ ?_ ?_⟩ <;> rw [hw.rest]
  case refine_1 => exact fun _ _ => .inl
  case refine_2 => exact fun _ => .inl
  case refine_3 => exact fun _ => .inl

theorem setBinding {e : EntryId} (h : s.Sustains s) (hv : Trusted v s) :
    s.Sustains { s with env := s.env.setBinding e v } := by
  obtain ⟨r, rfl, hr⟩ := hv
  have hlt : r < s.heap.size := s.accounts_trusts.within _ hr
  have hp := Persists.setBinding (e := e) h.persists.sound h.persists.idle (Heap.has_some.mpr hlt)
  have hc : s.Carries { s.toCompiler with env := s.env.setBinding e (some r) } :=
    { Carries.refl s.toCompiler with
      extent := hp.extent_le
      bound  := fun d hd => by
        by_cases hde : d = e
        case neg => rwa [Env.binding_setBinding_of_ne _ hde]
        case pos =>
          have ⟨q, hq⟩ := Option.ne_none_iff_exists'.mp hd
          simp [hde, Env.binding_setBinding _ (Env.lt_size_of_binding (hde ▸ hq))] }
  refine ⟨hp, hc, h.orderly.carries hc hp.sound (fun d q hd => ?_) (fun _ => .inl) (fun _ => .inl)⟩
  cases Env.eq_or_binding_of_setBinding hd
  case inl heq => exact .inr (Option.some.inj heq.2 ▸ hr)
  case inr hd  => exact .inl hd

theorem setCell {r : Ref} {x y : Cell} (h : s.Sustains s) (hx : s.heap.get? r = some x)
    (hy : x.Becomes y) : s.Sustains { s with heap := s.heap.set r y } := by
  have hp := Persists.setCell h.persists.sound h.persists.idle hx hy
  have hc : s.Carries { s.toCompiler with heap := s.heap.set r y } :=
    { Carries.refl s.toCompiler with
      extent := hp.extent_le
      cells  := Heap.becomes_set hx hy }
  exact ⟨hp, hc, h.orderly.carries hc hp.sound (fun _ _ => .inl) (fun _ => .inl) (fun _ => .inl)⟩

end Sustains

-- Trust as a quality of the values in a heap, with the rest of the memory as it is.
def TrustedIn (c : Compiler) (v : Value) (h : Heap) : Prop :=
  ∃ r, v = some r ∧ Trusts { c with heap := h } (.cell r)

theorem quality_trustedIn (c : Compiler) : Heap.Quality (TrustedIn c) where
  has := by
    rintro v h ⟨r, rfl, hr⟩
    exact Heap.has_some.mpr ((Compiler.accounts_trusts _).within _ hr)
  works := by
    rintro v h h' ⟨r, hv, hr⟩ hw
    exact ⟨r, hv, hw.carries.trusts hr⟩
  made := by
    intro r x h hx hn
    refine ⟨r, rfl, Compiler.trusts_of_cell hx fun n hmem => ?_⟩
    have ⟨s, hs, q, hq, ht⟩ := hn n hmem
    exact ⟨s, hs, hs ▸ Option.some.inj hq ▸ ht⟩

theorem rooted_trustedIn (h : s.Orderly) : Heap.Rooted (TrustedIn s.toCompiler) s.heap where
  shared := ⟨_, rfl, h.shared⟩
  part := by
    rintro r x q ⟨_, hr, ht⟩ hx hq
    cases hr
    exact ⟨q, rfl, s.accounts_trusts.cells r x ht hx _ hq⟩

theorem Works.trusted (hw : s.Works t) (hv : TrustedIn s.toCompiler v t.heap) : Trusted v t :=
  have ⟨r, hr, ht⟩ := hv
  ⟨r, hr, hw.rest ▸ ht⟩

end Session

open Session (Sustains Trusted TrustedIn quality_trustedIn)

structure Config.Trusted (c : Config) : Prop where
  idle    : c.session.Idle
  orderly : c.session.Orderly
  fair    : c.code.All c.session.Fair

theorem Config.Trusted.of_sustains {k : Kind} {code : Code k} {s t : Session} (h : s.Sustains t)
    (hc : code.All t.Fair) : Config.Trusted ⟨code, t⟩ :=
  ⟨h.persists.idle, h.orderly, hc⟩

-- What a trusted body mentions is fair.
theorem Compiler.Orderly.fair_body {c : Compiler} {id : CodeId} {code : Code .cell} (h : c.Orderly)
    (hid : c.Trusts (.body id)) (hcode : c.codes[id]? = some code) : code.All c.Fair := by
  have hwithin := Code.within_iff.mp (h.sound.bodies id code hcode)
  intro m hm
  have ⟨hserves, hleads⟩ := c.accounts_trusts.bodies id code hid hcode m hm
  exact ⟨hwithin m hm, hserves, hleads⟩

-- The place of the body is either part of the call, or in the cell of the function.
theorem Compiler.Fair.trusts_body {c : Compiler} {callee : Callee} {id : CodeId}
    (h : c.Fair (.call callee)) (hid : callee.body? c.heap = some id) : c.Trusts (.body id) := by
  have hcallee : c.Trusts callee.refers := h.leads _ (.head _)
  cases callee
  case code i =>
    cases hid
    exact hcallee
  case lambda r =>
    have ⟨x, hx, hcode⟩ := Option.bind_eq_some_iff.mp hid
    exact c.accounts_trusts.cells r x hcallee hx _ (Cell.body_mem_refers.mpr hcode)

theorem Config.Trusted.enters {link : Link} {c d : Config} (h : c.Trusted) (hd : Enters link c d)
    (hs : c.session.Sustains d.session) : d.Trusted := by
  refine .of_sustains hs ?_
  cases hd.part_or_body
  case inl hpart => exact fun m hm => hs.carries.fair (h.fair m (hpart hm))
  case inr hbody =>
    obtain ⟨callee, id, code, hcall, hid, hcode, rfl⟩ := hbody
    exact h.orderly.fair_body ((h.fair _ hcall).trusts_body hid) hcode

-- The code that a compilation gives is fair. One that fails keeps up what there was all the same.
theorem Session.Sustains.compile {s : Session} {expr : Value} (required : Rep) (h : s.Sustains s)
    (he : ∀ r, expr = some r → s.Trusts (.cell r)) :
    Ensures (CellLisp.compile expr required) s.toCompiler
      (fun code c => s.Sustains { s with toCompiler := c } ∧ code.All c.Fair)
      (fun c => s.Sustains { s with toCompiler := c }) := by
  have htrusted := compile_trusted required h.orderly h.persists.idle he
  have hextends := compile_extends expr required h.orderly.sound h.persists.idle
  refine .intro (fun code c hc => ?_) (fun e c hc => ?_)
  case refine_1 =>
    have ⟨hcarries, horderly, hfair⟩ := htrusted.of_ok hc
    exact ⟨⟨.of_extends (hextends.of_ok hc).1, hcarries, horderly⟩, hfair⟩
  case refine_2 =>
    have ⟨hcarries, horderly⟩ := htrusted.of_error hc
    exact ⟨.of_extends (hextends.of_error hc).1, hcarries, horderly⟩

-- A call of the function in a cell, whose code is in the given place: by the place or by the cell.
def Callee.Calls (callee : Callee) (r : Ref) (id : CodeId) : Prop :=
  callee = .code id ∨ callee = .lambda r

theorem RunM.codeOf_of_calls {callee : Callee} {s : Session} {r : Ref} {id : CodeId}
    {body : Code .cell} (hc : callee.Calls r id) (hr : s.HasCode r id)
    (hb : s.codes[id]? = some body) : codeOf callee s = .ok body s := by
  have hid : callee.body? s.heap = some id := by
    cases hc
    case inl hc => rw [hc, Callee.body?]
    case inr hc => exact hc ▸ hr
  rw [codeOf_eq, hid, Option.bind_some, hb]

-- Nothing is open while code runs, so that a function which is called has its code.
theorem Config.Trusted.call {callee : Callee} {s : Session} (h : Config.Trusted ⟨.call callee, s⟩) :
    ∃ r id body, callee.Calls r id ∧ s.HasCode r id ∧ s.codes[id]? = some body := by
  have hsound : s.Sound := h.orderly.sound
  have hserves := (Code.all_call.mp h.fair).serves
  cases callee
  case code id =>
    have ⟨r, hr⟩ := hserves
    have ⟨body, hbody⟩ := hsound.body_of_hasCode hr
    exact ⟨r, id, body, .inl rfl, hr, hbody⟩
  case lambda r =>
    cases hserves
    case inl hfinished =>
      have ⟨id, hr⟩ := hfinished
      have ⟨body, hbody⟩ := hsound.body_of_hasCode hr
      exact ⟨r, id, body, .inr rfl, hr, hbody⟩
    case inr hopen =>
      have hidle : s.Idle := h.idle
      simp [hidle.nesting, Nesting.contains, Nesting.empty] at hopen

theorem Config.Trusted.codeOf {callee : Callee} {s : Session} (h : Config.Trusted ⟨.call callee, s⟩) :
    ∃ body, RunM.codeOf callee s = .ok body s :=
  have ⟨_, _, body, hcalls, hr, hbody⟩ := h.call
  ⟨body, RunM.codeOf_of_calls hcalls hr hbody⟩

theorem RunM.compiling_sustains {s : Session} {expr : Value} {required : Rep} (h : s.Sustains s)
    (he : ∀ r, expr = some r → s.Trusts (.cell r)) :
    Along Sustains (compiling (compile expr required)) s (fun _ _ => True) := by
  have hcompile := h.compile required he
  unfold Along Ensures compiling
  cases hc : compile expr required s.toCompiler
  case ok    => simpa only [hc] using ⟨(hcompile.of_ok hc).1, trivial⟩
  case error => simpa only [hc] using ⟨hcompile.of_error hc, trivial⟩

def trusting (link : Link) : Regime link where
  Fits  := Config.Trusted
  Leads := Sustains
  Good  := Trusted
  start h         := .refl h.idle h.orderly
  refl h          := h.self
  trans           := .trans
  mono hv h       := h.trusted hv
  enters          := Config.Trusted.enters
  evaluates _ _ _ hs hg hc hs' :=
    .of_sustains hs' ((hs.self.compile _ hg.of_some).of_ok hc).2
  literal h       := ⟨_, rfl, (Code.all_literal.mp h.fair).leads _ (.head _)⟩
  load h          :=
    have ⟨r, hr⟩ := Option.ne_none_iff_exists'.mp (Code.all_load.mp h.fair).serves
    ⟨r, hr, h.orderly.bindings _ r hr⟩
  shared h        := ⟨_, rfl, h.orderly.shared⟩
  store _ _ h hv  := ⟨h.self.setBinding hv, (h.self.setBinding hv).trusted hv⟩
  assign _ _ h    := RunM.assign_along h.self fun _ c _ hc =>
    h.self.setCell hc (.setFirstWord c _)
  error h         := Ensures.imp (RunM.error_along (quality_trustedIn _) _)
    (fun _ _ ⟨hw, hv⟩ => ⟨h.of_works hw, hw.trusted hv⟩) (fun _ => h.of_works)
  compile h hv    := RunM.compiling_sustains h hv.of_some
  primitive {_ _ _ _ _ _ t} _ h hv :=
    have hrun := (quality_trustedIn t.toCompiler).run_along (Session.rooted_trustedIn h.orderly) _ _
      (hv.imp fun _ => id)
    Ensures.imp hrun (fun _ _ ⟨hw, hv⟩ => ⟨h.self.of_works hw, hv.imp fun _ => hw.trusted⟩)
      (fun _ => h.self.of_works)

namespace Image

variable {i j : Image} {ops : List Operation} {op : Operation} {link : Link} {c : Config}

structure Trusty (i : Image) : Prop where
  idle    : i.session.Idle
  orderly : i.session.Orderly
  values  : ∀ v ∈ i.values, ∀ r, v = some r → i.session.Trusts (.cell r)
  codes   : ∀ kept ∈ i.codes, kept.code.All i.session.Fair

theorem Trusty.sustains (h : i.Trusty) : i.session.Sustains i.session :=
  .refl h.idle h.orderly

theorem Trusty.config (h : i.Trusty) {kept : Kept} (hk : kept ∈ i.codes) :
    Config.Trusted ⟨kept.code, i.session⟩ :=
  .of_sustains h.sustains (h.codes kept hk)

theorem Trusty.goOn {s : Session} {values : List Value} {codes : List Kept} (h : i.Trusty)
    (hs : i.session.Sustains s) (hv : ∀ v ∈ values, ∀ r, v = some r → s.Trusts (.cell r))
    (hc : ∀ kept ∈ codes, kept.code.All s.Fair) : (i.goOn s values codes).Trusty where
  idle    := hs.persists.idle
  orderly := hs.orderly
  values v hmem r hr := by
    cases List.mem_append.mp hmem
    case inl hmem => exact hv v hmem r hr
    case inr hmem => exact hs.carries.trusts (h.values v hmem r hr)
  codes kept hmem := by
    cases List.mem_append.mp hmem
    case inl hmem => exact hc kept hmem
    case inr hmem => exact (h.codes kept hmem).imp fun _ => hs.carries.fair

theorem Trusty.step (h : i.Trusty) (hs : i.Step op j) : i.session.Sustains j.session ∧ j.Trusty := by
  have goOn {s : Session} {values : List Value} {codes : List Kept} (hs : i.session.Sustains s)
      (hv : ∀ v ∈ values, ∀ r, v = some r → s.Trusts (.cell r))
      (hc : ∀ kept ∈ codes, kept.code.All s.Fair) :
      i.session.Sustains (i.goOn s values codes).session ∧ (i.goOn s values codes).Trusty :=
    ⟨hs, h.goOn hs hv hc⟩
  have compiling {value : Nat} {expr : Value} (hv : i.values[value]? = some expr) (required : Rep) :=
    h.sustains.compile required (h.values expr (List.mem_of_getElem? hv))
  have running {kept : Kept} {code : Nat} (hk : i.codes[code]? = some kept) (link : Link) (fuel : Nat) :
      Along Sustains (CellLisp.run link fuel kept.code) i.session (Kind.Holds Trusted) :=
    (trusting link).run_along (h.config (List.mem_of_getElem? hk))
  cases hs
  case works hw hv =>
    have hvalues := hv _ (quality_trustedIn i.session.toCompiler) fun e r he =>
      ⟨r, rfl, h.orderly.bindings e r he⟩
    exact goOn (h.sustains.of_works hw)
      (fun v hmem r hr => (hw.trusted (hvalues v hmem r hr)).of_some r rfl) (List.forall_mem_nil _)
  case compiles hv hc =>
    have ⟨hs, hfair⟩ := (compiling hv _).of_ok hc
    exact goOn hs (List.forall_mem_nil _) (List.forall_mem_singleton.mpr hfair)
  case rejects hv hc =>
    exact goOn ((compiling hv _).of_error hc) (List.forall_mem_nil _) (List.forall_mem_nil _)
  case returns hk hr =>
    have ⟨hs, hv⟩ := (running hk _ _).of_ok hr
    refine goOn hs (fun v hmem r hvr => ?_) (List.forall_mem_nil _)
    exact (hvr ▸ Kind.values_hold hv v hmem : Trusted (some r) _).of_some r rfl
  case stops hk hr =>
    exact goOn ((running hk _ _).of_error hr) (List.forall_mem_nil _) (List.forall_mem_nil _)

end Image

namespace Compiler

-- No cell of a fresh session refers to another.
theorem fresh_refers : ∀ r x, fresh.heap.get? r = some x → x.refers = [] := by
  refine fresh_induction (P := fun c => ∀ r x, c.heap.get? r = some x → x.refers = []) ?_ ?_
  case refine_1 =>
    intro r x hx
    simp [Heap.eq_nil_of_fresh hx, Cell.refers]
  case refine_2 =>
    intro memory op h r x hx
    have hx : (memory.1.alloc (.ofBuiltin op)).2.get? r = some x := hx
    rw [Heap.get?_alloc] at hx
    split at hx
    case isTrue  => simp [← Option.some.inj hx, Cell.ofBuiltin, Cell.refers]
    case isFalse => exact h r x hx

theorem fresh_orderly : fresh.Orderly := by
  have trusts {r : Ref} (hr : r < fresh.heap.size) : fresh.Trusts (.cell r) := by
    have ⟨x, hx⟩ : ∃ x, fresh.heap.get? r = some x := ⟨_, Array.getElem?_eq_getElem hr⟩
    exact trusts_of_cell hx (by simp [fresh_refers r x hx])
  have hs := fresh_sound
  exact {
    sound    := hs
    shared   := trusts hs.shared
    bindings := fun e r he => trusts (hs.bindings e r he)
    pending  := by simp [fresh_eq_bare, bare]
    nesting  := by simp [fresh_eq_bare, bare, Nesting.empty] }

end Compiler

namespace Image

variable {i : Image} {ops : List Operation} {link : Link} {c : Config}

theorem Reachable.trusty (h : i.Reachable) : i.Trusty := by
  induction h
  case fresh device =>
    have hi := (Reachable.fresh device).ready.idle
    exact ⟨hi, Compiler.fresh_orderly, List.forall_mem_nil _, List.forall_mem_nil _⟩
  case perform op _ hi => exact (hi.step (step_perform _ op)).2

theorem Reachable.sustains (h : i.Reachable) (ops : List Operation) :
    i.session.Sustains (i.performAll ops).session := by
  induction ops generalizing i
  case nil          => exact h.trusty.sustains
  case cons op _ hi => exact (h.trusty.step (i.step_perform op)).1.trans (hi (.perform op h))

-- Wherever control passes to, the code may be run.
theorem Reachable.passes (h : i.Reachable) (hc : i.Passes ops link c) :
    c.Trusted ∧ i.session.Sustains c.session := by
  obtain ⟨before, _, _, _, kept, _, hk, hv⟩ := hc
  have ht := (h.performAll before).trusty.config (List.mem_of_getElem? hk)
  have ⟨hc, hs⟩ := (trusting link).visits ht hv
  exact ⟨hc, (h.sustains before).trans hs⟩

theorem Reachable.returns {v : c.kind.Result} {t : Session} (h : i.Reachable)
    (hc : i.Passes ops link c) (hv : Returns link c.code c.session v t) :
    c.session.Sustains t ∧ Kind.Holds Trusted v t :=
  (trusting link).returns (h.passes hc).1 hv

end Image
end CellLisp
