import CellLisp.Proofs.Persistence

namespace CellLisp

-- What a mention passes control or a cell on to. An entry passes on what it is bound to at the time.
def Mention.leads : Mention → List Referent
  | literal r                   => [.cell r]
  | call callee                 => [callee.refers]
  | load _ | store _ | assign _ => []

namespace Compiler

variable {b c d : Compiler} {m : Mention} {n : Referent} {L : Referent → Prop}

def Serves (c : Compiler) : Mention → Prop
  | .literal _ | .store _ => True
  | .load e | .assign e   => c.env.binding e ≠ none
  | .call (.code id)      => ∃ r, c.HasCode r id
  | .call (.lambda r)     => (∃ id, c.HasCode r id) ∨ c.nesting.contains r

-- Cells and bodies that are all served, and that lead to none but each other.
structure Accounts (c : Compiler) (L : Referent → Prop) : Prop where
  within : ∀ n, L n → n.Within c.extent
  cells  : ∀ r x, L (.cell r) → c.heap.get? r = some x → ∀ n ∈ x.refers, L n
  bodies : ∀ (id : CodeId) (code : Code .cell), L (.body id) → c.codes[id]? = some code →
    code.All fun m => c.Serves m ∧ ∀ n ∈ m.leads, L n

def Trusts (c : Compiler) (n : Referent) : Prop :=
  ∃ L, c.Accounts L ∧ L n

theorem accounts_trusts (c : Compiler) : c.Accounts c.Trusts where
  within := by
    intro n ⟨L, hL, hn⟩
    exact hL.within n hn
  cells := by
    intro r x ⟨L, hL, hr⟩ hx n hn
    exact ⟨L, hL, hL.cells r x hr hx n hn⟩
  bodies := by
    intro id code ⟨L, hL, hid⟩ hcode
    exact (hL.bodies id code hid hcode).imp fun m ⟨hm, hn⟩ => ⟨hm, fun n h => ⟨L, hL, hn n h⟩⟩

-- What has to be the same later for trust to last.
structure Carries (c d : Compiler) : Prop where
  extent : c.extent ≤ d.extent
  cells  : ∀ r x, c.heap.get? r = some x → ∃ y, d.heap.get? r = some y ∧ x.Becomes y
  codes  : c.codes.toList <+: d.codes.toList
  bound  : ∀ e, c.env.binding e ≠ none → d.env.binding e ≠ none
  opened : ∀ r, c.nesting.contains r → d.nesting.contains r

namespace Carries

theorem refl (c : Compiler) : c.Carries c where
  extent       := ⟨Nat.le_refl _, Nat.le_refl _, Nat.le_refl _⟩
  cells _ x hx := ⟨x, hx, .refl⟩
  codes        := List.prefix_refl _
  bound _      := id
  opened _     := id

theorem trans (h : b.Carries c) (h' : c.Carries d) : b.Carries d where
  extent := ⟨Nat.le_trans h.extent.cells h'.extent.cells,
    Nat.le_trans h.extent.entries h'.extent.entries, Nat.le_trans h.extent.bodies h'.extent.bodies⟩
  cells r x hx := by
    have ⟨y, hy, hxy⟩ := h.cells r x hx
    have ⟨z, hz, hyz⟩ := h'.cells r y hy
    exact ⟨z, hz, hxy.trans hyz⟩
  codes := h.codes.trans h'.codes
  bound e he := h'.bound e (h.bound e he)
  opened r hr := h'.opened r (h.opened r hr)

theorem hasCode (h : c.Carries d) {r : Ref} {id : CodeId} (hr : c.HasCode r id) : d.HasCode r id := by
  have ⟨x, hx, hid⟩ := Option.bind_eq_some_iff.mp hr
  have ⟨y, hy, hxy⟩ := h.cells r x hx
  exact Option.bind_eq_some_iff.mpr ⟨y, hy, hxy.code.trans hid⟩

theorem getElem?_codes (h : c.Carries d) {id : CodeId} (hid : id < c.codes.size) :
    d.codes[id]? = c.codes[id]? := by
  have ⟨new, hnew⟩ := h.codes
  rw [← Array.getElem?_toList, ← hnew, List.getElem?_append_left hid, Array.getElem?_toList]

theorem serves (h : c.Carries d) (hm : c.Serves m) : d.Serves m := by
  cases m
  case literal => trivial
  case store   => trivial
  case load    => exact h.bound _ hm
  case assign  => exact h.bound _ hm
  case call callee =>
    cases callee
    case code id =>
      have ⟨r, hr⟩ := hm
      exact ⟨r, h.hasCode hr⟩
    case lambda r =>
      cases hm
      case inl hm =>
        have ⟨id, hr⟩ := hm
        exact .inl ⟨id, h.hasCode hr⟩
      case inr hm => exact .inr (h.opened r hm)

theorem accounts (h : c.Carries d) (hL : c.Accounts L) : d.Accounts L where
  within n hn := (hL.within n hn).mono h.extent
  cells r y hr hy n hn := by
    have hlt : r < c.heap.size := hL.within _ hr
    have ⟨x, hx⟩ : ∃ x, c.heap.get? r = some x := ⟨_, Array.getElem?_eq_getElem hlt⟩
    have ⟨y', hy', hxy⟩ := h.cells r x hx
    cases hy.symm.trans hy'
    exact hL.cells r x hr hx n (hxy.refers hn)
  bodies id code hid hcode := by
    rw [h.getElem?_codes (hL.within _ hid)] at hcode
    exact (hL.bodies id code hid hcode).imp fun m ⟨hm, hn⟩ => ⟨h.serves hm, hn⟩

theorem trusts (h : c.Carries d) (hn : c.Trusts n) : d.Trusts n :=
  have ⟨L, hL, hn⟩ := hn
  ⟨L, h.accounts hL, hn⟩

end Carries

theorem Grows.carries (h : c.Grows d) : c.Carries d where
  extent      := h.extent_le
  cells r x hx := ⟨x, (h.cells r (Heap.lt_size_of_get? hx)).trans hx, .refl⟩
  codes       := h.codes
  bound e he  := by rwa [h.bindings e (.inr he)]
  opened r hr := by rwa [h.nesting]

-- A cell that refers to trusted cells alone is trusted.
theorem trusts_of_cell {r : Ref} {x : Cell} (hx : c.heap.get? r = some x)
    (hn : ∀ n ∈ x.refers, ∃ s, n = .cell s ∧ c.Trusts n) : c.Trusts (.cell r) := by
  have h := c.accounts_trusts
  refine ⟨fun n => c.Trusts n ∨ n = .cell r, ⟨?_, ?_, ?_⟩, .inr rfl⟩
  case refine_1 =>
    intro n hn
    cases hn
    case inl hn => exact h.within n hn
    case inr hn => exact hn ▸ Heap.lt_size_of_get? hx
  case refine_2 =>
    intro s y hs hy n hmem
    cases hs
    case inl hs => exact .inl (h.cells s y hs hy n hmem)
    case inr hs =>
      cases hs
      cases hx.symm.trans hy
      have ⟨_, _, ht⟩ := hn n hmem
      exact .inl ht
  case refine_3 =>
    intro id code hid hcode
    have hid := hid.resolve_right (by simp)
    exact (h.bodies id code hid hcode).imp fun m ⟨hm, hleads⟩ => ⟨hm, fun n hn => .inl (hleads n hn)⟩

structure Orderly (c : Compiler) : Prop where
  sound    : c.Sound
  shared   : c.Trusts (.cell Heap.nilRef)
  bindings : ∀ e r, c.env.binding e = some r → c.Trusts (.cell r)
  pending  : ∀ p ∈ c.pending, c.Trusts (.cell p.2)
  nesting  : ∀ f ∈ c.nesting.stack, c.Trusts (.cell f.lambda)

structure Fair (c : Compiler) (m : Mention) : Prop where
  within : m.refers.Within c.extent
  serves : c.Serves m
  leads  : ∀ n ∈ m.leads, c.Trusts n

theorem Carries.fair (h : c.Carries d) (hm : c.Fair m) : d.Fair m where
  within    := hm.within.mono h.extent
  serves    := h.serves hm.serves
  leads n hn := h.trusts (hm.leads n hn)

-- Trust lasts, so that only what is new has to be looked at.
theorem Orderly.carries (h : c.Orderly) (hd : c.Carries d) (hs : d.Sound)
    (hb : ∀ e r, d.env.binding e = some r → c.env.binding e = some r ∨ c.Trusts (.cell r))
    (hp : ∀ p ∈ d.pending, p ∈ c.pending ∨ c.Trusts (.cell p.2))
    (hn : ∀ f ∈ d.nesting.stack, f ∈ c.nesting.stack ∨ c.Trusts (.cell f.lambda)) : d.Orderly where
  sound         := hs
  shared        := hd.trusts h.shared
  bindings e r he := hd.trusts ((hb e r he).elim (h.bindings e r) id)
  pending p hm  := hd.trusts ((hp p hm).elim (h.pending p) id)
  nesting f hm  := hd.trusts ((hn f hm).elim (h.nesting f) id)

section Closed

variable {f : OpenFunction} {stack : List OpenFunction} {params : Value} {body : Code .cell}
  (hs : d.nesting.stack = f :: stack) (hl : d.heap.get? f.lambda = some (.lambda params none))

include hs hl

-- The function that was open is finished, the others still are what they were.
theorem serves_closed (hm : d.Serves m) : (d.closed f.lambda params body).Serves m := by
  have hlt := Heap.lt_size_of_get? hl
  have finished {r : Ref} {id : CodeId} (hr : d.HasCode r id) :
      (d.closed f.lambda params body).HasCode r id := by
    have hne : r ≠ f.lambda := by
      rintro rfl
      simp [HasCode, hl, Cell.code?] at hr
    rwa [HasCode, closed, Heap.get?_set_of_ne _ hne]
  cases m
  case literal => trivial
  case store   => trivial
  case load    => exact hm
  case assign  => exact hm
  case call callee =>
    cases callee
    case code id =>
      obtain ⟨r, hr⟩ := hm
      exact ⟨r, finished hr⟩
    case lambda r =>
      cases hm
      case inl hm =>
        obtain ⟨id, hr⟩ := hm
        exact .inl ⟨id, finished hr⟩
      case inr hm =>
        obtain ⟨g, hg, hr⟩ := Nesting.contains_iff.mp hm
        rw [hs] at hg
        cases hg
        case head =>
          refine .inl ⟨d.codes.size, ?_⟩
          rw [HasCode, ← hr, closed, Heap.get?_set_self _ hlt]
          rfl
        case tail hg =>
          have hg : g ∈ (d.closed f.lambda params body).nesting.stack := by simpa [closed, Nesting.pop, hs]
          exact .inr (Nesting.contains_iff.mpr ⟨g, hg, hr⟩)

-- Everything that was trusted, and the body that is new. The cell of the function leads to that body.
theorem accounts_closed (hb : body.All d.Fair) :
    (d.closed f.lambda params body).Accounts fun n => d.Trusts n ∨ n = .body d.codes.size := by
  have h := d.accounts_trusts
  have hx : d.extent ≤ (d.closed f.lambda params body).extent :=
    ⟨by simp [extent, closed], Nat.le_refl _, by simp [extent, closed]⟩
  constructor
  case within =>
    intro n hn
    cases hn
    case inl hn => exact (h.within n hn).mono hx
    case inr hn => simp [hn, closed]
  case cells =>
    intro r x hr hr' n hn
    have hr := hr.resolve_right (by simp)
    by_cases hrl : r = f.lambda
    case neg =>
      rw [closed, Heap.get?_set_of_ne _ hrl] at hr'
      exact .inl (h.cells r x hr hr' n hn)
    case pos =>
      subst hrl
      rw [closed, Heap.get?_set_self _ (Heap.lt_size_of_get? hl)] at hr'
      cases hr'
      simp only [Cell.refers, Option.toList_some, List.map_cons, List.map_nil, List.mem_append,
        List.mem_singleton] at hn
      exact hn.imp_left fun hn => h.cells _ _ hr hl n (by simpa [Cell.refers] using hn)
  case bodies =>
    intro id code hid hcode
    cases hid
    case inl hid =>
      have hlt : id < d.codes.size := h.within _ hid
      rw [closed, Array.getElem?_push, if_neg (Nat.ne_of_lt hlt)] at hcode
      exact (h.bodies id code hid hcode).imp fun m hm =>
        ⟨serves_closed hs hl hm.1, fun n hn => .inl (hm.2 n hn)⟩
    case inr hid =>
      cases hid
      rw [closed, Array.getElem?_push, if_pos rfl] at hcode
      cases hcode
      exact hb.imp fun m hm => ⟨serves_closed hs hl hm.serves, fun n hn => .inl (hm.leads n hn)⟩

theorem Orderly.closed (h : d.Orderly) (hb : body.All d.Fair) :
    (d.closed f.lambda params body).Orderly where
  sound           := (soundness.closes h.sound hs hl (hb.imp fun _ hm => hm.within)).1
  shared          := ⟨_, accounts_closed hs hl hb, .inl h.shared⟩
  bindings e r he := ⟨_, accounts_closed hs hl hb, .inl (h.bindings e r he)⟩
  pending p hp    := ⟨_, accounts_closed hs hl hb, .inl (h.pending p hp)⟩
  nesting g hg    := ⟨_, accounts_closed hs hl hb, .inl (h.nesting g (List.mem_of_mem_tail hg))⟩

end Closed

namespace Orderly

variable {r : Ref} {e : EntryId}

theorem alloc {x : Cell} (h : c.Orderly) (hx : ∀ n ∈ x.refers, ∃ s, n = .cell s ∧ c.Trusts (.cell s))
    (hwhole : x.Whole) : Orderly { c with heap := (c.heap.alloc x).2 } ∧
      Trusts { c with heap := (c.heap.alloc x).2 } (.cell c.heap.size) := by
  have hwithin : ∀ n ∈ x.refers, n.Within c.extent := fun n hn =>
    have ⟨_, hs, ht⟩ := hx n hn
    hs ▸ c.accounts_trusts.within _ ht
  have hg := Grows.alloc h.sound hwithin hwhole
  refine ⟨h.carries hg.carries hg.sound (fun _ _ => .inl) (fun _ => .inl) (fun _ => .inl), ?_⟩
  refine trusts_of_cell (Heap.get?_alloc_self c.heap x) fun n hn => ?_
  have ⟨s, hs, ht⟩ := hx n hn
  exact ⟨s, hs, hs ▸ hg.carries.trusts ht⟩

theorem intern (h : c.Orderly) (name : String) : Orderly { c with env := (c.env.intern name).2 } := by
  have hg := Grows.intern h.sound name
  refine h.carries hg.carries hg.sound (fun e r he => .inl ?_) (fun _ => .inl) (fun _ => .inl)
  rwa [← Env.binding_intern c.env name]

theorem seed (h : c.Orderly) (he : c.env.binding e = none) (hr : c.Trusts (.cell r)) :
    Orderly { c with env := c.env.bind e r, seeded := e :: c.seeded } := by
  have hg := Grows.seed h.sound he (c.accounts_trusts.within _ hr)
  refine h.carries hg.carries hg.sound (fun d q hd => ?_) (fun _ => .inl) (fun _ => .inl)
  cases Env.eq_or_binding_of_setBinding hd
  case inl heq => exact .inr (Option.some.inj heq.2 ▸ hr)
  case inr hd  => exact .inl hd

theorem bindPending (h : c.Orderly) (hr : c.Trusts (.cell r)) :
    Orderly { c with pending := (e, r) :: c.pending } := by
  have hg := Grows.bindPending (e := e) h.sound (c.accounts_trusts.within _ hr)
  refine h.carries hg.carries hg.sound (fun _ _ => .inl) (fun p hp => ?_) (fun _ => .inl)
  cases hp
  case head     => exact .inr hr
  case tail hp  => exact .inl hp

theorem opened {f : OpenFunction} {nesting : Nesting} (h : c.Orderly) (hf : c.Trusts (.cell f.lambda))
    (hs : nesting.stack = f :: c.nesting.stack) :
    Orderly { c with nesting } ∧ c.Carries { c with nesting } := by
  have hcarries : c.Carries { c with nesting } :=
    { Carries.refl c with
      opened := fun r hr => by
        have ⟨g, hg, hgr⟩ := Nesting.contains_iff.mp hr
        exact Nesting.contains_iff.mpr ⟨g, hs ▸ .tail _ hg, hgr⟩ }
  have hsound := (soundness.opens h.sound (c.accounts_trusts.within _ hf) hs).1
  refine ⟨h.carries hcarries hsound (fun _ _ => .inl) (fun _ => .inl) (fun g hg => ?_), hcarries⟩
  rw [hs] at hg
  cases hg
  case head     => exact .inr hf
  case tail hg  => exact .inl hg

end Orderly

def trust : Discipline where
  Stands   := Orderly
  Fine r c := c.Trusts (.cell r)
  Fair m c := c.Fair m
  sound h        := h.sound
  lt h           := (accounts_trusts _).within _ h
  within h       := h.within
  fine_mono h hd := hd.carries.trusts h
  fair_mono h hd := hd.carries.fair h
  shared h       := h.shared
  bindings h     := h.bindings _ _
  pending h      := h.pending _
  nesting h      := h.nesting _
  part _ hr hx   := (accounts_trusts _).cells _ _ hr hx _
  literal h      := ⟨(accounts_trusts _).within _ h, trivial, List.forall_mem_singleton.mpr h⟩
  bound h hb     :=
    have ⟨hload, hassign⟩ := soundness.bound h.sound hb
    ⟨⟨hload, hb, List.forall_mem_nil _⟩, ⟨hassign, hb, List.forall_mem_nil _⟩⟩
  store _ he     := ⟨he, trivial, List.forall_mem_nil _⟩
  embedded {r x _ _} h hr hx hc := by
    have hbody := (accounts_trusts _).cells _ _ hr hx _ (Cell.body_mem_refers.mpr hc)
    have hcode := Option.bind_eq_some_iff.mpr ⟨x, hx, hc⟩
    exact ⟨(accounts_trusts _).within _ hbody, ⟨r, hcode⟩, List.forall_mem_singleton.mpr hbody⟩
  forward {r c} h hn := by
    have ⟨f, hf, heq⟩ := Nesting.contains_iff.mp hn
    have hr : c.Trusts (.cell r) := heq ▸ h.nesting f hf
    exact ⟨(accounts_trusts _).within _ hr, .inr hn, List.forall_mem_singleton.mpr hr⟩
  alloc h         := h.alloc
  intern name h   := h.intern name
  seed h          := h.seed
  bindPending h   := h.bindPending
  opens h hf hs   :=
    have ⟨ho, hc⟩ := h.opened hf hs
    ⟨ho, fun _ => hc.trusts⟩
  closes h hs hl hb :=
    have hf := h.nesting _ (hs ▸ .head _)
    ⟨h.closed hs hl hb, _, accounts_closed hs hl hb, .inl hf⟩

theorem Extends.carries (h : c.Extends d) (hi : c.Idle) : c.Carries d where
  extent       := h.extent_le
  cells r x hx := ⟨x, (h.cells r (Heap.lt_size_of_get? hx)).trans hx, .refl⟩
  codes        := h.codes
  bound e he   := by rwa [h.bound e he]
  opened r hr  := by simp [hi.nesting, Nesting.contains, Nesting.empty] at hr

-- Nothing is open or pending any more, so that the bindings are all that has to be trusted.
theorem Orderly.extends (h : c.Orderly) (hd : c.Extends d) (hi : c.Idle)
    (hb : ∀ e r, d.env.binding e = some r → d.Trusts (.cell r)) : d.Orderly where
  sound    := hd.sound
  shared   := (hd.carries hi).trusts h.shared
  bindings := hb
  pending  := by simp [hd.idle.pending]
  nesting  := by simp [hd.idle.nesting, Nesting.empty]

end Compiler

-- Code that a compilation gives may be run. After one that fails, the bindings are those from before, and
-- what they are bound to is trusted as it was.
theorem compile_trusted {c : Compiler} {expr : Value} (required : Rep) (h : c.Orderly) (hi : c.Idle)
    (he : ∀ r, expr = some r → c.Trusts (.cell r)) :
    Ensures (compile expr required) c (fun code d => c.Carries d ∧ d.Orderly ∧ code.All d.Fair)
      (fun d => c.Carries d ∧ d.Orderly) := by
  have hextends := compile_extends expr required h.sound hi
  refine .intro (fun code d hc => ?_) (fun e d hc => ?_)
  case refine_1 =>
    have ⟨hd, _⟩ := hextends.of_ok hc
    have hcode := Compiler.trust.form_compiles expr required h fun r hr _ => he r hr
    cases hrun : (c.heap.form expr).code required c <;> simp only [compile, hrun, reduceCtorEq] at hc
    case ok _ d =>
      cases hc
      have ⟨hleads, hfair⟩ := Ensures.of_ok hcode hrun
      -- To forget what was pending and seeded takes no trust away.
      have hforget : d.Carries { d with pending := [], seeded := [] } := { Compiler.Carries.refl d with }
      have hb e r (hr : d.env.binding e = some r) := hforget.trusts (hleads.stands.bindings e r hr)
      exact ⟨hd.carries hi, h.extends hd hi hb, hfair.imp fun _ => hforget.fair⟩
  case refine_2 =>
    have ⟨hd, hsame⟩ := hextends.of_error hc
    have hb e r (hr : d.env.binding e = some r) :=
      (hd.carries hi).trusts (h.bindings e r (hsame e ▸ hr))
    exact ⟨hd.carries hi, h.extends hd hi hb⟩

end CellLisp
