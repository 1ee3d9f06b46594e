import CellLisp.Proofs.Fuel

namespace CellLisp

variable {link : Link}

namespace RunM

variable {α β : Type} {m : RunM α} {g : α → RunM β} {s t : Session} {P Q : Fault → Prop}

-- If the computation stops with a fault, it is one of these.
def FaultsOnly (m : RunM α) (s : Session) (P : Fault → Prop) : Prop :=
  ∀ f t, m s = .error (.fault f) t → P f

namespace FaultsOnly

theorem imp (h : FaultsOnly m s P) (hpq : ∀ f, P f → Q f) : FaultsOnly m s Q :=
  fun f t hm => hpq f (h f t hm)

theorem of_ok {a : α} (h : m s = .ok a t) : FaultsOnly m s P := by
  intro f u hm
  cases h.symm.trans hm

theorem outOfFuel : FaultsOnly (throw .outOfFuel : RunM α) s P := by
  intro f t hm
  cases hm

theorem fault (f : Fault) : FaultsOnly (throw (.fault f) : RunM α) s (· = f) := by
  intro g t hm
  cases hm
  rfl

theorem bind (h : FaultsOnly m s P) (hg : ∀ a t, m s = .ok a t → FaultsOnly (g a) t P) :
    FaultsOnly (m >>= g) s P := by
  intro f t hm
  cases hs : m s <;> simp only [Bind.bind, EStateM.bind, hs] at hm
  case ok a u    => exact hg a u hs f t hm
  case error e u =>
    cases hm
    exact h f t hs

theorem get_bind {g : Session → RunM α} (h : FaultsOnly (g s) s P) : FaultsOnly (get >>= g) s P :=
  h

theorem heap_bind {g : Heap → RunM α} (h : FaultsOnly (g s.heap) s P) : FaultsOnly (heap >>= g) s P :=
  h

end FaultsOnly

theorem faultsOnly_word (select : Cell → Int64) (v : Value) (s : Session) :
    FaultsOnly (word select v) s fun f => f = .strayRead ∧ s.heap.cell? v = none := by
  refine .heap_bind ?_
  split
  case h_1    => exact .of_ok rfl
  case h_2 hv => exact (FaultsOnly.fault _).imp fun _ hf => ⟨hf, hv⟩

theorem faultsOnly_getUnchecked (buffer : Value) (i : Int64) (s : Session) :
    FaultsOnly (getUnchecked buffer i) s fun f => f = .strayByte ∧ s.heap.byteAt buffer i = none := by
  refine .heap_bind ?_
  split
  case h_1    => exact .of_ok rfl
  case h_2 hb => exact (FaultsOnly.fault _).imp fun _ hf => ⟨hf, hb⟩

theorem faultsOnly_putUnchecked (buffer : Value) (i n : Int64) (s : Session) :
    FaultsOnly (putUnchecked buffer i n) s fun f => f = .strayByte ∧ s.heap.byteAt buffer i = none := by
  refine .heap_bind ?_
  split
  case h_1    => exact .of_ok rfl
  case h_2 hb => exact (FaultsOnly.fault _).imp fun _ hf => ⟨hf, hb⟩

theorem faultsOnly_draw (act : Device → Device) : FaultsOnly (draw link act) s P := by
  cases link <;> exact .of_ok rfl

theorem faultsOnly_load (path : Value) : FaultsOnly (load link path) s P := by
  refine .heap_bind ?_
  split
  case h_1 => exact .of_ok rfl
  case h_2 =>
    cases link
    case detached => exact .of_ok rfl
    case attached =>
      refine .get_bind ?_
      split <;> exact .of_ok rfl

theorem faultsOnly_save (buffer path : Value) : FaultsOnly (save link buffer path) s P := by
  refine .heap_bind ?_
  split
  case h_1 =>
    cases link
    case detached => exact .of_ok rfl
    case attached =>
      refine .get_bind ?_
      split <;> exact .of_ok rfl
  case h_2 => exact .of_ok rfl

theorem faultsOnly_list : FaultsOnly (list link) s P := by
  cases link
  case detached => exact .of_ok rfl
  case attached =>
    refine .get_bind ?_
    split <;> exact .of_ok rfl

theorem faultsOnly_assign (e : EntryId) (word : Int64) (s : Session) :
    FaultsOnly (assign e word) s fun f => f = .strayWrite ∧
      (s.env.binding e = none ∨ ∃ r, s.env.binding e = some r ∧ s.heap.get? r = none) := by
  intro f t h
  rw [assign_eq] at h
  cases hb : s.env.binding e <;> simp only [hb] at h
  case none =>
    cases h
    exact ⟨rfl, .inl rfl⟩
  case some r =>
    split at h <;> cases h
    exact ⟨rfl, .inr ⟨r, rfl, ‹_›⟩⟩

end RunM

open RunM (FaultsOnly)

-- What a primitive looks for is not there.
inductive Primitive.Misses : {ks : List Kind} → {k : Kind} → Primitive ks k → Results ks → Heap → Fault → Prop
  | unbox {v h} : Heap.cell? h v = none → Misses .unbox (v, ()) h .strayRead
  | sizeUnchecked {v h} : Heap.cell? h v = none → Misses .sizeUnchecked (v, ()) h .strayRead
  | getUnchecked {v i h} : Heap.byteAt h v i = none → Misses .getUnchecked (v, i, ()) h .strayByte
  | putUnchecked {v i n h} : Heap.byteAt h v i = none → Misses .putUnchecked (v, i, n, ()) h .strayByte
  | lost {ks k h} {p : Primitive ks k} {vs : Results ks} : p.lost vs h → Misses p vs h .lostAddress

theorem Primitive.faultsOnly_act {ks : List Kind} {k : Kind} (p : Primitive ks k) (vs : Results ks)
    (s : Session) : FaultsOnly (p.act link vs) s (p.Misses vs s.heap) := by
  cases p
  case unbox =>
    exact (RunM.faultsOnly_word _ _ s).imp fun f ⟨hf, hv⟩ => hf ▸ .unbox hv
  case sizeUnchecked =>
    exact (RunM.faultsOnly_word _ _ s).imp fun f ⟨hf, hv⟩ => hf ▸ .sizeUnchecked hv
  case getUnchecked =>
    exact (RunM.faultsOnly_getUnchecked _ _ s).imp fun f ⟨hf, hb⟩ => hf ▸ .getUnchecked hb
  case putUnchecked =>
    exact (RunM.faultsOnly_putUnchecked _ _ _ s).imp fun f ⟨hf, hb⟩ => hf ▸ .putUnchecked hb
  case pixel    =>
    obtain ⟨x, y, c, _⟩ := vs
    exact RunM.faultsOnly_draw (·.pixel x y c)
  case fillRect =>
    obtain ⟨x, y, w, h, c, _⟩ := vs
    exact RunM.faultsOnly_draw (·.fillRect x y w h c)
  case flip     => exact RunM.faultsOnly_draw _
  case blit     =>
    refine .heap_bind ?_
    split
    case h_1 => exact RunM.faultsOnly_draw _
    case h_2 => exact .of_ok rfl
  case print    => cases link <;> exact .of_ok rfl
  case inkey    => cases link <;> exact .of_ok rfl
  case load     => exact RunM.faultsOnly_load _
  case save     => exact RunM.faultsOnly_save _ _
  case list     => exact RunM.faultsOnly_list
  all_goals exact .of_ok rfl

theorem Primitive.faultsOnly_run {ks : List Kind} {k : Kind} (p : Primitive ks k) (vs : Results ks)
    (s : Session) : FaultsOnly (p.run link vs) s (p.Misses vs s.heap) := by
  refine .heap_bind ?_
  split
  case isTrue h => exact (FaultsOnly.fault _).imp fun f hf => hf ▸ .lost h
  case isFalse  => exact p.faultsOnly_act vs s

-- An action that cannot be done, once its operands have returned.
inductive Faults (link : Link) : Config → Fault → Prop
  | assign {e value s n t u f} : Returns link value s n t → RunM.assign e n t = .error (.fault f) u →
    Faults link ⟨.assign e value, s⟩ f
  | call {callee s t f} : RunM.codeOf callee s = .error (.fault f) t → Faults link ⟨.call callee, s⟩ f
  | eval {expr s r t e c} : link = .attached → Returns link expr s (some r) t →
    compile (some r) .any t.toCompiler = .error e c → e.lossy → Faults link ⟨.eval expr, s⟩ .lostAddress
  | primitive {ks k s vs t f} {p : Primitive ks k} {operands : Operands ks} :
    operands.Return link s vs t → p.Misses vs t.heap f → Faults link ⟨.primitive p operands, s⟩ f

-- Control comes to such an action.
def Meets (link : Link) (c : Config) (f : Fault) : Prop :=
  ∃ d, Visits link c d ∧ Faults link d f

theorem Meets.here {c : Config} {f : Fault} (h : Faults link c f) : Meets link c f :=
  ⟨c, .refl, h⟩

theorem Meets.later {c d : Config} {f : Fault} (hd : Proceeds link c d) (h : Meets link d f) :
    Meets link c f :=
  have ⟨e, he, hf⟩ := h
  ⟨e, .head hd he, hf⟩

theorem Meets.part {c d : Config} {f : Fault} (hd : Enters link c d) (h : Meets link d f) :
    Meets link c f :=
  h.later (.enters hd)

-- What is shown of the faults of a run by induction on its fuel.
structure MeetsFaults (link : Link) (fuel : Nat) : Prop where
  run {k : Kind} (code : Code k) (s : Session) :
    FaultsOnly (run link fuel code) s (Meets link ⟨code, s⟩)
  operands {ks : List Kind} (operands : Operands ks) (s : Session) :
    FaultsOnly (runOperands link fuel operands) s fun f => ∃ c, operands.Enters link s c ∧ Meets link c f
  iterate {k : Kind} (condition : Code .raw) (body : Code k) (last : k.Result) (s : Session) :
    FaultsOnly (iterate link fuel condition body last) s fun f =>
      ∃ c, Loop.Enters link condition body s c ∧ Meets link c f

namespace MeetsFaults

variable {fuel : Nat} {k : Kind} {s : Session} (h : MeetsFaults link fuel)

include h

theorem operands_succ {ks : List Kind} (operands : Operands ks) (s : Session) :
    FaultsOnly (runOperands link (fuel + 1) operands) s fun f =>
      ∃ c, operands.Enters link s c ∧ Meets link c f := by
  cases operands <;> rw [runOperands]
  case nil => exact .of_ok rfl
  case cons first rest =>
    refine ((h.run first s).imp fun f hf => ⟨_, .first, hf⟩).bind fun v t hv => ?_
    refine ((h.operands rest t).imp ?_).bind fun vs u _ => .of_ok rfl
    rintro f ⟨c, hc, hf⟩
    exact ⟨c, .rest ⟨fuel, hv⟩ hc, hf⟩

theorem iterate_succ (condition : Code .raw) (body : Code k) (last : k.Result) (s : Session) :
    FaultsOnly (CellLisp.iterate link (fuel + 1) condition body last) s fun f =>
      ∃ c, Loop.Enters link condition body s c ∧ Meets link c f := by
  rw [CellLisp.iterate]
  refine ((h.run condition s).imp fun f hf => ⟨_, .condition, hf⟩).bind fun n t hn => ?_
  split
  case isTrue     => exact .of_ok rfl
  case isFalse hz =>
    refine ((h.run body t).imp fun f hf => ⟨_, .body ⟨fuel, hn⟩ hz, hf⟩).bind fun v u hv => ?_
    refine (h.iterate condition body v u).imp ?_
    rintro f ⟨c, hc, hf⟩
    exact ⟨c, .next ⟨fuel, hn⟩ hz ⟨fuel, hv⟩ hc, hf⟩

theorem evaluate {expr : Code .cell} {v : Value} {t : Session} (hv : Returns link expr s v t) :
    FaultsOnly (RunM.evaluate link (CellLisp.run link fuel) v) t (Meets link ⟨.eval expr, s⟩) := by
  unfold RunM.evaluate
  split
  case h_1 => exact .of_ok rfl
  case h_2 => exact .of_ok rfl
  case h_3 r =>
    cases hc : compile (some r) .any t.toCompiler
    case ok code c =>
      have hcompiling := RunM.compiling_of_ok hc
      refine (FaultsOnly.of_ok hcompiling).bind fun outcome u hu => ?_
      cases hcompiling.symm.trans hu
      refine ((h.run code _).imp fun f hf => ?_).bind fun w u _ => .of_ok rfl
      exact hf.later (.evaluates rfl hv hc)
    case error e c =>
      have hcompiling := RunM.compiling_of_error hc
      refine (FaultsOnly.of_ok hcompiling).bind fun outcome u hu => ?_
      cases hcompiling.symm.trans hu
      simp only
      split
      case isTrue he => exact (FaultsOnly.fault _).imp fun f hf => hf ▸ .here (.eval rfl hv hc he)
      case isFalse   => exact .of_ok rfl

theorem run_succ (code : Code k) (s : Session) :
    FaultsOnly (CellLisp.run link (fuel + 1) code) s (Meets link ⟨code, s⟩) := by
  -- A fault in a part is a fault that the whole meets.
  have part {j : Kind} {d : Code j} {t : Session} (hd : Enters link ⟨code, s⟩ ⟨d, t⟩) :
      FaultsOnly (CellLisp.run link fuel d) t (Meets link ⟨code, s⟩) :=
    (h.run d t).imp fun f hf => hf.part hd
  cases code <;> rw [CellLisp.run]
  case const    => exact .of_ok rfl
  case literal  => exact .of_ok rfl
  case load     => exact .of_ok rfl
  case store    => exact (part .store).bind fun v t _ => .of_ok rfl
  case assign   =>
    exact (part .assign).bind fun n t hn f u hf => .here (.assign ⟨fuel, hn⟩ hf)
  case discard  => exact (part .discard).bind fun v t _ => .of_ok rfl
  case sequence => exact (part .first).bind fun _ t hv => part (.last ⟨fuel, hv⟩)
  case branch   =>
    refine (part .condition).bind fun n t hn => ?_
    split
    case isTrue hz  => exact part (.no ⟨fuel, hz ▸ hn⟩)
    case isFalse hz => exact part (.yes ⟨fuel, hn⟩ hz)
  case loop     =>
    refine (part .initial).bind fun v t hv => ?_
    refine (h.iterate _ _ v t).imp ?_
    rintro f ⟨c, hc, hf⟩
    exact hf.part (.round ⟨fuel, hv⟩ hc)
  case call callee =>
    have hcall : FaultsOnly (RunM.codeOf callee) s (Meets link ⟨.call callee, s⟩) :=
      fun f t hf => .here (.call hf)
    exact hcall.bind fun code t hcode => part (.call hcode)
  case eval     => exact (part .expr).bind fun v t hv => h.evaluate ⟨fuel, hv⟩
  case primitive operands p =>
    have hoperands :
        FaultsOnly (runOperands link fuel operands) s (Meets link ⟨.primitive p operands, s⟩) := by
      refine (h.operands operands s).imp ?_
      rintro f ⟨c, hc, hf⟩
      exact hf.part (.operand hc)
    refine hoperands.bind fun vs t hvs => ?_
    exact (p.faultsOnly_run vs t).imp fun f hf => .here (.primitive ⟨fuel, hvs⟩ hf)

end MeetsFaults

theorem meetsFaults (link : Link) (fuel : Nat) : MeetsFaults link fuel := by
  induction fuel
  case zero    => exact ⟨fun _ _ => .outOfFuel, fun _ _ => .outOfFuel, fun _ _ _ _ => .outOfFuel⟩
  case succ hi => exact ⟨hi.run_succ, hi.operands_succ, hi.iterate_succ⟩

theorem meets_of_run_eq_fault {k : Kind} {code : Code k} {fuel : Nat} {s t : Session} {f : Fault}
    (h : run link fuel code s = .error (.fault f) t) : Meets link ⟨code, s⟩ f :=
  (meetsFaults link fuel).run code s f t h

section Fails

variable {k : Kind} {ks : List Kind} {s t u : Session} {f : Fault}

def Fails (link : Link) (code : Code k) (s : Session) (f : Fault) (t : Session) : Prop :=
  ∃ fuel, run link fuel code s = .error (.fault f) t

def Operands.Fail (link : Link) (operands : Operands ks) (s : Session) (f : Fault) (t : Session) : Prop :=
  ∃ fuel, runOperands link fuel operands s = .error (.fault f) t

theorem Operands.Fail.first {first : Code k} {rest : Operands ks} (h : Fails link first s f t) :
    (Operands.cons first rest).Fail link s f t := by
  obtain ⟨fuel, h⟩ := h
  exact ⟨fuel + 1, by rw [runOperands, bind_eq_of_error h]⟩

theorem Operands.Fail.rest {first : Code k} {rest : Operands ks} {v : k.Result}
    (hv : Returns link first s v t) (h : rest.Fail link t f u) :
    (Operands.cons first rest).Fail link s f u := by
  obtain ⟨fuel, hv⟩ := hv
  obtain ⟨fuel', h⟩ := h
  refine ⟨max fuel fuel' + 1, ?_⟩
  rw [runOperands, bind_eq_of_ok (run_mono hv (Nat.le_max_left _ _)),
    bind_eq_of_error (runOperands_mono_fault h (Nat.le_max_right _ _))]

namespace Fails

theorem discard {value : Code k} (h : Fails link value s f t) : Fails link (.discard value) s f t := by
  obtain ⟨fuel, h⟩ := h
  exact ⟨fuel + 1, by rw [run, bind_eq_of_error h]⟩

theorem first {first : Code .void} {last : Code k} (h : Fails link first s f t) :
    Fails link (.sequence first last) s f t := by
  obtain ⟨fuel, h⟩ := h
  exact ⟨fuel + 1, by rw [run, bind_eq_of_error h]⟩

theorem last {first : Code .void} {last : Code k} (hv : Returns link first s () t)
    (h : Fails link last t f u) : Fails link (.sequence first last) s f u := by
  obtain ⟨fuel, hv⟩ := hv
  obtain ⟨fuel', h⟩ := h
  refine ⟨max fuel fuel' + 1, ?_⟩
  rw [run, bind_eq_of_ok (run_mono hv (Nat.le_max_left _ _))]
  exact run_mono_fault h (Nat.le_max_right _ _)

theorem condition {condition : Code .raw} {yes no : Code k} (h : Fails link condition s f t) :
    Fails link (.branch condition yes no) s f t := by
  obtain ⟨fuel, h⟩ := h
  exact ⟨fuel + 1, by rw [run, bind_eq_of_error h]⟩

theorem arm {condition : Code .raw} {yes no : Code k} {n : Int64} (hn : Returns link condition s n t)
    (h : Fails link (if n = 0 then no else yes) t f u) : Fails link (.branch condition yes no) s f u := by
  obtain ⟨fuel, hn⟩ := hn
  obtain ⟨fuel', h⟩ := h
  have h := run_mono_fault h (Nat.le_max_right fuel fuel')
  refine ⟨max fuel fuel' + 1, ?_⟩
  rw [run, bind_eq_of_ok (run_mono hn (Nat.le_max_left _ _)), ← h]
  split <;> rfl

theorem operands {p : Primitive ks k} {operands : Operands ks} (h : operands.Fail link s f t) :
    Fails link (.primitive p operands) s f t := by
  obtain ⟨fuel, h⟩ := h
  exact ⟨fuel + 1, by rw [run, bind_eq_of_error h]⟩

theorem primitive {p : Primitive ks k} {operands : Operands ks} {vs : Results ks}
    (hv : operands.Return link s vs t) (h : p.run link vs t = .error (.fault f) u) :
    Fails link (.primitive p operands) s f u := by
  obtain ⟨fuel, hv⟩ := hv
  exact ⟨fuel + 1, by rw [run, bind_eq_of_ok hv, h]⟩

end Fails
end Fails
end CellLisp
