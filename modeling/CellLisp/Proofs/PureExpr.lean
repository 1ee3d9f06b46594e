import CellLisp.Proofs.Fault
import CellLisp.Proofs.IntCompilation
import CellLisp.Proofs.IntResult
import CellLisp.Proofs.Seeding

namespace CellLisp

open Compile

-- Operations that give a result and do nothing else.
def Builtin.isPure : Builtin → Bool
  | add | sub | mul | div | rem | lt | gt => true
  | branch | sequence                     => true
  | car | cdr | cons | get | size         => true
  | _                                     => false

namespace Compiler

mutual

-- A constant, a symbol that is bound, a quoted expression, or a pure operation on such expressions.
def isPure (c : Compiler) : Form → Bool
  | .absent           => false
  | .atom _ x         => x.symbol?.all fun name => (c.env.lookup name).isSome
  | .cons r head tail =>
    (c.operation? (.cons r head tail)).any fun op => op == .quote || op.isPure && c.arePure (tail ())

-- The elements of a list are pure.
def arePure (c : Compiler) : Form → Bool
  | .absent           => true
  | .atom _ _         => true
  | .cons _ head tail => (head ()).isAbsent || c.isPure (head ()) && c.arePure (tail ())

end

end Compiler

namespace Session

variable {s t u : Session}

-- Some cells have come into the heap, of which nothing is lost. All else is as it was.
structure Adds (s t : Session) : Prop where
  cells : ∀ r x, s.heap.get? r = some x → t.heap.get? r = some x
  whole : s.heap.Whole → t.heap.Whole
  rest  : t = { s with heap := t.heap }

theorem Adds.refl : s.Adds s :=
  ⟨fun _ _ h => h, id, rfl⟩

theorem Adds.trans (h : s.Adds t) (h' : t.Adds u) : s.Adds u where
  cells r x hx := h'.cells r x (h.cells r x hx)
  whole hw     := h'.whole (h.whole hw)
  rest         := by rw [h'.rest, h.rest]

theorem Adds.alloc (s : Session) {x : Cell} (hx : x.Whole) :
    s.Adds { s with heap := (s.heap.alloc x).2 } where
  cells _ _ hr := (Heap.get?_alloc_of_lt x (Heap.lt_size_of_get? hr)).trans hr
  whole hw     := hw.alloc hx
  rest         := rfl

theorem Adds.env (h : s.Adds t) : t.env = s.env := by
  rw [h.rest]

theorem Adds.sharesNil (h : s.Adds t) (hs : s.heap.SharesNil) : t.heap.SharesNil := by
  obtain ⟨x, hx, ht⟩ := hs
  exact ⟨x, h.cells _ x hx, ht⟩

end Session

-- An address is lost, and the code comes to it. Until then it has done nothing but add cells.
structure Code.Loses (link : Link) (s : Session) {k : Kind} (code : Code k) : Prop where
  heap : ¬ s.heap.Whole
  run  : ∃ t, Fails link code s .lostAddress t ∧ s.Adds t

theorem Code.Loses.imp {link : Link} {s t : Session} {j k : Kind} {part : Code j} {code : Code k}
    (h : part.Loses link t) (hs : s.Adds t)
    (hf : ∀ u, Fails link part t .lostAddress u → Fails link code s .lostAddress u) :
    code.Loses link s := by
  obtain ⟨hw, u, hu, ht⟩ := h
  exact ⟨fun hwhole => hw (hs.whole hwhole), u, hf u hu, hs.trans ht⟩

-- Wherever it is run after the session, code returns and does nothing but add cells, unless it comes to
-- an address that is lost.
def Code.Calm (s : Session) {k : Kind} (code : Code k) : Prop :=
  ∀ link t, s.Adds t → (∃ v u, Returns link code t v u ∧ t.Adds u) ∨ code.Loses link t

def Operands.Calm (s : Session) {ks : List Kind} (operands : Operands ks) : Prop :=
  ∀ link t, s.Adds t → (∃ vs u, operands.Return link t vs u ∧ t.Adds u) ∨
    ¬ t.heap.Whole ∧ ∃ u, operands.Fail link t .lostAddress u ∧ t.Adds u

def Primitive.Calm {ks : List Kind} {k : Kind} (p : Primitive ks k) : Prop :=
  ∀ link vs s, ∃ v t, p.act link vs s = .ok v t ∧ s.Adds t

-- Whether an address is lost does not depend on what is done with it.
theorem Primitive.Calm.cases {ks : List Kind} {k : Kind} {p : Primitive ks k} (hp : p.Calm) (link : Link)
    (vs : Results ks) (s : Session) :
    (∃ v t, p.run link vs s = .ok v t ∧ s.Adds t) ∨
      ¬ s.heap.Whole ∧ p.run link vs s = .error (.fault .lostAddress) s := by
  rw [run_eq]
  split
  case isFalse    => exact .inl (hp link vs s)
  case isTrue hl  =>
    refine .inr ⟨fun hw => ?_, rfl⟩
    simp [p.lost_eq_false hw vs] at hl

theorem Fails.unary {link : Link} {j k : Kind} {p : Primitive [j] k} {value : Code j} {s t : Session}
    {f : Fault} (h : Fails link value s f t) : Fails link (.unary p value) s f t :=
  .operands (.first h)

theorem Returns.unary {link : Link} {j k : Kind} {p : Primitive [j] k} {value : Code j} {s t u : Session}
    {v : j.Result} {w : k.Result} (h : Returns link value s v t) (hp : p.run link (v, ()) t = .ok w u) :
    Returns link (.unary p value) s w u :=
  .primitive (.cons h .nil) hp

namespace Code.Calm

variable {s : Session} {j k : Kind} {ks : List Kind}

theorem const (n : Int64) : (Code.const n).Calm s :=
  fun _ _ _ => .inl ⟨_, _, .const n, .refl⟩

theorem literal (r : Ref) : (Code.literal r).Calm s :=
  fun _ _ _ => .inl ⟨_, _, .literal r, .refl⟩

theorem load (e : EntryId) : (Code.load e).Calm s :=
  fun _ _ _ => .inl ⟨_, _, .load e, .refl⟩

theorem discard {value : Code k} (h : value.Calm s) : (Code.discard value).Calm s := by
  intro link t ht
  rcases h link t ht with ⟨v, u, hv, hu⟩ | hlost
  · exact .inl ⟨_, u, .discard hv, hu⟩
  · exact .inr (hlost.imp .refl fun _ => .discard)

theorem sequence {first : Code .void} {last : Code k} (h : first.Calm s) (h' : last.Calm s) :
    (Code.sequence first last).Calm s := by
  intro link t ht
  rcases h link t ht with ⟨v, u, hv, hu⟩ | hlost
  · rcases h' link u (ht.trans hu) with ⟨w, u', hw, hu'⟩ | hlost
    · exact .inl ⟨w, u', .sequence hv hw, hu.trans hu'⟩
    · exact .inr (hlost.imp hu fun _ => .last hv)
  · exact .inr (hlost.imp .refl fun _ => .first)

theorem branch {condition : Code .raw} {yes no : Code k} (h : condition.Calm s) (hy : yes.Calm s)
    (hn : no.Calm s) : (Code.branch condition yes no).Calm s := by
  intro link t ht
  rcases h link t ht with ⟨n, u, hv, hu⟩ | hlost
  · have harm : (if n = 0 then no else yes).Calm s := by
      split
      case isTrue  => exact hn
      case isFalse => exact hy
    rcases harm link u (ht.trans hu) with ⟨w, u', hw, hu'⟩ | hlost
    · exact .inl ⟨w, u', .branch hv hw, hu.trans hu'⟩
    · exact .inr (hlost.imp hu fun _ => .arm hv)
  · exact .inr (hlost.imp .refl fun _ => .condition)

theorem primitive {p : Primitive ks k} {operands : Operands ks} (hp : p.Calm) (h : operands.Calm s) :
    (Code.primitive p operands).Calm s := by
  intro link t ht
  rcases h link t ht with ⟨vs, u, hvs, hu⟩ | ⟨hw, u, hf, hu⟩
  · rcases hp.cases link vs u with ⟨v, u', hv, hu'⟩ | ⟨hw, hf⟩
    · exact .inl ⟨v, u', .primitive hvs hv, hu.trans hu'⟩
    · exact .inr ⟨fun hwhole => hw (hu.whole hwhole), u, .primitive hvs hf, hu⟩
  · exact .inr ⟨hw, u, .operands hf, hu⟩

theorem unary {p : Primitive [j] k} {value : Code j} (hp : p.Calm) (h : value.Calm s) :
    (Code.unary p value).Calm s := by
  refine primitive hp (fun link t ht => ?_)
  rcases h link t ht with ⟨v, u, hv, hu⟩ | ⟨hw, u, hf, hu⟩
  · exact .inl ⟨_, u, .cons hv .nil, hu⟩
  · exact .inr ⟨hw, u, .first hf, hu⟩

end Code.Calm

namespace Primitive

theorem calm_box : Primitive.box.Calm :=
  fun _ ⟨_, _⟩ s => ⟨_, _, rfl, .alloc s trivial⟩

theorem calm_boxChecked : Primitive.boxChecked.Calm := by
  rintro link ⟨v, _⟩ s
  have hadds : s.Adds { s with heap := (s.heap.ensureInt v).2 } := by
    unfold Heap.ensureInt
    split
    case h_1 => exact .refl
    case h_2 => exact .alloc s trivial
  exact ⟨_, _, rfl, hadds⟩

theorem calm_unboxChecked : Primitive.unboxChecked.Calm :=
  fun _ _ _ => ⟨_, _, rfl, .refl⟩

end Primitive

-- The one coercion that does not look at what it is given.
def Coercion.trusts {j k : Kind} : Coercion j k → Bool
  | unbox => true
  | _     => false

theorem Coercion.calm {s : Session} {j k : Kind} {coercion : Coercion j k} {value : Code j}
    (hc : coercion.trusts = false) (h : value.Calm s) : (coercion.apply value).Calm s := by
  cases coercion
  case keep         => exact h
  case unbox        => cases hc
  case unboxChecked => exact h.unary Primitive.calm_unboxChecked
  case box          => exact h.unary Primitive.calm_box
  case boxChecked   => exact h.unary Primitive.calm_boxChecked
  case discard      => exact h.discard

-- Three pieces of code give the same number, each in its own way, and do nothing but add cells.
structure Code.AgreesOn (n : Int64) (link : Link) (s : Session) (raw : Code .raw) (int any : Code .cell) :
    Prop where
  raw : ∃ t, Returns link raw s n t ∧ s.Adds t
  int : ∃ r t, Returns link int s (some r) t ∧ s.Adds t ∧ t.heap.get? r = some (.int n)
  any : ∃ r t, Returns link any s (some r) t ∧ s.Adds t ∧ t.heap.unbox (some r) = n

-- All of them come to an address that is lost.
structure Code.AllLose (link : Link) (s : Session) (raw : Code .raw) (int any : Code .cell) : Prop where
  raw : raw.Loses link s
  int : int.Loses link s
  any : any.Loses link s

def Code.Agree (s : Session) (raw : Code .raw) (int any : Code .cell) : Prop :=
  ∀ link t, s.Adds t → (∃ n, Code.AgreesOn n link t raw int any) ∨ Code.AllLose link t raw int any

theorem Heap.unbox_of_int {heap : Heap} {r : Ref} {n : Int64} (h : heap.get? r = some (.int n)) :
    heap.unbox (some r) = n := by
  have hcell : heap.cell? (some r) = some (.int n) := h
  simp [unbox, intOf, hcell, Cell.int?]

theorem Heap.SharesNil.unbox {heap : Heap} (h : heap.SharesNil) : heap.unbox (some nilRef) = 0 := by
  obtain ⟨x, hx, ht⟩ := h
  have hcell : heap.cell? (some nilRef) = some x := hx
  cases x
  case nil         => simp [Heap.unbox, intOf, hcell, Cell.int?]
  case spoilt rest => cases rest <;> cases ht
  all_goals cases ht

theorem Heap.get?_ensureInt (heap : Heap) (v : Value) :
    ∃ r, (heap.ensureInt v).1 = some r ∧ (heap.ensureInt v).2.get? r = some (.int (heap.unbox v)) := by
  unfold ensureInt
  split
  case h_1 n hn =>
    obtain ⟨x, hx, hint⟩ := Option.bind_eq_some_iff.mp hn
    obtain ⟨r, rfl, hx⟩ := Option.bind_eq_some_iff.mp hx
    cases x <;> cases hint
    exact ⟨r, rfl, by rw [unbox, hn]; exact hx⟩
  case h_2 hn => exact ⟨_, rfl, by rw [unbox, hn]; exact heap.get?_alloc_self _⟩

namespace Code

variable {s : Session} {raw raw' : Code .raw} {int int' any any' : Code .cell}

-- The three pieces of code are what is left to do after a common beginning.
theorem AgreesOn.after {n : Int64} {link : Link} {t : Session} (h : AgreesOn n link t raw int any)
    (hs : s.Adds t) (hr : ∀ v u, Returns link raw t v u → Returns link raw' s v u)
    (hi : ∀ v u, Returns link int t v u → Returns link int' s v u)
    (ha : ∀ v u, Returns link any t v u → Returns link any' s v u) :
    AgreesOn n link s raw' int' any' where
  raw := by
    obtain ⟨u, hu, ht⟩ := h.raw
    exact ⟨u, hr _ _ hu, hs.trans ht⟩
  int := by
    obtain ⟨r, u, hu, ht, hn⟩ := h.int
    exact ⟨r, u, hi _ _ hu, hs.trans ht, hn⟩
  any := by
    obtain ⟨r, u, hu, ht, hn⟩ := h.any
    exact ⟨r, u, ha _ _ hu, hs.trans ht, hn⟩

theorem AllLose.after {link : Link} {t : Session} (h : AllLose link t raw int any) (hs : s.Adds t)
    (hr : ∀ u, Fails link raw t .lostAddress u → Fails link raw' s .lostAddress u)
    (hi : ∀ u, Fails link int t .lostAddress u → Fails link int' s .lostAddress u)
    (ha : ∀ u, Fails link any t .lostAddress u → Fails link any' s .lostAddress u) :
    AllLose link s raw' int' any' :=
  ⟨h.raw.imp hs hr, h.int.imp hs hi, h.any.imp hs ha⟩

namespace Agree

theorem sequence {first : Code .void} (hf : first.Calm s) (h : Agree s raw int any) :
    Agree s (.sequence first raw) (.sequence first int) (.sequence first any) := by
  intro link t ht
  rcases hf link t ht with ⟨_, u, hv, hu⟩ | hlost
  · rcases h link u (ht.trans hu) with ⟨n, hn⟩ | hlose
    · exact .inl ⟨n, hn.after hu (fun _ _ => .sequence hv) (fun _ _ => .sequence hv) (fun _ _ => .sequence hv)⟩
    · exact .inr (hlose.after hu (fun _ => .last hv) (fun _ => .last hv) (fun _ => .last hv))
  · have lose {k : Kind} (last : Code k) : (Code.sequence first last).Loses link t :=
      hlost.imp .refl fun _ => .first
    exact .inr ⟨lose raw, lose int, lose any⟩

theorem branch {condition : Code .raw} (hc : condition.Calm s) (h : Agree s raw int any)
    (h' : Agree s raw' int' any') :
    Agree s (.branch condition raw raw') (.branch condition int int') (.branch condition any any') := by
  intro link t ht
  rcases hc link t ht with ⟨m, u, hm, hu⟩ | hlost
  · have harm : Agree s (if m = 0 then raw' else raw) (if m = 0 then int' else int)
        (if m = 0 then any' else any) := by
      split
      case isTrue  => exact h'
      case isFalse => exact h
    rcases harm link u (ht.trans hu) with ⟨n, hn⟩ | hlose
    · exact .inl ⟨n, hn.after hu (fun _ _ => .branch hm) (fun _ _ => .branch hm) (fun _ _ => .branch hm)⟩
    · exact .inr (hlose.after hu (fun _ => .arm hm) (fun _ => .arm hm) (fun _ => .arm hm))
  · have lose {k : Kind} (yes no : Code k) : (Code.branch condition yes no).Loses link t :=
      hlost.imp .refl fun _ => .condition
    exact .inr ⟨lose raw raw', lose int int', lose any any'⟩

-- A word is boxed where a cell is required.
theorem boxed (h : raw.Calm s) : Agree s raw (.unary .box raw) (.unary .box raw) := by
  intro link t ht
  rcases h link t ht with ⟨n, u, hn, hu⟩ | hlost
  · have hbox : Returns link (.unary .box raw) t (some u.heap.size)
        { u with heap := (u.heap.alloc (.int n)).2 } := hn.unary rfl
    have hcell := u.heap.get?_alloc_self (.int n)
    have hadds : t.Adds { u with heap := (u.heap.alloc (.int n)).2 } := hu.trans (.alloc u trivial)
    exact .inl ⟨n, ⟨u, hn, hu⟩, ⟨_, _, hbox, hadds, hcell⟩,
      ⟨_, _, hbox, hadds, Heap.unbox_of_int hcell⟩⟩
  · have hbox : (Code.unary .box raw).Loses link t := hlost.imp .refl fun _ => .unary
    exact .inr ⟨hlost, hbox, hbox⟩

-- Of a cell the number is taken out with a look at the tag, if it is not given as it is.
theorem checked (h : ∀ link t, s.Adds t →
      (∃ r u, Returns link any t (some r) u ∧ t.Adds u ∧ Returns link raw t (u.heap.unbox (some r)) u) ∨
        raw.Loses link t ∧ any.Loses link t) : Agree s raw (.unary .boxChecked any) any := by
  intro link t ht
  rcases h link t ht with ⟨r, u, hany, hu, hraw⟩ | ⟨hraw, hany⟩
  · obtain ⟨q, hq, hcell⟩ := u.heap.get?_ensureInt (some r)
    have hint : Returns link (.unary .boxChecked any) t (u.heap.ensureInt (some r)).1
        { u with heap := (u.heap.ensureInt (some r)).2 } := hany.unary rfl
    obtain ⟨w, u', hw, hadds⟩ := Primitive.calm_boxChecked link (some r, ()) u
    cases hw
    exact .inl ⟨_, ⟨u, hraw, hu⟩, ⟨q, _, hq ▸ hint, hu.trans hadds, hcell⟩, ⟨r, u, hany, hu, rfl⟩⟩
  · exact .inr ⟨hraw, hany.imp .refl fun _ => .unary, hany⟩

-- An integer cell that was there before.
theorem cell {r : Ref} {n : Int64} (hr : s.heap.get? r = some (.int n))
    (hraw : ∀ link t, s.Adds t → Returns link raw t n t)
    (hany : ∀ link t, s.Adds t → Returns link any t (some r) t) : Agree s raw any any := by
  intro link t ht
  have hcell := ht.cells r _ hr
  have hreturns := hany link t ht
  exact .inl ⟨n, ⟨t, hraw link t ht, .refl⟩, ⟨r, t, hreturns, .refl, hcell⟩,
    ⟨r, t, hreturns, .refl, Heap.unbox_of_int hcell⟩⟩

theorem emptyValue (hs : s.heap.SharesNil) :
    Agree s (emptyValue .pureInt) (Compile.emptyValue .int) (Compile.emptyValue .any) := by
  intro link t ht
  have hbox : Returns link (.unary .box (.const 0)) t (some t.heap.size)
      { t with heap := (t.heap.alloc (.int 0)).2 } := (Returns.const 0).unary rfl
  have hunbox := (ht.sharesNil hs).unbox
  exact .inl ⟨0, ⟨t, .const 0, .refl⟩, ⟨_, _, hbox, .alloc t trivial, t.heap.get?_alloc_self _⟩,
    ⟨Heap.nilRef, t, .literal _, .refl, hunbox⟩⟩

end Agree
end Code

-- What compiling does that changes no state, whatever is required: code that is calm, and if there is
-- code for a word there is code for a cell that agrees with it.
structure Settled (s : Session) (m : (required : Rep) → CompileM (Code required.kind)) : Prop where
  calm  : ∀ required code c, m required s.toCompiler = .ok code c → s.toCompiler = c ∧ code.Calm s
  agree : ∀ code c, m .pureInt s.toCompiler = .ok code c → ∃ int any,
    m .int s.toCompiler = .ok int s.toCompiler ∧ m .any s.toCompiler = .ok any s.toCompiler ∧
      Code.Agree s code int any

theorem Settled.congr {s : Session} {m m' : (required : Rep) → CompileM (Code required.kind)}
    (h : Settled s m) (heq : ∀ required, m' required s.toCompiler = m required s.toCompiler) :
    Settled s m' where
  calm required code c hm := h.calm required code c (heq required ▸ hm)
  agree code c hm := by
    obtain ⟨int, any, hint, hany, hagree⟩ := h.agree code c (heq .pureInt ▸ hm)
    exact ⟨int, any, (heq .int).trans hint, (heq .any).trans hany, hagree⟩

namespace Compile

variable {s : Session} {c d : Compiler} {required : Rep} {f : Form}

theorem coerce_ok {expr : Form} {shape : Shape} {value : Code shape.kind} {code : Code required.kind}
    (h : coerce expr shape value required c = .ok code d) :
    c = d ∧ ∃ coercion, plan shape required = some coercion ∧ code = coercion.apply value := by
  cases hp : plan shape required
  case none          => exact absurd hp (plan_of_coerce_ok h)
  case some coercion =>
    simp only [coerce, hp] at h
    cases h
    exact ⟨rfl, coercion, rfl, rfl⟩

section Application

variable {whole : Form} {op : Builtin} {fs : List Form}

variable (hf : ∀ g ∈ fs, Settled s g.code)

include hf

end Application
end Compile

theorem compile_eq_ok {s : Session} {expr : Value} {required : Rep} {code : Code required.kind} (hi : s.Idle)
    (h : (s.heap.form expr).code required s.toCompiler = .ok code s.toCompiler) :
    compile expr required s.toCompiler = .ok code s.toCompiler := by
  obtain ⟨⟨heap, env, codes, nesting, pending, seeded⟩, device, output, stdout⟩ := s
  cases hi.pending
  cases hi.seeded
  simp only [compile, h]

-- Nor does any of that happen where an address is lost and the runs come to it. All three do or none.
structure Session.Loses (s : Session) (expr : Value) (link : Link) (code : Code .raw) : Prop where
  raw : code.Loses link s
  int : ∃ code, compile expr .int s.toCompiler = .ok code s.toCompiler ∧ code.Loses link s
  any : ∃ code, compile expr .any s.toCompiler = .ok code s.toCompiler ∧ code.Loses link s

end CellLisp
