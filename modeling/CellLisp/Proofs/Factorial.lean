import CellLisp.Proofs.Arity
import CellLisp.Proofs.Buffers
import CellLisp.Proofs.Reading
import CellLisp.Proofs.Tower
import Mathlib.Algebra.Ring.Nat
import Mathlib.Data.Nat.Factorial.Basic

namespace CellLisp

-- The word that the factorial of a number is; a negative number counts as zero.
def factorialWord (n : Int64) : Int64 :=
  Int64.ofNat n.toInt.toNat.factorial

theorem factorialWord_of_lt {n : Int64} (h : n < 2) : factorialWord n = 1 := by
  have h : n.toInt < 2 := Int64.lt_iff_toInt_lt.mp h
  have hn : n.toInt.toNat = 0 ∨ n.toInt.toNat = 1 := by omega
  rcases hn with hn | hn <;> simp [factorialWord, hn]

theorem toInt_pred {n : Int64} (h : 2 ≤ n.toInt) : (n - 1).toInt = n.toInt - 1 :=
  Int64.toInt_sub_of_le n 1 (by decide) (Int64.le_iff_toInt_le.mpr (show (1 : Int64).toInt ≤ _ by
    have hone : (1 : Int64).toInt = 1 := by decide
    omega))

theorem mul_factorialWord_pred {n : Int64} (h : 2 ≤ n.toInt) :
    n * factorialWord (n - 1) = factorialWord n := by
  obtain ⟨k, hk⟩ : ∃ k, n.toInt.toNat = k + 1 := ⟨n.toInt.toNat - 1, by omega⟩
  have hn : Int64.ofNat (k + 1) = n := by
    rw [← hk, Int64.toNat_toInt]
    exact Int64.ofNat_toNatClampNeg n (Int64.le_iff_toInt_le.mpr (show (0 : Int64).toInt ≤ _ by
      have hzero : (0 : Int64).toInt = 0 := by decide
      omega))
  have hpred : (n - 1).toInt.toNat = k := by
    rw [toInt_pred h]
    omega
  rw [factorialWord, factorialWord, hpred, hk, Nat.factorial_succ, Int64.ofNat_mul, hn]

theorem toInt_factorialWord (n : Int64) :
    (factorialWord n).toInt = if n.toInt < 2 then 1 else Int.bmod n.toInt.toNat.factorial (2 ^ 64) := by
  split
  case isTrue h =>
    rw [factorialWord_of_lt (Int64.lt_iff_toInt_lt.mpr h)]
    decide
  case isFalse => exact Int64.toInt_ofNat'

theorem min_one_of_lt {n : Int64} (h : n < 2) : min n 1 = n := by
  have h : n.toInt < 2 := Int64.lt_iff_toInt_lt.mp h
  exact if_pos (Int64.le_iff_toInt_le.mpr (show n.toInt ≤ 1 by omega))

theorem min_one_of_le {n : Int64} (h : 1 ≤ n.toInt) : min n 1 = 1 := by
  by_cases hle : n ≤ 1
  case pos =>
    have hle : n.toInt ≤ 1 := Int64.le_iff_toInt_le.mp hle
    have hn : n = 1 := Int64.toInt_inj.mp (show n.toInt = 1 by omega)
    rw [hn]
    decide
  case neg => exact if_neg hle

-- Passes `(- n 1)` on, in the binding of `n` itself.
def Code.countDown (n : EntryId) : Code .cell :=
  .store n (.unary .box (.primitive (.arithmetic .sub) (.cons (.read n) (.cons (.const 1) .nil))))

-- `(if (lt n 2) 1 (* n (fact (- n 1))))` in the body of the function that is called.
def Code.factorial (n : EntryId) (lambda one : Ref) : Code .cell :=
  .branch (.primitive (.arithmetic .lt) (.cons (.read n) (.cons (.const 2) .nil)))
    (.literal one)
    (.unary .box (.primitive (.arithmetic .mul) (.cons (.read n) (.cons
      (.unary .unboxChecked (.sequence (.discard (.countDown n)) (.call (.lambda lambda)))) .nil))))

theorem Returns.read_int {link : Link} {s : Session} {e : EntryId} {m : Int64}
    (h : s.heap.intOf (s.env.binding e) = some m) : Returns link (.read e) s m s := by
  obtain ⟨r, hr, hcell⟩ := Heap.intOf_eq_some_iff.mp h
  have hread : s.heap.cell? (s.env.binding e) = some (.int m) := by
    rw [hr]
    exact hcell
  exact .read hread

theorem Returns.factorial_of_lt {link : Link} {s : Session} {n : EntryId} {lambda one : Ref} {m : Int64}
    (hm : s.heap.intOf (s.env.binding n) = some m) (hlt : m < 2) :
    Returns link (.factorial n lambda one) s (some one) s := by
  refine .branch (.primitive (.cons (.read_int hm) (.cons (.const 2) .nil)) rfl) ?_
  have hflag : Arithmetic.lt.eval m 2 = 1 := by simp [Arithmetic.eval, flag, hlt]
  rw [hflag, if_neg (by decide)]
  exact .literal one

theorem Returns.factorial_of_not_lt {link : Link} {s s' t : Session} {n : EntryId} {lambda one : Ref}
    {m : Int64} {v v' : Value} (hm : s.heap.intOf (s.env.binding n) = some m) (hlt : ¬ m < 2)
    (hpass : Returns link (.countDown n) s v s')
    (hcall : Returns link (.call (.lambda lambda)) s' v' t) :
    Returns link (.factorial n lambda one) s (some t.heap.size)
      { t with heap := (t.heap.alloc (.int (m * t.heap.unbox v'))).2 } := by
  refine .branch (.primitive (.cons (.read_int hm) (.cons (.const 2) .nil)) rfl) ?_
  have hflag : Arithmetic.lt.eval m 2 = 0 := by simp [Arithmetic.eval, flag, hlt]
  rw [hflag, if_pos (by decide)]
  have hunboxed : Returns link
      (.unary .unboxChecked (.sequence (.discard (.countDown n)) (.call (.lambda lambda))))
      s (t.heap.unbox v') t :=
    .unary (.sequence (.discard hpass) hcall) rfl
  exact .unary (.primitive (.cons (.read_int hm) (.cons hunboxed .nil)) rfl) rfl

-- Where a session has the function and what belongs to it.
structure FactorialPlaces where
  fact   : EntryId
  n      : EntryId
  lambda : Ref
  params : Ref
  rest   : Ref
  param  : Ref
  body   : Ref
  one    : Ref
  id     : CodeId

-- A function with one parameter, `n`, that computes the factorial.
@[mk_iff]
structure Compiler.HoldsFactorial (c : Compiler) (places : FactorialPlaces) : Prop where
  fact   : c.env.entry? "fact" = some places.fact
  n      : c.env.entry? "n" = some places.n
  lambda : c.heap.get? places.lambda = some (.lambda (some places.params) (some places.id))
  params : c.heap.get? places.params = some (.cons (some places.param) (some places.rest))
  rest   : c.heap.get? places.rest = some (.cons (some places.body) none)
  param  : c.heap.get? places.param = some (.symbol "n")
  one    : c.heap.get? places.one = some (.int 1)
  code   : c.codes[places.id]? = some (.factorial places.n places.lambda places.one)

instance (c : Compiler) (places : FactorialPlaces) : Decidable (c.HoldsFactorial places) :=
  decidable_of_iff _ (c.holdsFactorial_iff places).symm

namespace Session

variable {s t u : Session} {places : FactorialPlaces}

-- The function is there between two evaluations, and `fact` is bound to it.
structure HasFactorial (s : Session) (places : FactorialPlaces) : Prop extends
    s.HoldsFactorial places where
  idle  : s.Idle
  sound : s.heap.Backward
  bound : s.env.binding places.fact = some places.lambda

-- Cells have come into the heap, and an entry may be bound to another one. All else is as it was.
structure KeepsBut (s : Session) (e : EntryId) (t : Session) : Prop where
  cells  : ∀ r x, s.heap.get? r = some x → t.heap.get? r = some x
  sound  : s.heap.Backward → t.heap.Backward
  names  : t.env.names = s.env.names
  others : ∀ d, d ≠ e → t.env.binding d = s.env.binding d
  rest   : t = { s with heap := t.heap, env := t.env }

-- In the end the entry is bound to an integer.
structure Leaves (s : Session) (e : EntryId) (m : Int64) (t : Session) : Prop extends s.KeepsBut e t where
  bound : t.heap.intOf (t.env.binding e) = some m

theorem KeepsBut.bind (s : Session) (e : EntryId) (v : Value) :
    s.KeepsBut e { s with env := s.env.setBinding e v } where
  cells _ _ h := h
  sound       := id
  names       := Env.names_setBinding _ _ _
  others _ hd := Env.binding_setBinding_of_ne _ hd
  rest        := rfl

theorem Leaves.refl {e : EntryId} {m : Int64} (h : s.heap.intOf (s.env.binding e) = some m) :
    s.Leaves e m s :=
  ⟨⟨fun _ _ h => h, id, rfl, fun _ _ => rfl, rfl⟩, h⟩

theorem Leaves.trans {e : EntryId} {m m' : Int64} (h : s.Leaves e m t) (h' : t.Leaves e m' u) :
    s.Leaves e m' u where
  cells r x hx := h'.cells r x (h.cells r x hx)
  sound hs     := h'.sound (h.sound hs)
  names        := h'.names.trans h.names
  others d hd  := (h'.others d hd).trans (h.others d hd)
  bound        := h'.bound
  rest         := by rw [h'.rest, h.rest]

theorem Leaves.box {e : EntryId} {m : Int64} (h : s.Leaves e m t) (n : Int64) :
    s.Leaves e m { t with heap := (t.heap.alloc (.int n)).2 } := by
  have hold (r : Ref) (x : Cell) (hr : t.heap.get? r = some x) : (t.heap.alloc (.int n)).2.get? r = some x :=
    (Heap.get?_alloc_of_lt _ (Heap.lt_size_of_get? hr)).trans hr
  obtain ⟨r, hr, hcell⟩ := Heap.intOf_eq_some_iff.mp h.bound
  exact
    { cells  := fun r x hr => hold r x (h.cells r x hr)
      sound  := fun hs => (h.sound hs).alloc (by simp [Cell.refers])
      names  := h.names
      others := h.others
      bound  := Heap.intOf_eq_some_iff.mpr ⟨r, hr, hold r _ hcell⟩
      rest   := by rw [h.rest] }

theorem Leaves.bind {e : EntryId} {m : Int64} {r : Ref} (he : e < s.env.size)
    (hr : s.heap.get? r = some (.int m)) : s.Leaves e m { s with env := s.env.setBinding e (some r) } where
  toKeepsBut := .bind s e (some r)
  bound    := by
    rw [Env.binding_setBinding _ he]
    exact Heap.intOf_eq_some_iff.mpr ⟨r, rfl, hr⟩

theorem KeepsBut.holdsFactorial {e : EntryId} (ht : s.KeepsBut e t) (h : s.HoldsFactorial places) :
    t.HoldsFactorial places := by
  have hentry (name : String) : t.env.entry? name = s.env.entry? name := by
    rw [Env.entry?_eq_names, Env.entry?_eq_names, ht.names]
  exact
    { fact   := (hentry _).trans h.fact
      n      := (hentry _).trans h.n
      lambda := ht.cells _ _ h.lambda
      params := ht.cells _ _ h.params
      rest   := ht.cells _ _ h.rest
      param  := ht.cells _ _ h.param
      one    := ht.cells _ _ h.one
      code   := by
        rw [ht.rest]
        exact h.code }

theorem HasFactorial.keepsBut (h : s.HasFactorial places) (ht : s.KeepsBut places.n t) :
    t.HasFactorial places where
  toHoldsFactorial := ht.holdsFactorial h.toHoldsFactorial
  idle := by
    rw [ht.rest]
    exact ⟨h.idle.nesting, h.idle.pending, h.idle.seeded⟩
  sound := ht.sound h.sound
  bound := by
    have hne : places.fact ≠ places.n := by
      intro heq
      exact absurd (Env.entry?_inj h.fact (heq ▸ h.n)) (by decide)
    rw [ht.others _ hne, h.bound]

variable {link : Link} {m : Int64}

theorem HasFactorial.call {callee : Callee} {v : Value} (h : s.HasFactorial places)
    (hc : callee = .code places.id ∨ callee = .lambda places.lambda)
    (hv : Returns link (.factorial places.n places.lambda places.one) s v t) :
    Returns link (.call callee) s v t := by
  obtain ⟨fuel, hv⟩ := hv
  have hcode : RunM.codeOf callee s = .ok (.factorial places.n places.lambda places.one) s := by
    rw [RunM.codeOf_eq]
    rcases hc with rfl | rfl <;> simp [Callee.body?, h.lambda, h.code, Cell.code?]
  refine ⟨fuel + 1, ?_⟩
  rw [CellLisp.run, bind_eq_of_ok hcode]
  exact hv

-- What is bound to the parameter while the function calls itself is one less.
theorem HasFactorial.returns_countDown (h : s.HasFactorial places)
    (hm : s.heap.intOf (s.env.binding places.n) = some m) :
    ∃ t, (∀ link, Returns link (.countDown places.n) s (some s.heap.size) t) ∧
      s.Leaves places.n (m - 1) t := by
  let boxed : Session := { s with heap := (s.heap.alloc (.int (m - 1))).2 }
  have hboxed : s.Leaves places.n m boxed := (Leaves.refl hm).box _
  have hpred (link : Link) : Returns link (.primitive (.arithmetic .sub)
      (.cons (.read places.n) (.cons (.const 1) .nil))) s (m - 1) s :=
    .primitive (.cons (.read_int hm) (.cons (.const 1) .nil)) rfl
  have hbox (link : Link) : Returns link (.unary .box _) s (some s.heap.size) boxed :=
    .unary (hpred link) rfl
  refine ⟨_, fun link => .store (hbox link), ?_⟩
  exact hboxed.trans (.bind (Env.lt_size_of_entry? h.n) (Heap.get?_alloc_self s.heap (.int (m - 1))))

theorem HasFactorial.returns_of_lt (h : s.HasFactorial places)
    (hm : s.heap.intOf (s.env.binding places.n) = some m) (hlt : m < 2) :
    ∃ v t, (∀ link, Returns link (.factorial places.n places.lambda places.one) s (some v) t) ∧
      t.heap.get? v = some (.int (factorialWord m)) ∧ s.Leaves places.n (min m 1) t := by
  refine ⟨places.one, s, fun _ => .factorial_of_lt hm hlt, ?_, ?_⟩
  · rw [factorialWord_of_lt hlt]
    exact h.one
  · rw [min_one_of_lt hlt]
    exact .refl hm

-- The induction is on how far the argument is above one. The argument is read before the function
-- calls itself and leaves the parameter bound to another number.
theorem HasFactorial.returns (h : s.HasFactorial places)
    (hm : s.heap.intOf (s.env.binding places.n) = some m) (k : Nat) (hk : m.toInt ≤ k + 1) :
    ∃ v t, (∀ link, Returns link (.factorial places.n places.lambda places.one) s (some v) t) ∧
      t.heap.get? v = some (.int (factorialWord m)) ∧ s.Leaves places.n (min m 1) t := by
  induction k generalizing s m
  case zero =>
    have hlt : m < 2 := Int64.lt_iff_toInt_lt.mpr (show m.toInt < 2 by omega)
    exact h.returns_of_lt hm hlt
  case succ k hi =>
    by_cases hlt : m < 2
    case pos => exact h.returns_of_lt hm hlt
    case neg =>
      have hge : 2 ≤ m.toInt := Int.not_lt.mp fun hm => hlt (Int64.lt_iff_toInt_lt.mpr hm)
      have hpred := toInt_pred hge
      obtain ⟨s', hpass, hs'⟩ := h.returns_countDown hm
      obtain ⟨v, t, hbody, hv, ht⟩ := hi (h.keepsBut hs'.toKeepsBut) hs'.bound (by omega)
      have hcall (link : Link) := (h.keepsBut hs'.toKeepsBut).call (.inr rfl) (hbody link)
      refine ⟨_, _, fun link => .factorial_of_not_lt hm hlt (hpass link) (hcall link), ?_, ?_⟩
      · rw [← mul_factorialWord_pred hge, ← Heap.unbox_of_int hv]
        exact Heap.get?_alloc_self t.heap _
      · have hone : min (m - 1) 1 = min m 1 :=
          (min_one_of_le (by omega)).trans (min_one_of_le (by omega)).symm
        rw [← hone]
        exact (hs'.trans ht).box _

end Session

-- `(fact n)`
def Datum.factorialOf (n : Int64) : Datum :=
  .list [.atom (.symbol "fact"), .atom (.int n)]

example : readText "(fact -5)" = ⟨[.factorialOf (-5)], none⟩ := by
  decide +kernel

theorem Heap.form_of_factorialOf {h : Heap} {expr : Value} {n : Int64}
    (he : h.datum expr = .factorialOf n) :
    ∃ q r, (h.form expr).head = .atom q (.symbol "fact") ∧ (h.form expr).args = [.atom r (.int n)] ∧
      h.get? r = some (.int n) := by
  have hshows : (h.form expr).Shows h := h.shows_formWithin _ expr
  obtain ⟨k, p, head, tail, hhead, htail, hf⟩ := form_of_cons he
  obtain ⟨q, x, hhead, hx⟩ := form_of_atom hhead (by simp)
  cases x <;> cases hx
  obtain ⟨j, p', arg, rest, harg, hrest, htail⟩ := form_of_cons htail
  obtain ⟨r, x, harg, hx⟩ := form_of_atom harg (by simp)
  cases x <;> cases hx
  have hf : h.form expr = .cons p (fun _ => h.formWithin k head) (fun _ => h.formWithin k tail) := hf
  rw [hf] at hshows ⊢
  refine ⟨q, r, hhead, ?_, ?_⟩
  · simp [Form.args, Form.tail, Form.elements, htail, harg, form_of_absent hrest, Form.isAbsent]
  · have hr := hshows.2
    rw [htail] at hr
    have hr := hr.1
    rw [harg] at hr
    exact hr

namespace Session

variable {s t : Session} {places : FactorialPlaces} {f : Form} {q r : Ref} {m : Int64}

theorem HasFactorial.parameters (h : s.HasFactorial places) :
    s.parameters places.lambda = [places.param] := by
  have helements : s.heap.elements (some places.params) = [places.param, places.body] := by
    have hstep := (h.sound.grounded).elements
    rw [hstep, Heap.stepWith, h.params, Option.elim_some, Cell.elementsWith, hstep, Heap.stepWith, h.rest,
      Option.elim_some, Cell.elementsWith, hstep, Heap.stepWith]
  have hlambda : s.heap.cell? (some places.lambda) = _ := h.lambda
  rw [Compiler.parameters, hlambda]
  exact congrArg List.dropLast helements

-- The call binds the parameter to the cell of its argument.
theorem HasFactorial.code_eq (h : s.HasFactorial places) (hhead : f.head = .atom q (.symbol "fact"))
    (hargs : f.args = [.atom r (.int m)]) (required : Rep) :
    f.code required s.toCompiler = Compile.coerce f .unknown
      (.sequence (.discard (.store places.n (.literal r))) (.call (.code places.id)))
      required s.toCompiler := by
  have hcalls : s.Calls f.head places.lambda s.toCompiler := by
    refine .bound ?_ h.lambda
    have hlookup : s.lookup "fact" = some places.lambda := by
      rw [h.idle.lookup, Env.lookup, h.fact]
      exact h.bound
    rw [hhead, Compiler.operator?, h.idle.nesting, hlookup]
    rfl
  rw [hcalls.code_eq, hargs]
  unfold Compile.call
  have harguments : Compile.arguments [places.param] [(Form.atom r (.int m)).part] s.toCompiler =
      .ok [.discard (.store places.n (.literal r))] s.toCompiler := by
    have hparam : CompileM.cell? (some places.param) s.toCompiler = .ok (some (.symbol "n")) s.toCompiler :=
      congrArg (EStateM.Result.ok · s.toCompiler) h.param
    unfold Compile.arguments
    rw [bind_eq_of_ok hparam]
    exact bind_eq_of_ok (Compile.intern_known h.n)
  have hcallee : Compile.callee f places.lambda s.toCompiler = .ok (.code places.id) s.toCompiler := by
    have hlambda : CompileM.cell? (some places.lambda) s.toCompiler = .ok (some _) s.toCompiler :=
      congrArg (EStateM.Result.ok · s.toCompiler) h.lambda
    unfold Compile.callee
    rw [bind_eq_of_ok hlambda]
    rfl
  rw [bind_eq_of_ok (Compile.parameters_eq _ _), h.parameters, List.map_singleton, bind_eq_of_ok harguments,
    bind_eq_of_ok hcallee]
  rfl

theorem HasFactorial.gives {expr : Value} (h : s.HasFactorial places)
    (he : s.heap.datum expr = .factorialOf m) :
    ∃ v t, s.Gives expr .pureInt (factorialWord m) t ∧ s.Gives expr .any (some v) t ∧
      t.heap.get? v = some (.int (factorialWord m)) ∧ s.Leaves places.n (min m 1) t := by
  obtain ⟨q, r, hhead, hargs, hr⟩ := Heap.form_of_factorialOf he
  let bound : Session := { s with env := s.env.setBinding places.n (some r) }
  have hbound : s.Leaves places.n m bound := .bind (Env.lt_size_of_entry? h.n) hr
  have hf := h.keepsBut hbound.toKeepsBut
  obtain ⟨v, t, hbody, hv, ht⟩ := hf.returns hbound.bound m.toInt.toNat (by omega)
  have hcall (link : Link) : Returns link
      (.sequence (.discard (.store places.n (.literal r))) (.call (.code places.id))) s (some v) t :=
    .sequence (.discard (.store (.literal r))) (hf.call (.inl rfl) (hbody link))
  have hword (link : Link) : Returns link (.unary .unboxChecked _) s (factorialWord m) t :=
    .unary (hcall link) (congrArg (EStateM.Result.ok · t) (Heap.unbox_of_int hv))
  refine ⟨v, t, ?_, ?_, hv, hbound.trans ht⟩
  · exact gives_of_code h.idle (h.code_eq hhead hargs .pureInt) hword
  · exact gives_of_code h.idle (h.code_eq hhead hargs .any) hcall

end Session

namespace SessionM

variable {α : Type} {m : Nat → SessionM α} {s t u : Session} {a b : α}

-- With enough fuel an evaluation ends, and always in the same way.
def Ends (m : Nat → SessionM α) (s : Session) (a : α) (t : Session) : Prop :=
  ∃ fuel, ∀ more ≥ fuel, m more s = .ok a t

theorem Ends.unique (h : Ends m s a t) (h' : Ends m s b u) : a = b ∧ t = u := by
  obtain ⟨fuel, h⟩ := h
  obtain ⟨fuel', h'⟩ := h'
  have h := h _ (Nat.le_max_left fuel fuel')
  rw [h' _ (Nat.le_max_right fuel fuel')] at h
  cases h
  exact ⟨rfl, rfl⟩

variable {expr : Value} {required : Rep} {v : required.kind.Result}

theorem ends_of_compile {c : Compiler} {code : Code required.kind}
    (hc : CellLisp.compile expr required s.toCompiler = .ok code c)
    (hr : Returns .attached code { s with toCompiler := c } v t) : Ends (evalAs · required expr) s v t := by
  obtain ⟨fuel, hr⟩ := hr
  refine ⟨fuel, fun more hmore => ?_⟩
  show evalAs more required expr s = _
  rw [evalAs_eq, hc]
  show run .attached more code _ = _
  rw [run, run_mono hr hmore]

theorem Ends.eval {r : Ref} (h : Ends (evalAs · .any expr) s (some r) t) :
    Ends (SessionM.eval · expr) s (some r) t := by
  obtain ⟨fuel, h⟩ := h
  exact ⟨fuel, fun more hmore => bind_eq_of_ok (h more hmore)⟩

-- A text with one form is evaluated by evaluating that form.
theorem Ends.evalText {text : String} {d : Datum} {w : Value} (hr : readText text = ⟨[d], none⟩)
    (ha : alloc d s = .ok expr t) (h : Ends (SessionM.eval · expr) t w u) :
    Ends (SessionM.evalText · text) s w u := by
  obtain ⟨fuel, h⟩ := h
  refine ⟨fuel, fun more hmore => ?_⟩
  unfold SessionM.evalText
  rw [hr]
  have hforms : evalForms more [d] none s = .ok w u := by
    unfold evalForms
    rw [bind_eq_of_ok ha, bind_eq_of_ok (h more hmore)]
    rfl
  exact bind_eq_of_ok hforms

end SessionM

def factorialText : String :=
  "(def fact (fn n (if (lt n 2) 1 (* n (fact (- n 1))))))"

def Datum.factorialDefinition : Datum :=
  let call (name : String) (args : List Datum) := Datum.list (.atom (.symbol name) :: args)
  let n := Datum.atom (.symbol "n")
  let num (k : Int64) := Datum.atom (.int k)
  call "def" [.atom (.symbol "fact"), call "fn" [n, call "if" [call "lt" [n, num 2], num 1,
    call "*" [n, call "fact" [call "-" [n, num 1]]]]]]

theorem readText_factorialText : readText factorialText = ⟨[.factorialDefinition], none⟩ := by
  decide +kernel

-- From the code of the definition one comes to the cell of the function, and from there to the rest.
def FactorialPlaces.find? (code : Code .cell) (c : Compiler) : Option FactorialPlaces := do
  let .store fact (.literal lambda) := code | none
  let n ← c.env.entry? "n"
  let .lambda (some params) (some id) ← c.heap.get? lambda | none
  let .cons (some param) (some rest) ← c.heap.get? params | none
  let .cons (some body) none ← c.heap.get? rest | none
  let .branch _ (.literal one) _ ← c.codes[id]? | none
  return { fact, n, lambda, params, rest, param, body, one, id }

theorem compile_factorialDefinition :
    let read := Compiler.fresh.onHeap (·.allocDatum .factorialDefinition)
    Ensures (compile read.1 .any) read.2 (fun code c =>
      (FactorialPlaces.find? code c).any fun places =>
        code = .store places.fact (.literal places.lambda) ∧ c.HoldsFactorial places)
      (fun _ => False) := by
  decide +kernel

namespace Session

variable {s : Session} {device : Device} {places : FactorialPlaces}

-- The code of the definition binds `fact` to the function that has been compiled.
theorem HasFactorial.of_compile {text : String} {d : Datum} {expr : Value} {c c' : Compiler}
    (hr : readText text = ⟨[d], none⟩) (ha : Compiler.fresh.onHeap (·.allocDatum d) = (expr, c))
    (hc : compile expr .any c = .ok (.store places.fact (.literal places.lambda)) c')
    (hholds : c'.HoldsFactorial places) :
    ∃ v s, SessionM.Ends (SessionM.evalText · text) (.fresh device) v s ∧ s.HasFactorial places := by
  have halloc : SessionM.alloc d (.fresh device) = .ok expr ⟨c, device, "", ""⟩ := by
    show EStateM.Result.ok (Compiler.fresh.onHeap (·.allocDatum d)).1
      (Session.mk (Compiler.fresh.onHeap (·.allocDatum d)).2 device "" "") = _
    rw [ha]
  let compiled : Session := ⟨c', device, "", ""⟩
  let defined : Session := { compiled with env := c'.env.setBinding places.fact (some places.lambda) }
  have hruns : Returns .attached (.store places.fact (.literal places.lambda)) compiled
      (some places.lambda) defined :=
    .store (.literal places.lambda)
  have hends : SessionM.Ends (SessionM.evalText · text) (.fresh device) (some places.lambda) defined :=
    .evalText hr halloc (.eval (SessionM.ends_of_compile hc hruns))
  have hkeeps : compiled.KeepsBut places.fact defined := .bind compiled places.fact (some places.lambda)
  obtain ⟨fuel, hfuel⟩ := hends
  have hrests := ((rests_fresh device).evalText fuel text).of_ok (hfuel fuel (Nat.le_refl fuel))
  refine ⟨_, defined, ⟨fuel, hfuel⟩, ?_⟩
  exact
    { toHoldsFactorial := hkeeps.holdsFactorial hholds
      idle  := hrests.reachable.idle
      sound := hrests.reachable.sound.backward
      bound := Env.binding_setBinding _ (Env.lt_size_of_entry? hholds.fact) }

theorem exists_hasFactorial (device : Device) :
    ∃ places v s, SessionM.Ends (SessionM.evalText · factorialText) (.fresh device) v s ∧
      s.HasFactorial places := by
  have hfacts := compile_factorialDefinition
  generalize hread : Compiler.fresh.onHeap (·.allocDatum .factorialDefinition) = read at hfacts
  obtain ⟨expr, c⟩ := read
  cases hc : compile expr .any c
  case error => exact (hfacts.of_error hc).elim
  case ok code c' =>
    obtain ⟨places, _, hplaces⟩ := (Option.any_eq_true _ _).mp (hfacts.of_ok hc)
    obtain ⟨rfl, hholds⟩ := of_decide_eq_true hplaces
    exact ⟨places, HasFactorial.of_compile readText_factorialText hread hc hholds⟩

theorem HasFactorial.read (h : s.HasFactorial places) (d : Datum) :
    ∃ expr t, SessionM.alloc d s = .ok expr t ∧ (d.lossy = false → t.heap.datum expr = d) ∧
      t.HasFactorial places := by
  have hstores := Heap.stores_allocDatum h.sound d
  refine ⟨_, { s with heap := (s.heap.allocDatum d).2 }, rfl, hstores.datum, h.keepsBut ?_⟩
  exact
    { cells  := fun r x hr => (hstores.cells r (Heap.lt_size_of_get? hr)).trans hr
      sound  := fun _ => hstores.backward
      names  := rfl
      others := fun _ _ => rfl
      rest   := rfl }

-- The sessions in which the definition has been evaluated first, and then calls, as integers or as
-- cells. Anything may have been read in between.
inductive AfterFactorial (device : Device) : Session → Prop
  | defined {v s} : SessionM.Ends (SessionM.evalText · factorialText) (.fresh device) v s →
    AfterFactorial device s
  | read {s t expr d} : AfterFactorial device s → SessionM.alloc d s = .ok expr t → AfterFactorial device t
  | asInt {s t expr n w} : AfterFactorial device s → s.heap.datum expr = .factorialOf n →
    SessionM.Ends (SessionM.evalInt · expr) s w t → AfterFactorial device t
  | asCell {s t expr n v} : AfterFactorial device s → s.heap.datum expr = .factorialOf n →
    SessionM.Ends (SessionM.eval · expr) s v t → AfterFactorial device t

theorem HasFactorial.ends {expr : Value} {n : Int64} (h : s.HasFactorial places)
    (he : s.heap.datum expr = .factorialOf n) :
    ∃ r t, SessionM.Ends (SessionM.evalInt · expr) s (factorialWord n) t ∧
      SessionM.Ends (SessionM.eval · expr) s (some r) t ∧
      t.heap.get? r = some (.int (factorialWord n)) ∧ s.Leaves places.n (min n 1) t := by
  obtain ⟨r, t, ⟨_, hint, hint'⟩, ⟨_, hany, hany'⟩, hr, ht⟩ := h.gives he
  exact ⟨r, t, SessionM.ends_of_compile hint (hint' .attached),
    .eval (SessionM.ends_of_compile hany (hany' .attached)), hr, ht⟩

theorem AfterFactorial.hasFactorial (h : s.AfterFactorial device) : ∃ places, s.HasFactorial places := by
  induction h
  case defined h =>
    obtain ⟨places, _, s, hends, hs⟩ := exists_hasFactorial device
    obtain ⟨_, rfl⟩ := hends.unique h
    exact ⟨places, hs⟩
  case read d _ ha hi =>
    obtain ⟨places, hs⟩ := hi
    obtain ⟨_, t, ht, _, hhas⟩ := hs.read d
    cases ht.symm.trans ha
    exact ⟨places, hhas⟩
  case asInt _ he h hi =>
    obtain ⟨places, hs⟩ := hi
    obtain ⟨r, t, hends, _, _, ht⟩ := hs.ends he
    obtain ⟨_, rfl⟩ := hends.unique h
    exact ⟨places, hs.keepsBut ht.toKeepsBut⟩
  case asCell _ he h hi =>
    obtain ⟨places, hs⟩ := hi
    obtain ⟨r, t, _, hends, _, ht⟩ := hs.ends he
    obtain ⟨_, rfl⟩ := hends.unique h
    exact ⟨places, hs.keepsBut ht.toKeepsBut⟩

end Session

-- What becomes of the definition and of calls. A call gives the same word as an integer and in an
-- integer cell, and it leaves its parameter bound to what the innermost call had for it.
structure Device.ComputesFactorial (device : Device) : Prop where
  defines : ∃ v s, SessionM.Ends (SessionM.evalText · factorialText) (.fresh device) v s
  reads   : ∀ {s}, s.AfterFactorial device → ∀ n, ∃ expr t,
    SessionM.alloc (.factorialOf n) s = .ok expr t ∧ t.heap.datum expr = .factorialOf n
  calls   : ∀ {s}, s.AfterFactorial device → ∀ {n expr}, s.heap.datum expr = .factorialOf n → ∃ r t,
    SessionM.Ends (SessionM.evalInt · expr) s (factorialWord n) t ∧
    SessionM.Ends (SessionM.eval · expr) s (some r) t ∧
    t.heap.get? r = some (.int (factorialWord n)) ∧
    t.heap.cell? (t.binding "n") = some (.int (min n 1))
  word    : ∀ n, (factorialWord n).toInt =
    if n.toInt < 2 then 1 else Int.bmod n.toInt.toNat.factorial (2 ^ 64)

theorem Device.computesFactorial (device : Device) : device.ComputesFactorial where
  defines := by
    obtain ⟨_, v, s, hends, _⟩ := Session.exists_hasFactorial device
    exact ⟨v, s, hends⟩
  reads h n := by
    obtain ⟨places, hs⟩ := h.hasFactorial
    obtain ⟨expr, t, ha, he, _⟩ := hs.read (.factorialOf n)
    exact ⟨expr, t, ha, he rfl⟩
  calls h n expr he := by
    obtain ⟨places, hs⟩ := h.hasFactorial
    obtain ⟨r, t, hint, hcell, hr, ht⟩ := hs.ends he
    refine ⟨r, t, hint, hcell, hr, ?_⟩
    obtain ⟨q, hq, hn⟩ := Heap.intOf_eq_some_iff.mp ht.bound
    have hbinding : t.binding "n" = some q := by
      rw [Session.binding, Env.lookup, (hs.keepsBut ht.toKeepsBut).n]
      exact hq
    rw [hbinding]
    exact hn
  word := toInt_factorialWord

end CellLisp
