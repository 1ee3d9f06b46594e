import CellLisp.Proofs.IntCompilation
import CellLisp.Proofs.Overflow
import CellLisp.Proofs.Padding

namespace CellLisp

-- A literal inside of a literal, and so on, with a number in the innermost one.
def Datum.tower : Nat → Datum
  | 0     => .atom (.int 1)
  | n + 1 => .list [.atom (.symbol Builtin.function.name), tower n]

theorem Datum.lossy_tower (n : Nat) : (tower n).lossy = false := by
  induction n
  case zero    => rfl
  case succ hi => simp [tower, list, list.chain, lossy, hi]

example : (Datum.tower 3).write = "(fn (fn (fn 1)))" := by decide

inductive Form.Tower : Nat → Form → Prop
  | word {r : Ref} : Tower 0 (.atom r (.int 1))
  | literal {n : Nat} {f g : Form} : f.Applies .function [g] → Tower n g → Tower (n + 1) f

theorem Form.Tower.present {n : Nat} {f : Form} (h : f.Tower n) : f.isAbsent = false := by
  cases h
  case word      => rfl
  case literal h => exact h.present

namespace Heap

variable {h : Heap} {depth : Nat} {v : Value}

theorem absent_or_present (h : Heap) (depth : Nat) (v : Value) :
    (h.datumWithin depth v = .absent ∧ h.formWithin depth v = .absent) ∨
      ∃ k r x, depth = k + 1 ∧ v = some r ∧ h.get? r = some x := by
  cases depth
  case zero   => exact .inl ⟨rfl, rfl⟩
  case succ k =>
    cases v
    case none   => exact .inl ⟨rfl, rfl⟩
    case some r =>
      cases hr : h.get? r
      case none   => exact .inl ⟨by simp [datumWithin, cell?, hr], by simp [formWithin, hr]⟩
      case some x => exact .inr ⟨k, r, x, rfl, rfl, hr⟩

theorem form_of_absent (hv : h.datumWithin depth v = .absent) : h.formWithin depth v = .absent := by
  rcases h.absent_or_present depth v with ⟨_, hf⟩ | ⟨k, r, x, rfl, rfl, hr⟩
  · exact hf
  · cases x <;> simp [datumWithin, cell?, hr] at hv

theorem form_of_atom {a : Atom} (hv : h.datumWithin depth v = .atom a) (ha : a ≠ .lost) :
    ∃ r x, h.formWithin depth v = .atom r x ∧ x.datumWith (fun _ => .absent) = .atom a := by
  rcases h.absent_or_present depth v with ⟨hd, _⟩ | ⟨k, r, x, rfl, rfl, hr⟩
  · cases hd.symm.trans hv
  · refine ⟨r, x, ?_, ?_⟩
    all_goals cases x <;> simp_all [datumWithin, formWithin, cell?, Cell.datumWith]

theorem form_of_cons {a b : Datum} (hv : h.datumWithin depth v = .cons a b) :
    ∃ k r head tail, h.datumWithin k head = a ∧ h.datumWithin k tail = b ∧
      h.formWithin depth v = .cons r (fun _ => h.formWithin k head) (fun _ => h.formWithin k tail) := by
  rcases h.absent_or_present depth v with ⟨hd, _⟩ | ⟨k, r, x, rfl, rfl, hr⟩
  · cases hd.symm.trans hv
  · cases x <;> simp [datumWithin, cell?, hr] at hv
    case cons head tail => exact ⟨k, r, head, tail, hv.1, hv.2, by simp [formWithin, hr]⟩

theorem tower_formWithin {n : Nat} (hv : h.datumWithin depth v = .tower n) :
    (h.formWithin depth v).Tower n := by
  induction n generalizing depth v
  case zero =>
    obtain ⟨r, x, hf, hx⟩ := form_of_atom hv (by simp)
    cases x <;> cases hx
    exact hf ▸ .word
  case succ n hi =>
    obtain ⟨k, r, head, tail, hhead, htail, hf⟩ := form_of_cons hv
    obtain ⟨s, x, hhead, hx⟩ := form_of_atom hhead (by simp)
    cases x <;> cases hx
    obtain ⟨j, q, body, rest, hbody, hrest, htail⟩ := form_of_cons htail
    have hlists : Form.Lists (h.formWithin k tail) [h.formWithin j body] :=
      htail ▸ .cons (form_of_absent hrest ▸ .absent)
    exact hf ▸ .literal (.intro hhead hlists) (hi hbody)

end Heap

namespace Compiler

variable {d e : Compiler} {f : OpenFunction} {params : Value}

-- The state in which the body of a literal is compiled.
def inside (d : Compiler) (f : OpenFunction) (params : Value) : Compiler :=
  { d with
    heap    := (d.heap.alloc (.lambda params none)).2
    nesting := ⟨f :: d.nesting.stack⟩ }

theorem Offers.inside {op : Builtin} (h : d.Offers op) (lambda : Ref) (params : Value) :
    (d.inside ⟨none, lambda⟩ params).Offers op := by
  obtain ⟨r, hl, hr⟩ := Option.bind_eq_some_iff.mp h.cell
  refine ⟨?_, Option.bind_eq_some_iff.mpr ⟨r, hl, ?_⟩⟩
  · simpa [Compiler.inside, Nesting.find?] using h.unnamed
  · exact (Heap.get?_alloc_of_lt _ (Heap.lt_size_of_get? hr)).trans hr

theorem Pads.closed (h : (d.inside f params).Pads e) : d.Pads { e with nesting := e.nesting.pop } := by
  have halloc := Pads.alloc d (.lambda params none)
  constructor
  case same  =>
    rw [h.same]
    rfl
  case size  => exact Nat.le_trans halloc.size h.size
  case cells =>
    intro r hr
    exact (h.cells r (Nat.lt_of_lt_of_le hr halloc.size)).trans (halloc.cells r hr)

end Compiler

namespace Compile

variable {d : Compiler} {whole : Form} {body : Part} {required : Rep}

theorem coerce_of_plan {shape : Shape} (h : plan shape required ≠ none) (value : Code shape.kind) :
    ∃ code, coerce whole shape value required d = .ok code d := by
  obtain ⟨coercion, hplan⟩ := Option.ne_none_iff_exists'.mp h
  simp only [coerce, hplan]
  exact ⟨_, rfl⟩

theorem alloc_eq (x : Cell) (d : Compiler) :
    CompileM.alloc x d = .ok d.heap.size { d with heap := (d.heap.alloc x).2 } :=
  rfl

variable (whole) (body)

theorem functionLiteral_of_room (hd : d.nesting.depth < Nesting.limit) (name : Option String) :
    functionLiteral whole [body] name d =
      match body.code .any (d.inside ⟨name, d.heap.size⟩ whole.tail.value) with
      | .ok code e => .ok d.heap.size
        ({ e with nesting := e.nesting.pop }.finished d.heap.size whole.tail.value code)
      | .error x e => .error x { e with nesting := e.nesting.pop } := by
  have hpush : d.nesting.push? ⟨name, d.heap.size⟩ = some ⟨⟨name, d.heap.size⟩ :: d.nesting.stack⟩ :=
    if_pos hd
  unfold functionLiteral
  simp only [List.getLast?_singleton]
  rw [bind_eq_of_ok (alloc_eq _ d)]
  simp only [Bind.bind, EStateM.bind, CompileM.within, hpush, Compiler.inside]
  cases body.code .any _ <;> rfl

theorem functionLiteral_of_full (hd : Nesting.limit ≤ d.nesting.depth) (name : Option String) :
    functionLiteral whole [body] name d =
      .error .nestingOverflow { d with heap := (d.heap.alloc (.lambda whole.tail.value none)).2 } := by
  have hpush : d.nesting.push? ⟨name, d.heap.size⟩ = none := if_neg (Nat.not_lt.mpr hd)
  unfold functionLiteral
  simp only [List.getLast?_singleton]
  rw [bind_eq_of_ok (alloc_eq _ d)]
  simp only [Bind.bind, EStateM.bind, CompileM.within, hpush]

end Compile

namespace Form.Tower

variable {d : Compiler} {f : Form} {n : Nat}

theorem code_eq {g : Form} (hf : f.Applies .function [g]) (hg : g.Tower n) (ho : d.Offers .function)
    (required : Rep) : f.code required d = (Compile.functionLiteral f [g.part] none >>= fun r =>
      Compile.coerce f (.cell .lambda) (.literal r) required) d :=
  hf.code_eq ho (by simpa using hg.present)

-- A tower that there is room for never overflows, and is compiled where any value will do.
theorem compiles (h : f.Tower n) (ho : d.Offers .function) (hn : d.nesting.depth + n ≤ Nesting.limit)
    (required : Rep) :
    (required = .any ∨ required = .void → ∃ code e, f.code required d = .ok code e) ∧
      ∀ e, f.code required d ≠ .error .nestingOverflow e := by
  induction h generalizing d required
  case word r =>
    refine ⟨?_, fun e => (Compile.quiet_atom r _).of_error⟩
    rintro (rfl | rfl) <;> exact ⟨_, _, rfl⟩
  case literal n f g hf hg hi =>
    have hinside : (d.inside ⟨none, d.heap.size⟩ f.tail.value).nesting.depth = d.nesting.depth + 1 := rfl
    have ⟨hbody, _⟩ := hi (ho.inside d.heap.size f.tail.value) (by omega) .any
    obtain ⟨code, e, hbody⟩ := hbody (.inl rfl)
    have hliteral := Compile.functionLiteral_of_room f g.part (d := d) (by omega) none
    rw [show g.part.code .any _ = _ from hbody] at hliteral
    rw [code_eq hf hg ho, bind_eq_of_ok hliteral]
    refine ⟨fun hr => ?_, fun e => Compile.quiet_coerce.of_error⟩
    have hplan : plan (.cell .lambda) required ≠ none := by
      rcases hr with rfl | rfl
      · exact plan_any _
      · exact plan_void _
    obtain ⟨code, hcode⟩ := Compile.coerce_of_plan hplan (.literal d.heap.size)
    exact ⟨code, _, hcode⟩

-- One that there is no room for leaves nothing but the cells of the literals that there was room for.
theorem overflows (h : f.Tower n) (ho : d.Offers .function) (hd : d.nesting.depth ≤ Nesting.limit)
    (hn : Nesting.limit < d.nesting.depth + n) (required : Rep) :
    ∃ e, f.code required d = .error .nestingOverflow e ∧ d.Pads e := by
  induction h generalizing d required
  case word => omega
  case literal n f g hf hg hi =>
    rw [code_eq hf hg ho]
    by_cases hlt : d.nesting.depth < Nesting.limit
    case neg =>
      have hliteral := Compile.functionLiteral_of_full f g.part (d := d) (Nat.le_of_not_lt hlt) none
      refine ⟨_, ?_, .alloc d (.lambda f.tail.value none)⟩
      simp only [Bind.bind, EStateM.bind, hliteral]
    case pos =>
      have hinside : (d.inside ⟨none, d.heap.size⟩ f.tail.value).nesting.depth = d.nesting.depth + 1 := rfl
      obtain ⟨e, hbody, hpads⟩ := hi (ho.inside d.heap.size f.tail.value) (by omega) (by omega) .any
      have hliteral := Compile.functionLiteral_of_room f g.part (d := d) hlt none
      rw [show g.part.code .any _ = _ from hbody] at hliteral
      refine ⟨_, ?_, hpads.closed⟩
      simp only [Bind.bind, EStateM.bind, hliteral]

end Form.Tower

section Compile

variable {c d : Compiler} {expr : Value} {n : Nat}

-- A compilation that succeeds leaves the open literals as they were, and one that fails closes them all.
theorem compile_closes (expr : Value) (required : Rep) (c : Compiler) :
    Ensures (compile expr required) c (fun _ d => d.nesting = c.nesting) (·.nesting = .empty) := by
  have hcode := (Routine.code (c.heap.form expr) required).balanced c
  unfold Ensures compile at *
  split at hcode <;> simp_all

-- What is left of a compilation that fails.
def Compiler.givenUp (e : Compiler) : Compiler :=
  { e with
    env     := e.seeded.foldl Env.unbind e.env
    nesting := .empty
    pending := []
    seeded  := [] }

theorem code_of_compile_error {required : Rep} {x : CompileError} (h : compile expr required c = .error x d) :
    ∃ e, (c.heap.form expr).code required c = .error x e ∧ d = e.givenUp := by
  cases hcode : (c.heap.form expr).code required c <;> simp only [compile, hcode, reduceCtorEq] at h
  case error x e =>
    cases h
    exact ⟨e, rfl, rfl⟩

theorem nested_of_overflow {required : Rep} (hs : c.Sound) (hn : c.heap.SharesNil) (hi : c.Idle)
    (h : compile expr required c = .error .nestingOverflow d) :
    (c.heap.form expr).Nested (c.Applies (c.heap.form expr) · .function) 50 := by
  have hform : (c.heap.form expr).All (· < c.heap.size) :=
    Heap.formWithin_all _ (fun _ _ hr => hr) (fun _ _ _ _ _ _ hs => hs)
  have ⟨hcharged, _⟩ := Form.charged ⟨hs, hn, hform⟩ .self
  obtain ⟨e, hcode, _⟩ := code_of_compile_error h
  have hnested := hcharged.code c required (.start hi.pending hi.seeded) e hcode
  rwa [hi.nesting] at hnested

-- What becomes of a tower, by its height.
structure Compiler.Stacks (c : Compiler) (expr : Value) (n : Nat) : Prop where
  compiles  : n ≤ 49 → (∀ required, required = .any ∨ required = .void →
      ∃ code d, compile expr required c = .ok code d) ∧
    ∀ required d, compile expr required c ≠ .error .nestingOverflow d
  overflows : 50 ≤ n → ∀ required, ∃ d, compile expr required c = .error .nestingOverflow d ∧
    d.nesting.depth = 0 ∧ c.Pads d ∧ d.GoesOnAs c

theorem Compiler.stacks (hs : c.Sound) (hi : c.Idle) (ho : c.Provides .function)
    (he : c.heap.datum expr = .tower n) : c.Stacks expr n := by
  have htower : (c.heap.form expr).Tower n := Heap.tower_formWithin he
  have hoffers := hi.offers ho
  have hdepth : c.nesting.depth = 0 := by rw [hi.nesting, Nesting.depth_empty]
  have hlimit : Nesting.limit = 49 := rfl
  constructor
  case compiles =>
    intro hn
    have hcode := htower.compiles hoffers (by omega)
    refine ⟨fun required hr => ?_, fun required d h => ?_⟩
    · obtain ⟨code, e, hok⟩ := (hcode required).1 hr
      exact ⟨code, _, by simp only [compile, hok]; rfl⟩
    · obtain ⟨e, herror, _⟩ := code_of_compile_error h
      exact (hcode required).2 e herror
  case overflows =>
    intro hn required
    obtain ⟨e, herror, hpads⟩ := htower.overflows hoffers (by omega) (by omega) required
    have hkept : e.givenUp = e := by
      rw [hpads.same, Compiler.givenUp, ← hi.nesting, ← hi.pending, hi.seeded]
      rfl
    refine ⟨e, ?_, ?_, hpads, hpads.goesOnAs hs⟩
    · simp only [compile, herror]
      exact congrArg _ hkept
    · rw [hpads.same, hdepth]

end Compile

-- How function literals nest while expressions are compiled.
structure Session.BoundsNesting (s : Session) : Prop where
  -- In every state, every routine closes what it opens, whether it succeeds or fails.
  balanced : ∀ (α : Type) (m : CompileM α), Routine m → Balanced m
  -- No part of an expression is compiled while more than 49 literals are open: what would be done
  -- instead makes no difference.
  bounded  : ∀ alarm (f : Form) (d : Compiler), d.nesting.depth ≤ 49 →
    (∀ required, (f.guarded 49 alarm).code required d = f.code required d) ∧
      ∀ name, (f.guarded 49 alarm).function name d = f.function name d
  closed   : ∀ expr required, Ensures (compile expr required) s.toCompiler
    (fun _ d => d.nesting.depth = 0) (·.nesting.depth = 0)
  blamed   : ∀ expr required d, compile expr required s.toCompiler = .error .nestingOverflow d →
    (s.heap.form expr).Nested (s.toCompiler.Applies (s.heap.form expr) · .function) 50
  -- A tower that the session holds, and one that it reads.
  held     : s.toCompiler.Provides .function → ∀ n expr, s.heap.datum expr = .tower n →
    s.toCompiler.Stacks expr n
  read     : s.toCompiler.Provides .function → ∀ n,
    (s.toCompiler.onHeap (·.allocDatum (.tower n))).2.Stacks
      (s.toCompiler.onHeap (·.allocDatum (.tower n))).1 n

theorem boundsNesting_of_reachable {s : Session} (hs : s.Reachable) : s.BoundsNesting where
  balanced _ _ h := h.balanced
  bounded alarm f d hd := by
    have hfits := f.fits_guarded (Nat.le_refl Nesting.limit) alarm
    refine ⟨fun required => ?_, fun name => ?_⟩
    · exact Nesting.eq_of_matches (hfits.code d d required ⟨rfl, hd⟩) Code.relocate_id
    · exact Nesting.eq_of_matches (hfits.function d d name ⟨rfl, hd⟩) fun _ => rfl
  closed expr required := by
    refine (compile_closes expr required s.toCompiler).imp (fun _ d hd => ?_) fun d hd => ?_
    · rw [hd, hs.idle.nesting, Nesting.depth_empty]
    · rw [hd, Nesting.depth_empty]
  blamed expr required d h := nested_of_overflow hs.sound hs.sharesNil hs.idle h
  held ho n expr he := Compiler.stacks hs.sound hs.idle ho he
  read ho n := by
    obtain ⟨hworks, _⟩ := Heap.quality_has.allocDatum (h := s.heap) (.tower n)
    have hstores := Heap.stores_allocDatum hs.sound.backward (.tower n)
    let t : Session := { s with toCompiler := (s.toCompiler.onHeap (·.allocDatum (.tower n))).2 }
    have hpersists : s.Persists t := .of_works ⟨hworks, rfl⟩ hs.sound hs.idle
    refine Compiler.stacks hpersists.sound hpersists.idle ?_ (hstores.datum (Datum.lossy_tower n))
    obtain ⟨r, hl, hr⟩ := Option.bind_eq_some_iff.mp ho
    exact Option.bind_eq_some_iff.mpr ⟨r, hl, (hstores.cells r (Heap.lt_size_of_get? hr)).trans hr⟩

-- One literal too many is read by a new session.
def Image.holdingTower : Image :=
  (fresh (.fresh 0 0)).performAll [.read (.tower 50)]

theorem Image.reachable_holdingTower : holdingTower.session.Reachable :=
  .between ((Reachable.fresh _).performAll _)

theorem Image.provides_holdingTower : holdingTower.session.toCompiler.Provides .function := by
  decide +kernel

theorem Image.datum_holdingTower :
    holdingTower.session.heap.datum (holdingTower.values.headD none) = .tower 50 :=
  (Heap.stores_allocDatum (Reachable.fresh (.fresh 0 0)).ready.sound.backward (.tower 50)).datum
    (Datum.lossy_tower 50)

-- It is refused, and a literal that is nested as deep as can be is not.
theorem boundsNesting_holdingTower :
    let s := Image.holdingTower.session
    let expr := Image.holdingTower.values.headD none
    let next := s.toCompiler.onHeap (·.allocDatum (.tower 49))
    s.Reachable ∧ s.toCompiler.Provides .function ∧
      (∃ d, compile expr .any s.toCompiler = .error .nestingOverflow d ∧ d.nesting.depth = 0 ∧
        d.GoesOnAs s.toCompiler) ∧
      (s.heap.form expr).Nested (s.toCompiler.Applies (s.heap.form expr) · .function) 50 ∧
      ∃ code d, compile next.1 .any next.2 = .ok code d := by
  intro s expr next
  have ho := Image.provides_holdingTower
  have h := boundsNesting_of_reachable Image.reachable_holdingTower
  have hstacks := h.held ho 50 expr Image.datum_holdingTower
  obtain ⟨d, hfails, hdepth, _, hgoesOn⟩ := hstacks.overflows (Nat.le_refl _) .any
  have ⟨hcompiles, _⟩ := (h.read ho 49).compiles (Nat.le_refl _)
  exact ⟨Image.reachable_holdingTower, ho, ⟨d, hfails, hdepth, hgoesOn⟩, h.blamed expr .any d hfails,
    hcompiles .any (.inl rfl)⟩

end CellLisp
