import CellLisp.Proofs.Application
import CellLisp.Proofs.Image
import CellLisp.Proofs.IntComputation
import CellLisp.Proofs.Symbol

namespace CellLisp

namespace IntExpr

def operations : List Builtin :=
  [.add, .sub, .mul, .div, .rem, .lt, .gt, .branch, .sequence, .assign, .loop]

end IntExpr

namespace Compiler

-- The name of an operation is bound to that operation.
def Provides (c : Compiler) (op : Builtin) : Prop :=
  c.heap.cell? (c.env.lookup op.name) = some (.ofBuiltin op)

instance (c : Compiler) (op : Builtin) : Decidable (c.Provides op) :=
  inferInstanceAs (Decidable (_ = _))

-- While an expression is compiled, the name of an operation stands for that operation.
structure Offers (c : Compiler) (op : Builtin) : Prop where
  unnamed : c.nesting.find? op.name = none
  cell    : c.heap.cell? (c.lookup op.name) = some (.ofBuiltin op)

def place (c : Compiler) (name : String) : Ref :=
  (c.env.lookup name).getD Heap.nilRef

-- A name is bound to an integer.
def HasInt (c : Compiler) (name : String) : Prop :=
  ∃ n, c.heap.cell? (c.env.lookup name) = some (.int n)

variable {c : Compiler} {name : String}

theorem Idle.lookup (h : c.Idle) : c.lookup name = c.env.lookup name := by
  have hv : c.visible = c.env.binding := by
    funext e
    simp [visible, h.pending]
  simp only [Compiler.lookup, Env.lookup, hv]

theorem Idle.offers {op : Builtin} (h : c.Idle) (ho : c.Provides op) : c.Offers op where
  unnamed := by simp [h.nesting, Nesting.find?, Nesting.empty]
  cell    := by rwa [h.lookup]

theorem HasInt.entry (h : c.HasInt name) :
    ∃ e n, c.env.entry? name = some e ∧ c.env.binding e = some (c.place name) ∧
      c.heap.get? (c.place name) = some (.int n) := by
  obtain ⟨n, hn⟩ := h
  obtain ⟨r, hr, hcell⟩ := Option.bind_eq_some_iff.mp hn
  obtain ⟨e, he, hb⟩ := Option.bind_eq_some_iff.mp hr
  have hplace : c.place name = r := by rw [place, hr, Option.getD_some]
  exact ⟨e, n, he, hplace ▸ hb, hplace ▸ hcell⟩

end Compiler

namespace Form

theorem Lists.elements_eq {f : Form} {fs : List Form} (h : f.Lists fs)
    (hp : ∀ g ∈ fs, g.isAbsent = false) : f.elements = fs := by
  induction h
  case absent => rfl
  case nil    => rfl
  case cons r head tail fs _ hi =>
    simp [elements, hp (head ()) (by simp), hi fun g hg => hp g (.tail _ hg)]

variable {c : Compiler} {op : Builtin} {args : List Form} {required : Rep}

theorem Applies.present {f : Form} (h : f.Applies op args) : f.isAbsent = false := by
  cases h
  rfl

theorem Applies.code_eq {f : Form} (h : f.Applies op args) (ho : c.Offers op)
    (hp : ∀ g ∈ args, g.isAbsent = false) :
    f.code required c = Compile.builtin ⟨f, op, args.map part⟩ required c := by
  obtain ⟨r, hl, hr⟩ := Option.bind_eq_some_iff.mp ho.cell
  obtain ⟨hhead, hlist⟩ := h
  rw [Form.code, parts_eq, hlist.elements_eq hp]
  unfold Compile.application
  simp only [hhead]
  exact (Compile.applySymbol_eq ho.unnamed hl).trans (Compile.apply_eq hr (Builtin.ofWord?_opcode op))

end Form

theorem Spells.present {fs : List Form} {x : IntExpr} (h : Spells fs x) :
    ∀ f ∈ fs, f.isAbsent = false := by
  induction h
  case literal => simp [Form.isAbsent]
  case symbol  => simp [Form.isAbsent]
  case andThen hf hg =>
    intro f hmem
    rcases List.mem_cons.mp hmem with rfl | hmem
    · exact hf f (by simp)
    · exact hg f hmem
  all_goals simpa using Form.Applies.present ‹_›

namespace Compile

variable {c : Compiler} {name : String} {required : Rep} {e : EntryId} {r : Ref}

theorem intern_known (he : c.env.entry? name = some e) : CompileM.intern name c = .ok e c := by
  show EStateM.Result.ok (c.env.intern name).1 { c with env := (c.env.intern name).2 } = _
  rw [Env.intern_of_entry? he]

theorem target_eq {whole : Form} {op : Builtin} {args : List Part}
    (he : c.env.entry? name = some e) :
    target ⟨whole, op, (Form.atom r (.symbol name)).part :: args⟩ c = .ok (name, e) c := by
  show (CompileM.intern name >>= fun e => pure (name, e)) c = _
  rw [bind_eq_of_ok (intern_known he)]
  rfl

theorem assumeOr_eq {default : CompileM Ref} (hi : c.Idle) (hb : c.env.binding e = some r) :
    assumeOr e default c = .ok r c := by
  have ha : CompileM.assume e c = .ok (some r) c := by
    unfold CompileM.assume
    rw [bind_eq_of_ok (show (get : CompileM Compiler) c = .ok c c from rfl)]
    simp only [hi.pending, List.lookup_nil, hb]
    rfl
  unfold assumeOr
  rw [bind_eq_of_ok ha]
  rfl

theorem tagAt_of_get? {cell : Cell} (hr : c.heap.get? r = some cell) :
    tagAt r c = .ok cell.tag c := by
  rw [tagAt_eq, hr, Option.elim_some]

end Compile

-- Compiling for a word, or for no value, succeeds without a change, with code for the expression.
def Compiled (s : Session) (cells : Ref → Prop) (m : (required : Rep) → CompileM (Code required.kind))
    (x : IntExpr) : Prop :=
  ∀ required, required = .pureInt ∨ required = .void →
    ∃ code, m required s.toCompiler = .ok code s.toCompiler ∧ Computes s cells s.place code x

namespace Compiled

variable {s : Session} {cells : Ref → Prop} {x y z : IntExpr} {whole : Form}

theorem coerce_raw {value : Code .raw} (h : Computes s cells s.place value x) :
    Compiled s cells (Compile.coerce whole .raw value) x := by
  rintro _ (rfl | rfl)
  · exact ⟨value, rfl, h⟩
  · exact ⟨.discard value, rfl, h.discard_raw⟩

theorem emptyValue (required : Rep) (hr : required = .pureInt ∨ required = .void) :
    Computes s cells s.place (Compile.emptyValue required) (.literal 0) := by
  rcases hr with rfl | rfl
  · exact .const
  · exact .discard_raw .const

theorem literal {r : Ref} {n : Int64} : Compiled s cells (Form.atom r (.int n)).code (.literal n) := by
  rintro _ (rfl | rfl)
  · exact ⟨.const n, rfl, .const⟩
  · exact ⟨.discard (.literal r), rfl, .discard_literal⟩

theorem symbol {r : Ref} {name : String} (hi : s.Idle) (hn : s.HasInt name)
    (hc : cells (s.place name)) : Compiled s cells (Form.atom r (.symbol name)).code (.symbol name) := by
  obtain ⟨e, n, he, hb, hcell⟩ := hn.entry
  have hsymbol (required : Rep) : (Form.atom r (.symbol name)).code required s.toCompiler =
      Compile.coerce (.atom r (.symbol name)) (.cell .int) (.load e) required s.toCompiler := by
    show Compile.symbol _ name required s.toCompiler = _
    unfold Compile.symbol
    rw [bind_eq_of_ok (Compile.intern_known he), bind_eq_of_ok (Compile.assumeOr_eq hi hb),
      bind_eq_of_ok (Compile.tagAt_of_get? hcell)]
    rfl
  rintro _ (rfl | rfl)
  · exact ⟨.unary .unbox (.load e), hsymbol .pureInt, .unbox_load hb hc⟩
  · exact ⟨.discard (.load e), hsymbol .void, .discard_load⟩

variable {f a b d : Form}

theorem arithmetic {op : Arithmetic} (ha : Compiled s cells a.code x) (hb : Compiled s cells b.code y) :
    Compiled s cells (Compile.builtin ⟨whole, op.builtin, [a.part, b.part]⟩) (.arithmetic op x y) := by
  intro required hr
  obtain ⟨ca, hca, hx⟩ := ha .pureInt (.inl rfl)
  obtain ⟨cb, hcb, hy⟩ := hb .pureInt (.inl rfl)
  have hops (app : Application) : Compile.operands app [.pureInt, .pureInt] [a.part, b.part]
      s.toCompiler = .ok (.cons ca (.cons cb .nil)) s.toCompiler := by
    refine (bind_eq_of_ok hca).trans (bind_eq_of_ok ?_)
    exact bind_eq_of_ok hcb
  obtain ⟨code, hcode, hcomputes⟩ := coerce_raw (hx.arithmetic hy) required hr
  refine ⟨code, ?_, hcomputes⟩
  cases op <;> exact (bind_eq_of_ok (hops _)).trans hcode

theorem branch (ha : Compiled s cells a.code x) (hb : Compiled s cells b.code y)
    (hd : Compiled s cells d.code z) :
    Compiled s cells (Compile.builtin ⟨whole, .branch, [a.part, b.part, d.part]⟩) (.branch x y z) := by
  intro required hr
  obtain ⟨ca, hca, hx⟩ := ha .pureInt (.inl rfl)
  obtain ⟨cb, hcb, hy⟩ := hb required hr
  obtain ⟨cd, hcd, hz⟩ := hd required hr
  refine ⟨.branch ca cb cd, ?_, hx.branch hy hz⟩
  exact (bind_eq_of_ok hca).trans ((bind_eq_of_ok hcb).trans (bind_eq_of_ok hcd))

theorem when (ha : Compiled s cells a.code x) (hb : Compiled s cells b.code y) :
    Compiled s cells (Compile.builtin ⟨whole, .branch, [a.part, b.part]⟩) (.when x y) := by
  intro required hr
  obtain ⟨ca, hca, hx⟩ := ha .pureInt (.inl rfl)
  obtain ⟨cb, hcb, hy⟩ := hb required hr
  refine ⟨.branch ca cb (Compile.emptyValue required), ?_, hx.when hy (emptyValue required hr)⟩
  exact (bind_eq_of_ok hca).trans (bind_eq_of_ok hcb)

theorem loop (ha : Compiled s cells a.code x) (hb : Compiled s cells b.code y) :
    Compiled s cells (Compile.builtin ⟨whole, .loop, [a.part, b.part]⟩) (.loop x y) := by
  intro required hr
  obtain ⟨ca, hca, hx⟩ := ha .pureInt (.inl rfl)
  obtain ⟨cb, hcb, hy⟩ := hb required hr
  refine ⟨.loop (Compile.emptyValue required) ca cb, ?_, .loop (emptyValue required hr) hx hy⟩
  exact (bind_eq_of_ok hca).trans (bind_eq_of_ok hcb)

theorem assign {r : Ref} {name : String} (hi : s.Idle) (hn : s.HasInt name) (hc : cells (s.place name))
    (ha : Compiled s cells a.code x) :
    Compiled s cells
      (Compile.builtin ⟨whole, .assign, [(Form.atom r (.symbol name)).part, a.part]⟩)
      (.assign name x) := by
  intro required hr
  obtain ⟨e, n, he, hb, hcell⟩ := hn.entry
  obtain ⟨ca, hca, hx⟩ := ha .pureInt (.inl rfl)
  obtain ⟨code, hcode, hcomputes⟩ := coerce_raw (.assign hb hc hx) required hr
  refine ⟨code, ?_, hcomputes⟩
  refine (bind_eq_of_ok (Compile.target_eq he)).trans ?_
  refine (bind_eq_of_ok (Compile.assumeOr_eq hi hb)).trans ?_
  refine (bind_eq_of_ok (Compile.tagAt_of_get? hcell)).trans ?_
  exact (bind_eq_of_ok hca).trans hcode

theorem andThen {parts : List Part} (ha : Compiled s cells a.code x)
    (hb : Compiled s cells (Compile.steps b.part parts) y) :
    Compiled s cells (Compile.steps a.part (b.part :: parts)) (.andThen x y) := by
  intro required hr
  obtain ⟨ca, hca, hx⟩ := ha .void (.inr rfl)
  obtain ⟨cb, hcb, hy⟩ := hb required hr
  exact ⟨.sequence ca cb, (bind_eq_of_ok hca).trans (bind_eq_of_ok hcb), hx.sequence hy⟩

end Compiled

-- The symbols of an expression are bound to integers, in cells that are among the given ones.
def IntExpr.Bound (x : IntExpr) (s : Session) (cells : Ref → Prop) : Prop :=
  ∀ name ∈ x.symbols, s.HasInt name ∧ cells (s.place name)

section Spelling

variable {s : Session} {cells : Ref → Prop} (hi : s.Idle)
  (ho : ∀ op ∈ IntExpr.operations, s.Provides op)

include hi ho

theorem Form.Applies.compiled {f : Form} {op : Builtin} {args : List Form} {x : IntExpr}
    (hf : f.Applies op args) (hop : op ∈ IntExpr.operations) (hp : ∀ a ∈ args, a.isAbsent = false)
    (h : Compiled s cells (Compile.builtin ⟨f, op, args.map Form.part⟩) x) :
    Compiled s cells f.code x := by
  intro required hr
  rw [hf.code_eq (hi.offers (ho op hop)) hp]
  exact h required hr

-- The induction is on the spelling. A sequence of forms stands for the steps of a `do`; a single
-- form is a sequence of one step, so the hypotheses about parts apply to their code.
theorem Spells.compiled {fs : List Form} {x : IntExpr} (h : Spells fs x) (hx : x.Bound s cells)
    {f : Form} {rest : List Form} (hfs : fs = f :: rest) :
    Compiled s cells (Compile.steps f.part (rest.map Form.part)) x := by
  have both {g : Form} {gs : List Form} {y : IntExpr} (hg : Spells [g] y)
      (hgs : ∀ g ∈ gs, g.isAbsent = false) : ∀ h ∈ g :: gs, h.isAbsent = false :=
    List.forall_mem_cons.mpr ⟨hg.present g (.head _), hgs⟩
  induction h generalizing f rest
  case literal => cases hfs; exact .literal
  case symbol =>
    cases hfs
    have ⟨hn, hc⟩ := hx _ (.head _)
    exact .symbol hi hn hc
  case arithmetic op _ _ _ _ _ hf ha hb iha ihb =>
    cases hfs
    have ⟨hx, hy⟩ := List.forall_mem_append.mp hx
    have hop : op.builtin ∈ IntExpr.operations := by cases op <;> decide
    exact hf.compiled hi ho hop (both ha hb.present) (.arithmetic (iha hx rfl) (ihb hy rfl))
  case when hf ha hb iha ihb =>
    cases hfs
    have ⟨hx, hy⟩ := List.forall_mem_append.mp hx
    exact hf.compiled hi ho (by decide) (both ha hb.present) (.when (iha hx rfl) (ihb hy rfl))
  case branch hf ha hb hc iha ihb ihc =>
    cases hfs
    have ⟨hxy, hz⟩ := List.forall_mem_append.mp hx
    have ⟨hx, hy⟩ := List.forall_mem_append.mp hxy
    exact hf.compiled hi ho (by decide) (both ha (both hb hc.present))
      (.branch (iha hx rfl) (ihb hy rfl) (ihc hz rfl))
  case block fs _ hf hfs' ih =>
    cases hfs
    refine hf.compiled hi ho (by decide) hfs'.present ?_
    cases fs
    case nil  => nomatch hfs'
    case cons => exact ih hx rfl
  case andThen hf hg ihf ihg =>
    cases hfs
    have ⟨hx, hy⟩ := List.forall_mem_append.mp hx
    exact .andThen (ihf hx rfl) (ihg hy rfl)
  case assign r name _ hf ha iha =>
    cases hfs
    have ⟨⟨hn, hc⟩, hx⟩ := List.forall_mem_cons.mp hx
    have hs : Spells [.atom r (.symbol name)] (.symbol name) := .symbol
    exact hf.compiled hi ho (by decide) (both hs ha.present) (.assign hi hn hc (iha hx rfl))
  case loop hf ha hb iha ihb =>
    cases hfs
    have ⟨hx, hy⟩ := List.forall_mem_append.mp hx
    exact hf.compiled hi ho (by decide) (both ha hb.present) (.loop (iha hx rfl) (ihb hy rfl))

end Spelling

-- The cells of the symbols of an expression, which several symbols may share.
def IntExpr.cells (x : IntExpr) (place : String → Ref) (r : Ref) : Prop :=
  ∃ name ∈ x.symbols, r = place name

-- The integers of a heap.
def Heap.store (h : Heap) : Store :=
  fun r => h.unbox (some r)

theorem Session.reflects_self {s : Session} {x : IntExpr} (h : ∀ name ∈ x.symbols, s.HasInt name) :
    s.Reflects (x.cells s.place) s.heap.store s where
  rest := rfl
  inside := by
    rintro _ ⟨name, hname, rfl⟩
    obtain ⟨_, n, _, _, hcell⟩ := (h name hname).entry
    have hstore : s.heap.store (s.place name) = n := by
      simp [Heap.store, Heap.unbox, Heap.intOf, Heap.cell?, hcell, Cell.int?]
    rw [hcell, hstore]
  outside _ _ := rfl

theorem compile_computes {s : Session} {expr : Value} {x : IntExpr} (hi : s.Idle)
    (ho : ∀ op ∈ IntExpr.operations, s.Provides op) (hx : Spells [s.heap.form expr] x)
    (hv : ∀ name ∈ x.symbols, s.HasInt name) :
    ∃ code, compile expr .pureInt s.toCompiler = .ok code s.toCompiler ∧
      ∀ link fuel n σ, x.eval s.place fuel s.heap.store = some (n, σ) →
        ∃ t, Returns link code s n t ∧ s.Reflects (x.cells s.place) σ t := by
  have hbound : x.Bound s (x.cells s.place) := fun name hname => ⟨hv name hname, name, hname, rfl⟩
  obtain ⟨code, hcode, hcomputes⟩ := hx.compiled hi ho hbound rfl .pureInt (.inl rfl)
  refine ⟨code, ?_, fun link fuel n σ heval => ?_⟩
  · have hcode : (s.heap.form expr).code .pureInt s.toCompiler = .ok code s.toCompiler := hcode
    simp only [compile, hcode, ← hi.pending, ← hi.seeded]
  · exact hcomputes.raw link (Session.reflects_self hv) heval

-- `(while (lt 0 x) (+ x (mut y (- x 1))))`
def IntExpr.countdown : IntExpr :=
  .loop (.arithmetic .lt (.literal 0) (.symbol "x"))
    (.arithmetic .add (.symbol "x") (.assign "y" (.arithmetic .sub (.symbol "x") (.literal 1))))

-- Where both symbols have the same cell, a sum takes its integer before the assignment changes it.
theorem IntExpr.eval_countdown {place : String → Ref} {σ : Store} (h : place "y" = place "x")
    (hσ : σ (place "x") = 2) :
    ∃ τ, countdown.eval place 3 σ = some (1, τ) ∧ τ (place "x") = 0 := by
  have hpure (n : Int64) (τ : Store) : (pure n : StateT Store Option Int64) τ = some (n, τ) := rfl
  have words :
      Arithmetic.onWords .lt 0 2 = 1 ∧ Arithmetic.onWords .lt 0 1 = 1 ∧ Arithmetic.onWords .lt 0 0 = 0 ∧
      Arithmetic.onWords .sub 2 1 = 1 ∧ Arithmetic.onWords .sub 1 1 = 0 ∧
      Arithmetic.onWords .add 2 1 = 3 ∧ Arithmetic.onWords .add 1 0 = 1 := by decide
  simp [countdown, eval, rounds, bind, StateT.bind, hpure, get, getThe, MonadStateOf.get,
    StateT.get, modify, modifyGet, MonadStateOf.modifyGet, StateT.modifyGet, h, hσ, words]

theorem compile_computes_countdown :
    let text := "(def x 2) (def y x) '(while (lt 0 x) (+ x (mut y (- x 1))))"
    ∃ expr s, SessionM.evalText 100 text (.fresh (.fresh 0 0)) = .ok expr s ∧ s.place "y" = s.place "x" ∧
      ∃ code t, compile expr .pureInt s.toCompiler = .ok code s.toCompiler ∧
        Returns .attached code s (1 : Int64) t ∧ t.heap.get? (s.place "x") = some (.int 0) := by
  intro text
  have hfacts : Ensures (SessionM.evalText 100 text) (.fresh (.fresh 0 0)) (fun expr s =>
      (∀ op ∈ IntExpr.operations, s.Provides op) ∧
      (s.heap.form expr).intExpr? = some .countdown ∧ s.place "y" = s.place "x" ∧
      s.heap.cell? (s.env.lookup "x") = some (.int 2) ∧ s.heap.cell? (s.env.lookup "y") = some (.int 2) ∧
      s.heap.store (s.place "x") = 2) (fun _ => False) := by decide +kernel
  have hrests := (Session.rests_fresh (.fresh 0 0)).evalText 100 text
  cases hm : SessionM.evalText 100 text (.fresh (.fresh 0 0))
  case error => exact (hfacts.of_error hm).elim
  case ok expr s =>
    obtain ⟨ho, hform, hplace, hx, hy, hstore⟩ := hfacts.of_ok hm
    have hvars : ∀ name ∈ IntExpr.countdown.symbols, s.HasInt name := by
      simp [IntExpr.countdown, IntExpr.symbols, Compiler.HasInt, hx, hy]
    obtain ⟨code, hcode, hruns⟩ := compile_computes (hrests.of_ok hm).reachable.idle ho
      ((s.heap.form expr).spells_intExpr?.1 _ hform) hvars
    obtain ⟨τ, heval, hτ⟩ := IntExpr.eval_countdown hplace hstore
    obtain ⟨t, hret, ht⟩ := hruns .attached 3 1 τ heval
    have hcell := ht.inside (s.place "x") ⟨"x", by decide, rfl⟩
    exact ⟨expr, s, rfl, hplace, code, t, hcode, hret, hτ ▸ hcell⟩

end CellLisp
