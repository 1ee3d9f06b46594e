import CellLisp.Proofs.Provenance
import CellLisp.Proofs.Relocation
import Mathlib.Data.List.Forall2

namespace CellLisp

theorem rel_getElem? {α : Type} {R : α → α → Prop} {xs ys : List α} (h : List.Forall₂ R xs ys) (i : Nat) :
    Option.Rel R xs[i]? ys[i]? := by
  induction h generalizing i
  case nil          => exact .none
  case cons hx _ hi =>
    cases i
    case zero   => exact .some hx
    case succ i => exact hi i

structure Simulation where
  Alike : Compiler → Compiler → Prop
  place : Ref → Ref
  -- The cells that expressions are made of, and those that are made while an expression is compiled.
  Known : Ref → Prop
  New   : Ref → Prop
  nil         : place Heap.nilRef = Heap.nilRef
  cells       {d d'} (r) : Alike d d' → d'.heap.get? (place r) = (d.heap.get? r).map (·.relocate place)
  datum       {d d'} (v) : Alike d d' → d'.heap.datum (v.map place) = d.heap.datum v
  elements    {d d'} (v) : Alike d d' → d'.heap.elements (v.map place) = (d.heap.elements v).map place
  names       {d d'} : Alike d d' → d'.env.names = d.env.names
  bindings    {d d'} (e) : Alike d d' → d'.env.binding e = (d.env.binding e).map place
  pending     {d d'} (e) : Alike d d' → d'.pending.lookup e = (d.pending.lookup e).map place
  named       {d d'} (name) : Alike d d' →
    d'.nesting.find? name = (d.nesting.find? name).map (·.relocate place)
  opened      {d d'} (r) : Alike d d' → d'.nesting.contains (place r) = d.nesting.contains r
  depth       {d d'} : Alike d d' → d'.nesting.depth = d.nesting.depth
  alloc       {d d' x} : Alike d d' → (∀ s, .cell s ∈ x.refers → Known s) →
    Alike { d with heap := (d.heap.alloc x).2 } { d' with heap := (d'.heap.alloc (x.relocate place)).2 }
  allocated   {d d'} : Alike d d' → New d.heap.size ∧ d'.heap.size = place d.heap.size
  intern      {d d'} (name) : Alike d d' → Alike (d.interned name) (d'.interned name)
  seed        {d d'} (e r) : Alike d d' →
    Alike { d with env := d.env.bind e r, seeded := e :: d.seeded }
      { d' with env := d'.env.bind e (place r), seeded := e :: d'.seeded }
  bindPending {d d'} (e r) : Alike d d' →
    Alike { d with pending := (e, r) :: d.pending } { d' with pending := (e, place r) :: d'.pending }
  push        {d d' f} : Alike d d' → d.nesting.depth < Nesting.limit →
    Alike { d with nesting := ⟨f :: d.nesting.stack⟩ }
      { d' with nesting := ⟨f.relocate place :: d'.nesting.stack⟩ }
  pop         {d d'} : Alike d d' →
    Alike { d with nesting := d.nesting.pop } { d' with nesting := d'.nesting.pop }
  finish      {d d' r params} (body) : Alike d d' → New r → (∀ s, params = some s → Known s) →
    Alike (d.finished r params body) (d'.finished (place r) (params.map place) (body.relocate place))

namespace Simulation

variable {S : Simulation} {d d' e e' : Compiler} {name : String} {r : Ref} {α β : Type}

-- Where two runs have come to. The literals that were open are open.
structure Leads (S : Simulation) (d e e' : Compiler) : Prop where
  alike   : S.Alike e e'
  nesting : e.nesting = d.nesting

-- Two runs end in the same way. What the second one gives can be told from what the first one gives.
def Matches (S : Simulation) (m m' : CompileM α) (d d' : Compiler) (move : α → α) : Prop :=
  match m d, m' d' with
  | .ok a e, .ok a' e'       => S.Leads d e e' ∧ a' = move a
  | .error x e, .error x' e' => S.Leads d e e' ∧ x' = x
  | _, _                     => False

namespace Matches

variable {m m' : CompileM α} {f f' : α → CompileM β} {move : α → α} {move' : β → β}

theorem pure {a a' : α} (hd : S.Alike d d') (h : a' = move a) :
    S.Matches (Pure.pure a) (Pure.pure a') d d' move :=
  ⟨⟨hd, rfl⟩, h⟩

theorem throw {x x' : CompileError} (hd : S.Alike d d') (h : x' = x) :
    S.Matches (MonadExcept.throw x : CompileM α) (MonadExcept.throw x') d d' move :=
  ⟨⟨hd, rfl⟩, h⟩

theorem cases {motive : Prop} (h : S.Matches m m' d d' move)
    (ok : ∀ a e e', m d = .ok a e → m' d' = .ok (move a) e' → S.Leads d e e' → motive)
    (error : ∀ x e e', m d = .error x e → m' d' = .error x e' → S.Leads d e e' → motive) : motive := by
  unfold Matches at h
  split at h
  case h_1 hm hm' =>
    obtain ⟨hl, rfl⟩ := h
    exact ok _ _ _ hm hm' hl
  case h_2 hm hm' =>
    obtain ⟨hl, rfl⟩ := h
    exact error _ _ _ hm hm' hl
  case h_3 => exact h.elim

theorem of_ok {a : α} (hm : m d = .ok a e) (hm' : m' d' = .ok (move a) e') (hl : S.Leads d e e') :
    S.Matches m m' d d' move := by
  simp only [Matches, hm, hm']
  exact ⟨hl, trivial⟩

theorem of_error {x : CompileError} (hm : m d = .error x e) (hm' : m' d' = .error x e')
    (hl : S.Leads d e e') : S.Matches m m' d d' move := by
  simp only [Matches, hm, hm']
  exact ⟨hl, trivial⟩

theorem congr {m'' : CompileM α} (h : S.Matches m m' d d' move) (hm : m'' d' = m' d') :
    S.Matches m m'' d d' move := by
  unfold Matches at h ⊢
  rwa [hm]

theorem step {a a' : α} (h : S.Matches (f a) (f' a') e e' move') (hm : m d = .ok a e)
    (hm' : m' d' = .ok a' e') (hn : e.nesting = d.nesting) : S.Matches (m >>= f) (m' >>= f') d d' move' := by
  refine h.cases (fun b u u' hb hb' hu => ?_) (fun x u u' hb hb' hu => ?_)
  · exact of_ok ((bind_eq_of_ok hm).trans hb) ((bind_eq_of_ok hm').trans hb')
      ⟨hu.alike, hu.nesting.trans hn⟩
  · exact of_error ((bind_eq_of_ok hm).trans hb) ((bind_eq_of_ok hm').trans hb')
      ⟨hu.alike, hu.nesting.trans hn⟩

-- What is only read.
theorem read {a a' : α} (hm : m d = .ok a d) (hm' : m' d' = .ok a' d')
    (h : S.Matches (f a) (f' a') d d' move') : S.Matches (m >>= f) (m' >>= f') d d' move' :=
  h.step hm hm' rfl

theorem bind (h : S.Matches m m' d d' move)
    (hf : ∀ a e e', S.Alike e e' → S.Matches (f a) (f' (move a)) e e' move') :
    S.Matches (m >>= f) (m' >>= f') d d' move' := by
  refine h.cases (fun a e e' hm hm' hl => (hf a e e' hl.alike).step hm hm' hl.nesting)
    (fun x e e' hm hm' hl => ?_)
  have hbind : (m >>= f) d = .error x e := by simp only [Bind.bind, EStateM.bind, hm]
  have hbind' : (m' >>= f') d' = .error x e' := by simp only [Bind.bind, EStateM.bind, hm']
  exact of_error hbind hbind' hl

end Matches

theorem cell?_eq (hd : S.Alike d d') (v : Value) :
    d'.heap.cell? (v.map S.place) = (d.heap.cell? v).map (·.relocate S.place) := by
  cases v
  case none   => rfl
  case some r => exact S.cells r hd

theorem datum_eq (hd : S.Alike d d') (f : Form) :
    d'.heap.datum (f.relocate S.place).value = d.heap.datum f.value := by
  rw [Form.value_relocate, S.datum _ hd]

theorem entry?_eq (hd : S.Alike d d') (name : String) : d'.env.entry? name = d.env.entry? name := by
  rw [Env.entry?_eq_names, Env.entry?_eq_names, S.names hd]

theorem lookup_eq (hd : S.Alike d d') (name : String) : d'.lookup name = (d.lookup name).map S.place := by
  unfold Compiler.lookup
  rw [entry?_eq hd]
  cases d.env.entry? name
  case none   => rfl
  case some e =>
    simp only [Option.bind_some, Compiler.visible, S.pending e hd, S.bindings e hd]
    cases d.pending.lookup e <;> rfl

theorem isFunction_eq (hd : S.Alike d d') (f : Form) :
    d'.isFunction (f.relocate S.place) = d.isFunction f := by
  have hbuiltin (name : String) : (d'.heap.cell? (d'.lookup name)).bind Cell.builtin? =
      (d.heap.cell? (d.lookup name)).bind Cell.builtin? := by
    rw [lookup_eq hd, cell?_eq hd]
    cases d.heap.cell? (d.lookup name)
    case none   => rfl
    case some x => exact x.builtin?_relocate S.place
  simp only [Compiler.isFunction, Form.head_relocate, Form.symbol?_relocate, hbuiltin]

theorem intern_matches (hd : S.Alike d d') (name : String) :
    S.Matches (CompileM.intern name) (CompileM.intern name) d d' id := by
  refine ⟨⟨S.intern name hd, rfl⟩, ?_⟩
  have hsize : d'.env.entries.size = d.env.entries.size := by
    rw [← Env.size, ← Env.length_names, S.names hd, Env.length_names, Env.size]
  show (d'.env.intern name).1 = (d.env.intern name).1
  unfold Env.intern
  rw [entry?_eq hd]
  cases d.env.entry? name
  case none   => exact hsize
  case some e => rfl

theorem tagAt_matches {f f' : Tag → CompileM α} {move : α → α} (hd : S.Alike d d')
    (hf : ∀ tag, S.Matches (f tag) (f' tag) d d' move) :
    S.Matches (Compile.tagAt r >>= f) (Compile.tagAt (S.place r) >>= f') d d' move := by
  refine .read (Compile.tagAt_eq d r) (Compile.tagAt_eq d' _) ?_
  rw [S.cells r hd]
  cases d.heap.get? r
  case none   => exact hf _
  case some x => simpa using hf x.tag

theorem seed_matches (hd : S.Alike d d') (e : EntryId) (r : Ref) :
    S.Matches (CompileM.seed e r) (CompileM.seed e (S.place r)) d d' id :=
  ⟨⟨S.seed e r hd, rfl⟩, rfl⟩

theorem bindPending_matches (hd : S.Alike d d') (e : EntryId) (r : Ref) :
    S.Matches (CompileM.bindPending e r) (CompileM.bindPending e (S.place r)) d d' id :=
  ⟨⟨S.bindPending e r hd, rfl⟩, rfl⟩

theorem alloc_matches {x : Cell} (hd : S.Alike d d') (hx : ∀ s, .cell s ∈ x.refers → S.Known s) :
    S.Matches (CompileM.alloc x) (CompileM.alloc (x.relocate S.place)) d d' S.place :=
  ⟨⟨S.alloc hd hx, rfl⟩, (S.allocated hd).2⟩

-- What is known of a part that may be compiled in other ways on both sides.
structure Fits (S : Simulation) (p p' : Part) : Prop where
  form     : p'.form = p.form.relocate S.place
  code     : ∀ d d' required, S.Alike d d' →
    S.Matches (p.code required) (p'.code required) d d' (Code.relocate S.place)
  function : ∀ d d' name, S.Alike d d' → S.Matches (p.function name) (p'.function name) d d' S.place

end Simulation

namespace Compile

open Simulation

variable {S : Simulation} {d d' : Compiler} {whole : Form} {required : Rep} {name : String} {e : EntryId}
  {r : Ref} {α : Type} {move : α → α}

theorem coerce_matches {shape : Shape} {value value' : Code shape.kind} (hd : S.Alike d d')
    (hv : value' = value.relocate S.place) :
    S.Matches (coerce whole shape value required) (coerce (whole.relocate S.place) shape value' required)
      d d' (Code.relocate S.place) := by
  unfold coerce
  split
  case h_1 => exact .pure hd (by rw [hv, Coercion.relocate_apply])
  case h_2 => exact .read rfl rfl (.throw hd (by rw [datum_eq hd]))

theorem relocate_emptyValue (required : Rep) :
    emptyValue required = (emptyValue required).relocate S.place := by
  cases required
  case cons => exact congrArg Code.literal S.nil.symm
  case any  => exact congrArg Code.literal S.nil.symm
  all_goals rfl

theorem lost_matches (hd : S.Alike d d') :
    S.Matches (lost r : CompileM α) (lost (S.place r)) d d' move :=
  .read rfl rfl (.throw hd (congrArg (CompileError.unknownOperator · .lost) (S.datum (some r) hd)))

theorem literal_matches (hd : S.Alike d d') (f : Form) :
    S.Matches (literal f required) (literal (f.relocate S.place) required) d d' (Code.relocate S.place) := by
  cases f
  case absent   => exact .pure hd (relocate_emptyValue required)
  case cons     => exact coerce_matches hd rfl
  case atom r x =>
    cases x
    case int =>
      cases required
      case pureInt => exact .pure hd rfl
      all_goals
        simp only [literal, Form.relocate, Cell.relocate]
        exact coerce_matches hd rfl
    case spoilt rest =>
      cases rest
      case cons => exact lost_matches hd
      all_goals exact coerce_matches hd rfl
    all_goals exact coerce_matches hd rfl

theorem assume_matches (hd : S.Alike d d') :
    S.Matches (CompileM.assume e) (CompileM.assume e) d d' (Option.map S.place) := by
  unfold CompileM.assume
  refine .read rfl rfl ?_
  rw [S.pending e hd, S.bindings e hd]
  cases d.pending.lookup e
  case none   => exact .pure hd rfl
  case some r =>
    cases d.env.binding e
    case none   => exact (seed_matches hd e r).bind fun _ _ _ hd => .pure hd rfl
    case some _ => exact .pure hd rfl

theorem zero_matches (hd : S.Alike d d') :
    S.Matches (CompileM.alloc (.int 0)) (CompileM.alloc (.int 0)) d d' S.place :=
  alloc_matches hd (by simp [Cell.refers])

theorem defaultBinding_matches (hd : S.Alike d d') :
    S.Matches (defaultBinding name required) (defaultBinding name required) d d' S.place := by
  cases required
  case cons  => exact .pure hd S.nil.symm
  case bytes => exact .throw hd rfl
  all_goals exact zero_matches hd

theorem assumeOr_matches {default : CompileM Ref} (hd : S.Alike d d')
    (hdefault : ∀ d d', S.Alike d d' → S.Matches default default d d' S.place) :
    S.Matches (assumeOr e default) (assumeOr e default) d d' S.place := by
  refine (assume_matches hd).bind fun v _ _ hd => ?_
  cases v
  case some => exact .pure hd rfl
  case none =>
    refine (hdefault _ _ hd).bind fun r _ _ hd => ?_
    exact (seed_matches hd e r).bind fun _ _ _ hd => .pure hd rfl

theorem symbol_matches (hd : S.Alike d d') :
    S.Matches (symbol whole name required) (symbol (whole.relocate S.place) name required) d d'
      (Code.relocate S.place) := by
  refine (intern_matches hd name).bind fun e _ _ hd => ?_
  refine (assumeOr_matches hd fun _ _ hd => defaultBinding_matches hd).bind fun r _ _ hd => ?_
  exact tagAt_matches hd fun tag => coerce_matches hd rfl

theorem atom_matches {x : Cell} (hd : S.Alike d d') :
    S.Matches (atom r x required) (atom (S.place r) (x.relocate S.place) required) d d'
      (Code.relocate S.place) := by
  cases x
  case symbol => exact symbol_matches hd
  case spoilt rest =>
    cases rest
    case symbol => exact lost_matches hd
    all_goals
      simp only [atom, Cell.relocate]
      exact literal_matches hd (.atom r (.spoilt _ _))
  all_goals
    simp only [atom, Cell.relocate]
    exact literal_matches hd (.atom r _)

theorem isConstant_relocate (f : Form) : isConstant (f.relocate S.place) = isConstant f := by
  simp [isConstant]

section Application

variable {op : Builtin} {args args' : List Part} (hd : S.Alike d d') (ha : List.Forall₂ S.Fits args args')

include hd

theorem missing_matches : S.Matches (Application.missing ⟨whole, op, args⟩ : CompileM α)
    (Application.missing ⟨whole.relocate S.place, op, args'⟩) d d' move :=
  .read rfl rfl (.throw hd (by rw [datum_eq hd]))

include ha

theorem arg_matches {i : Nat} {f f' : Part → CompileM α}
    (hf : ∀ p p', S.Fits p p' → S.Matches (f p) (f' p') d d' move) :
    S.Matches (Application.arg ⟨whole, op, args⟩ i >>= f)
      (Application.arg ⟨whole.relocate S.place, op, args'⟩ i >>= f') d d' move := by
  have hi := rel_getElem? ha i
  unfold Application.arg
  dsimp only
  revert hi
  generalize args[i]? = p, args'[i]? = p'
  intro hi
  cases hi
  case some h => exact .read rfl rfl (hf _ _ h)
  case none   =>
    have hm : (Application.missing ⟨whole, op, args⟩ >>= f) d =
        .error (.argumentCount op (d.heap.datum whole.value)) d := rfl
    have hm' : (Application.missing ⟨whole.relocate S.place, op, args'⟩ >>= f') d' =
        .error (.argumentCount op (d.heap.datum whole.value)) d' := by
      rw [← datum_eq hd]
      rfl
    exact .of_error hm hm' ⟨hd, rfl⟩

theorem branch_matches : S.Matches (branch ⟨whole, op, args⟩ required)
    (branch ⟨whole.relocate S.place, op, args'⟩ required) d d' (Code.relocate S.place) := by
  refine arg_matches hd ha fun condition _ hc => arg_matches hd ha fun yes _ hy => ?_
  refine (hc.code _ _ .pureInt hd).bind fun _ _ _ hd => ?_
  refine (hy.code _ _ required hd).bind fun _ _ _ hd => ?_
  have hno := rel_getElem? ha 2
  dsimp only
  revert hno
  generalize args[2]? = p, args'[2]? = p'
  intro hno
  cases hno
  case none   => exact .pure hd (by rw [Code.relocate, ← relocate_emptyValue])
  case some h => exact (h.code _ _ required hd).bind fun _ _ _ hd => .pure hd rfl

theorem loop_matches : S.Matches (loop ⟨whole, op, args⟩ required)
    (loop ⟨whole.relocate S.place, op, args'⟩ required) d d' (Code.relocate S.place) := by
  refine arg_matches hd ha fun condition _ hc => arg_matches hd ha fun body _ hb => ?_
  refine (hc.code _ _ .pureInt hd).bind fun _ _ _ hd => ?_
  refine (hb.code _ _ required hd).bind fun _ _ _ hd => .pure hd ?_
  rw [Code.relocate, ← relocate_emptyValue]

theorem steps_matches {first first' : Part} (hf : S.Fits first first') :
    S.Matches (steps first args required) (steps first' args' required) d d' (Code.relocate S.place) := by
  induction ha generalizing first first' d d'
  case nil => exact hf.code _ _ required hd
  case cons hsecond _ hi =>
    refine (hf.code _ _ .void hd).bind fun _ _ _ hd => ?_
    exact (hi hd hsecond).bind fun _ _ _ hd => .pure hd rfl

theorem sequence_matches : S.Matches (Compile.sequence ⟨whole, op, args⟩ required)
    (Compile.sequence ⟨whole.relocate S.place, op, args'⟩ required) d d' (Code.relocate S.place) := by
  cases ha
  case nil        => exact missing_matches hd
  case cons hf hr => exact steps_matches hd hr hf

omit ha in
theorem operands_matches {reps : List Rep} {parts parts' : List Part}
    (hp : List.Forall₂ S.Fits parts parts') :
    S.Matches (operands ⟨whole, op, args⟩ reps parts)
      (operands ⟨whole.relocate S.place, op, args'⟩ reps parts') d d' (Operands.relocate S.place) := by
  induction reps generalizing parts parts' d d'
  case nil => exact .pure hd rfl
  case cons rep reps hi =>
    cases hp
    case nil          => exact missing_matches hd
    case cons hpart hrest =>
      refine (hpart.code _ _ rep hd).bind fun _ _ _ hd => ?_
      exact (hi hd hrest).bind fun _ _ _ hd => .pure hd rfl

theorem primitive_matches {signature : Signature} :
    S.Matches (primitive ⟨whole, op, args⟩ signature required)
      (primitive ⟨whole.relocate S.place, op, args'⟩ signature required) d d' (Code.relocate S.place) :=
  (operands_matches hd ha).bind fun _ _ _ hd => coerce_matches hd rfl

theorem target_matches :
    S.Matches (target ⟨whole, op, args⟩) (target ⟨whole.relocate S.place, op, args'⟩) d d' id := by
  refine arg_matches hd ha fun part part' hp => ?_
  rw [hp.form, Form.symbol?_relocate]
  cases part.form.symbol?
  case none      => exact .read rfl rfl (.throw hd (by rw [datum_eq hd, Form.tag_relocate]))
  case some name => exact (intern_matches hd name).bind fun _ _ _ hd => .pure hd rfl

theorem assignment_matches : S.Matches (assignment ⟨whole, op, args⟩ required)
    (assignment ⟨whole.relocate S.place, op, args'⟩ required) d d' (Code.relocate S.place) := by
  refine (target_matches hd ha).bind fun t _ _ hd => ?_
  refine arg_matches hd ha fun part part' hp => ?_
  refine (assumeOr_matches hd fun _ _ hd => zero_matches hd).bind fun r _ _ hd => ?_
  refine tagAt_matches hd fun tag => ?_
  split
  case isTrue  => exact (hp.code _ _ .pureInt hd).bind fun _ _ _ hd => coerce_matches hd rfl
  case isFalse => exact (hp.code _ _ .any hd).bind fun _ _ _ hd => coerce_matches hd rfl

omit ha in
theorem definedValue_matches {part part' : Part} (hp : S.Fits part part') :
    S.Matches (definedValue name e part required) (definedValue name e part' required) d d'
      (Code.relocate S.place) := by
  refine .read (isFunctionForm_eq d _) (isFunctionForm_eq d' _) ?_
  rw [hp.form, isFunction_eq hd]
  split
  case isTrue =>
    refine (hp.function _ _ (some name) hd).bind fun r _ _ hd => ?_
    exact (bindPending_matches hd e r).bind fun _ _ _ hd => .pure hd rfl
  case isFalse =>
    have hbound : S.Matches (boundCode part required) (boundCode part' required) d d'
        (Code.relocate S.place) := by
      cases required <;> exact hp.code _ _ _ hd
    refine hbound.bind fun _ _ _ hd => ?_
    rw [isConstant_relocate, Form.value_relocate]
    split
    case isFalse => exact .pure hd rfl
    case isTrue  =>
      cases part.form.value
      case none   => exact .pure hd rfl
      case some r => exact (bindPending_matches hd e r).bind fun _ _ _ hd => .pure hd rfl

omit ha in
theorem definitionResult_matches {expr : Form} {stored stored' : Code .cell}
    (hs : stored' = stored.relocate S.place) :
    S.Matches (definitionResult expr stored required)
      (definitionResult (expr.relocate S.place) stored' required) d d' (Code.relocate S.place) := by
  have hnarrow (required : Rep) : S.Matches (definitionResult.narrow expr stored required)
      (definitionResult.narrow (expr.relocate S.place) stored' required) d d' (Code.relocate S.place) := by
    unfold definitionResult.narrow
    rw [isConstant_relocate, Form.tag_relocate]
    split
    case isTrue  => exact coerce_matches hd hs
    case isFalse => exact coerce_matches hd hs
  cases required
  case pureInt => exact hnarrow .pureInt
  case int     => exact hnarrow .int
  case void    => exact .pure hd (congrArg Code.discard hs)
  all_goals exact .pure hd hs

theorem definition_matches : S.Matches (definition ⟨whole, op, args⟩ required)
    (definition ⟨whole.relocate S.place, op, args'⟩ required) d d' (Code.relocate S.place) := by
  refine (target_matches hd ha).bind fun t _ _ hd => ?_
  refine arg_matches hd ha fun part part' hp => ?_
  refine (definedValue_matches hd hp).bind fun _ _ _ hd => ?_
  rw [hp.form]
  exact definitionResult_matches hd rfl

end Application

-- An open literal is closed again, whether its body can be compiled or not.
theorem within_matches {f : OpenFunction} {body body' : CompileM (Code .cell)} (hd : S.Alike d d')
    (hb : ∀ d d', S.Alike d d' → S.Matches body body' d d' (Code.relocate S.place)) :
    S.Matches (CompileM.within f body) (CompileM.within (f.relocate S.place) body') d d'
      (Code.relocate S.place) := by
  have hdepth := S.depth hd
  by_cases hlt : d.nesting.depth < Nesting.limit
  case neg =>
    have hfull : CompileM.within f body d = .error .nestingOverflow d := by
      simp [CompileM.within, Nesting.push?, hlt]
    have hfull' : CompileM.within (f.relocate S.place) body' d' = .error .nestingOverflow d' := by
      simp [CompileM.within, Nesting.push?, hdepth, hlt]
    exact .of_error hfull hfull' ⟨hd, rfl⟩
  case pos =>
    have hopen := hb _ _ (S.push (f := f) hd hlt)
    have hpush : d.nesting.push? f = some ⟨f :: d.nesting.stack⟩ := if_pos hlt
    have hpush' : d'.nesting.push? (f.relocate S.place) = some ⟨f.relocate S.place :: d'.nesting.stack⟩ :=
      if_pos (hdepth ▸ hlt)
    have closed {u u' : Compiler} (hl : S.Leads { d with nesting := ⟨f :: d.nesting.stack⟩ } u u') :
        S.Leads d { u with nesting := u.nesting.pop } { u' with nesting := u'.nesting.pop } :=
      ⟨S.pop hl.alike, congrArg Nesting.pop hl.nesting⟩
    refine hopen.cases (fun a u u' hm hm' hl => ?_) (fun x u u' hm hm' hl => ?_)
    · exact .of_ok (a := a) (by simp only [CompileM.within, hpush, hm])
        (by simp only [CompileM.within, hpush', hm']) (closed hl)
    · exact .of_error (x := x) (by simp only [CompileM.within, hpush, hm])
        (by simp only [CompileM.within, hpush', hm']) (closed hl)

variable {args args' : List Part} (hd : S.Alike d d') (hw : whole.All S.Known)
  (ha : List.Forall₂ S.Fits args args')

include hd

theorem finish_matches {params : Value} (code : Code .cell) (hr : S.New r)
    (hp : ∀ s, params = some s → S.Known s) :
    S.Matches (CompileM.finish r params code)
      (CompileM.finish (S.place r) (params.map S.place) (code.relocate S.place)) d d' id :=
  ⟨⟨S.finish code hd hr hp, rfl⟩, rfl⟩

omit hd in
theorem callee_matches (hd : S.Alike d d') :
    S.Matches (callee whole r) (callee (whole.relocate S.place) (S.place r)) d d'
      (Callee.relocate S.place) := by
  refine .read rfl rfl ?_
  simp only [Heap.cell?, Option.bind_some, S.cells r hd, Option.bind_map, Function.comp_def,
    Cell.code?_relocate]
  cases (d.heap.get? r).bind Cell.code?
  case some => exact .pure hd rfl
  case none =>
    refine .read rfl rfl ?_
    rw [S.opened r hd]
    split
    case isTrue  => exact .pure hd rfl
    case isFalse => exact .read rfl rfl (.throw hd (by rw [datum_eq hd]))

include ha

theorem arguments_matches (params : List Ref) :
    S.Matches (arguments params args) (arguments (params.map S.place) args') d d'
      (List.map (Code.relocate S.place)) := by
  induction params generalizing args args' d d'
  case nil =>
    cases args <;> cases args' <;> exact .pure hd rfl
  case cons param params hi =>
    cases ha
    case nil => exact .pure hd rfl
    case cons harg hrest =>
      refine .read rfl rfl ?_
      simp only [Heap.cell?, Option.bind_some, S.cells param hd, Option.bind_map, Function.comp_def,
        Cell.symbol?_relocate]
      cases (d.heap.get? param).bind Cell.symbol?
      case none =>
        refine .read rfl rfl (tagAt_matches hd fun tag => .throw hd ?_)
        rw [← S.datum (some param) hd]
        rfl
      case some name =>
        refine (intern_matches hd name).bind fun e _ _ hd => ?_
        refine (harg.code _ _ .any hd).bind fun _ _ _ hd => ?_
        exact (hi hd hrest).bind fun _ _ _ hd => .pure hd rfl

theorem call_matches : S.Matches (call whole r args required)
    (call (whole.relocate S.place) (S.place r) args' required) d d' (Code.relocate S.place) := by
  refine .read rfl rfl ?_
  simp only [Heap.cell?, Option.bind_some, S.cells r hd, Option.bind_map, Function.comp_def,
    Cell.params?_relocate]
  have hparams : (d.heap.get? r).bind (fun x => x.params?.map S.place) =
      ((d.heap.get? r).bind Cell.params?).map S.place := Option.map_bind.symm
  rw [hparams, S.elements _ hd, ← List.map_dropLast]
  refine (arguments_matches hd ha _).bind fun bindings _ _ hd => ?_
  refine (callee_matches hd).bind fun callee _ _ hd => ?_
  exact coerce_matches hd (Code.relocate_sequences S.place bindings (.call callee)).symm

include hw

theorem functionLiteral_matches (name : Option String) :
    S.Matches (functionLiteral whole args name) (functionLiteral (whole.relocate S.place) args' name)
      d d' S.place := by
  have hparams : ∀ s, whole.tail.value = some s → S.Known s := fun _ hs => hw.tail.value hs
  have hlast : Option.Rel S.Fits args.getLast? args'.getLast? := by
    rw [List.getLast?_eq_getElem?, List.getLast?_eq_getElem?, ha.length_eq]
    exact rel_getElem? ha _
  unfold functionLiteral
  revert hlast
  generalize args.getLast? = p, args'.getLast? = p'
  intro hlast
  cases hlast
  case none => exact .read rfl rfl (.throw hd (by rw [datum_eq hd]))
  case some body body' hbody =>
    have hcell : ∀ s, .cell s ∈ (Cell.lambda whole.tail.value none).refers → S.Known s := by
      intro s hs
      exact hparams s (by simpa [Cell.refers] using hs)
    simp only [Form.tail_relocate, Form.value_relocate]
    obtain ⟨hnew, hplace⟩ := S.allocated hd
    have hwithin := within_matches (f := ⟨name, d.heap.size⟩) (S.alloc hd hcell) fun d d' hd =>
      hbody.code d d' .any hd
    have halloc : CompileM.alloc (Cell.relocate S.place (.lambda whole.tail.value none)) d' =
        .ok (S.place d.heap.size)
          { d' with heap := (d'.heap.alloc (Cell.relocate S.place (.lambda whole.tail.value none))).2 } := by
      rw [← hplace]
      rfl
    refine .step ?_ rfl halloc rfl
    refine hwithin.bind fun code _ _ hd => ?_
    exact (finish_matches hd code hnew hparams).bind fun _ _ _ hd => .pure hd rfl

theorem builtin_matches {op : Builtin} : S.Matches (builtin ⟨whole, op, args⟩ required)
    (builtin ⟨whole.relocate S.place, op, args'⟩ required) d d' (Code.relocate S.place) := by
  unfold builtin
  dsimp only
  split
  case h_1 => exact branch_matches hd ha
  case h_2 => exact loop_matches hd ha
  case h_3 => exact sequence_matches hd ha
  case h_4 => exact definition_matches hd ha
  case h_5 => exact assignment_matches hd ha
  case h_6 => exact (functionLiteral_matches hd hw ha none).bind fun r _ _ hd => coerce_matches hd rfl
  case h_7 =>
    refine arg_matches hd ha fun part part' hp => ?_
    rw [hp.form]
    exact literal_matches hd _
  case h_8 =>
    refine arg_matches hd ha fun part part' hp => ?_
    exact (hp.code _ _ .any hd).bind fun _ _ _ hd => coerce_matches hd rfl
  case h_9 =>
    refine arg_matches hd ha fun part part' hp => ?_
    refine (hp.code _ _ .any hd).bind fun _ _ _ hd => ?_
    unfold printed
    split
    case h_1 => exact .pure hd rfl
    case h_2 => exact coerce_matches hd rfl
  case h_10 =>
    split
    case h_1 => exact primitive_matches hd ha
    case h_2 => exact .read rfl rfl (.throw hd (by rw [datum_eq hd]))

theorem apply_matches : S.Matches (apply whole r args required)
    (apply (whole.relocate S.place) (S.place r) args' required) d d' (Code.relocate S.place) := by
  have hother : S.Matches
      (do throw (.unknownOperator (← CompileM.datum whole.value) (.notApplicable (← tagAt r))) :
        CompileM (Code required.kind))
      (do throw (.unknownOperator (← CompileM.datum (whole.relocate S.place).value)
        (.notApplicable (← tagAt (S.place r))))) d d' (Code.relocate S.place) :=
    .read rfl rfl (tagAt_matches hd fun tag => .throw hd (by rw [datum_eq hd]))
  refine .read rfl rfl ?_
  simp only [Heap.cell?, Option.bind_some, S.cells r hd]
  cases d.heap.get? r
  case none   => exact hother
  case some x =>
    cases x
    case builtin opcode =>
      simp only [Option.map_some, Cell.relocate]
      split
      case h_1 => exact builtin_matches hd hw ha
      case h_2 => exact .read rfl rfl (.throw hd (by rw [datum_eq hd]))
    case lambda => exact call_matches hd ha
    case spoilt rest =>
      cases rest
      case lambda => exact lost_matches hd
      all_goals exact hother
    all_goals exact hother

theorem applySymbol_matches : S.Matches (applySymbol whole name args required)
    (applySymbol (whole.relocate S.place) name args' required) d d' (Code.relocate S.place) := by
  refine .read rfl rfl ?_
  rw [S.named name hd]
  cases d.nesting.find? name
  case some f => exact call_matches hd ha
  case none   =>
    refine .read rfl rfl ?_
    rw [lookup_eq hd]
    cases d.lookup name
    case some => exact apply_matches hd hw ha
    case none => exact .throw hd rfl

theorem application_matches {operator operator' : Part} (ho : S.Fits operator operator') :
    S.Matches (application whole operator args required)
      (application (whole.relocate S.place) operator' args' required) d d' (Code.relocate S.place) := by
  unfold application
  rw [ho.form]
  cases hform : operator.form
  case absent   => exact .read rfl rfl (.throw hd (by rw [datum_eq hd]))
  case atom r x =>
    cases x
    case symbol      => exact applySymbol_matches hd hw ha
    case spoilt rest => cases rest <;> exact apply_matches hd hw ha
    all_goals exact apply_matches hd hw ha
  case cons =>
    refine .read (isFunctionForm_eq d _) (isFunctionForm_eq d' _) ?_
    rw [isFunction_eq hd]
    split
    case isTrue  => exact (ho.function _ _ none hd).bind fun r _ _ hd => call_matches hd ha
    case isFalse => exact ho.code _ _ required hd

end Compile

namespace Form

-- The same expression again, with another way to compile each of its parts.
def rebuilt (wrap : Part → Part) : Form → Part × List Part
  | absent           => (wrap absent.part, [])
  | atom r c         => (wrap (atom r c).part, [])
  | cons r head tail =>
    let operator := ((head ()).rebuilt wrap).1
    let args := ((tail ()).rebuilt wrap).2
    let whole := cons r head tail
    (wrap ⟨whole, Compile.application whole operator args, Compile.functionLiteral whole args⟩,
      if (head ()).isAbsent then [] else operator :: args)

theorem rebuilt_id (f : Form) : f.rebuilt id = (f.part, f.parts) := by
  induction f
  case absent => simp [rebuilt, parts]
  case atom   => simp [rebuilt, parts]
  case cons r head tail hhead htail =>
    simp only [rebuilt, hhead, htail]
    rfl

theorem fits_rebuilt {S : Simulation} (wrap : Part → Part)
    (hwrap : ∀ p p', S.Fits p p' → S.Fits p (wrap p')) {f : Form} (hf : f.All S.Known) :
    S.Fits f.part ((f.relocate S.place).rebuilt wrap).1 ∧
      List.Forall₂ S.Fits f.parts ((f.relocate S.place).rebuilt wrap).2 := by
  have hfunction {f : Form} {args args' : List Part} (hf : f.All S.Known)
      (ha : List.Forall₂ S.Fits args args') (d d' : Compiler) (name : Option String) (hd : S.Alike d d') :=
    Compile.functionLiteral_matches hd hf ha name
  induction f
  case absent =>
    refine ⟨hwrap _ _ ⟨rfl, fun d d' required hd => ?_, ?_⟩, by simp [parts, relocate, rebuilt]⟩
    · exact .pure hd (Compile.relocate_emptyValue required)
    · exact hfunction hf .nil
  case atom r x =>
    refine ⟨hwrap _ _ ⟨rfl, fun d d' required hd => ?_, ?_⟩, by simp [parts, relocate, rebuilt]⟩
    · exact Compile.atom_matches hd
    · exact hfunction hf .nil
  case cons r head tail hhead htail =>
    obtain ⟨ho, _⟩ := hhead () hf.2.1
    obtain ⟨_, ha⟩ := htail () hf.2.2
    refine ⟨hwrap _ _ ⟨rfl, fun d d' required hd => ?_, hfunction hf ha⟩, ?_⟩
    · exact Compile.application_matches hd hf ha ho
    · simp only [parts, relocate, rebuilt, isAbsent_relocate]
      split
      case isTrue  => exact .nil
      case isFalse => exact .cons ho ha

theorem fits_part {S : Simulation} {f : Form} (hf : f.All S.Known) :
    S.Fits f.part (f.relocate S.place).part := by
  have ⟨h, _⟩ := fits_rebuilt id (fun _ _ h => h) hf
  rwa [rebuilt_id] at h

end Form

-- An expression is compiled as another one is in another state: to the same code up to the places of cells,
-- or with the same error.
def CompilesAlike (place : Ref → Ref) (required : Rep) (expr : Value) (c : Compiler) (expr' : Value)
    (c' : Compiler) : Prop :=
  match compile expr required c, compile expr' required c' with
  | .ok code _, .ok code' _ => code' = code.relocate place
  | .error x _, .error x' _ => x' = x
  | _, _                    => False

theorem Simulation.compilesAlike {S : Simulation} {c c' : Compiler} {expr expr' : Value} (required : Rep)
    (hc : S.Alike c c') (hk : (c.heap.form expr).All S.Known)
    (hf : c'.heap.form expr' = (c.heap.form expr).relocate S.place) :
    CompilesAlike S.place required expr c expr' c' := by
  refine ((Form.fits_part hk).code c c' required hc).cases (fun a e e' hm hm' _ => ?_)
    (fun x e e' hm hm' _ => ?_)
  all_goals
    simp only [Form.part] at hm hm'
    simp only [CompilesAlike, compile, hf, hm, hm']

end CellLisp
