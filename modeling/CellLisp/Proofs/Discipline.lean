import CellLisp.Compiler.Expression
import CellLisp.Proofs.Growth

namespace CellLisp

open Compiler (Grows)

theorem Nesting.contains_iff {n : Nesting} {r : Ref} : n.contains r ↔ ∃ f ∈ n.stack, f.lambda = r := by
  simp [contains]

-- The innermost literal is closed and gets its code, both at once: in between its cell is of no use.
def Compiler.closed (c : Compiler) (lambda : Ref) (params : Value) (body : Code .cell) : Compiler :=
  { c with
    heap    := c.heap.set lambda (.lambda params (some c.codes.size))
    codes   := c.codes.push body
    nesting := c.nesting.pop }

structure Discipline where
  Stands : Compiler → Prop
  Fine   : Ref → Compiler → Prop
  Fair   : Mention → Compiler → Prop
  sound       {c} : Stands c → c.Sound
  lt          {r c} : Fine r c → r < c.heap.size
  within      {m c} : Fair m c → m.refers.Within c.extent
  fine_mono   {r c d} : Fine r c → c.Grows d → Fine r d
  fair_mono   {m c d} : Fair m c → c.Grows d → Fair m d
  shared      {c} : Stands c → Fine Heap.nilRef c
  bindings    {e r c} : Stands c → c.env.binding e = some r → Fine r c
  pending     {p c} : Stands c → p ∈ c.pending → Fine p.2 c
  nesting     {f c} : Stands c → f ∈ c.nesting.stack → Fine f.lambda c
  part        {r s x c} : Stands c → Fine r c → c.heap.get? r = some x → .cell s ∈ x.refers → Fine s c
  literal     {r c} : Fine r c → Fair (.literal r) c
  bound       {e c} : Stands c → c.env.binding e ≠ none → Fair (.load e) c ∧ Fair (.assign e) c
  store       {e c} : Stands c → e < c.env.size → Fair (.store e) c
  embedded    {r x id c} : Stands c → Fine r c → c.heap.get? r = some x → x.code? = some id →
    Fair (.call (.code id)) c
  forward     {r c} : Stands c → c.nesting.contains r → Fair (.call (.lambda r)) c
  alloc       {x c} : Stands c → (∀ n ∈ x.refers, ∃ r, n = .cell r ∧ Fine r c) → x.Whole →
    Stands { c with heap := (c.heap.alloc x).2 } ∧ Fine c.heap.size { c with heap := (c.heap.alloc x).2 }
  intern      {c} (name) : Stands c → Stands { c with env := (c.env.intern name).2 }
  seed        {e r c} : Stands c → c.env.binding e = none → Fine r c →
    Stands { c with env := c.env.bind e r, seeded := e :: c.seeded }
  bindPending {e r c} : Stands c → Fine r c → Stands { c with pending := (e, r) :: c.pending }
  opens       {f nesting c} : Stands c → Fine f.lambda c → nesting.stack = f :: c.nesting.stack →
    Stands { c with nesting } ∧ ∀ r, Fine r c → Fine r { c with nesting }
  closes      {f stack params body d} : Stands d → d.nesting.stack = f :: stack →
    d.heap.get? f.lambda = some (.lambda params none) → body.All (Fair · d) →
    Stands (d.closed f.lambda params body) ∧ Fine f.lambda (d.closed f.lambda params body)

-- All cells of the expression have a property.
def Form.All (P : Ref → Prop) : Form → Prop
  | absent           => True
  | atom r _         => P r
  | cons r head tail => P r ∧ (head ()).All P ∧ (tail ()).All P

theorem Form.All.value {P : Ref → Prop} {f : Form} (h : f.All P) {r : Ref} (hr : f.value = some r) :
    P r := by
  cases f <;> simp only [Form.value, Option.some.injEq, reduceCtorEq] at hr <;> subst hr
  case atom => exact h
  case cons => exact h.1

theorem Form.All.tail {P : Ref → Prop} {f : Form} (h : f.All P) : f.tail.All P := by
  cases f
  case absent => trivial
  case atom   => trivial
  case cons   => exact h.2.2

-- It is enough that the property goes from a pair to its parts.
theorem Heap.formWithin_all {P : Ref → Prop} {h : Heap} {v : Value} (depth : Nat)
    (hv : ∀ r, v = some r → r < h.size → P r)
    (hp : ∀ r x s, P r → h.get? r = some x → .cell s ∈ x.refers → s < h.size → P s) :
    (h.formWithin depth v).All P := by
  induction depth generalizing v
  case zero => trivial
  case succ depth hi =>
    unfold formWithin
    split
    case h_1   => trivial
    case h_2 r =>
      split
      case h_1     => trivial
      case h_2 hr  =>
        have hpr := hv r rfl (lt_size_of_get? hr)
        have part {w : Value} (hw : ∀ s, w = some s → .cell s ∈ (Cell.cons _ _).refers) :
            (h.formWithin depth w).All P :=
          hi fun s hs => hp r _ s hpr hr (hw s hs)
        exact ⟨hpr, part fun s hs => by simp [Cell.refers, hs], part fun s hs => by simp [Cell.refers, hs]⟩
      case h_3 hr  =>
        have hpr := hv r rfl (lt_size_of_get? hr)
        exact ⟨hpr, hpr, hi fun s hs => hp r _ s hpr hr (by simp [Cell.refers, hs])⟩
      case h_4 hr  => exact hv r rfl (lt_size_of_get? hr)

namespace Discipline

variable (D : Discipline)

structure Leads (c d : Compiler) : Prop where
  grows  : c.Grows d
  stands : D.Stands d

-- What is asked of the state before a part of an expression is compiled.
structure Holds (P : Ref → Prop) (c : Compiler) : Prop where
  stands : D.Stands c
  fine   : ∀ r, P r → D.Fine r c

def Admits {k : Kind} (code : Code k) (c : Compiler) : Prop :=
  code.All (D.Fair · c)

def Obeys {α : Type} (m : CompileM α) (c : Compiler) (post : α → Compiler → Prop) : Prop :=
  Ensures m c (fun a d => D.Leads c d ∧ post a d) c.Grows

def Compiles {k : Kind} (m : CompileM (Code k)) (c : Compiler) : Prop :=
  D.Obeys m c D.Admits

structure Fits (P : Ref → Prop) (p : Part) : Prop where
  form     : p.form.All P
  code     : ∀ c required, D.Holds P c → D.Compiles (p.code required) c
  function : ∀ c name, D.Holds P c → D.Obeys (p.function name) c D.Fine

variable {D} {P : Ref → Prop} {b c d : Compiler} {k : Kind} {α β : Type}

namespace Leads

theorem refl (h : D.Stands c) : D.Leads c c :=
  ⟨.refl (D.sound h), h⟩

theorem trans (h : D.Leads b c) (h' : D.Leads c d) : D.Leads b d :=
  ⟨h.grows.trans h'.grows, h'.stands⟩

theorem holds (hd : D.Leads c d) (h : D.Holds P c) : D.Holds P d :=
  ⟨hd.stands, fun r hr => D.fine_mono (h.fine r hr) hd.grows⟩

theorem admits {code : Code k} (hd : D.Leads c d) (h : D.Admits code c) : D.Admits code d :=
  h.imp fun _ hm => D.fair_mono hm hd.grows

end Leads

namespace Obeys

variable {m : CompileM α} {f : α → CompileM β} {post : α → Compiler → Prop}

theorem pure {a : α} (hs : D.Stands c) (h : post a c) : D.Obeys (Pure.pure a) c post :=
  Ensures.pure ⟨.refl hs, h⟩

theorem throw {e : CompileError} (hs : D.Stands c) :
    D.Obeys (MonadExcept.throw e : CompileM α) c post :=
  Ensures.throw (.refl (D.sound hs))

theorem bind {post' : β → Compiler → Prop} (h : D.Obeys m c post)
    (hf : ∀ a d, D.Leads c d → post a d → D.Obeys (f a) d post') : D.Obeys (m >>= f) c post' := by
  refine Ensures.bind (Ensures.imp h (fun a d ⟨hd, ha⟩ => ?_) (fun _ => id))
  exact Ensures.imp (hf a d hd ha) (fun _ _ ⟨hd', hb⟩ => ⟨hd.trans hd', hb⟩)
    (fun _ => hd.grows.trans)

theorem get_bind {f : Compiler → CompileM α} (h : D.Obeys (f c) c post) :
    D.Obeys (get >>= f) c post :=
  h

theorem datum_bind {v : Value} {f : Datum → CompileM α} (h : D.Obeys (f (c.heap.datum v)) c post) :
    D.Obeys (CompileM.datum v >>= f) c post :=
  h

theorem cell?_bind {v : Value} {f : Option Cell → CompileM α}
    (h : D.Obeys (f (c.heap.cell? v)) c post) : D.Obeys (CompileM.cell? v >>= f) c post :=
  h

theorem lookup_bind {name : String} {f : Value → CompileM α}
    (h : D.Obeys (f (c.lookup name)) c post) : D.Obeys (CompileM.lookup name >>= f) c post :=
  h

theorem alloc (x : Cell) (h : D.Stands c) (hx : ∀ n ∈ x.refers, ∃ r, n = .cell r ∧ D.Fine r c)
    (hwhole : x.Whole) : D.Obeys (CompileM.alloc x) c D.Fine :=
  have ⟨hs, hr⟩ := D.alloc h hx hwhole
  have hwithin : ∀ n ∈ x.refers, n.Within c.extent := fun n hn =>
    have ⟨_, hr, hf⟩ := hx n hn
    hr ▸ D.lt hf
  ⟨⟨.alloc (D.sound h) hwithin hwhole, hs⟩, hr⟩

theorem intern (h : D.Stands c) (name : String) :
    D.Obeys (CompileM.intern name) c (fun e d => e < d.env.size) :=
  ⟨⟨.intern (D.sound h) name, D.intern name h⟩, Env.intern_lt _ _⟩

theorem bindPending {e : EntryId} {r : Ref} (h : D.Stands c) (hr : D.Fine r c) :
    D.Obeys (CompileM.bindPending e r) c (fun _ _ => True) :=
  ⟨⟨.bindPending (D.sound h) (D.lt hr), D.bindPending h hr⟩, trivial⟩

end Obeys
end Discipline

theorem Coercion.apply_all {j k : Kind} {P : Mention → Prop} (coercion : Coercion j k)
    {value : Code j} (hv : value.All P) : (coercion.apply value).All P := by
  cases coercion <;> simpa [apply] using hv

namespace Discipline

open Compile

variable {D : Discipline} {P : Ref → Prop} {c d : Compiler} {k : Kind} {α : Type}
variable {required : Rep} {post : α → Compiler → Prop}

theorem coerce_compiles {expr : Form} {actual : Shape} {value : Code actual.kind} (h : D.Stands c)
    (hv : D.Admits value c) : D.Compiles (coerce expr actual value required) c := by
  unfold coerce
  split
  case h_1 coercion _ => exact .pure h (coercion.apply_all hv)
  case h_2            => exact .datum_bind (.throw h)

theorem admits_literal {r : Ref} (h : D.Fine r c) : D.Admits (.literal r) c :=
  Code.all_literal.mpr (D.literal h)

theorem admits_emptyValue (required : Rep) (h : D.Stands c) : D.Admits (emptyValue required) c := by
  cases required
  case cons => exact admits_literal (D.shared h)
  case any  => exact admits_literal (D.shared h)
  all_goals simp [emptyValue, Admits]

theorem lost_obeys {r : Ref} (h : D.Stands c) : D.Obeys (lost r : CompileM α) c post :=
  .datum_bind (.throw h)

theorem literal_compiles {f : Form} (h : D.Holds P c) (hf : f.All P) :
    D.Compiles (Compile.literal f required) c := by
  have coerced {f : Form} {tag : Tag} {r : Ref} (hr : P r) :
      D.Compiles (coerce f (.cell tag) (.literal r) required) c :=
    coerce_compiles h.stands (admits_literal (h.fine r hr))
  unfold Compile.literal
  split
  case h_1 => exact .pure h.stands (admits_emptyValue _ h.stands)
  case h_2 => exact .pure h.stands Code.all_const
  case h_3 => exact lost_obeys h.stands
  case h_4 => exact coerced hf
  case h_5 => exact coerced hf.1

-- A default leaves the environment alone, so that an unbound entry stays so until it is seeded.
def Defaults (D : Discipline) (m : CompileM Ref) (c : Compiler) : Prop :=
  D.Obeys m c (fun r d => D.Fine r d ∧ d.env = c.env)

theorem alloc_int_defaults (h : D.Stands c) (i : Int64) : D.Defaults (CompileM.alloc (.int i)) c :=
  have ⟨hd, hr⟩ := Obeys.alloc (.int i) h (by simp [Cell.refers]) trivial
  ⟨hd, hr, rfl⟩

theorem defaultBinding_defaults (h : D.Stands c) (name : String) (required : Rep) :
    D.Defaults (defaultBinding name required) c := by
  cases required
  case cons  => exact .pure h ⟨D.shared h, rfl⟩
  case bytes => exact .throw h
  all_goals exact alloc_int_defaults h 0

theorem leads_seed {e : EntryId} {r : Ref} (h : D.Stands c) (he : c.env.binding e = none)
    (hr : D.Fine r c) : D.Leads c { c with env := c.env.bind e r, seeded := e :: c.seeded } :=
  ⟨.seed (D.sound h) he (D.lt hr), D.seed h he hr⟩

theorem assume_obeys {e : EntryId} (h : D.Stands c) (he : e < c.env.size) :
    D.Obeys (CompileM.assume e) c (fun v d =>
      (v ≠ none → d.env.binding e ≠ none) ∧ (v = none → d = c ∧ c.env.binding e = none)) := by
  -- A pending binding counts before the real one, and is made real where there is none.
  unfold CompileM.assume
  refine .get_bind ?_
  split
  case h_1 r hr hb =>
    have ⟨_, _, hl, _⟩ := List.lookup_eq_some_iff.mp hr
    have hr : D.Fine r c := D.pending (p := (e, r)) h (by simp [hl])
    exact ⟨leads_seed h hb hr, by simp [Env.bind, Env.binding_setBinding _ he], by simp⟩
  case h_2 hb => exact .pure h ⟨by simp [hb], by simp⟩
  case h_3    => exact .pure h ⟨id, fun hn => ⟨rfl, hn⟩⟩

-- Whatever the entry is read as, it is bound from then on.
theorem assumeOr_obeys {e : EntryId} {default : CompileM Ref} (h : D.Stands c) (he : e < c.env.size)
    (hd : D.Defaults default c) :
    D.Obeys (assumeOr e default) c (fun _ d => d.env.binding e ≠ none) := by
  refine (assume_obeys h he).bind (fun v d hg ⟨hv, hn⟩ => ?_)
  cases v
  case some r => exact .pure hg.stands (hv (by simp))
  case none   =>
    -- Nothing was seeded so far, so the entry is still unbound when it gets its default.
    obtain ⟨rfl, hb⟩ := hn rfl
    refine hd.bind (fun r d' hg' ⟨hr, henv⟩ => ?_)
    refine ⟨leads_seed hg'.stands (henv ▸ hb) hr, ?_⟩
    simp [Env.bind, Env.binding_setBinding _ (henv ▸ he)]

theorem tagAt_bind {r : Ref} {f : Tag → CompileM α} (h : ∀ tag, D.Obeys (f tag) c post) :
    D.Obeys (tagAt r >>= f) c post := by
  unfold tagAt
  rw [bind_assoc]
  refine .cell?_bind ?_
  split
  case h_1 => exact h _
  case h_2 => exact h _

theorem symbol_compiles {expr : Form} {name : String} (h : D.Stands c) :
    D.Compiles (symbol expr name required) c := by
  refine (Obeys.intern h name).bind (fun e d hd he => ?_)
  have hdefault := defaultBinding_defaults hd.stands name required
  refine (assumeOr_obeys hd.stands he hdefault).bind (fun r d' hd' hb => ?_)
  refine tagAt_bind (fun tag => coerce_compiles hd'.stands ?_)
  exact Code.all_load.mpr (D.bound hd'.stands hb).1

theorem atom_compiles {r : Ref} {x : Cell} (h : D.Holds P c) (hr : P r) :
    D.Compiles (Compile.atom r x required) c := by
  unfold Compile.atom
  split
  case h_1 => exact symbol_compiles h.stands
  case h_2 => exact lost_obeys h.stands
  case h_3 => exact literal_compiles h hr

theorem missing_obeys {app : Application} (h : D.Stands c) :
    D.Obeys (app.missing : CompileM α) c post :=
  .datum_bind (.throw h)

theorem arg_bind {app : Application} {i : Nat} {f : Part → CompileM α} (h : D.Stands c)
    (hf : ∀ p ∈ app.args, D.Obeys (f p) c post) : D.Obeys (app.arg i >>= f) c post := by
  unfold Application.arg
  split
  case h_1 p hp => exact hf p (List.mem_of_getElem? hp)
  case h_2 =>
    have hm : D.Obeys (app.missing : CompileM Part) c (fun _ _ => False) := missing_obeys h
    exact hm.bind (fun _ _ _ hf => hf.elim)

theorem isFunctionForm_bind {expr : Form} {f : Bool → CompileM α}
    (h : ∀ b, D.Obeys (f b) c post) : D.Obeys (isFunctionForm expr >>= f) c post := by
  unfold isFunctionForm
  split
  case h_1 => exact h _
  case h_2 => exact h _

theorem steps_compiles {first : Part} {rest : List Part} (h : D.Holds P c) (hf : D.Fits P first)
    (hr : ∀ p ∈ rest, D.Fits P p) : D.Compiles (steps first rest required) c := by
  induction rest generalizing first c
  case nil => exact hf.code c required h
  case cons second rest hi =>
    refine (hf.code c .void h).bind (fun first d hd hfirst => ?_)
    have hsteps := hi (hd.holds h) (hr second (by simp)) (fun p hp => hr p (.tail _ hp))
    refine hsteps.bind (fun last d' hd' hlast => .pure hd'.stands ?_)
    exact Code.all_sequence.mpr ⟨hd'.admits hfirst, hlast⟩

theorem operands_obeys {app : Application} {reps : List Rep} {parts : List Part} (h : D.Holds P c)
    (hp : ∀ p ∈ parts, D.Fits P p) :
    D.Obeys (operands app reps parts) c (fun operands d => operands.All (D.Fair · d)) := by
  induction reps generalizing parts c
  case nil => exact .pure h.stands Code.all_nil
  case cons rep reps hi =>
    cases parts
    case nil => exact missing_obeys h.stands
    case cons part parts =>
      refine ((hp part (by simp)).code c rep h).bind (fun first d hd hfirst => ?_)
      have hrest := hi (hd.holds h) (fun p hmem => hp p (.tail _ hmem))
      refine hrest.bind (fun rest d' hd' hrest => .pure hd'.stands ?_)
      exact Code.all_cons.mpr ⟨hd'.admits hfirst, hrest⟩

-- What the body of an open literal leaves behind, still with the literal open.
structure Within (D : Discipline) (c : Compiler) (f : OpenFunction) (code : Code k) (d : Compiler) :
    Prop where
  stands : D.Stands d
  stack  : d.nesting.stack = f :: c.nesting.stack
  code   : D.Admits code d
  grows  : c.Grows { d with nesting := d.nesting.pop }

-- A literal that is open has its cell in the heap, and is closed again however its body ends.
theorem within_ensures {f : OpenFunction} {body : CompileM (Code k)} (h : D.Holds P c)
    (hf : D.Fine f.lambda c) (hb : ∀ d, D.Holds P d → D.Compiles body d) :
    Ensures (CompileM.within f body) c
      (fun code e => ∃ d, D.Within c f code d ∧ e = { d with nesting := d.nesting.pop }) c.Grows := by
  unfold CompileM.within
  cases hpush : c.nesting.push? f
  case none => simpa [Ensures, hpush] using Grows.refl (D.sound h.stands)
  case some nesting =>
    have hstack : nesting.stack = f :: c.nesting.stack := by
      simp only [Nesting.push?] at hpush
      split at hpush <;> cases hpush
      rfl
    obtain ⟨hopen, hfine⟩ := D.opens h.stands hf hstack
    -- What the body leaves behind is taken with the literal closed again.
    have closed {d : Compiler} (hd : Grows { c with nesting } d) :
        c.Grows { d with nesting := d.nesting.pop } := by
      have hpop : d.nesting.pop = c.nesting := by rw [hd.nesting, Nesting.pop_of_push? hpush]
      have hcells : ∀ g ∈ d.nesting.pop.stack, g.lambda < d.heap.size := fun g hg =>
        Nat.lt_of_lt_of_le ((D.sound h.stands).nesting g (hpop ▸ hg)) hd.size
      exact { hd with
        sound   := { hd.sound with nesting := hcells }
        nesting := hpop }
    have hbody := hb { c with nesting } ⟨hopen, fun r hr => hfine r (h.fine r hr)⟩
    unfold Compiles Obeys Ensures at hbody
    unfold Ensures
    simp only [hpush]
    split at hbody
    case h_2 heq => simpa only [heq] using closed hbody
    case h_1 code d heq =>
      obtain ⟨hd, hcode⟩ := hbody
      simp only [heq]
      exact ⟨d, ⟨hd.stands, hd.grows.nesting ▸ hstack, hcode, closed hd.grows⟩, rfl⟩

theorem functionLiteral_obeys {whole : Form} {args : List Part} (name : Option String)
    (h : D.Holds P c) (hw : whole.All P) (ha : ∀ p ∈ args, D.Fits P p) :
    D.Obeys (functionLiteral whole args name) c D.Fine := by
  unfold functionLiteral
  split
  case h_1 => exact .datum_bind (.throw h.stands)
  case h_2 body hbody =>
    let x : Cell := .lambda whole.tail.value none
    have hx : ∀ n ∈ x.refers, ∃ r, n = .cell r ∧ D.Fine r c := by
      simp only [x, Cell.refers, Option.toList_none, List.map_nil, List.append_nil,
        Referent.mem_ofValue]
      rintro _ ⟨r, hr, rfl⟩
      exact ⟨r, rfl, h.fine r (hw.tail.value hr)⟩
    obtain ⟨hd, hf⟩ := Obeys.alloc x h.stands hx trivial
    have hbody := within_ensures (f := ⟨name, c.heap.size⟩) (hd.holds h) hf
      (fun d hd => (ha body (List.mem_of_getLast? hbody)).code d .any hd)
    -- Only the whole literal grows the state: the step that fills in the code changes a cell.
    refine Ensures.bind (m := CompileM.alloc x) ?_
    refine Ensures.bind (m := CompileM.within _ _) ?_
    refine Ensures.imp hbody (fun code e he => ?_) (fun _ => hd.grows.trans)
    obtain ⟨d, hw, rfl⟩ := he
    have hlambda : d.heap.get? c.heap.size = some x :=
      (hw.grows.cells _ (D.lt hf)).trans (Heap.get?_alloc_self c.heap x)
    have hcode : code.Within { d with nesting := d.nesting.pop } :=
      Code.within_iff.mpr (hw.code.imp fun _ => D.within)
    obtain ⟨hs, hf⟩ := D.closes hw.stands hw.stack hlambda hw.code
    exact ⟨⟨.finish (hd.grows.trans hw.grows) (Nat.le_refl _) hlambda hcode, hs⟩, hf⟩

theorem arguments_obeys {params : List Ref} {args : List Part} (h : D.Holds P c)
    (ha : ∀ p ∈ args, D.Fits P p) :
    D.Obeys (arguments params args) c (fun bindings d => ∀ b ∈ bindings, D.Admits b d) := by
  induction params generalizing args c
  case nil => exact .pure h.stands (by simp)
  case cons param params hi =>
    cases args
    case nil => exact .pure h.stands (by simp)
    case cons arg args =>
      refine .cell?_bind ?_
      split
      case h_1 => exact .datum_bind (tagAt_bind fun _ => .throw h.stands)
      case h_2 name _ =>
        refine (Obeys.intern h.stands name).bind (fun e d hd he => ?_)
        refine ((ha arg (by simp)).code d .any (hd.holds h)).bind (fun value d' hd' hvalue => ?_)
        have hrest := hi (hd'.holds (hd.holds h)) (fun p hp => ha p (.tail _ hp))
        refine hrest.bind (fun rest d'' hd'' hrest => .pure hd''.stands ?_)
        have he := Nat.lt_of_lt_of_le he (hd'.trans hd'').grows.extent_le.entries
        refine List.forall_mem_cons.mpr ⟨?_, hrest⟩
        simpa [Admits] using ⟨D.store hd''.stands he, hd''.admits hvalue⟩

theorem callee_obeys (whole : Form) {lambda : Ref} (h : D.Stands c) (hl : D.Fine lambda c) :
    D.Obeys (callee whole lambda) c (fun callee d => D.Fair (.call callee) d) := by
  refine .cell?_bind ?_
  split
  case h_1 id hid =>
    have ⟨_, hx, hcode⟩ := Option.bind_eq_some_iff.mp hid
    exact .pure h (D.embedded h hl hx hcode)
  case h_2 =>
    refine .get_bind ?_
    split
    case isTrue hn => exact .pure h (D.forward h hn)
    case isFalse   => exact .datum_bind (.throw h)

theorem call_compiles {whole : Form} {lambda : Ref} {args : List Part} (h : D.Holds P c)
    (hl : D.Fine lambda c) (ha : ∀ p ∈ args, D.Fits P p) :
    D.Compiles (call whole lambda args required) c := by
  refine .get_bind ?_
  refine (arguments_obeys h ha).bind (fun bindings d hd hb => ?_)
  have hcallee := callee_obeys whole hd.stands (D.fine_mono hl hd.grows)
  refine hcallee.bind (fun callee d' hd' hc => coerce_compiles hd'.stands ?_)
  exact Code.all_sequences.mpr ⟨fun b hmem => hd'.admits (hb b hmem), Code.all_call.mpr hc⟩

theorem fine_lookup {name : String} {r : Ref} (h : D.Stands c) (hr : c.lookup name = some r) :
    D.Fine r c := by
  have ⟨e, _, he⟩ := Option.bind_eq_some_iff.mp hr
  cases hp : c.pending.lookup e
  case none => exact D.bindings h (by simpa [Compiler.visible, hp] using he)
  case some s =>
    have ⟨_, _, hl, _⟩ := List.lookup_eq_some_iff.mp hp
    have hs : s = r := by simpa [Compiler.visible, hp] using he
    exact hs ▸ D.pending (p := (e, s)) h (by simp [hl])

section Application

variable {app : Application} (h : D.Holds P c) (ha : ∀ p ∈ app.args, D.Fits P p)

include h ha

theorem branch_compiles : D.Compiles (branch app required) c := by
  refine arg_bind h.stands (fun condition hc => arg_bind h.stands (fun yes hy => ?_))
  refine ((ha _ hc).code c .pureInt h).bind (fun condition d hd hc => ?_)
  refine ((ha _ hy).code d required (hd.holds h)).bind (fun yes d' hd' hy => ?_)
  split
  case h_1 no hn =>
    have hno := (ha no (List.mem_of_getElem? hn)).code d' required (hd'.holds (hd.holds h))
    refine hno.bind (fun no d'' hd'' hn => .pure hd''.stands ?_)
    exact Code.all_branch.mpr ⟨(hd'.trans hd'').admits hc, hd''.admits hy, hn⟩
  case h_2 =>
    refine .pure hd'.stands ?_
    exact Code.all_branch.mpr ⟨hd'.admits hc, hy, admits_emptyValue _ hd'.stands⟩

theorem loop_compiles : D.Compiles (loop app required) c := by
  refine arg_bind h.stands (fun condition hc => arg_bind h.stands (fun body hb => ?_))
  refine ((ha _ hc).code c .pureInt h).bind (fun condition d hd hc => ?_)
  refine ((ha _ hb).code d required (hd.holds h)).bind (fun body d' hd' hb => ?_)
  refine .pure hd'.stands ?_
  exact Code.all_loop.mpr ⟨admits_emptyValue _ hd'.stands, hd'.admits hc, hb⟩

theorem sequence_compiles : D.Compiles (Compile.sequence app required) c := by
  unfold Compile.sequence
  split
  case h_1 first rest hargs =>
    exact steps_compiles h (ha first (by simp [hargs])) (fun p hp => ha p (by simp [hargs, hp]))
  case h_2 => exact missing_obeys h.stands

omit ha in
theorem target_obeys : D.Obeys (target app) c (fun p d => p.2 < d.env.size) := by
  refine arg_bind h.stands (fun part _ => ?_)
  split
  case h_1 name _ =>
    exact (Obeys.intern h.stands name).bind (fun e d hd he => .pure hd.stands he)
  case h_2 => exact .datum_bind (.throw h.stands)

omit ha in
theorem boundCode_compiles {part : Part} (hp : D.Fits P part) :
    D.Compiles (boundCode part required) c := by
  cases required <;> exact hp.code c _ h

omit ha in
theorem definedValue_compiles {name : String} {e : EntryId} {part : Part} (hp : D.Fits P part) :
    D.Compiles (definedValue name e part required) c := by
  refine isFunctionForm_bind (fun b => ?_)
  split
  case isTrue =>
    refine (hp.function c (some name) h).bind (fun r d hd hr => ?_)
    refine (Obeys.bindPending hd.stands hr).bind (fun _ d' hd' _ => .pure hd'.stands ?_)
    exact admits_literal (D.fine_mono hr hd'.grows)
  case isFalse =>
    refine (boundCode_compiles h hp).bind (fun value d hd hv => ?_)
    split
    case isFalse => exact .pure hd.stands hv
    case isTrue =>
      split
      case h_2 => exact .pure hd.stands hv
      case h_1 r hr =>
        have hr := (hd.holds h).fine r (hp.form.value hr)
        refine (Obeys.bindPending hd.stands hr).bind (fun _ d' hd' _ => .pure hd'.stands ?_)
        exact hd'.admits hv

omit h ha in
theorem definitionResult_compiles {expr : Form} {stored : Code .cell} (h : D.Stands c)
    (hs : D.Admits stored c) : D.Compiles (definitionResult expr stored required) c := by
  have narrowed (required : Rep) : D.Compiles (definitionResult.narrow expr stored required) c := by
    unfold definitionResult.narrow
    split
    case isTrue  => exact coerce_compiles h hs
    case isFalse => exact coerce_compiles h hs
  cases required
  case pureInt => exact narrowed .pureInt
  case int     => exact narrowed .int
  case void    => exact .pure h (Code.all_discard.mpr hs)
  all_goals exact .pure h hs

theorem definition_compiles : D.Compiles (definition app required) c := by
  refine (target_obeys h).bind (fun ⟨name, e⟩ d hd he => ?_)
  refine arg_bind hd.stands (fun part hp => ?_)
  refine (definedValue_compiles (hd.holds h) (ha part hp)).bind (fun value d' hd' hv => ?_)
  have he := Nat.lt_of_lt_of_le he hd'.grows.extent_le.entries
  exact definitionResult_compiles hd'.stands (Code.all_store.mpr ⟨D.store hd'.stands he, hv⟩)

theorem assignment_compiles : D.Compiles (assignment app required) c := by
  refine (target_obeys h).bind (fun ⟨_, e⟩ d hd he => ?_)
  refine arg_bind hd.stands (fun part hp => ?_)
  refine (assumeOr_obeys hd.stands he (alloc_int_defaults hd.stands 0)).bind (fun r d' hd' hb => ?_)
  refine tagAt_bind (fun tag => ?_)
  have hh := hd'.holds (hd.holds h)
  -- Both kinds of assignment name the entry that was interned first.
  split
  case isTrue =>
    refine ((ha part hp).code d' .pureInt hh).bind (fun word d'' hd'' hw => ?_)
    have he := D.fair_mono (D.bound hd'.stands hb).2 hd''.grows
    exact coerce_compiles hd''.stands (Code.all_assign.mpr ⟨he, hw⟩)
  case isFalse =>
    refine ((ha part hp).code d' .any hh).bind (fun value d'' hd'' hv => ?_)
    have he := Nat.lt_of_lt_of_le he (hd'.trans hd'').grows.extent_le.entries
    exact coerce_compiles hd''.stands (Code.all_store.mpr ⟨D.store hd''.stands he, hv⟩)

theorem function_compiles (hw : app.whole.All P) : D.Compiles (function app required) c := by
  refine (functionLiteral_obeys none h hw ha).bind (fun r d hd hr => ?_)
  exact coerce_compiles hd.stands (admits_literal hr)

theorem quote_compiles : D.Compiles (quote app required) c :=
  arg_bind h.stands (fun part hp => literal_compiles h (ha part hp).form)

theorem eval_compiles : D.Compiles (eval app required) c := by
  refine arg_bind h.stands (fun part hp => ?_)
  refine ((ha part hp).code c .any h).bind (fun expr d hd he => ?_)
  exact coerce_compiles hd.stands (Code.all_eval.mpr he)

theorem print_compiles : D.Compiles (print app required) c := by
  refine arg_bind h.stands (fun part hp => ?_)
  refine ((ha part hp).code c .any h).bind (fun value d hd hv => ?_)
  unfold printed
  split
  case h_1 => exact .pure hd.stands (by simpa [Admits] using hv)
  case h_2 => exact coerce_compiles hd.stands (Code.all_unary.mpr hv)

theorem primitive_compiles {signature : Signature} :
    D.Compiles (primitive app signature required) c := by
  refine (operands_obeys h ha).bind (fun operands d hd ho => ?_)
  exact coerce_compiles hd.stands (Code.all_primitive.mpr ho)

theorem builtin_compiles (hw : app.whole.All P) : D.Compiles (builtin app required) c := by
  unfold builtin
  split
  case h_1 => exact branch_compiles h ha
  case h_2 => exact loop_compiles h ha
  case h_3 => exact sequence_compiles h ha
  case h_4 => exact definition_compiles h ha
  case h_5 => exact assignment_compiles h ha
  case h_6 => exact function_compiles h ha hw
  case h_7 => exact quote_compiles h ha
  case h_8 => exact eval_compiles h ha
  case h_9 => exact print_compiles h ha
  case h_10 =>
    split
    case h_1 => exact primitive_compiles h ha
    case h_2 => exact .datum_bind (.throw h.stands)

end Application

variable {whole : Form} {args : List Part} (h : D.Holds P c) (hw : whole.All P)

include h hw

theorem apply_compiles {operator : Ref} (ho : D.Fine operator c) (ha : ∀ p ∈ args, D.Fits P p) :
    D.Compiles (apply whole operator args required) c := by
  refine .cell?_bind ?_
  split
  case h_1 =>
    split
    case h_1 => exact builtin_compiles h ha hw
    case h_2 => exact .datum_bind (.throw h.stands)
  case h_2 => exact call_compiles h ho ha
  case h_3 => exact lost_obeys h.stands
  case h_4 => exact .datum_bind (tagAt_bind fun _ => .throw h.stands)

theorem applySymbol_compiles {name : String} (ha : ∀ p ∈ args, D.Fits P p) :
    D.Compiles (applySymbol whole name args required) c := by
  refine .get_bind ?_
  split
  case h_1 f hf => exact call_compiles h (D.nesting h.stands (List.mem_of_find?_eq_some hf)) ha
  case h_2 =>
    refine .lookup_bind ?_
    split
    case h_1 operator ho => exact apply_compiles h hw (fine_lookup h.stands ho) ha
    case h_2 => exact .throw h.stands

theorem application_compiles {operator : Part} (ho : D.Fits P operator)
    (ha : ∀ p ∈ args, D.Fits P p) : D.Compiles (application whole operator args required) c := by
  unfold application
  split
  case h_1 => exact .datum_bind (.throw h.stands)
  case h_2 => exact applySymbol_compiles h hw ha
  case h_3 r _ _ hform => exact apply_compiles h hw (h.fine r (ho.form.value (by rw [hform]; rfl))) ha
  case h_4 =>
    refine isFunctionForm_bind (fun b => ?_)
    split
    case isTrue =>
      refine (ho.function c none h).bind (fun r d hd hr => ?_)
      exact call_compiles (hd.holds h) hr ha
    case isFalse => exact ho.code c required h

omit h hw

-- Code, function literals and parts of an expression come from those of its head and its tail.
theorem fits (D : Discipline) {f : Form} (hf : f.All P) :
    D.Fits P ⟨f, f.code, f.function⟩ ∧ ∀ p ∈ f.parts, D.Fits P p := by
  induction f
  case absent =>
    refine ⟨⟨hf, fun c required h => ?_, fun c name h => ?_⟩, by simp [Form.parts]⟩
    · exact .pure h.stands (admits_emptyValue _ h.stands)
    · exact functionLiteral_obeys name h hf (List.forall_mem_nil _)
  case atom =>
    refine ⟨⟨hf, fun c required h => ?_, fun c name h => ?_⟩, by simp [Form.parts]⟩
    · exact atom_compiles h hf
    · exact functionLiteral_obeys name h hf (List.forall_mem_nil _)
  case cons r head tail hhead htail =>
    have ⟨hh, _⟩ := hhead () hf.2.1
    have ⟨_, ht⟩ := htail () hf.2.2
    refine ⟨⟨hf, fun c required h => ?_, fun c name h => ?_⟩, fun p hp => ?_⟩
    · exact application_compiles h hf hh ht
    · exact functionLiteral_obeys name h hf ht
    · simp only [Form.parts] at hp
      split at hp
      case isTrue  => cases hp
      case isFalse =>
        rcases List.mem_cons.mp hp with rfl | hp
        · exact hh
        · exact ht p hp

-- An expression is compiled if its cell can be used, or is not there at all.
theorem form_compiles (D : Discipline) (expr : Value) (required : Rep) (h : D.Stands c)
    (he : ∀ r, expr = some r → r < c.heap.size → D.Fine r c) :
    D.Compiles ((c.heap.form expr).code required) c := by
  have hform : (c.heap.form expr).All (D.Fine · c) :=
    Heap.formWithin_all _ he fun _ _ _ hr hx hs _ => D.part h hr hx hs
  exact (D.fits hform).1.code c required ⟨h, fun _ hr => hr⟩

end Discipline
end CellLisp
