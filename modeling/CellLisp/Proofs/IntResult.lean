import CellLisp.Proofs.Completion
import CellLisp.Proofs.History
import CellLisp.Proofs.KnownShape

namespace CellLisp

open Compile

-- Forms that are compiled for their effects alone, one after the other.
def Form.effects (fs : List Form) : CompileM (List (Code .void)) :=
  fs.mapM (·.code .void)

-- A form whose value becomes the value of another one, with the states in which the two are compiled.
inductive Tail : Compiler × Form → Compiler × Form → Prop
  | yes {c d f condition yes code} : c.operation? f = some .branch → f.args[0]? = some condition →
    f.args[1]? = some yes → condition.code .pureInt c = .ok code d → Tail (c, f) (d, yes)
  | no {c d d' f condition yes no code code'} : c.operation? f = some .branch →
    f.args[0]? = some condition → f.args[1]? = some yes → f.args[2]? = some no →
    condition.code .pureInt c = .ok code d → yes.code .int d = .ok code' d' → Tail (c, f) (d', no)
  | body {c d f condition body code} : c.operation? f = some .loop → f.args[0]? = some condition →
    f.args[1]? = some body → condition.code .pureInt c = .ok code d → Tail (c, f) (d, body)
  | last {c d f firsts last codes} : c.operation? f = some .sequence → f.args = firsts ++ [last] →
    Form.effects firsts c = .ok codes d → Tail (c, f) (d, last)
  | operator {c r q head tail head' tail'} : head () = .cons q head' tail' →
    c.isFunction (head ()) = false → Tail (c, .cons r head tail) (c, head ())

-- A symbol stands in some place where the result of a form comes from.
def Compiler.EndsInSymbol (c : Compiler) (f : Form) : Prop :=
  ∃ d r name, Relation.ReflTransGen Tail (c, f) (d, .atom r (.symbol name))

theorem Compiler.EndsInSymbol.of_tail {c d : Compiler} {f g : Form} (ht : Tail (c, f) (d, g))
    (h : d.EndsInSymbol g) : c.EndsInSymbol f := by
  obtain ⟨d', r, name, hg⟩ := h
  exact ⟨d', r, name, .head ht hg⟩

-- Code whose result is an integer cell as long as the integers in the heap are kept.
inductive Code.GivesInt (heap : Heap) : Code .cell → Prop
  | literal {r n} : heap.get? r = some (.int n) → GivesInt heap (.literal r)
  | box {value} : GivesInt heap (.unary .box value)
  | boxChecked {value} : GivesInt heap (.unary .boxChecked value)
  | store {e value} : GivesInt heap value → GivesInt heap (.store e value)
  | sequence {first last} : GivesInt heap last → GivesInt heap (.sequence first last)
  | branch {condition yes no} : GivesInt heap yes → GivesInt heap no →
    GivesInt heap (.branch condition yes no)
  | loop {initial condition body} : GivesInt heap initial → GivesInt heap body →
    GivesInt heap (.loop initial condition body)

-- The atoms of a form are cells of the heap.
def Form.Shows (heap : Heap) : Form → Prop
  | absent           => True
  | atom r x         => heap.get? r = some x
  | cons _ head tail => (head ()).Shows heap ∧ (tail ()).Shows heap

theorem Form.eq_int_of_tag {f : Form} (h : f.tag = .int) : ∃ r n, f = .atom r (.int n) := by
  cases f
  case atom r x =>
    obtain ⟨n, rfl⟩ := Cell.eq_int_of_tag h
    exact ⟨r, n, rfl⟩
  all_goals cases h

theorem Heap.shows_formWithin (heap : Heap) (depth : Nat) (v : Value) :
    (heap.formWithin depth v).Shows heap := by
  induction depth generalizing v
  case zero => trivial
  case succ depth hi =>
    unfold formWithin
    split
    case h_1 => trivial
    case h_2 =>
      split
      case h_1    => trivial
      case h_2    => exact ⟨hi _, hi _⟩
      case h_3 hr => exact ⟨hr, hi _⟩
      case h_4 hr => exact hr

-- What a form with an operator is compiled to: an operation, a call, or what the operator is
-- compiled to.
theorem Form.code_cases {c d : Compiler} {r : Ref} {head tail : Unit → Form} {required : Rep}
    {code : Code required.kind} (h : (Form.cons r head tail).code required c = .ok code d) :
    (∃ op, c.operation? (.cons r head tail) = some op ∧
      builtin ⟨.cons r head tail, op, (Form.cons r head tail).args.map part⟩ required c = .ok code d) ∨
    (∃ lambda c', call (.cons r head tail) lambda ((Form.cons r head tail).args.map part) required c' =
      .ok code d) ∨
    ((∃ q head' tail', head () = .cons q head' tail') ∧ c.isFunction (head ()) = false ∧
      (head ()).code required c = .ok code d) := by
  rw [Form.code, parts_eq] at h
  have applied {q : Ref} (ho : c.operator? (head ()) = some q)
      (h : apply (.cons r head tail) q ((tail ()).elements.map part) required c = .ok code d) :
      (∃ op, c.operation? (.cons r head tail) = some op ∧
        builtin ⟨.cons r head tail, op, (tail ()).elements.map part⟩ required c = .ok code d) ∨
      (∃ lambda c', call (.cons r head tail) lambda ((tail ()).elements.map part) required c' =
        .ok code d) := by
    obtain ⟨x, c', hx, h⟩ := ok_of_bind h
    cases hx
    generalize hq : (c.heap.cell? (some q)) = x at h
    split at h
    case h_1 opcode =>
      cases hop : Builtin.ofWord? opcode <;> simp only [hop] at h
      case some op =>
        refine .inl ⟨op, ?_, h⟩
        simp only [Compiler.operation?, Form.head, ho]
        exact Option.bind_eq_some_iff.mpr ⟨_, hq, hop⟩
      case none =>
        obtain ⟨_, _, _, h⟩ := ok_of_bind h
        cases h
    case h_2 => exact .inr ⟨_, _, h⟩
    case h_3 => cases h
    case h_4 =>
      obtain ⟨_, _, _, h⟩ := ok_of_bind h
      obtain ⟨_, _, _, h⟩ := ok_of_bind h
      cases h
  unfold application at h
  simp only [args, Form.tail]
  cases hhead : head () <;> simp only [hhead] at h
  case absent =>
    obtain ⟨_, _, _, h⟩ := ok_of_bind h
    cases h
  case atom q x =>
    rw [hhead] at applied
    cases x
    case symbol name =>
      obtain ⟨_, _, hget, h⟩ := ok_of_bind h
      cases hget
      generalize hn : c.nesting.find? name = open? at h
      split at h
      case h_1 => exact .inr (.inl ⟨_, _, h⟩)
      case h_2 =>
        obtain ⟨_, _, hl, h⟩ := ok_of_bind h
        cases hl
        generalize hl : c.lookup name = operator at h
        split at h
        case h_2 => cases h
        case h_1 q =>
          rcases applied (q := q) (by simp [Compiler.operator?, hn, hl]) h with h | h
          case inl => exact .inl h
          case inr => exact .inr (.inl h)
    all_goals
      rcases applied rfl h with h | h
      case inl => exact .inl h
      case inr => exact .inr (.inl h)
  case cons q head' tail' =>
    obtain ⟨function, _, hf, h⟩ := ok_of_bind h
    rw [isFunctionForm_eq] at hf
    cases hf
    split at h
    case isTrue =>
      obtain ⟨lambda, c', _, h⟩ := ok_of_bind h
      exact .inr (.inl ⟨lambda, c', h⟩)
    case isFalse hf => exact .inr (.inr ⟨⟨q, head', tail', rfl⟩, by simpa using hf, h⟩)

-- What is known of a form: its atoms, and that code for it gives integers.
structure Form.Ends (heap : Heap) (f : Form) : Prop where
  shows : f.Shows heap
  code  : ∀ c code d, ¬ c.EndsInSymbol f → f.code .int c = .ok code d → code.GivesInt heap

namespace Compile

variable {heap : Heap} {code : Code .cell} {c d : Compiler} {f : Form}

theorem coerce_givesInt {expr : Form} {shape : Shape} {value : Code shape.kind}
    (hs : shape = .raw ∨ shape = .unknown) (h : coerce expr shape value .int c = .ok code d) :
    code.GivesInt heap := by
  rcases hs with rfl | rfl <;> cases h
  case inl => exact .box
  case inr => exact .boxChecked

-- A value whose tag is known is handed on as it is, if it is an integer at all.
theorem coerce_cell_givesInt {expr : Form} {tag : Tag} {value : Code .cell}
    (hv : tag = .int → value.GivesInt heap) (h : coerce expr (.cell tag) value .int c = .ok code d) :
    code.GivesInt heap := by
  have hp := plan_of_coerce_ok h
  cases tag <;> try exact absurd rfl hp
  case int =>
    cases h
    exact hv rfl

theorem literal_givesInt (hf : f.Shows heap) (h : literal f .int c = .ok code d) :
    code.GivesInt heap := by
  cases f
  case absent =>
    cases h
    exact .box
  case atom r x =>
    have h : coerce (.atom r x) (.cell x.tag) (.literal r) .int c = .ok code d := by
      cases x
      case spoilt rest =>
        -- A pair that lost its head is not compiled at all.
        cases rest
        case cons => cases h
        all_goals exact h
      all_goals exact h
    refine coerce_cell_givesInt (fun hx => ?_) h
    obtain ⟨n, rfl⟩ := Cell.eq_int_of_tag hx
    exact .literal hf
  case cons r head tail => cases h

theorem call_givesInt {whole : Form} {lambda : Ref} {args : List Part}
    (h : call whole lambda args .int c = .ok code d) : code.GivesInt heap := by
  obtain ⟨_, _, _, h⟩ := ok_of_bind h
  obtain ⟨_, _, _, h⟩ := ok_of_bind h
  obtain ⟨_, _, _, h⟩ := ok_of_bind h
  exact coerce_givesInt (.inr rfl) h

section Application

variable (hf : ∀ g ∈ f.args, g.Ends heap) (hn : ¬ c.EndsInSymbol f)

include hf hn

theorem branch_givesInt (ho : c.operation? f = some .branch)
    (h : branch ⟨f, .branch, f.args.map Form.part⟩ .int c = .ok code d) : code.GivesInt heap := by
  obtain ⟨condition, hcondition, h⟩ := arg_of_bind h
  obtain ⟨yes, hyes, h⟩ := arg_of_bind h
  obtain ⟨_, c₁, hc₁, h⟩ := ok_of_bind h
  obtain ⟨yesCode, c₂, hc₂, h⟩ := ok_of_bind h
  have hyesCode : yesCode.GivesInt heap := by
    refine (hf yes (List.mem_of_getElem? hyes)).code c₁ _ c₂ (fun hs => hn ?_) hc₂
    exact hs.of_tail (.yes ho hcondition hyes hc₁)
  simp only [List.getElem?_map] at h
  cases hno : f.args[2]? <;> simp only [hno, Option.map_none, Option.map_some] at h
  case none =>
    cases h
    exact .branch hyesCode .box
  case some no =>
    obtain ⟨noCode, c₃, hc₃, h⟩ := ok_of_bind h
    cases h
    refine .branch hyesCode ((hf no (List.mem_of_getElem? hno)).code c₂ _ _ (fun hs => hn ?_) hc₃)
    exact hs.of_tail (.no ho hcondition hyes hno hc₁ hc₂)

theorem loop_givesInt (ho : c.operation? f = some .loop)
    (h : loop ⟨f, .loop, f.args.map Form.part⟩ .int c = .ok code d) : code.GivesInt heap := by
  obtain ⟨condition, hcondition, h⟩ := arg_of_bind h
  obtain ⟨body, hbody, h⟩ := arg_of_bind h
  obtain ⟨_, c₁, hc₁, h⟩ := ok_of_bind h
  obtain ⟨bodyCode, c₂, hc₂, h⟩ := ok_of_bind h
  cases h
  refine .loop .box ((hf body (List.mem_of_getElem? hbody)).code c₁ _ _ (fun hs => hn ?_) hc₂)
  exact hs.of_tail (.body ho hcondition hbody hc₁)

omit hf hn in
-- The last of the forms is compiled once the others have been, for their effects.
theorem steps_givesInt {first : Form} {rest : List Form}
    (hf : ∀ firsts last codes c', first :: rest = firsts ++ [last] → Form.effects firsts c = .ok codes c' →
      ∀ code d, last.code .int c' = .ok code d → code.GivesInt heap)
    (h : steps first.part (rest.map Form.part) .int c = .ok code d) : code.GivesInt heap := by
  induction rest generalizing first c code
  case nil => exact hf [] first [] c rfl rfl code d h
  case cons second rest hi =>
    obtain ⟨effect, c₁, hc₁, h⟩ := ok_of_bind h
    obtain ⟨lastCode, _, hlast, h⟩ := ok_of_bind h
    cases h
    refine .sequence (hi (fun firsts last codes c' hsplit heffects => ?_) hlast)
    refine hf (first :: firsts) last (effect :: codes) c' (by rw [hsplit]; rfl) ?_
    rw [Form.effects, List.mapM_cons, bind_eq_of_ok (show first.code .void c = _ from hc₁)]
    exact bind_eq_of_ok heffects

theorem sequence_givesInt (ho : c.operation? f = some .sequence)
    (h : Compile.sequence ⟨f, .sequence, f.args.map Form.part⟩ .int c = .ok code d) :
    code.GivesInt heap := by
  cases hargs : f.args <;> simp only [Compile.sequence, hargs, List.map_nil, List.map_cons] at h
  case nil =>
    obtain ⟨_, _, _, h⟩ := ok_of_bind h
    cases h
  case cons first rest =>
    refine steps_givesInt (fun firsts last codes c' hsplit heffects code d hlast => ?_) h
    rw [← hargs] at hsplit
    refine (hf last (by simp [hsplit])).code c' code d (fun hs => hn ?_) hlast
    exact hs.of_tail (.last ho hsplit heffects)

omit hn

theorem definition_givesInt (h : definition ⟨f, .define, f.args.map Form.part⟩ .int c = .ok code d) :
    code.GivesInt heap := by
  obtain ⟨⟨name, e⟩, _, _, h⟩ := ok_of_bind h
  obtain ⟨value, hvalue, h⟩ := arg_of_bind h
  obtain ⟨stored, _, hstored, h⟩ := ok_of_bind h
  have hshows := (hf value (List.mem_of_getElem? hvalue)).shows
  simp only [definitionResult, definitionResult.narrow] at h
  split at h
  case isFalse => exact coerce_givesInt (.inr rfl) h
  case isTrue  =>
    refine coerce_cell_givesInt (fun ht => .store ?_) h
    -- An integer is bound as the cell that it is.
    obtain ⟨r, n, rfl⟩ := Form.eq_int_of_tag ht
    cases hstored
    exact .literal hshows

omit hf in
theorem assignment_givesInt {app : Application} (h : assignment app .int c = .ok code d) :
    code.GivesInt heap := by
  obtain ⟨⟨_, e⟩, _, _, h⟩ := ok_of_bind h
  obtain ⟨_, _, _, h⟩ := ok_of_bind h
  obtain ⟨_, _, _, h⟩ := ok_of_bind h
  obtain ⟨_, _, _, h⟩ := ok_of_bind h
  split at h
  case isTrue =>
    obtain ⟨_, _, _, h⟩ := ok_of_bind h
    exact coerce_givesInt (.inl rfl) h
  case isFalse =>
    obtain ⟨_, _, _, h⟩ := ok_of_bind h
    exact coerce_givesInt (.inr rfl) h

omit hf in
theorem primitive_givesInt {app : Application} {signature : Signature}
    (hs : app.op.signature? .int = some signature) (h : primitive app signature .int c = .ok code d) :
    code.GivesInt heap := by
  obtain ⟨operands, _, _, h⟩ := ok_of_bind h
  rcases hr : signature.result with _ | tag | _
  case raw     => exact coerce_givesInt (.inl hr) h
  case unknown => exact coerce_givesInt (.inr hr) h
  case cell    =>
    -- No operation is known to give an integer cell.
    have hp := hr ▸ plan_of_coerce_ok h
    have htag : tag ≠ .int := by
      rintro rfl
      cases hop : app.op <;> rw [hop] at hs <;> cases hs <;> cases hr
    cases tag <;> first | exact absurd rfl hp | exact absurd rfl htag

theorem builtin_givesInt {op : Builtin} (hn : ¬ c.EndsInSymbol f) (ho : c.operation? f = some op)
    (h : builtin ⟨f, op, f.args.map Form.part⟩ .int c = .ok code d) : code.GivesInt heap := by
  cases hs : op.signature? .int
  case some signature =>
    have hprimitive : builtin ⟨f, op, f.args.map Form.part⟩ .int =
        primitive ⟨f, op, f.args.map Form.part⟩ signature .int :=
      builtin_eq_primitive hs
    rw [hprimitive] at h
    exact primitive_givesInt hs h
  case none =>
    cases op <;> try cases hs
    case branch   => exact branch_givesInt hf hn ho h
    case loop     => exact loop_givesInt hf hn ho h
    case sequence => exact sequence_givesInt hf hn ho h
    case define   => exact definition_givesInt hf h
    case assign   => exact assignment_givesInt h
    case function =>
      obtain ⟨_, _, _, h⟩ := ok_of_bind h
      exact absurd rfl (plan_of_coerce_ok h)
    case quote =>
      obtain ⟨quoted, hquoted, h⟩ := arg_of_bind h
      exact literal_givesInt (hf quoted (List.mem_of_getElem? hquoted)).shows h
    case eval =>
      obtain ⟨_, _, _, h⟩ := ok_of_bind h
      obtain ⟨_, _, _, h⟩ := ok_of_bind h
      exact coerce_givesInt (.inr rfl) h
    case print =>
      obtain ⟨_, _, _, h⟩ := ok_of_bind h
      obtain ⟨value, c', _, h⟩ := ok_of_bind h
      have h : coerce f .unknown (.unary .print value) .int c' = .ok code d := h
      exact coerce_givesInt (.inr rfl) h
    all_goals
      obtain ⟨_, _, _, h⟩ := ok_of_bind h
      cases h

end Application
end Compile

-- As everywhere, what is known of an expression comes from its head and its tail.
theorem Form.ends {heap : Heap} {f : Form} (hf : f.Shows heap) :
    f.Ends heap ∧ ∀ g ∈ f.elements, g.Ends heap := by
  induction f
  case absent =>
    refine ⟨⟨hf, fun c code d _ h => ?_⟩, by simp [elements]⟩
    cases h
    exact .box
  case atom r x =>
    refine ⟨⟨hf, fun c code d hn h => ?_⟩, by simp [elements]⟩
    by_cases hx : x.tag = .symbol
    case pos =>
      cases x <;> try cases hx
      case symbol      => exact absurd ⟨c, r, _, .refl⟩ hn
      case spoilt rest =>
        cases rest <;> cases hx
        cases h
    case neg =>
      rw [code_of_atom hx] at h
      exact literal_givesInt hf h
  case cons r head tail hhead htail =>
    obtain ⟨hh, _⟩ := hhead () hf.1
    obtain ⟨_, ht⟩ := htail () hf.2
    refine ⟨⟨hf, fun c code d hn h => ?_⟩, fun g hg => ?_⟩
    · rcases code_cases h with ⟨op, ho, h⟩ | ⟨lambda, c', h⟩ | ⟨⟨q, head', tail', hcons⟩, hfunction, h⟩
      · exact builtin_givesInt (f := .cons r head tail) ht hn ho h
      · exact call_givesInt h
      · exact hh.code c code d (fun hs => hn (hs.of_tail (.operator hcons hfunction))) h
    · simp only [elements] at hg
      split at hg
      case isTrue  => cases hg
      case isFalse =>
        rcases List.mem_cons.mp hg with rfl | hg
        · exact hh
        · exact ht g hg

section Running

variable {link : Link} {heap : Heap} {s t u : Session} {v : Value}

def Heap.IsInt (heap : Heap) (v : Value) : Prop :=
  (heap.cell? v).map Cell.tag = some .int

-- The integers of a heap are integers in the session.
def Session.KeepsInts (s : Session) (heap : Heap) : Prop :=
  ∀ v, heap.IsInt v → s.heap.IsInt v

theorem Session.KeepsInts.trans (h : t.KeepsInts s.heap) (hs : s.KeepsInts heap) : t.KeepsInts heap :=
  fun v hv => h v (hs v hv)

end Running

end CellLisp
