import CellLisp.Proofs.Balance
import CellLisp.Proofs.Complaint
import CellLisp.Proofs.Seeding

namespace CellLisp

-- Forms of some kind that stand inside of one another, each one in the last argument of the one around it.
inductive Form.Nested (P : Form → Prop) : Nat → Form → Prop
  | none {f : Form} : Nested P 0 f
  | inside {n : Nat} {f g : Form} : g.Occurs f → Nested P n g → Nested P n f
  | around {n : Nat} {f body : Form} : P f → f.args.getLast? = some body → Nested P n body →
    Nested P (n + 1) f

-- If too many literals are open, then for a reason.
def Spares (Q : Prop) {α : Type} (m : CompileM α) (d : Compiler) : Prop :=
  ∀ e, m d = .error .nestingOverflow e → Q

namespace Spares

variable {Q : Prop} {α β : Type} {m : CompileM α} {f : α → CompileM β} {d : Compiler}

theorem quiet (h : Quiet m) : Spares Q m d :=
  fun _ hm => (h.of_error hm).elim

theorem bind (hm : Spares Q m d) (hf : ∀ a e, m d = .ok a e → Spares Q (f a) e) :
    Spares Q (m >>= f) d := by
  intro e h
  rcases error_of_bind h with h | ⟨a, u, hu, h⟩
  · exact hm e h
  · exact hf a u hu e h

theorem read {a : α} (hm : m d = .ok a d) (hf : Spares Q (f a) d) : Spares Q (m >>= f) d := by
  unfold Spares
  rwa [bind_eq_of_ok hm]

end Spares

-- A state on the way, with certain literals open.
structure Compiler.At (c : Compiler) (whole : Form) (n : Nesting) (d : Compiler) : Prop where
  explains : c.Explains whole d
  nesting  : d.nesting = n

-- What is known of a part where certain literals are open. If it is taken as a function literal, it has to
-- be one.
structure Part.Charged (c : Compiler) (whole : Form) (n : Nesting) (Q : Prop) (p : Part) : Prop where
  tracked  : p.Tracked c whole
  balanced : ∀ required, Balanced (p.code required)
  closes   : ∀ name, Balanced (p.function name)
  code     : ∀ d required, c.At whole n d → Spares Q (p.code required) d
  function : ∀ d name, c.At whole n d → c.Applies whole p.form .function → Spares Q (p.function name) d

section Charging

variable {c d : Compiler} {whole : Form} {n : Nesting} {Q : Prop} {α β : Type} {required : Rep}

theorem Compiler.At.bind {m : CompileM α} {f : α → CompileM β} {post : α → Compiler → Prop}
    (h : c.At whole n d) (ht : Along (c.Continues whole) m d post) (hq : Quiet m)
    (hf : ∀ a e, c.At whole n e → post a e → Spares Q (f a) e) : Spares Q (m >>= f) d := by
  refine (Spares.quiet hq).bind fun a e hm => ?_
  have ⟨hd, ha⟩ := ht.of_ok hm
  exact hf a e ⟨hd.explains, (hq.of_ok hm).trans h.nesting⟩ ha

theorem Part.Charged.bind {p : Part} {f : Code required.kind → CompileM β} (hp : p.Charged c whole n Q)
    (h : c.At whole n d) (hf : ∀ a e, c.At whole n e → Spares Q (f a) e) :
    Spares Q (p.code required >>= f) d := by
  refine (hp.code d required h).bind fun a e hm => hf a e ⟨?_, ?_⟩
  · exact ((hp.tracked.code d required h.explains).of_ok hm).1.explains
  · exact ((hp.balanced required d).of_ok hm).trans h.nesting

end Charging

namespace Compile

variable {c d : Compiler} {whole : Form} {n : Nesting} {Q : Prop} {α β : Type} {required : Rep}
  {app : Application} {name : String} {e : EntryId}

theorem arg_spares {i : Nat} {f : Part → CompileM α}
    (hf : ∀ p, app.args[i]? = some p → Spares Q (f p) d) : Spares Q (app.arg i >>= f) d := by
  cases hp : app.args[i]?
  case some p => exact .read (arg_eq hp d) (hf p hp)
  case none   =>
    refine (Spares.quiet (quiet_arg i)).bind fun p e hm => ?_
    simp only [Application.arg, hp] at hm
    cases hm

section Application

variable (h : c.At whole n d) (ha : ∀ p ∈ app.args, p.Charged c whole n Q)

include h ha

theorem branch_spares : Spares Q (branch app required) d := by
  refine arg_spares fun condition hc => arg_spares fun yes hy => ?_
  refine (ha _ (List.mem_of_getElem? hc)).bind h fun _ d h => ?_
  refine (ha _ (List.mem_of_getElem? hy)).bind h fun _ d h => ?_
  split
  case h_1 no hn => exact (ha no (List.mem_of_getElem? hn)).bind h fun _ _ _ => .quiet (.pure _)
  case h_2       => exact .quiet (.pure _)

theorem loop_spares : Spares Q (loop app required) d := by
  refine arg_spares fun condition hc => arg_spares fun body hb => ?_
  refine (ha _ (List.mem_of_getElem? hc)).bind h fun _ d h => ?_
  exact (ha _ (List.mem_of_getElem? hb)).bind h fun _ _ _ => .quiet (.pure _)

omit ha in
theorem steps_spares {first : Part} {rest : List Part} (hf : first.Charged c whole n Q)
    (hr : ∀ p ∈ rest, p.Charged c whole n Q) : Spares Q (steps first rest required) d := by
  induction rest generalizing first d
  case nil => exact hf.code d required h
  case cons second rest hi =>
    refine hf.bind h fun _ d h => ?_
    refine (hi h (hr second (by simp)) fun p hp => hr p (.tail _ hp)).bind fun _ _ _ => ?_
    exact .quiet (.pure _)

theorem sequence_spares : Spares Q (Compile.sequence app required) d := by
  unfold Compile.sequence
  split
  case h_1 first rest hargs =>
    exact steps_spares h (ha first (by simp [hargs])) fun p hp => ha p (by simp [hargs, hp])
  case h_2 => exact .quiet (.complain fun _ => rfl)

omit ha in
theorem operands_spares {reps : List Rep} {parts : List Part} (hp : ∀ p ∈ parts, p.Charged c whole n Q) :
    Spares Q (operands app reps parts) d := by
  induction reps generalizing parts d
  case nil => exact .quiet (.pure _)
  case cons rep reps hi =>
    cases parts
    case nil => exact .quiet (.complain fun _ => rfl)
    case cons part parts =>
      refine (hp part (by simp)).bind h fun _ d h => ?_
      exact (hi h fun p hmem => hp p (.tail _ hmem)).bind fun _ _ _ => .quiet (.pure _)

theorem assignment_spares : Spares Q (assignment app required) d := by
  refine h.bind (target_tracks h.explains) quiet_target fun ⟨name, e⟩ d h ⟨_, he⟩ => ?_
  refine arg_spares fun part hp => ?_
  refine h.bind (assumeOr_tracks h.explains he zero_defaults) (quiet_assumeOr (quiet_alloc _))
    fun r d h _ => ?_
  refine .read (tagAt_eq d r) ?_
  have hpart := ha part (List.mem_of_getElem? hp)
  split
  case isTrue  => exact hpart.bind h fun _ _ _ => .quiet quiet_coerce
  case isFalse => exact hpart.bind h fun _ _ _ => .quiet quiet_coerce

omit ha in
theorem definedValue_spares {part : Part} (hc : c.Hosts whole) (hp : part.Charged c whole n Q) :
    Spares Q (definedValue name e part required) d := by
  refine .read (isFunctionForm_eq d part.form) ?_
  split
  case isTrue hf =>
    refine (hp.function d _ h (h.explains.applies_function hc hf)).bind fun _ _ _ => ?_
    exact .quiet ((quiet_bindPending _ _).bind fun _ => .pure _)
  case isFalse =>
    have hbound : Spares Q (boundCode part required) d := by
      cases required <;> exact hp.code d _ h
    refine hbound.bind fun _ _ _ => .quiet ?_
    split
    case isFalse => exact .pure _
    case isTrue  =>
      split
      case h_1 => exact (quiet_bindPending _ _).bind fun _ => .pure _
      case h_2 => exact .pure _

theorem definition_spares (hc : c.Hosts whole) : Spares Q (definition app required) d := by
  refine h.bind (target_tracks h.explains) quiet_target fun ⟨name, e⟩ d h _ => ?_
  refine arg_spares fun part hp => ?_
  refine (definedValue_spares h hc (ha part (List.mem_of_getElem? hp))).bind fun _ _ _ => ?_
  exact .quiet quiet_definitionResult

theorem builtin_spares (hc : c.Hosts whole)
    (hf : app.op = .function → Spares Q (functionLiteral app.whole app.args none) d) :
    Spares Q (builtin app required) d := by
  unfold builtin
  split
  case h_1      => exact branch_spares h ha
  case h_2      => exact loop_spares h ha
  case h_3      => exact sequence_spares h ha
  case h_4      => exact definition_spares h ha hc
  case h_5      => exact assignment_spares h ha
  case h_6 heq  => exact (hf heq).bind fun _ _ _ => .quiet quiet_coerce
  case h_7      => exact arg_spares fun part _ => .quiet (quiet_literal part.form)
  case h_8      =>
    refine arg_spares fun part hp => ?_
    exact (ha part (List.mem_of_getElem? hp)).bind h fun _ _ _ => .quiet quiet_coerce
  case h_9      =>
    refine arg_spares fun part hp => ?_
    refine (ha part (List.mem_of_getElem? hp)).bind h fun _ _ _ => .quiet ?_
    unfold printed
    split
    case h_1 => exact .pure _
    case h_2 => exact quiet_coerce
  case h_10     =>
    split
    case h_1 => exact (operands_spares h ha).bind fun _ _ _ => .quiet quiet_coerce
    case h_2 => exact .quiet (.complain fun _ => rfl)

end Application

theorem arguments_spares {params : List Ref} {args : List Part} (h : c.At whole n d)
    (ha : ∀ p ∈ args, p.Charged c whole n Q) : Spares Q (arguments params args) d := by
  induction params generalizing args d
  case nil => exact .quiet (.pure _)
  case cons param params hi =>
    cases args
    case nil => exact .quiet (.pure _)
    case cons arg args =>
      refine .read rfl ?_
      split
      case h_1 =>
        exact .quiet (quiet_complain_tag fun _ _ => rfl)
      case h_2 name _ =>
        refine h.bind (intern_tracks h.explains name) (quiet_intern name) fun _ d h _ => ?_
        refine (ha arg (by simp)).bind h fun _ d h => ?_
        exact (hi h fun p hp => ha p (.tail _ hp)).bind fun _ _ _ => .quiet (.pure _)

theorem call_spares {expr : Form} {lambda : Ref} {args : List Part} (h : c.At whole n d)
    (ha : ∀ p ∈ args, p.Charged c whole n Q) : Spares Q (call expr lambda args required) d := by
  refine .read rfl ((arguments_spares h ha).bind fun _ _ _ => ?_)
  exact .quiet ((quiet_callee lambda).bind fun _ => quiet_coerce)

theorem error_of_within {f : OpenFunction} {body : CompileM α} {x : CompileError} {e : Compiler}
    (hlt : d.nesting.depth < Nesting.limit) (h : CompileM.within f body d = .error x e) :
    ∃ e', body { d with nesting := ⟨f :: d.nesting.stack⟩ } = .error x e' := by
  have hpush : d.nesting.push? f = some ⟨f :: d.nesting.stack⟩ := if_pos hlt
  simp only [CompileM.within, hpush] at h
  split at h <;> cases h
  case h_2 hbody => exact ⟨_, hbody⟩

-- Either the literal itself finds no room, or something in its body does.
theorem functionLiteral_spares {f : Form} {P : Form → Prop} (name : Option String)
    (h : c.Explains whole d) (hf : P f)
    (hbody : ∀ last, f.args.getLast? = some last → ∀ d, c.Explains whole d →
      Spares (last.Nested P (Nesting.limit + 1 - d.nesting.depth)) (last.code .any) d) :
    Spares (f.Nested P (Nesting.limit + 1 - d.nesting.depth))
      (functionLiteral f (f.args.map Form.part) name) d := by
  unfold functionLiteral
  cases hlast : f.args.getLast?
  case none =>
    simp only [List.getLast?_map, hlast, Option.map_none]
    exact .quiet (.complain fun _ => rfl)
  case some last =>
    simp only [List.getLast?_map, hlast, Option.map_some]
    let x : Cell := .lambda f.tail.value none
    have halloc : CompileM.alloc x d = .ok d.heap.size { d with heap := (d.heap.alloc x).2 } := rfl
    refine (Spares.quiet (quiet_alloc x)).bind fun r d' hm => ?_
    cases halloc.symm.trans hm
    refine Spares.bind ?_ fun _ _ _ => .quiet fun _ => rfl
    intro e hwithin
    by_cases hlt : d.nesting.depth < Nesting.limit
    case neg =>
      by_cases hle : d.nesting.depth ≤ Nesting.limit
      case pos =>
        have hone : Nesting.limit + 1 - d.nesting.depth = 0 + 1 := by omega
        rw [hone]
        exact .around hf hlast .none
      case neg =>
        have hzero : Nesting.limit + 1 - d.nesting.depth = 0 := by omega
        rw [hzero]
        exact .none
    case pos =>
      have hroom : Nesting.depth { d with heap := (d.heap.alloc x).2 }.nesting < Nesting.limit := hlt
      obtain ⟨e', hrun⟩ := error_of_within hroom hwithin
      have hdepth : Nesting.limit + 1 - d.nesting.depth = Nesting.limit - d.nesting.depth + 1 := by omega
      have hlater : Nesting.limit + 1 - (d.nesting.depth + 1) = Nesting.limit - d.nesting.depth := by omega
      have hnested := hbody last hlast _ ((h.alloc x).withNesting ⟨_ :: d.nesting.stack⟩) e' hrun
      simp only [Nesting.depth, List.length_cons] at hnested
      rw [← Nesting.depth, hlater] at hnested
      rw [hdepth]
      exact .around hf hlast hnested

variable {f : Form} {args : List Part} (hc : c.Hosts whole) (h : c.At whole n d) (hf : f.Occurs whole)
  (ha : ∀ p ∈ args, p.Charged c whole n Q)
  (hl : c.Applies whole f .function → Spares Q (functionLiteral f args none) d)

include hc h ha hl

theorem apply_spares {operator : Ref} (ho : ∀ x op, d.heap.get? operator = some x →
    x.builtin? = some op → c.Applies whole f op) : Spares Q (apply f operator args required) d := by
  refine .read rfl ?_
  split
  case h_1 opcode hx =>
    split
    case h_1 op hop => exact builtin_spares h ha hc fun heq => hl (heq ▸ ho _ op hx hop)
    case h_2        => exact .quiet (.complain fun _ => rfl)
  case h_2 => exact call_spares h ha
  case h_3 => exact .quiet (quiet_lost _)
  case h_4 =>
    exact .quiet (quiet_complain_tag fun _ _ => rfl)

theorem applySymbol_spares (hn : f.head.symbol? = some name) :
    Spares Q (applySymbol f name args required) d := by
  refine .read rfl ?_
  split
  case h_1 => exact call_spares h ha
  case h_2 =>
    refine .read rfl ?_
    split
    case h_2 => exact .quiet (.throw nofun rfl)
    case h_1 operator hr =>
      exact apply_spares hc h ha hl fun x op hx hop => h.explains.applies_name hc hn hr hx hop

include hf

theorem application_spares (ho : f.head.part.Charged c whole n Q) :
    Spares Q (application f f.head.part args required) d := by
  unfold application
  split
  case h_1 => exact .quiet (.complain fun _ => rfl)
  case h_2 r name hform =>
    have hn : f.head.symbol? = some name := congrArg Form.symbol? hform
    exact applySymbol_spares hc h ha hl hn
  case h_3 r _ _ hform =>
    have hr : f.head.value = some r := congrArg Form.value hform
    exact apply_spares hc h ha hl fun x op hx hop => h.explains.applies_cell hc hf hr hx hop
  case h_4 =>
    refine .read (isFunctionForm_eq d _) ?_
    split
    case isTrue hfunction =>
      have happlies := h.explains.applies_function hc hfunction
      refine (ho.function d none h happlies).bind fun _ e hm => ?_
      have hd := ((ho.tracked.function d none h.explains).of_ok hm).1
      exact call_spares ⟨hd.explains, ((ho.closes none d).of_ok hm).trans h.nesting⟩ ha
    case isFalse => exact ho.code d required h

end Compile

-- What is said of an expression of which it is known how many literals are open around it.
structure Form.Charged (f : Form) (c : Compiler) (whole : Form) : Prop where
  code     : ∀ d required, c.Explains whole d →
    Spares (f.Nested (c.Applies whole · .function) (Nesting.limit + 1 - d.nesting.depth)) (f.code required) d
  function : ∀ d name, c.Explains whole d → c.Applies whole f .function →
    Spares (f.Nested (c.Applies whole · .function) (Nesting.limit + 1 - d.nesting.depth)) (f.function name) d

theorem Form.Charged.part {c : Compiler} {whole f g : Form} (h : f.Charged c whole) (hc : c.Hosts whole)
    (hf : f.Occurs whole) (hg : f.Occurs g) (n : Nesting) :
    f.part.Charged c whole n (g.Nested (c.Applies whole · .function) (Nesting.limit + 1 - n.depth)) where
  tracked  := (Form.tracked hc hf).1
  balanced := fun required => (Routine.code f required).balanced
  closes   := fun name => (Routine.function f name).balanced
  code d required hd e he := .inside hg (hd.nesting ▸ h.code d required hd.explains e he)
  function d name hd ha e he := .inside hg (hd.nesting ▸ h.function d name hd.explains ha e he)

theorem Form.charged {c : Compiler} {whole f : Form} (hc : c.Hosts whole) (hf : f.Occurs whole) :
    f.Charged c whole ∧ ∀ g ∈ f.elements, g.Charged c whole := by
  have hfunction {f : Form} (ha : ∀ g ∈ f.args, g.Charged c whole) (d : Compiler)
      (name : Option String) (h : c.Explains whole d) (hA : c.Applies whole f .function) :
      Spares (f.Nested (c.Applies whole · .function) (Nesting.limit + 1 - d.nesting.depth))
        (f.function name) d := by
    rw [function_eq]
    refine Compile.functionLiteral_spares name h hA fun last hlast d hd => ?_
    exact (ha last (List.mem_of_getLast? hlast)).code d .any hd
  induction f
  case absent =>
    refine ⟨⟨fun d required h => .quiet (.pure _), ?_⟩, by simp [elements]⟩
    exact hfunction (List.forall_mem_nil _)
  case atom r x =>
    refine ⟨⟨fun d required h => .quiet (Compile.quiet_atom r x), ?_⟩, by simp [elements]⟩
    exact hfunction (List.forall_mem_nil _)
  case cons r head tail hhead htail =>
    have hh := (hhead () (.trans (.head .self) hf)).1
    have ht := (htail () (.trans (.tail .self) hf)).2
    have hargs : (cons r head tail).args = (tail ()).elements := rfl
    have hliteral := hfunction (f := cons r head tail) ht
    refine ⟨⟨fun d required h => ?_, hliteral⟩, fun g hg => ?_⟩
    · rw [code, parts_eq, ← hargs]
      have hhead : (head ()).Occurs (cons r head tail) := .head .self
      have hoperator := hh.part hc (hhead.trans hf) hhead d.nesting
      refine Compile.application_spares hc ⟨h, rfl⟩ hf (fun p hp => ?_) (fun hA => ?_) hoperator
      · obtain ⟨g, hg, rfl⟩ := List.mem_map.mp hp
        exact (ht g hg).part hc (.trans (.of_mem_args hg) hf) (.of_mem_args hg) d.nesting
      · rw [← function_eq]
        exact hliteral d none h hA
    · simp only [elements] at hg
      split at hg
      case isTrue  => cases hg
      case isFalse =>
        rcases List.mem_cons.mp hg with rfl | hg
        · exact hh
        · exact ht g hg

end CellLisp
