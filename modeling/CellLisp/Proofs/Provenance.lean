import CellLisp.Proofs.Discipline
import CellLisp.Proofs.KnownShape

namespace CellLisp

theorem Form.All.head {P : Ref → Prop} {f : Form} (h : f.All P) : f.head.All P := by
  cases f
  case absent => trivial
  case atom   => trivial
  case cons   => exact h.2.1

-- A form is a part of another one.
inductive Form.Occurs (f : Form) : Form → Prop
  | self : Occurs f f
  | head {r : Ref} {head tail : Unit → Form} : Occurs f (head ()) → Occurs f (.cons r head tail)
  | tail {r : Ref} {head tail : Unit → Form} : Occurs f (tail ()) → Occurs f (.cons r head tail)

namespace Form.Occurs

variable {f g whole : Form}

theorem trans (h : f.Occurs g) (h' : g.Occurs whole) : f.Occurs whole := by
  induction h'
  case self    => exact h
  case head hi => exact .head hi
  case tail hi => exact .tail hi

theorem of_mem_elements (h : g ∈ f.elements) : g.Occurs f := by
  induction f
  case absent => simp [elements] at h
  case atom   => simp [elements] at h
  case cons head tail _ hi =>
    simp only [elements] at h
    split at h
    case isTrue  => cases h
    case isFalse =>
      cases h
      case head   => exact .head .self
      case tail h => exact .tail (hi () h)

theorem of_mem_args (h : g ∈ f.args) : g.Occurs f := by
  cases f
  case cons => exact .tail (of_mem_elements h)
  all_goals cases h

theorem all {P : Ref → Prop} (h : f.Occurs whole) (hw : whole.All P) : f.All P := by
  induction h
  case self    => exact hw
  case head hi => exact hi hw.2.1
  case tail hi => exact hi hw.2.2

end Form.Occurs

-- The cell that all empty lists share is one.
def Heap.SharesNil (h : Heap) : Prop :=
  ∃ x, h.get? nilRef = some x ∧ x.tag = .nil

namespace Compiler

mutual

-- What a name may stand for while an expression is compiled: the cell that it was bound to, and the
-- constants that the definitions in the expression bind it to.
inductive Names (c : Compiler) (whole : Form) : String → Ref → Prop
  | bound {name : String} {r : Ref} : c.env.lookup name = some r → Names c whole name r
  | constant {f value : Form} {name : String} {r : Ref} : f.Occurs whole → Applies c whole f .define →
    f.args[0]?.bind Form.symbol? = some name → f.args[1]? = some value →
    Compile.isConstant value → value.value = some r → Names c whole name r

-- The operations that a form may apply.
inductive Applies (c : Compiler) (whole : Form) : Form → Builtin → Prop
  | cell {f : Form} {r : Ref} {x : Cell} {op : Builtin} : f.head.value = some r →
    c.heap.get? r = some x → x.builtin? = some op → Applies c whole f op
  | name {f : Form} {name : String} {r : Ref} {x : Cell} {op : Builtin} :
    f.head.symbol? = some name → Names c whole name r →
    c.heap.get? r = some x → x.builtin? = some op → Applies c whole f op

end

-- Somewhere in the expression a name is defined.
structure Defined (c : Compiler) (whole f : Form) (name : String) (value : Form) : Prop where
  occurs  : f.Occurs whole
  applies : c.Applies whole f .define
  target  : f.args[0]?.bind Form.symbol? = some name
  value   : f.args[1]? = some value

-- A cell is the finished function of a literal. The body was compiled while the literal was open under
-- its name.
def Realizes (d : Compiler) (name : Option String) (literal : Form) (r : Ref) : Prop :=
  ∃ last id body, literal.args.getLast? = some last ∧
    d.heap.get? r = some (.lambda literal.tail.value (some id)) ∧ d.codes[id]? = some body ∧
    ∃ b b', b.nesting.stack.head? = some ⟨name, r⟩ ∧ last.code .any b = .ok body b'

-- The cells that definitions of a name in the expression would bind it to, as far as they are known.
inductive Binds (c : Compiler) (whole : Form) (d : Compiler) (name : String) : Ref → Prop
  | constant {f value : Form} {r : Ref} : c.Defined whole f name value → Compile.isConstant value →
    value.value = some r → Binds c whole d name r
  | function {f value : Form} {r : Ref} : c.Defined whole f name value →
    c.Applies whole value .function → c.heap.size ≤ r → d.Realizes (some name) value r →
    Binds c whole d name r

-- The cells that a name may get bound to because code reads it.
inductive Seeds (c : Compiler) (whole : Form) (d : Compiler) (name : String) : Ref → Prop
  | zero {r : Ref} : c.heap.size ≤ r → d.heap.get? r = some (.int 0) → Seeds c whole d name r
  | shared {x : Cell} : d.heap.get? Heap.nilRef = some x → x.tag = .nil →
    Seeds c whole d name Heap.nilRef
  | defined {r : Ref} : c.Binds whole d name r → Seeds c whole d name r

-- The body of a function is put into the table, and its place into the cell of the function.
def finished (d : Compiler) (r : Ref) (params : Value) (body : Code .cell) : Compiler :=
  { d with
    heap  := d.heap.set r (.lambda params (some d.codes.size))
    codes := d.codes.push body }

-- Everything that was there is there.
structure Retains (d d' : Compiler) : Prop where
  size  : d.heap.size ≤ d'.heap.size
  cells : ∀ r < d.heap.size, d'.heap.get? r = d.heap.get? r
  names : d.env.names <+: d'.env.names
  codes : d.codes.toList <+: d'.codes.toList

-- Function literals that were open may have been closed.
structure Secures (d d' : Compiler) : Prop where
  cells : ∀ r x, d.heap.get? r = some x → (∀ params, x ≠ .lambda params none) → d'.heap.get? r = some x
  names : d.env.names <+: d'.env.names
  codes : d.codes.toList <+: d'.codes.toList

-- A state on the way, in a compilation that began with `c`.
structure Explains (c : Compiler) (whole : Form) (d : Compiler) : Prop where
  retains  : c.Retains d
  bindings : ∀ e ∉ d.seeded, d.env.binding e = c.env.binding e
  pending  : ∀ p ∈ d.pending, ∃ name, d.env.entry? name = some p.1 ∧ c.Binds whole d name p.2
  seeded   : ∀ e ∈ d.seeded, ∃ name r, d.env.entry? name = some e ∧ d.env.binding e = some r ∧
    c.Seeds whole d name r

-- What is known of the state that a compilation begins with.
structure Hosts (c : Compiler) (whole : Form) : Prop where
  sound  : c.Sound
  shared : c.heap.SharesNil
  form   : whole.All (· < c.heap.size)

variable {b c d d' : Compiler} {whole literal : Form} {name : String} {r : Ref} {x : Cell}

namespace Retains

theorem refl : c.Retains c :=
  ⟨Nat.le_refl _, fun _ _ => rfl, List.prefix_refl _, List.prefix_refl _⟩

theorem trans (h : b.Retains c) (h' : c.Retains d) : b.Retains d where
  size       := Nat.le_trans h.size h'.size
  cells r hr := (h'.cells r (Nat.lt_of_lt_of_le hr h.size)).trans (h.cells r hr)
  names      := h.names.trans h'.names
  codes      := h.codes.trans h'.codes

theorem get? (h : c.Retains d) (hx : c.heap.get? r = some x) : d.heap.get? r = some x :=
  (h.cells r (Heap.lt_size_of_get? hx)).trans hx

theorem secures (h : c.Retains d) : c.Secures d :=
  ⟨fun _ _ hx _ => h.get? hx, h.names, h.codes⟩

theorem alloc (c : Compiler) (x : Cell) : c.Retains { c with heap := (c.heap.alloc x).2 } :=
  { refl with
    size       := by simp
    cells r hr := Heap.get?_alloc_of_lt x hr }

theorem intern (c : Compiler) (name : String) : c.Retains (c.interned name) :=
  { refl with names := Env.names_intern _ _ }

-- What the compiler keeps in mind besides plays no part.
theorem aside (c : Compiler) (nesting : Nesting) (pending : List (EntryId × Ref))
    (seeded : List EntryId) : c.Retains { c with nesting, pending, seeded } :=
  { refl with }

theorem bind (c : Compiler) (e : EntryId) (r : Ref) (seeded : List EntryId) :
    c.Retains { c with env := c.env.bind e r, seeded } :=
  { refl with names := by simp [Env.bind] }

-- The cell of the function is a new one.
theorem finished {params : Value} {body : Code .cell} (h : c.Retains d) (hr : c.heap.size ≤ r) :
    c.Retains (d.finished r params body) where
  size       := by simpa [Compiler.finished] using h.size
  cells s hs := by
    have hne : s ≠ r := Nat.ne_of_lt (Nat.lt_of_lt_of_le hs hr)
    exact (Heap.get?_set_of_ne _ hne).trans (h.cells s hs)
  names      := h.names
  codes      := by simpa [Compiler.finished] using h.codes.trans (List.prefix_append _ _)

end Retains

-- Only functions that are finished count, so that closing a literal does no harm.
theorem Realizes.mono {name : Option String} (h : d.Realizes name literal r) (hs : d.Secures d') :
    d'.Realizes name literal r := by
  obtain ⟨last, id, body, hlast, hr, hbody, hcode⟩ := h
  refine ⟨last, id, body, hlast, hs.cells r _ hr (by simp), ?_, hcode⟩
  obtain ⟨more, hmore⟩ := hs.codes
  have ⟨hid, _⟩ := Array.getElem?_eq_some_iff.mp hbody
  have hid : id < d.codes.toList.length := hid
  rw [← Array.getElem?_toList] at hbody ⊢
  rw [← hmore, List.getElem?_append_left hid, hbody]

theorem Binds.mono (h : c.Binds whole d name r) (hs : d.Secures d') : c.Binds whole d' name r := by
  cases h
  case constant hd hv hr      => exact .constant hd hv hr
  case function hd hf hsize h => exact .function hd hf hsize (h.mono hs)

theorem Seeds.mono (h : c.Seeds whole d name r) (hs : d.Secures d') : c.Seeds whole d' name r := by
  cases h
  case zero hsize hr => exact .zero hsize (hs.cells r _ hr (by simp))
  case shared x hr hx =>
    refine .shared (hs.cells _ _ hr ?_) hx
    rintro params rfl
    cases hx
  case defined h => exact .defined (h.mono hs)

namespace Explains

-- Whatever an action does beside binding names or keeping bindings in mind, it explains as much.
theorem mono (h : c.Explains whole d) (hs : d.Secures d') (hr : c.Retains d')
    (hb : ∀ e, d'.env.binding e = d.env.binding e) (hp : d'.pending = d.pending)
    (hn : d'.seeded = d.seeded) : c.Explains whole d' where
  retains       := hr
  bindings e he := (hb e).trans (h.bindings e (hn ▸ he))
  pending p hp' := by
    obtain ⟨name, he, hbinds⟩ := h.pending p (hp ▸ hp')
    exact ⟨name, Env.entry?_of_names_prefix hs.names he, hbinds.mono hs⟩
  seeded e he   := by
    obtain ⟨name, r, hname, hr, hseeds⟩ := h.seeded e (hn ▸ he)
    exact ⟨name, r, Env.entry?_of_names_prefix hs.names hname, (hb e).trans hr, hseeds.mono hs⟩

theorem next (h : c.Explains whole d) (hd : d.Retains d')
    (hb : ∀ e, d'.env.binding e = d.env.binding e) (hp : d'.pending = d.pending)
    (hn : d'.seeded = d.seeded) : c.Explains whole d' :=
  h.mono hd.secures (h.retains.trans hd) hb hp hn

theorem start (hp : c.pending = []) (hn : c.seeded = []) : c.Explains whole c where
  retains      := .refl
  bindings _ _ := rfl
  pending      := by simp [hp]
  seeded       := by simp [hn]

theorem alloc (h : c.Explains whole d) (x : Cell) :
    c.Explains whole { d with heap := (d.heap.alloc x).2 } :=
  h.next (.alloc d x) (fun _ => rfl) rfl rfl

theorem withNesting (h : c.Explains whole d) (nesting : Nesting) :
    c.Explains whole { d with nesting } :=
  h.next (.aside d nesting d.pending d.seeded) (fun _ => rfl) rfl rfl

theorem intern (h : c.Explains whole d) (name : String) : c.Explains whole (d.interned name) :=
  h.next (.intern d name) (fun _ => Env.binding_intern _ _ _) rfl rfl

-- The cell of the literal was of no use while the literal was open.
theorem finished {params : Value} (body : Code .cell) (h : c.Explains whole d) (hr : c.heap.size ≤ r)
    (hx : d.heap.get? r = some (.lambda params none)) : c.Explains whole (d.finished r params body) := by
  refine h.mono ⟨fun s y hy hne => ?_, List.prefix_refl _, ?_⟩ (h.retains.finished hr) (fun _ => rfl) rfl rfl
  · refine (Heap.get?_set_of_ne _ ?_).trans hy
    rintro rfl
    exact hne params (Option.some.inj (hy.symm.trans hx))
  · simp [Compiler.finished]

theorem seed {e : EntryId} (h : c.Explains whole d) (he : d.env.entry? name = some e)
    (hr : c.Seeds whole d name r) :
    c.Explains whole { d with env := d.env.bind e r, seeded := e :: d.seeded } := by
  have hd := Retains.bind d e r (e :: d.seeded)
  have hother {e' : EntryId} (hne : e' ≠ e) : (d.env.bind e r).binding e' = d.env.binding e' :=
    Env.binding_setBinding_of_ne _ hne
  constructor
  case retains => exact h.retains.trans hd
  case bindings =>
    intro e' he'
    have ⟨hne, he'⟩ := not_or.mp (List.mem_cons.not.mp he')
    exact (hother hne).trans (h.bindings e' he')
  case pending =>
    intro p hp
    obtain ⟨name, hname, hbinds⟩ := h.pending p hp
    exact ⟨name, Env.entry?_of_names_prefix hd.names hname, hbinds.mono hd.secures⟩
  case seeded =>
    intro e' he'
    by_cases hne : e' = e
    case pos =>
      subst hne
      exact ⟨name, r, Env.entry?_of_names_prefix hd.names he,
        Env.binding_setBinding _ (Env.lt_size_of_entry? he), hr.mono hd.secures⟩
    case neg =>
      obtain ⟨name, r, hname, hr, hseeds⟩ := h.seeded e' ((List.mem_cons.mp he').resolve_left hne)
      exact ⟨name, r, Env.entry?_of_names_prefix hd.names hname, (hother hne).trans hr,
        hseeds.mono hd.secures⟩

theorem bindPending {e : EntryId} (h : c.Explains whole d) (he : d.env.entry? name = some e)
    (hr : c.Binds whole d name r) :
    c.Explains whole { d with pending := (e, r) :: d.pending } := by
  have hd := Retains.aside d d.nesting ((e, r) :: d.pending) d.seeded
  constructor
  case retains  => exact h.retains.trans hd
  case bindings => exact h.bindings
  case pending =>
    intro p hp
    rcases List.mem_cons.mp hp with rfl | hp
    · exact ⟨name, he, hr.mono hd.secures⟩
    · obtain ⟨name, hname, hbinds⟩ := h.pending p hp
      exact ⟨name, hname, hbinds.mono hd.secures⟩
  case seeded =>
    intro e' he'
    obtain ⟨name, r, hname, hr, hseeds⟩ := h.seeded e' he'
    exact ⟨name, r, hname, hr, hseeds.mono hd.secures⟩

end Explains

-- Of all that names get bound to on the way, only constants can be operations.
theorem Binds.names {op : Builtin} (h : c.Binds whole d name r) (hx : d.heap.get? r = some x)
    (hop : x.builtin? = some op) : c.Names whole name r := by
  cases h
  case constant hd hv hr => exact .constant hd.occurs hd.applies hd.target hd.value hv hr
  case function h =>
    obtain ⟨_, _, _, _, hr, _⟩ := h
    cases hx.symm.trans hr
    cases hop

theorem Seeds.names {op : Builtin} (h : c.Seeds whole d name r) (hx : d.heap.get? r = some x)
    (hop : x.builtin? = some op) : c.Names whole name r := by
  cases h
  case defined h => exact h.names hx hop
  case zero hr =>
    cases hx.symm.trans hr
    cases hop
  case shared hr ht =>
    cases hx.symm.trans hr
    cases x
    case builtin => cases ht
    all_goals cases hop

theorem Names.lt (hc : c.Hosts whole) (h : c.Names whole name r) : r < c.heap.size := by
  cases h
  case bound h =>
    obtain ⟨e, _, hr⟩ := Option.bind_eq_some_iff.mp h
    exact hc.sound.bindings e r hr
  case constant hf _ hvalue _ _ hr =>
    have hv := (Form.Occurs.of_mem_args (List.mem_of_getElem? hvalue)).trans hf
    exact (hv.all hc.form).value hr

-- A name that is bound was bound before or has been seeded.
theorem Explains.bound_or_seeds (h : c.Explains whole d) (hr : d.env.lookup name = some r) :
    c.env.lookup name = some r ∨ c.Seeds whole d name r := by
  obtain ⟨e, he, hb⟩ := Option.bind_eq_some_iff.mp hr
  by_cases hseeded : e ∈ d.seeded
  case pos =>
    obtain ⟨name', s, he', hs, hseeds⟩ := h.seeded e hseeded
    cases Env.entry?_inj he he'
    cases hb.symm.trans hs
    exact .inr hseeds
  case neg =>
    rw [h.bindings e hseeded] at hb
    have he := Env.entry?_of_lt h.retains.names he (Env.lt_size_of_binding hb)
    exact .inl (by rw [Env.lookup, he, Option.bind_some, hb])

theorem Explains.names {op : Builtin} (h : c.Explains whole d) (hr : d.lookup name = some r)
    (hx : d.heap.get? r = some x) (hop : x.builtin? = some op) : c.Names whole name r := by
  obtain ⟨e, he, hv⟩ := Option.bind_eq_some_iff.mp hr
  cases hp : d.pending.lookup e
  case some s =>
    have hs : s = r := by simpa [visible, hp] using hv
    subst hs
    obtain ⟨_, _, hl, _⟩ := List.lookup_eq_some_iff.mp hp
    obtain ⟨name', he', hbinds⟩ := h.pending (e, s) (by simp [hl])
    cases Env.entry?_inj he he'
    exact hbinds.names hx hop
  case none =>
    have hb : d.env.lookup name = some r := by simpa [Env.lookup, he, visible, hp] using hv
    rcases h.bound_or_seeds hb with hb | hseeds
    · exact .bound hb
    · exact hseeds.names hx hop

theorem Explains.applies_name {f : Form} {op : Builtin} (hc : c.Hosts whole) (h : c.Explains whole d)
    (hn : f.head.symbol? = some name) (hr : d.lookup name = some r) (hx : d.heap.get? r = some x)
    (hop : x.builtin? = some op) : c.Applies whole f op := by
  have hname := h.names hr hx hop
  have hget := h.retains.cells r (hname.lt hc)
  exact .name hn hname (hget.symm.trans hx) hop

theorem Explains.applies_cell {f : Form} {op : Builtin} (hc : c.Hosts whole) (h : c.Explains whole d)
    (hf : f.Occurs whole) (hr : f.head.value = some r) (hx : d.heap.get? r = some x)
    (hop : x.builtin? = some op) : c.Applies whole f op := by
  have hlt : r < c.heap.size := (hf.all hc.form).head.value hr
  exact .cell hr ((h.retains.cells r hlt).symm.trans hx) hop

theorem Explains.applies_function {f : Form} (hc : c.Hosts whole) (h : c.Explains whole d)
    (hf : d.isFunction f) : c.Applies whole f .function := by
  obtain ⟨name, hn, hf⟩ := Option.bind_eq_some_iff.mp (eq_of_beq hf)
  obtain ⟨x, hx, hop⟩ := Option.bind_eq_some_iff.mp hf
  obtain ⟨r, hr, hx⟩ := Option.bind_eq_some_iff.mp hx
  exact h.applies_name hc hn hr hx hop

end Compiler
end CellLisp
