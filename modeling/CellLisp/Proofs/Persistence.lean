import CellLisp.Proofs.Compilation
import CellLisp.Proofs.Primitive

namespace CellLisp

namespace Cell

-- What a cell that is there can turn into: its tag and its second word stay, and so does the code of a
-- function. A reference can be lost, and none is added.
structure Becomes (c d : Cell) : Prop where
  tag        : d.tag = c.tag
  secondWord : d.secondWord = c.secondWord
  code       : d.code? = c.code?
  refers     : d.refers ⊆ c.refers

variable {b c d : Cell}

namespace Becomes

theorem refl : c.Becomes c :=
  ⟨rfl, rfl, rfl, List.Subset.refl _⟩

theorem trans (h : b.Becomes c) (h' : c.Becomes d) : b.Becomes d where
  tag        := h'.tag.trans h.tag
  secondWord := h'.secondWord.trans h.secondWord
  code       := h'.code.trans h.code
  refers     := List.Subset.trans h'.refers h.refers

theorem ofRemnant {word : Int64} {rest : Remnant} (h : c.Becomes (spoilt word rest)) :
    c.Becomes (.ofRemnant word rest) := by
  refine h.trans ?_
  cases rest
  case symbol => exact refl
  case bytes  => exact refl
  all_goals
    rw [Cell.ofRemnant]
    split
    case isFalse => exact refl
    case isTrue  => exact ⟨rfl, rfl, rfl, List.Subset.refl _⟩

-- Only what the first word led to is lost.
theorem setFirstWord (c : Cell) (word : Int64) : c.Becomes (c.setFirstWord word) := by
  cases c
  case cons head tail =>
    have h : (cons head tail).Becomes (spoilt word (.cons tail)) :=
      ⟨rfl, rfl, rfl, List.subset_append_right _ _⟩
    exact h.ofRemnant
  case lambda params code =>
    have h : (lambda params code).Becomes (spoilt word (.lambda code)) :=
      ⟨rfl, rfl, rfl, List.subset_append_right _ _⟩
    exact h.ofRemnant
  case spoilt first rest =>
    have h : (spoilt first rest).Becomes (spoilt word rest) := by
      cases rest <;> exact ⟨rfl, rfl, rfl, List.Subset.refl _⟩
    exact h.ofRemnant
  all_goals exact ⟨rfl, rfl, rfl, List.Subset.refl _⟩

end Becomes

theorem eq_int_of_tag (h : c.tag = .int) : ∃ n, c = .int n := by
  cases c
  case int n       => exact ⟨n, rfl⟩
  case spoilt rest => cases rest <;> cases h
  all_goals cases h

theorem Refilled.becomes (h : c.Refilled d) : c.Becomes d := by
  rcases h with rfl | ⟨x, y, rfl, rfl, hs⟩
  · exact .refl
  · exact ⟨rfl, by simp [secondWord, hs], rfl, List.Subset.refl _⟩

end Cell

theorem Heap.becomes_set {h : Heap} {r : Ref} {c d : Cell} (hc : h.get? r = some c)
    (hd : c.Becomes d) (q : Ref) (c' : Cell) (hq : h.get? q = some c') :
    ∃ d', (h.set r d).get? q = some d' ∧ c'.Becomes d' := by
  by_cases hqr : q = r
  case neg => exact ⟨c', by rw [get?_set_of_ne d hqr, hq], .refl⟩
  case pos =>
    subst hqr
    cases hc.symm.trans hq
    exact ⟨d, get?_set_self d (lt_size_of_get? hc), hd⟩

namespace Session

variable {s t u : Session}

structure Persists (s t : Session) : Prop where
  sound : t.Sound
  idle  : t.Idle
  size  : s.heap.size ≤ t.heap.size
  cells : ∀ r c, s.heap.get? r = some c → ∃ d, t.heap.get? r = some d ∧ c.Becomes d
  names : s.env.names <+: t.env.names
  codes : s.codes.toList <+: t.codes.toList

namespace Persists

theorem refl (h : s.Sound) (hi : s.Idle) : s.Persists s where
  sound     := h
  idle      := hi
  size      := Nat.le_refl _
  cells _ c hc := ⟨c, hc, .refl⟩
  names     := List.prefix_refl _
  codes     := List.prefix_refl _

theorem trans (h : s.Persists t) (h' : t.Persists u) : s.Persists u where
  sound := h'.sound
  idle  := h'.idle
  size  := Nat.le_trans h.size h'.size
  cells r c hc := by
    have ⟨d, hd, hcd⟩ := h.cells r c hc
    have ⟨e, he, hde⟩ := h'.cells r d hd
    exact ⟨e, he, hcd.trans hde⟩
  names := h.names.trans h'.names
  codes := h.codes.trans h'.codes

theorem tag {r : Ref} {c : Cell} (h : s.Persists t) (hc : s.heap.get? r = some c) :
    ∃ d, t.heap.get? r = some d ∧ d.tag = c.tag := by
  obtain ⟨d, hd, hcd⟩ := h.cells r c hc
  exact ⟨d, hd, hcd.tag⟩

theorem extent_le (h : s.Persists t) : s.extent ≤ t.extent :=
  Compiler.extent_le_of_prefix h.size h.names h.codes

theorem of_works (h : s.Works t) (hs : s.Sound) (hi : s.Idle) : s.Persists t := by
  have hsound : Compiler.Sound { s.toCompiler with heap := t.heap } := by
    refine hs.withHeap h.heap.size (fun r d hd n hn => ?_)
    -- An old cell refers to what it referred to, a new one to cells before it.
    cases hc : s.heap.get? r
    case some c =>
      have ⟨d', hd', hcd⟩ := h.heap.old r c hc
      cases hd.symm.trans hd'
      exact hs.cells r c hc n (hcd.refers ▸ hn)
    case none =>
      have ⟨q, hq, hnq⟩ := h.heap.fresh r d (Heap.get?_eq_none_iff.mp hc) hd n hn
      exact hnq ▸ hq
  exact {
    sound := h.rest ▸ hsound
    idle  := by rw [h.rest]; exact ⟨hi.nesting, hi.pending, hi.seeded⟩
    size  := h.heap.size
    cells := fun r c hc =>
      have ⟨d, hd, hcd⟩ := h.heap.old r c hc
      ⟨d, hd, hcd.becomes⟩
    names := by rw [h.rest]
    codes := by rw [h.rest] }

theorem of_extends {c : Compiler} (h : s.Extends c) : s.Persists { s with toCompiler := c } :=
  { h with cells := fun r d hd => ⟨d, by rw [h.cells r (Heap.lt_size_of_get? hd), hd], .refl⟩ }

theorem setBinding {e : EntryId} {v : Value} (hs : s.Sound) (hi : s.Idle) (hv : s.heap.Has v) :
    s.Persists { s with env := s.env.setBinding e v } :=
  { refl hs hi with
    sound := hs.setBinding hv
    idle  := ⟨hi.nesting, hi.pending, hi.seeded⟩
    names := by simp }

theorem setCell {r : Ref} {c d : Cell} (hs : s.Sound) (hi : s.Idle) (hc : s.heap.get? r = some c)
    (hd : c.Becomes d) : s.Persists { s with heap := s.heap.set r d } := by
  have hr := Heap.lt_size_of_get? hc
  refine { refl hs hi with
    sound := hs.withHeap (by simp) (fun q c' hq n hn => ?_)
    idle  := ⟨hi.nesting, hi.pending, hi.seeded⟩
    size  := by simp
    cells := Heap.becomes_set hc hd }
  by_cases hqr : q = r
  case neg => exact hs.cells q c' (Heap.get?_set_of_ne d hqr ▸ hq) n hn
  case pos =>
    subst hqr
    rw [Heap.get?_set_self d hr] at hq
    cases hq
    exact hs.cells q c hc n (hd.refers hn)

end Persists
end Session

-- What is asked of code that runs: that the session is in order, and knows all the code refers to.
structure Config.Ready (c : Config) : Prop where
  sound : c.session.Sound
  idle  : c.session.Idle
  code  : c.code.Within c.session.toCompiler

theorem Config.Ready.refl {c : Config} (h : c.Ready) : c.session.Persists c.session :=
  .refl h.sound h.idle

-- A part of code that is ready is ready too, and stays so.
theorem Config.Ready.part {c : Config} {k : Kind} {t : Session} (h : c.Ready) (part : Code k)
    (hm : part.mentions ⊆ c.code.mentions) (hp : c.session.Persists t) : Config.Ready ⟨part, t⟩ where
  sound := hp.sound
  idle  := hp.idle
  code  := Code.within_iff.mpr fun m hmem => (Code.within_iff.mp h.code m (hm hmem)).mono hp.extent_le

theorem Operands.Enters.mentions {link : Link} {ks : List Kind} {operands : Operands ks} {s : Session}
    {c : Config} (h : operands.Enters link s c) : c.code.mentions ⊆ operands.mentions := by
  induction h
  case first      => exact List.subset_append_left _ _
  case rest hi    => exact List.subset_append_of_subset_right _ hi

theorem Loop.Enters.mentions {link : Link} {k : Kind} {condition : Code .raw} {body : Code k}
    {s : Session} {c : Config} (h : Loop.Enters link condition body s c) :
    c.code.mentions ⊆ condition.mentions ++ body.mentions := by
  induction h
  case condition => exact List.subset_append_left _ _
  case body      => exact List.subset_append_right _ _
  case next hi   => exact hi

-- Control passes to a part of the code, which mentions nothing new, or to the body of a function.
theorem Enters.part_or_body {link : Link} {c d : Config} (h : Enters link c d) :
    d.code.mentions ⊆ c.code.mentions ∨
    ∃ callee id code, .call callee ∈ c.code.mentions ∧ callee.body? c.session.heap = some id ∧
      c.session.codes[id]? = some code ∧ d = ⟨code, c.session⟩ := by
  cases h
  case call hcode =>
    obtain ⟨rfl, id, hid, hcode⟩ := RunM.codeOf_ok hcode
    exact .inr ⟨_, id, _, by simp, hid, hcode, rfl⟩
  case operand h => exact .inl h.mentions
  case round h   => exact .inl (List.Subset.trans h.mentions (by simp))
  all_goals exact .inl (by simp)

theorem Config.Ready.enters {link : Link} {c d : Config} (h : c.Ready) (hd : Enters link c d)
    (hp : c.session.Persists d.session) : d.Ready := by
  refine ⟨hp.sound, hp.idle, ?_⟩
  cases hd.part_or_body
  case inl hpart =>
    have hcode := Code.within_iff.mp h.code
    exact Code.within_iff.mpr fun m hm => (hcode m (hpart hm)).mono hp.extent_le
  case inr hbody =>
    obtain ⟨_, id, _, _, _, hcode, rfl⟩ := hbody
    exact hp.sound.bodies id _ hcode

-- The two actions of running code that are neither definitions nor primitives, for any relation.
section Actions

variable {R : Session → Session → Prop} {s : Session}

theorem RunM.compiling_along {expr : Value} {required : Rep} (hs : s.Sound) (hi : s.Idle)
    (hr : ∀ c, s.Extends c → R s { s with toCompiler := c }) :
    Along R (compiling (compile expr required)) s (fun _ _ => True) := by
  have h := compile_extends expr required hs hi
  unfold Ensures at h
  unfold Along Ensures compiling
  split at h
  case h_1 heq => simpa only [heq] using ⟨hr _ h.1, trivial⟩
  case h_2 heq => simpa only [heq] using ⟨hr _ h.1, trivial⟩

theorem RunM.assign_along {e : EntryId} {word : Int64} (hs : R s s)
    (hr : ∀ r c, s.env.binding e = some r → s.heap.get? r = some c →
      R s { s with heap := s.heap.set r (c.setFirstWord word) }) :
    Along R (assign e word) s (fun _ _ => True) := by
  unfold Along Ensures
  rcases assign_cases e word s with h | ⟨r, c, hb, hc, h⟩ <;> rw [h]
  · exact hs
  · exact ⟨hr r c hb hc, trivial⟩

end Actions

def persistence (link : Link) : Regime link where
  Fits  := Config.Ready
  Leads := Session.Persists
  Good  := Session.Has
  start h           := .refl h.sound h.idle
  refl h            := .refl h.sound h.idle
  trans             := .trans
  mono hv h r hr    := Nat.lt_of_lt_of_le (hv r hr) h.size
  enters            := Config.Ready.enters
  evaluates _ _ _ h _ hc h' :=
    ⟨h'.sound, h'.idle, ((compile_extends _ _ h.sound h.idle).of_ok hc).2⟩
  literal h         := Heap.has_some.mpr (Code.within_literal.mp h.code)
  load h            := h.sound.bindings _
  shared h          := Heap.has_some.mpr h.sound.shared
  store _ _ h hv    := ⟨.setBinding h.sound h.idle hv, hv⟩
  assign _ _ h      := RunM.assign_along (.refl h.sound h.idle) fun _ c _ hc =>
    .setCell h.sound h.idle hc (.setFirstWord c _)
  error h           := (RunM.error_along Heap.quality_has _).mono fun _ hw => .of_works hw h.sound h.idle
  compile h _       := RunM.compiling_along h.sound h.idle fun _ => .of_extends
  primitive _ h hv  := (Primitive.run_along h.sound _ _ hv).mono fun _ hw => .of_works hw h.sound h.idle

theorem Config.Ready.persists {link : Link} {c : Config} {v : c.kind.Result} {t : Session} (h : c.Ready)
    (hv : Returns link c.code c.session v t) : c.session.Persists t :=
  ((persistence link).returns h hv).1

end CellLisp
