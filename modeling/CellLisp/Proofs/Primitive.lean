import CellLisp.Execution.Primitive
import CellLisp.Proofs.Control
import CellLisp.Proofs.Reference

namespace CellLisp

-- The same cell, or a buffer of the same size.
def Cell.Refilled (c d : Cell) : Prop :=
  d = c ∨ ∃ x y, c = bytes x ∧ d = bytes y ∧ y.size = x.size

namespace Cell.Refilled

variable {b c d : Cell}

theorem refl : c.Refilled c :=
  .inl rfl

theorem trans (h : b.Refilled c) (h' : c.Refilled d) : b.Refilled d := by
  rcases h with rfl | ⟨x, y, rfl, rfl, hxy⟩
  · exact h'
  · rcases h' with rfl | ⟨y', z, hy, rfl, hyz⟩
    · exact .inr ⟨x, y, rfl, rfl, hxy⟩
    · cases hy
      exact .inr ⟨x, z, rfl, rfl, hyz.trans hxy⟩

theorem mapBytes {f : Bytes → Bytes} (hf : ∀ x, (f x).size = x.size) : c.Refilled (c.mapBytes f) := by
  cases c
  case bytes x => exact .inr ⟨x, f x, rfl, rfl, hf x⟩
  all_goals exact refl

theorem refers (h : c.Refilled d) : d.refers = c.refers := by
  rcases h with rfl | ⟨x, y, rfl, rfl, _⟩ <;> rfl

theorem whole (h : c.Refilled d) (hc : c.Whole) : d.Whole := by
  rcases h with rfl | ⟨x, y, rfl, rfl, _⟩
  · exact hc
  · trivial

end Cell.Refilled

namespace Heap

structure Works (h h' : Heap) : Prop where
  size  : h.size ≤ h'.size
  old   : ∀ r c, h.get? r = some c → ∃ d, h'.get? r = some d ∧ c.Refilled d
  fresh : ∀ r d, h.size ≤ r → h'.get? r = some d → ∀ n ∈ d.refers, ∃ s < r, n = .cell s
  whole : ∀ r d, h.size ≤ r → h'.get? r = some d → d.Whole

variable {h h' h'' : Heap} {v : Value} {r : Ref}

-- What a value refers to is in the heap.
def Has (h : Heap) (v : Value) : Prop :=
  ∀ r, v = some r → r < h.size

theorem has_some : h.Has (some r) ↔ r < h.size := by
  simp [Has]

namespace Works

theorem refl : h.Works h where
  size          := Nat.le_refl _
  old _ c hc    := ⟨c, hc, .refl⟩
  fresh _ _ hr hd := by simp [get?_eq_none_iff.mpr hr] at hd
  whole _ _ hr hd := by simp [get?_eq_none_iff.mpr hr] at hd

theorem has (hw : h.Works h') (hv : h.Has v) : h'.Has v :=
  fun r hr => Nat.lt_of_lt_of_le (hv r hr) hw.size

theorem trans (hw : h.Works h') (hw' : h'.Works h'') : h.Works h'' where
  size := Nat.le_trans hw.size hw'.size
  old r c hc := by
    have ⟨d, hd, hcd⟩ := hw.old r c hc
    have ⟨e, he, hde⟩ := hw'.old r d hd
    exact ⟨e, he, hcd.trans hde⟩
  fresh r d hr hd := by
    -- A cell that is new in the end was added by the first of the two, or by the second.
    cases hc : h'.get? r
    case some c =>
      have ⟨d', hd', hcd⟩ := hw'.old r c hc
      cases hd.symm.trans hd'
      exact hcd.refers ▸ hw.fresh r c hr hc
    case none =>
      exact hw'.fresh r d (get?_eq_none_iff.mp hc) hd
  whole r d hr hd := by
    cases hc : h'.get? r
    case some c =>
      have ⟨d', hd', hcd⟩ := hw'.old r c hc
      cases hd.symm.trans hd'
      exact hcd.whole (hw.whole r c hr hc)
    case none =>
      exact hw'.whole r d (get?_eq_none_iff.mp hc) hd

theorem alloc {c : Cell} (hc : ∀ n ∈ c.refers, ∃ s < h.size, n = .cell s) (hwhole : c.Whole) :
    h.Works (h.alloc c).2 where
  size        := by simp
  old r c' hr := ⟨c', by rw [get?_alloc_of_lt c (lt_size_of_get? hr), hr], .refl⟩
  fresh r d hr hd := by
    rw [get?_alloc] at hd
    split at hd
    case isTrue e  => cases hd; subst e; exact hc
    case isFalse   => simp [get?_eq_none_iff.mpr hr] at hd
  whole r d hr hd := by
    rw [get?_alloc] at hd
    split at hd
    case isTrue    => exact Option.some.inj hd ▸ hwhole
    case isFalse   => simp [get?_eq_none_iff.mpr hr] at hd

theorem mapBytes {f : Bytes → Bytes} (hf : ∀ x, (f x).size = x.size) :
    h.Works (h.modify r (·.mapBytes f)) where
  size := by simp
  old s c hc := by
    rw [get?_modify, hc]
    split
    case isTrue  => exact ⟨_, rfl, .mapBytes hf⟩
    case isFalse => exact ⟨c, rfl, .refl⟩
  fresh s d hs hd := by simp [get?_modify, get?_eq_none_iff.mpr hs] at hd
  whole s d hs hd := by simp [get?_modify, get?_eq_none_iff.mpr hs] at hd

theorem alloc_atom {c : Cell} (hc : c.refers = []) (hwhole : c.Whole) : h.Works (h.alloc c).2 :=
  .alloc (by simp [hc]) hwhole

theorem ensureInt : h.Works (h.ensureInt v).2 := by
  unfold Heap.ensureInt
  split
  case h_1 => exact refl
  case h_2 => exact alloc_atom rfl trivial

theorem putByte {i : Int64} {b : UInt8} : h.Works (h.putByte v i b) := by
  unfold Heap.putByte
  split
  case h_1 => exact refl
  case h_2 =>
    refine mapBytes (fun x => ?_)
    unfold Buffer.put
    split <;> simp

theorem writeInto {buffer : Value} : h.Works (h.writeInto v buffer).2 := by
  unfold Heap.writeInto
  split
  case h_1 => exact mapBytes (fun x => Buffer.size_fill x _ _)
  case h_2 => exact refl

end Works

namespace Whole

variable {c : Cell}

theorem cell (hw : h.Whole) (hc : h.cell? v = some c) : c.Whole :=
  have ⟨r, _, hc⟩ := Option.bind_eq_some_iff.mp hc
  hw r c hc

theorem works (hw : h.Whole) (hworks : h.Works h') : h'.Whole := by
  intro r d hd
  cases hc : h.get? r
  case some c =>
    have ⟨d', hd', hcd⟩ := hworks.old r c hc
    cases hd.symm.trans hd'
    exact hcd.whole (hw r c hc)
  case none => exact hworks.whole r d (get?_eq_none_iff.mp hc) hd

theorem alloc (hw : h.Whole) (hc : c.Whole) : (h.alloc c).2.Whole := by
  intro r d hd
  rw [get?_alloc] at hd
  split at hd
  case isTrue  => exact Option.some.inj hd ▸ hc
  case isFalse => exact hw r d hd

theorem set {r : Ref} (hw : h.Whole) (hc : c.Whole) : (h.set r c).Whole := by
  intro q d hd
  by_cases hqr : q = r
  case neg => exact hw q d ((get?_set_of_ne c hqr).symm.trans hd)
  case pos =>
    have hlt : r < h.size := by simpa [hqr] using lt_size_of_get? hd
    rw [hqr, get?_set_self c hlt] at hd
    exact Option.some.inj hd ▸ hc

theorem any_eq_false {p : Cell → Bool} (hw : h.Whole) (hp : ∀ c : Cell, c.Whole → p c = false) :
    (h.cell? v).any p = false := by
  cases hc : h.cell? v
  case none   => rfl
  case some c => exact hp c (hw.cell hc)

theorem lost_eq_false (hw : h.Whole) (tag : Tag) : h.lost tag v = false :=
  hw.any_eq_false fun c hc => by
    cases c
    case spoilt => exact hc.elim
    all_goals rfl

theorem lossy_eq_false (hw : h.Whole) (v : Value) : h.lossy v = false := by
  have upto (depth : Nat) (v : Value) : (h.datumWithin depth v).lossy = false := by
    induction depth generalizing v
    case zero => rfl
    case succ depth hi =>
      rw [datumWithin]
      split
      case h_3 head tail _ => simp [Datum.lossy, hi]
      case h_5 params _ _  => exact hi params
      case h_10 hc         => exact (hw.cell hc).elim
      all_goals rfl
  exact upto _ v

end Whole

-- What a cell has as soon as everything it refers to has it, and keeps whatever primitives do.
structure Quality (G : Value → Heap → Prop) : Prop where
  has   {v : Value} {h : Heap} : G v h → h.Has v
  works {v : Value} {h h' : Heap} : G v h → h.Works h' → G v h'
  made  {r : Ref} {c : Cell} {h : Heap} : h.get? r = some c →
    (∀ n ∈ c.refers, ∃ s, n = .cell s ∧ G (some s) h) → G (some r) h

-- Where the parts of pairs and the shared `nil` have the quality.
structure Rooted (G : Value → Heap → Prop) (h : Heap) : Prop where
  shared : G (some nilRef) h
  part   : ∀ r c s, G (some r) h → h.get? r = some c → .cell s ∈ c.refers → G (some s) h

theorem quality_has : Quality fun v h => h.Has v where
  has          := id
  works hv hw  := hw.has hv
  made hc _    := has_some.mpr (lt_size_of_get? hc)

theorem rooted_has {c : Compiler} (h : c.Sound) : Rooted (fun v h => h.Has v) c.heap where
  shared            := has_some.mpr h.shared
  part _ _ _ _ hc hs := has_some.mpr (h.cell_refers hc hs)

-- The part of a cell that it refers to, or the cell that stands in for it.
theorem Rooted.of_part {G : Value → Heap → Prop} (hr : Rooted G h) {part : Cell → Value}
    (hp : ∀ c r, part c = some r → .cell r ∈ c.refers)
    (hv : G v h) : G (some (((h.cell? v).bind part).getD nilRef)) h := by
  cases hpart : (h.cell? v).bind part
  case none => exact hr.shared
  case some s =>
    have ⟨c, hc, hs⟩ := Option.bind_eq_some_iff.mp hpart
    have ⟨r, hvr, hc⟩ := Option.bind_eq_some_iff.mp hc
    exact hr.part r c s (hvr ▸ hv) hc (hp c s hs)

namespace Quality

variable {G : Value → Heap → Prop} (q : Quality G)

include q

theorem alloc {c : Cell} (hc : ∀ n ∈ c.refers, ∃ s, n = .cell s ∧ G (some s) h) (hwhole : c.Whole) :
    h.Works (h.alloc c).2 ∧ G (some (h.alloc c).1) (h.alloc c).2 := by
  have hin : ∀ n ∈ c.refers, ∃ s < h.size, n = .cell s := fun n hn =>
    have ⟨s, hs, hg⟩ := hc n hn
    ⟨s, has_some.mp (q.has hg), hs⟩
  have hw : h.Works (h.alloc c).2 := .alloc hin hwhole
  refine ⟨hw, q.made (get?_alloc_self h c) fun n hn => ?_⟩
  have ⟨s, hs, hg⟩ := hc n hn
  exact ⟨s, hs, q.works hg hw⟩

theorem alloc_atom {c : Cell} (hc : c.refers = []) (hwhole : c.Whole) :
    h.Works (h.alloc c).2 ∧ G (some (h.alloc c).1) (h.alloc c).2 :=
  q.alloc (by simp [hc]) hwhole

theorem alloc_cons {head tail : Value} (hh : ∀ r, head = some r → G (some r) h)
    (ht : ∀ r, tail = some r → G (some r) h) :
    h.Works (h.alloc (.cons head tail)).2 ∧
      G (some (h.alloc (.cons head tail)).1) (h.alloc (.cons head tail)).2 := by
  refine q.alloc (fun n hn => ?_) trivial
  simp only [Cell.refers, List.mem_append, Referent.mem_ofValue] at hn
  cases hn
  case inl hn =>
    obtain ⟨r, hr, hn⟩ := hn
    exact ⟨r, hn, hh r hr⟩
  case inr hn =>
    obtain ⟨r, hr, hn⟩ := hn
    exact ⟨r, hn, ht r hr⟩

theorem ensureInt (hv : G v h) : G (h.ensureInt v).1 (h.ensureInt v).2 := by
  unfold Heap.ensureInt
  split
  case h_1 => exact hv
  case h_2 => exact (q.alloc_atom (c := .int 0) rfl trivial).2

theorem chain {items : List Ref} (hg : ∀ r ∈ items, G (some r) h) :
    h.Works (allocList.chain h items).2 ∧
      ∀ r, (allocList.chain h items).1 = some r → G (some r) (allocList.chain h items).2 := by
  induction items
  case nil => exact ⟨.refl, by simp [allocList.chain]⟩
  case cons r items hi =>
    have ⟨hw, ht⟩ := hi (fun s hs => hg s (.tail _ hs))
    have hr : ∀ s, some r = some s → G (some s) (allocList.chain h items).2 := fun s hs =>
      hs ▸ q.works (hg r (.head _)) hw
    have ⟨hw', hpair⟩ := q.alloc_cons hr ht
    exact ⟨hw.trans hw', fun s hs => hs ▸ hpair⟩

theorem allocList {items : List Ref} (hi : ∀ r ∈ items, G (some r) h) :
    h.Works (h.allocList items).2 ∧ G (some (h.allocList items).1) (h.allocList items).2 := by
  have ⟨hw, hv⟩ := q.chain hi
  unfold Heap.allocList
  split
  case h_1 r h' heq =>
    rw [heq] at hw hv
    exact ⟨hw, hv r rfl⟩
  case h_2 h' heq =>
    rw [heq] at hw
    have ⟨hw', hg⟩ := q.alloc_atom (h := h') (c := .nil 0) rfl trivial
    exact ⟨hw.trans hw', hg⟩

theorem allocDatum (d : Datum) :
    h.Works (h.allocDatum d).2 ∧ ∀ r, (h.allocDatum d).1 = some r → G (some r) (h.allocDatum d).2 := by
  induction d generalizing h
  case absent => exact ⟨.refl, by simp [Heap.allocDatum]⟩
  case atom a =>
    have ha : ∃ c, h.allocAtom a = h.alloc c ∧ c.refers = [] ∧ c.Whole := by
      cases a <;> exact ⟨_, rfl, rfl, trivial⟩
    obtain ⟨c, hc, hatom, hwhole⟩ := ha
    obtain ⟨hw, hg⟩ := q.alloc_atom (h := h) hatom hwhole
    rw [← hc] at hw hg
    exact ⟨hw, fun r hr => hr ▸ hg⟩
  case cons head tail hh ht =>
    obtain ⟨hw, hv⟩ := hh (h := h)
    obtain ⟨hw', hv'⟩ := ht (h := (h.allocDatum head).2)
    obtain ⟨hw'', hg⟩ := q.alloc_cons (fun r hr => q.works (hv r hr) hw') hv'
    exact ⟨(hw.trans hw').trans hw'', fun r hr => hr ▸ hg⟩
  case lambda params hp =>
    obtain ⟨hw, hv⟩ := hp (h := h)
    have hc : ∀ n ∈ (Cell.lambda (h.allocDatum params).1 none).refers,
        ∃ s, n = .cell s ∧ G (some s) (h.allocDatum params).2 := by
      simp only [Cell.refers, Option.toList_none, List.map_nil, List.append_nil, Referent.mem_ofValue]
      rintro n ⟨r, hr, hn⟩
      exact ⟨r, hn, hv r hr⟩
    obtain ⟨hw', hg⟩ := q.alloc hc trivial
    exact ⟨hw.trans hw', fun r hr => hr ▸ hg⟩

theorem allocTexts (texts : List String) (items : List Ref) (hg : ∀ r ∈ items, G (some r) h) :
    h.Works (texts.foldl RunM.allocTexts.allocText (items, h)).2 ∧
      ∀ r ∈ (texts.foldl RunM.allocTexts.allocText (items, h)).1,
        G (some r) (texts.foldl RunM.allocTexts.allocText (items, h)).2 := by
  induction texts generalizing h items
  case nil => exact ⟨.refl, hg⟩
  case cons text texts hi =>
    have ⟨hw, htext⟩ := q.alloc_atom (h := h) (c := .bytes (Text.utf8 text)) rfl trivial
    have hitems : ∀ r ∈ h.size :: items, G (some r) (h.allocBytes (Text.utf8 text)).2 :=
      List.forall_mem_cons.mpr ⟨htext, fun r hr => q.works (hg r hr) hw⟩
    have ⟨hw', hr⟩ := hi _ hitems
    exact ⟨hw.trans hw', hr⟩

end Quality
end Heap

namespace Session

variable {s t : Session}

structure Works (s t : Session) : Prop where
  heap : s.heap.Works t.heap
  rest : t.toCompiler = { s.toCompiler with heap := t.heap }

theorem Works.refl : s.Works s :=
  ⟨.refl, rfl⟩

-- A property of values that only speaks of the heap.
def Owns (G : Value → Heap → Prop) (v : Value) (s : Session) : Prop :=
  G v s.heap

def Has (v : Value) (s : Session) : Prop :=
  s.heap.Has v

end Session

namespace RunM

open Session (Works Owns)

variable {s : Session} {α : Type} {post : α → Session → Prop} {link : Link}

theorem heap_bind {f : Heap → RunM α} (h : Along Works (f s.heap) s post) :
    Along Works (heap >>= f) s post :=
  h

theorem draw_along (act : Device → Device) : Along Works (draw link act) s (fun _ _ => True) := by
  unfold draw
  split
  case isTrue  => exact ⟨⟨.refl, rfl⟩, trivial⟩
  case isFalse => exact .pure .refl trivial

theorem word_along {select : Cell → Int64} {v : Value} :
    Along Works (word select v) s (fun _ _ => True) := by
  refine heap_bind ?_
  split
  case h_1 => exact .pure .refl trivial
  case h_2 => exact .throw .refl

theorem getUnchecked_along {buffer : Value} {i : Int64} :
    Along Works (getUnchecked buffer i) s (fun _ _ => True) := by
  refine heap_bind ?_
  split
  case h_1 => exact .pure .refl trivial
  case h_2 => exact .throw .refl

theorem inkey_along : Along Works (inkey link) s (fun _ _ => True) := by
  cases link
  case detached => exact .pure .refl trivial
  case attached => exact ⟨⟨.refl, rfl⟩, trivial⟩

theorem blit_along {v : Value} {act : Bytes → Device → Device} :
    Along Works (do
      match (← heap).bytesOf v with
      | some bitmap => draw link (act bitmap)
      | none => return 0) s (fun _ _ => True) := by
  refine heap_bind ?_
  split
  case h_1 bitmap _ => exact draw_along (act bitmap)
  case h_2          => exact .pure .refl trivial

section Quality

variable {G : Value → Heap → Prop} (q : Heap.Quality G)

theorem allocate_along {make : Heap → Ref × Heap}
    (h : s.heap.Works (make s.heap).2 ∧ G (some (make s.heap).1) (make s.heap).2) :
    Along Works (allocate make) s (Owns G) :=
  ⟨⟨h.1, rfl⟩, h.2⟩

include q

theorem atom_along {c : Cell} (hc : c.refers = []) (hwhole : c.Whole) :
    Along Works (allocate (·.alloc c)) s (Owns G) :=
  allocate_along (q.alloc_atom hc hwhole)

theorem error_along (e : ErrorCode) : Along Works (error e) s (Owns G) :=
  atom_along q rfl trivial

theorem update_along {v : Value} {f : Heap → Heap} (hv : G v s.heap) (hw : s.heap.Works (f s.heap)) :
    Along Works (update v f) s (Owns G) :=
  ⟨⟨hw, rfl⟩, q.works hv hw⟩

theorem putUnchecked_along {buffer : Value} {i n : Int64} (hb : G buffer s.heap) :
    Along Works (putUnchecked buffer i n) s (Owns G) := by
  refine heap_bind ?_
  split
  case h_1 => exact update_along q hb .putByte
  case h_2 => exact .throw .refl

theorem load_along {path : Value} : Along Works (load link path) s (Owns G) := by
  refine heap_bind ?_
  split
  case h_1 => exact error_along q _
  case h_2 =>
    cases link
    case detached => exact error_along q _
    case attached =>
      refine .get_bind ?_
      split
      case h_1 => exact atom_along q rfl trivial
      case h_2 => exact error_along q _

theorem save_along {buffer path : Value} (hb : G buffer s.heap) :
    Along Works (save link buffer path) s (Owns G) := by
  refine heap_bind ?_
  split
  case h_1 =>
    cases link
    case detached => exact error_along q _
    case attached =>
      refine .get_bind ?_
      split
      case h_1 => exact ⟨⟨.refl, rfl⟩, hb⟩
      case h_2 => exact error_along q _
  case h_2 => exact error_along q _

theorem list_along : Along Works (list link) s (Owns G) := by
  cases link
  case detached => exact error_along q _
  case attached =>
    refine .get_bind ?_
    split
    case h_1 names _ =>
      have ⟨hw, hr⟩ := q.allocTexts (h := s.heap) names [] (by simp)
      have ⟨hw', hr'⟩ := q.allocList (fun r hmem => hr r (List.mem_reverse.mp hmem))
      exact allocate_along ⟨hw.trans hw', hr'⟩
    case h_2 => exact error_along q _

end Quality
end RunM

-- Where nothing is lost, no primitive comes to what is.
theorem Primitive.lost_eq_false {h : Heap} (hw : h.Whole) {ks : List Kind} {k : Kind}
    (p : Primitive ks k) (vs : Results ks) : p.lost vs h = false := by
  have byte (v : Value) (i : Int64) : h.byteLost v i = false :=
    hw.any_eq_false fun c hc => by
      cases c
      case spoilt => exact hc.elim
      all_goals cases Buffer.index? i <;> rfl
  have size (v : Value) : h.sizeLost v = false :=
    hw.any_eq_false fun c hc => by
      cases c
      case spoilt => exact hc.elim
      all_goals rfl
  cases p
  case car    => exact hw.lost_eq_false _
  case carInt => exact hw.lost_eq_false _
  case concat => simp [lost, hw.lost_eq_false]
  case get    => exact byte _ _
  case put    => exact byte _ _
  case size   => exact size _
  case write  => simp [lost, Heap.writeLost, hw.lossy_eq_false, hw.lost_eq_false]
  case print  => exact hw.lossy_eq_false _
  case blit   => exact hw.lost_eq_false _
  case load   => exact hw.lost_eq_false _
  case save   => simp [lost, hw.lost_eq_false]
  all_goals rfl

open RunM in
theorem Heap.Quality.act_along {G : Value → Heap → Prop} (q : Quality G) {link : Link} {s : Session}
    (hs : Rooted G s.heap) {ks : List Kind} {k : Kind} (p : Primitive ks k) (vs : Results ks)
    (hv : Results.Hold (Session.Owns G) vs s) :
    Along Session.Works (p.act link vs) s (Kind.Holds (Session.Owns G)) := by
  cases p
  case box          => exact atom_along q rfl trivial
  case unbox        => exact word_along
  case boxChecked =>
    obtain ⟨v, _⟩ := vs
    exact ⟨⟨.ensureInt, rfl⟩, q.ensureInt hv.1⟩
  case cons         =>
    obtain ⟨head, tail, _⟩ := vs
    have hh : ∀ r, head = some r → G (some r) s.heap := fun _ hr => hr ▸ hv.1
    have ht : ∀ r, tail = some r → G (some r) s.heap := fun _ hr => hr ▸ hv.2.1
    exact ⟨⟨(q.alloc_cons hh ht).1, rfl⟩, (q.alloc_cons hh ht).2⟩
  case car          =>
    exact ⟨.refl, hs.of_part (fun _ _ hr => Cell.cell_mem_refers.mpr (.inl hr)) hv.1⟩
  case cdr          =>
    exact ⟨.refl, hs.of_part (fun _ _ hr => Cell.cell_mem_refers.mpr (.inr (.inl hr))) hv.1⟩
  case alloc        => exact atom_along q rfl trivial
  case concat       => exact atom_along q rfl trivial
  case put          => exact update_along q hv.1 .putByte
  case getUnchecked => exact getUnchecked_along
  case putUnchecked => exact putUnchecked_along q hv.1
  case sizeUnchecked => exact word_along
  case write        => exact update_along q hv.1 .writeInto
  case print        => cases link <;> exact ⟨⟨.refl, rfl⟩, hv.1⟩
  case pixel        => exact draw_along (·.pixel vs.1 vs.2.1 vs.2.2.1)
  case fillRect     => exact draw_along (·.fillRect vs.1 vs.2.1 vs.2.2.1 vs.2.2.2.1 vs.2.2.2.2.1)
  case blit         => exact blit_along
  case flip         => exact draw_along Device.flip
  case inkey        => exact inkey_along
  case load         => exact load_along q
  case save         => exact save_along q hv.1
  case list         => exact list_along q
  all_goals exact ⟨.refl, trivial⟩

theorem Heap.Quality.run_along {G : Value → Heap → Prop} (q : Quality G) {link : Link} {s : Session}
    (hs : Rooted G s.heap) {ks : List Kind} {k : Kind} (p : Primitive ks k) (vs : Results ks)
    (hv : Results.Hold (Session.Owns G) vs s) :
    Along Session.Works (p.run link vs) s (Kind.Holds (Session.Owns G)) := by
  refine RunM.heap_bind ?_
  split
  case isTrue  => exact .throw .refl
  case isFalse => exact q.act_along hs p vs hv

theorem Primitive.run_along {link : Link} {s : Session} (h : s.Sound) {ks : List Kind} {k : Kind}
    (p : Primitive ks k) (vs : Results ks) (hv : Results.Hold Session.Has vs s) :
    Along Session.Works (p.run link vs) s (Kind.Holds Session.Has) :=
  Heap.quality_has.run_along (Heap.rooted_has h) p vs hv

end CellLisp
