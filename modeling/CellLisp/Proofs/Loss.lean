import CellLisp.Proofs.Complaint
import CellLisp.Proofs.Fuel
import CellLisp.Proofs.History

namespace CellLisp

theorem Heap.Whole.lossy_of_about {h : Heap} {e : CompileError} (hw : h.Whole) (he : e.About h) :
    e.lossy = false := by
  rw [CompileError.lossy_eq, Option.any_eq_false]
  intro expr hexpr
  obtain ⟨v, rfl⟩ := he expr hexpr
  exact hw.lossy_eq_false v

theorem Heap.Whole.extends {c d : Compiler} (hw : c.heap.Whole) (h : c.Extends d) : d.heap.Whole := by
  intro r x hx
  by_cases hr : r < c.heap.size
  case pos => exact hw r x ((h.cells r hr).symm.trans hx)
  case neg => exact h.whole r x (Nat.not_lt.mp hr) hx

theorem Cell.Whole.setFirstWord {x : Cell} (hx : x.Whole) (ht : x.tag ∉ [Tag.cons, .symbol, .lambda, .bytes])
    (word : Int64) : (x.setFirstWord word).Whole := by
  cases x
  case int     => trivial
  case builtin => trivial
  case error   => trivial
  case nil     => trivial
  case spoilt  => exact hx.elim
  all_goals simp [tag] at ht

variable {i : Image} {ops : List Operation}

-- An assignment in place comes to a cell whose first word is an address.
def Image.Spoils (i : Image) (ops : List Operation) : Prop :=
  ∃ link e value s n t r x, i.Passes ops link ⟨.assign e value, s⟩ ∧ Returns link value s n t ∧
    t.env.binding e = some r ∧ t.heap.get? r = some x ∧ x.tag ∈ [Tag.cons, .symbol, .lambda, .bytes]

def spoiling (i : Image) (ops : List Operation) : Observation i ops where
  Keeps s t := s.heap.Whole → t.heap.Whole ∨ i.Spoils ops
  refl _ := .inl
  trans _ hst htu h := (hst h).elim htu .inr
  works hw h := .inl (h.works hw.heap)
  compile he h := .inl (h.extends he)
  store _ _ := .inl
  assign {_ _ _ _ _ t r c} hp hn hb hc h := by
    by_cases ht : c.tag ∈ [Tag.cons, .symbol, .lambda, .bytes]
    case pos => exact .inr ⟨_, _, _, _, _, _, _, _, hp, hn, hb, hc, ht⟩
    case neg => exact .inl (h.set ((h r c hc).setFirstWord ht _))

theorem Image.whole_fresh (device : Device) : (fresh device).session.heap.Whole := by
  have hcells : ∀ c ∈ Compiler.fresh.heap.cells.toList, c.Whole := by decide +kernel
  exact Heap.whole_of_forall hcells

-- From the start of a session on, every address is lost through an assignment in place.
theorem Image.whole_of_not_spoils {device : Device} (h : ¬ (fresh device).Spoils ops) :
    ((fresh device).performAll ops).session.heap.Whole := by
  have hl := (spoiling (fresh device) ops).performAll (.fresh device) (List.append_nil ops).symm
  exact (hl.keeps (whole_fresh device)).resolve_right h

-- Code comes to an address that is lost.
inductive Config.Follows (link : Link) : Config → Prop
  | primitive {ks k s vs t} {p : Primitive ks k} {operands : Operands ks} :
    operands.Return link s vs t → p.lost vs t.heap → Follows link ⟨.primitive p operands, s⟩
  | eval {expr s r t e c} : link = .attached → Returns link expr s (some r) t →
    compile (some r) .any t.toCompiler = .error e c → e.lossy → Follows link ⟨.eval expr, s⟩

theorem Config.Follows.spoils {link : Link} {c : Config} (hi : i.Reachable) (hw : i.session.heap.Whole)
    (hc : i.Passes ops link c) (h : c.Follows link) : i.Spoils ops := by
  have ⟨hfits, hl⟩ := (spoiling i ops).passes hi hc
  cases h
  case primitive p operands hvs hlost =>
    have ⟨hvl, _⟩ := ((spoiling i ops).regime link).operands_return hfits hvs
    refine ((hl.trans hvl).keeps hw).resolve_left fun ht => ?_
    simp [Primitive.lost_eq_false ht] at hlost
  case eval expr s r t e d hlink hr herr hlossy =>
    have hrl := (spoiling i ops).returns hi (hc.visits (.single (.enters .expr))) hr
    refine ((hl.trans hrl).keeps hw).resolve_left fun ht => ?_
    have hp := (persistence link).refl hrl.persists
    have ⟨hextends, _⟩ := (compile_extends (some r) .any hp.sound hp.idle).of_error herr
    simp [(ht.extends hextends).lossy_of_about (about_of_compile herr)] at hlossy

end CellLisp
