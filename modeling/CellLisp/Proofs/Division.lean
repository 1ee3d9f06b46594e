import CellLisp.Proofs.Factorial
import CellLisp.Proofs.RoundTrip
import Mathlib.Algebra.Ring.Int.Defs

namespace CellLisp

-- The quotient and the remainder of two words.
structure Divides (a b q r : Int64) : Prop where
  law       : (q.toInt * b.toInt + r.toInt) % 2 ^ 64 = a.toInt % 2 ^ 64
  small     : b ≠ 0 → r.toInt.natAbs < b.toInt.natAbs
  sign      : b ≠ 0 → r = 0 ∨ r.toInt.sign = a.toInt.sign
  truncates : b ≠ 0 → ¬ (a = Int64.minValue ∧ b = -1) → q.toInt = a.toInt.tdiv b.toInt
  wraps     : a = Int64.minValue → b = -1 → q = Int64.minValue
  byZero    : b = 0 → q = 0 ∧ r = a

namespace Arithmetic

theorem eval_rem (a b : Int64) : rem.eval a b = a % b := by
  have hmod : a.toInt - (if b.toInt = 0 then 0 else a.toInt.tdiv b.toInt) * b.toInt = a.toInt.tmod b.toInt := by
    split
    case isTrue hb => simp [hb]
    case isFalse   => rw [Int.tmod_def, Int.mul_comm]
  rw [eval_eq_onWords, onWords, onInts, hmod, ← Int64.toInt_mod, Int64.ofInt_toInt]

theorem div_mul_add_rem (a b : Int64) : div.eval a b * b + rem.eval a b = a := by
  simp only [eval]
  rw [Int64.add_comm, Int64.sub_add_cancel]

theorem divides (a b : Int64) : Divides a b (div.eval a b) (rem.eval a b) where
  law := by
    have hword := congrArg Int64.toInt (div_mul_add_rem a b)
    rw [Int64.toInt_add, Int64.toInt_mul, Int.bmod_add_bmod] at hword
    rw [← hword]
    exact Int.bmod_emod.symm
  small hb := by
    have hb : b.toInt ≠ 0 := fun h => hb (Int64.toInt_inj.mp h)
    rw [eval_rem, Int64.toInt_mod, Int.natAbs_tmod]
    exact Nat.mod_lt _ (Int.natAbs_pos.mpr hb)
  sign _ := by
    rw [eval_rem, Int64.toInt_mod, Int.sign_tmod]
    split
    case isFalse    => exact .inr rfl
    case isTrue hdvd => exact .inl (Int64.toInt_inj.mp ((Int64.toInt_mod a b).trans (Int.tmod_eq_zero_of_dvd hdvd)))
  truncates _ hne := by
    rcases not_and_or.mp hne with ha | hb
    · exact Int64.toInt_div_of_ne_left a b ha
    · exact Int64.toInt_div_of_ne_right a b hb
  wraps ha hb := by
    rw [ha, hb]
    decide
  byZero hb := by
    rw [hb, eval_rem, Int64.mod_zero]
    exact ⟨Int64.div_zero, rfl⟩

end Arithmetic

namespace Compiler

variable {c : Compiler} {op : Builtin} {f : Form} {q : Ref}

theorem Offers.operation? (h : c.Offers op) (hf : f.head = .atom q (.symbol op.name)) :
    c.operation? f = some op := by
  have hoperator : c.operator? f.head = c.lookup op.name := by
    simp [hf, operator?, h.unnamed]
  rw [Compiler.operation?, hoperator, h.cell]
  exact Builtin.ofWord?_opcode op

end Compiler

-- An application to integers that are written out.
def Datum.onWords (name : String) (words : List Int64) : Datum :=
  .list (.atom (.symbol name) :: words.map fun n => .atom (.int n))

namespace Heap

variable {h : Heap}

theorem ints_of_chain {words : List Int64} {depth : Nat} {v : Value}
    (hv : h.datumWithin depth v = Datum.list.chain (words.map fun n => .atom (.int n))) :
    (h.formWithin depth v).elements.map Form.int? = words.map some := by
  induction words generalizing depth v
  case nil => rw [form_of_absent hv]; rfl
  case cons n words hi =>
    obtain ⟨k, r, head, tail, hhead, htail, hf⟩ := form_of_cons hv
    obtain ⟨q, x, hhead, hx⟩ := form_of_atom hhead (by simp)
    cases x <;> cases hx
    simp [hf, Form.elements, hhead, Form.isAbsent, Form.int?, Cell.int?, hi htail]

theorem form_of_onWords {expr : Value} {name : String} {words : List Int64}
    (he : h.datum expr = .onWords name words) :
    (∃ q, (h.form expr).head = .atom q (.symbol name)) ∧ (h.form expr).args.map Form.int? = words.map some := by
  obtain ⟨k, p, head, tail, hhead, htail, hf⟩ := form_of_cons he
  obtain ⟨q, x, hhead, hx⟩ := form_of_atom hhead (by simp)
  cases x <;> cases hx
  have hf : h.form expr = .cons p (fun _ => h.formWithin k head) (fun _ => h.formWithin k tail) := hf
  rw [hf]
  exact ⟨⟨q, hhead⟩, ints_of_chain htail⟩

end Heap

namespace Arithmetic

variable {op : Arithmetic} {a b : Int64}

-- `(/ a b)`, or with another operation.
def datum (op : Arithmetic) (a b : Int64) : Datum :=
  .onWords op.builtin.name [a, b]

def text (op : Arithmetic) (a b : Int64) : String :=
  "(" ++ op.builtin.name ++ " " ++ toString a.toInt ++ " " ++ toString b.toInt ++ ")"

theorem lossy_datum (op : Arithmetic) (a b : Int64) : (op.datum a b).lossy = false :=
  rfl

theorem write_datum (op : Arithmetic) (a b : Int64) : (op.datum a b).write = op.text a b := by
  have hend : Datum.absent.writeTail = "" := rfl
  have hatom (x : Atom) : (Datum.atom x).write = Writer.atom x := String.empty_append
  simp only [datum, text, Datum.onWords, Datum.list, List.map_cons, List.map_nil, Datum.list.chain,
    Datum.write_cons, Datum.writeTail_cons, hend, hatom, Writer.atom, String.append_assoc, String.empty_append]

theorem symbolic_name (op : Arithmetic) : Symbolic op.builtin.name := by
  refine ⟨op.builtin.name.toList, ⟨.symbol op.builtin.name, .start⟩, ?_, rfl⟩
  cases op <;> decide

theorem readText_text (op : Arithmetic) (a b : Int64) : readText (op.text a b) = ⟨[op.datum a b], none⟩ := by
  have hliteral : (op.datum a b).Literal := ⟨op.symbolic_name, trivial, trivial, trivial⟩
  have ⟨ts, hts, hscan⟩ := (op.datum a b).reads_and.1 hliteral .start [] (by simp [Lexer.Ended])
  have htokens : tokens (op.datum a b).write.toList = ⟨ts, none⟩ := by
    simpa [tokens, Lexer.scan, Lexer.finish, Tokens.after] using hscan
  have hended : (op.datum a b).respelled.ended = op.datum a b := rfl
  have hts : Grammar.Exprs ts [op.datum a b] := by simpa [hended] using Grammar.Exprs.cons hts .nil
  rw [← write_datum, readText, htokens]
  exact Reader.parse_exprs hts

end Arithmetic

-- A form applies an operation to two operands, which are compiled one after the other.
structure Compiler.Combines (c : Compiler) (f : Form) (op : Arithmetic) (left right : Code .raw)
    (d : Compiler) : Prop where
  operation : c.operation? f = some op.builtin
  operands  : ∃ x y rest c', f.args = x :: y :: rest ∧ x.code .pureInt c = .ok left c' ∧
    y.code .pureInt c' = .ok right d

theorem Compiler.Combines.code_eq {c d : Compiler} {f : Form} {op : Arithmetic} {left right : Code .raw}
    (h : c.Combines f op left right d) (required : Rep) : f.code required c = Compile.coerce f .raw
      (.primitive (.arithmetic op) (.cons left (.cons right .nil))) required d := by
  obtain ⟨x, y, rest, c', hargs, hx, hy⟩ := h.operands
  have hsignature : op.builtin.signature? required = some (.arithmetic op) := by cases op <;> rfl
  rw [Form.code_of_operation? h.operation, hargs, Compile.builtin_eq_primitive hsignature]
  refine bind_eq_of_ok ?_
  exact (bind_eq_of_ok hx).trans (bind_eq_of_ok ((bind_eq_of_ok hy).trans rfl))

namespace Session

variable {s : Session} {op : Arithmetic} {a b : Int64} {expr : Value}

theorem combines_of_datum (hi : s.Idle) (ho : s.Provides op.builtin) (he : s.heap.datum expr = op.datum a b) :
    s.Combines (s.heap.form expr) op (.const a) (.const b) s.toCompiler := by
  obtain ⟨⟨q, hhead⟩, hargs⟩ := Heap.form_of_onWords he
  obtain ⟨x, rest, hargs, hx, hrest⟩ := List.map_eq_cons_iff.mp hargs
  obtain ⟨y, rest, rfl, hy, _⟩ := List.map_eq_cons_iff.mp hrest
  exact ⟨(hi.offers ho).operation? hhead, x, y, rest, _, hargs, Form.code_of_int? hx, Form.code_of_int? hy⟩

theorem ends_of_datum (hi : s.Idle) (ho : s.Provides op.builtin) (he : s.heap.datum expr = op.datum a b) :
    SessionM.Ends (SessionM.evalInt · expr) s (op.eval a b) s ∧
      SessionM.Ends (SessionM.eval · expr) s (some s.heap.size)
        { s with heap := (s.heap.alloc (.int (op.eval a b))).2 } := by
  have hcode := (combines_of_datum hi ho he).code_eq
  have hraw (link : Link) : Returns link (.primitive (.arithmetic op) _) s (op.eval a b) s :=
    .primitive (.cons (.const a) (.cons (.const b) .nil)) rfl
  have hboxed (link : Link) : Returns link (.unary .box _) s (some s.heap.size)
      { s with heap := (s.heap.alloc (.int (op.eval a b))).2 } :=
    .unary (hraw link) rfl
  exact ⟨SessionM.ends_of_compile (compile_eq_ok hi (hcode .pureInt)) (hraw .attached),
    .eval (SessionM.ends_of_compile (compile_eq_ok hi (hcode .any)) (hboxed .attached))⟩

-- What is read does not touch the names of operations.
theorem exists_read (hs : s.Reachable) (ho : s.Provides op.builtin) {d : Datum} (hd : d.lossy = false) :
    ∃ expr t, SessionM.alloc d s = .ok expr t ∧ t.heap.datum expr = d ∧ t.Idle ∧ t.Provides op.builtin := by
  have hstores := Heap.stores_allocDatum hs.sound.backward d
  obtain ⟨r, hlookup, hr⟩ := Option.bind_eq_some_iff.mp ho
  refine ⟨_, { s with heap := (s.heap.allocDatum d).2 }, rfl, hstores.datum hd, ?_, ?_⟩
  · exact ⟨hs.idle.nesting, hs.idle.pending, hs.idle.seeded⟩
  · exact Option.bind_eq_some_iff.mpr
      ⟨r, hlookup, (hstores.cells r (Heap.lt_size_of_get? hr)).trans hr⟩

end Session

namespace Arithmetic

-- What becomes of an operation on two operands, whatever they are made of, once they give two words one
-- after the other, and of the operation on two integers that are written out. There are sessions in
-- which its name stands for the operation.
structure Yields (op : Arithmetic) (a b n : Int64) : Prop where
  operands : ∀ {c d f left right}, Compiler.Combines c f op left right d → ∃ raw boxed,
    f.code .pureInt c = .ok raw d ∧ f.code .int c = .ok boxed d ∧ f.code .any c = .ok boxed d ∧
    ∀ {link s t u}, Returns link left s a t → Returns link right t b u → Returns link raw s n u ∧
      Returns link boxed s (some u.heap.size) { u with heap := (u.heap.alloc (.int n)).2 }
  literals : ∀ {s : Session}, s.Reachable → s.Provides op.builtin → ∃ d expr t r u,
    readText (op.text a b) = ⟨[d], none⟩ ∧ SessionM.alloc d s = .ok expr t ∧
    SessionM.Ends (SessionM.evalInt · expr) t n t ∧
    SessionM.Ends (SessionM.evalText · (op.text a b)) s (some r) u ∧ u.heap.get? r = some (.int n)
  fresh : ∀ device, (Session.fresh device).Reachable ∧ (Session.fresh device).Provides op.builtin

theorem provides_fresh (op : Arithmetic) : Compiler.fresh.Provides op.builtin := by
  -- One evaluation of the fresh compiler serves all the operations.
  have hall : ∀ op ∈ [add, sub, mul, div, rem, lt, gt], Compiler.fresh.Provides op.builtin := by decide +kernel
  exact hall op (by cases op <;> simp)

theorem yields (op : Arithmetic) (a b : Int64) : op.Yields a b (op.eval a b) where
  operands h := by
    refine ⟨_, _, (h.code_eq .pureInt).trans rfl, (h.code_eq .int).trans rfl, (h.code_eq .any).trans rfl, ?_⟩
    intro link s t u hs ht
    have hraw : Returns link (.primitive (.arithmetic op) _) s (op.eval a b) u :=
      .primitive (.cons hs (.cons ht .nil)) rfl
    exact ⟨hraw, .unary hraw rfl⟩
  literals hs ho := by
    obtain ⟨expr, t, halloc, hdatum, hi, ho⟩ := Session.exists_read hs ho (op.lossy_datum a b)
    obtain ⟨hint, hcell⟩ := Session.ends_of_datum hi ho hdatum
    exact ⟨_, expr, t, _, _, op.readText_text a b, halloc, hint,
      .evalText (op.readText_text a b) halloc hcell, Heap.get?_alloc_self t.heap _⟩
  fresh device := ⟨(Session.rests_fresh device).reachable, provides_fresh op⟩

end Arithmetic

theorem exists_quotient (a b : Int64) :
    ∃ q r, Divides a b q r ∧ Arithmetic.div.Yields a b q ∧ Arithmetic.rem.Yields a b r :=
  ⟨_, _, Arithmetic.divides a b, Arithmetic.div.yields a b, Arithmetic.rem.yields a b⟩

end CellLisp
