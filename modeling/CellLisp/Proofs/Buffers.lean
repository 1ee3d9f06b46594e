import CellLisp.Proofs.KnownShape
import CellLisp.Proofs.PureExpr

namespace CellLisp

namespace Buffer

variable {content : Bytes} {i j : Int64} {b : UInt8}

-- A place is in a buffer.
def Holds (content : Bytes) (i : Int64) : Prop :=
  0 ≤ i.toInt ∧ i.toInt < content.size

instance : Decidable (Holds content i) :=
  inferInstanceAs (Decidable (_ ∧ _))

theorem index?_eq_some_iff {k : Nat} : index? i = some k ↔ i.toInt = k := by
  have hneg : i < 0 ↔ i.toInt < 0 := Int64.lt_iff_toInt_lt
  have hnat : i.toNatClampNeg = i.toInt.toNat := rfl
  unfold index?
  split
  case isTrue h =>
    rw [hneg] at h
    simp only [reduceCtorEq, false_iff]
    omega
  case isFalse h =>
    rw [hneg] at h
    rw [Option.some.injEq, hnat]
    omega

theorem get?_eq_none_iff : get? content i = none ↔ ¬ Holds content i := by
  unfold get? Holds
  cases hi : index? i
  case none =>
    have hneg : ¬ 0 ≤ i.toInt := fun h => by
      simp [index?_eq_some_iff.mpr (Int.toNat_of_nonneg h).symm] at hi
    simp [hneg]
  case some k => simp [index?_eq_some_iff.mp hi]

@[simp]
theorem size_put : (put content i b).size = content.size := by
  unfold put
  split <;> simp

end Buffer

-- A word goes to a place of a buffer, by the operation that looks whether the place is there or by the
-- one that does not.
structure Write where
  checked : Bool
  buffer  : Ref
  index   : Int64
  value   : Int64

theorem Heap.byteLost_eq_false {h : Heap} {v : Value} {content : Bytes} {i : Int64}
    (hc : h.cell? v = some (.bytes content)) : h.byteLost v i = false := by
  simp only [byteLost, hc, Option.any_some]
  cases Buffer.index? i <;> rfl

namespace Write

variable {w w' : Write} {ws : List Write} {h : Heap} {r : Ref} {i : Int64}

def op (w : Write) : Builtin :=
  if w.checked then .put else .putUnchecked

def primitive (w : Write) : Primitive [.cell, .raw, .raw] .cell :=
  if w.checked then .put else .putUnchecked

def run (link : Link) (w : Write) : RunM Value :=
  w.primitive.run link (some w.buffer, w.index, w.value, ())

-- What goes where, by whichever operation.
def target (w : Write) : Ref × Int64 × Int64 :=
  (w.buffer, w.index, w.value)

-- The place may be anywhere, unless nothing looks at it.
def Fits (w : Write) (h : Heap) : Prop :=
  ∃ content, h.get? w.buffer = some (.bytes content) ∧ (w.checked ∨ Buffer.Holds content w.index)

def store (h : Heap) (w : Write) : Heap :=
  h.putByte (some w.buffer) w.index (Buffer.lowByte w.value)

-- The word that was stored last at a place.
def last? (ws : List Write) (r : Ref) (i : Int64) : Option Int64 :=
  (ws.reverse.find? fun w => w.buffer = r ∧ w.index = i).map value

theorem get?_store : (store h w).get? r = if w.buffer = r
    then (h.get? r).map (·.mapBytes (Buffer.put · w.index (Buffer.lowByte w.value)))
    else h.get? r :=
  Heap.get?_modify h w.buffer r _

theorem get?_store_of_bytes {content : Bytes} (hr : h.get? r = some (.bytes content)) :
    (store h w).get? r = some (.bytes (if w.buffer = r
      then Buffer.put content w.index (Buffer.lowByte w.value) else content)) := by
  rw [get?_store, hr]
  split <;> rfl

theorem Fits.store (hw : w.Fits h) : w.Fits (store h w') := by
  obtain ⟨content, hr, hi⟩ := hw
  refine ⟨_, get?_store_of_bytes hr, ?_⟩
  split <;> simpa only [Buffer.Holds, Buffer.size_put] using hi

theorem run_eq {link : Link} {s : Session} (hw : w.Fits s.heap) :
    w.run link s = .ok (some w.buffer) { s with heap := store s.heap w } := by
  obtain ⟨content, hr, hi⟩ := hw
  unfold run primitive
  by_cases hc : w.checked
  case pos =>
    have hlost : Primitive.put.lost (some w.buffer, w.index, w.value, ()) s.heap = false :=
      Heap.byteLost_eq_false hr
    rw [if_pos hc]
    exact Primitive.run_eq_act hlost
  case neg =>
    have hbyte : s.heap.byteAt (some w.buffer) w.index ≠ none := by
      have hbytes : s.heap.bytesOf (some w.buffer) = some content := by
        simp [Heap.bytesOf, Heap.cell?, hr, Cell.bytes?]
      rw [Heap.byteAt, hbytes, Option.bind_some, ne_eq, Buffer.get?_eq_none_iff, not_not]
      exact hi.resolve_left hc
    rw [if_neg hc]
    show RunM.putUnchecked (some w.buffer) w.index w.value s = _
    unfold RunM.putUnchecked
    rw [bind_eq_of_ok (show RunM.heap s = .ok s.heap s from rfl)]
    obtain ⟨b, hb⟩ := Option.ne_none_iff_exists'.mp hbyte
    simp only [hb]
    rfl

end Write

namespace Heap

variable {h : Heap} {ws ws' : List Write} {r : Ref} {i : Int64}

def stored (h : Heap) (ws : List Write) : Heap :=
  ws.foldl Write.store h

theorem stored_append : h.stored (ws ++ ws') = (h.stored ws).stored ws' :=
  List.foldl_append

theorem fits_stored {w : Write} (hw : w.Fits h) : w.Fits (h.stored ws) := by
  induction ws generalizing h
  case nil           => exact hw
  case cons w' ws hi => exact hi hw.store

end Heap

-- A question about a buffer.
inductive Look
  | get (i : Int64)
  | getUnchecked (i : Int64)
  | size
  | sizeUnchecked

namespace Look

def op : Look → Builtin
  | get _          => .get
  | getUnchecked _ => .getUnchecked
  | size           => .size
  | sizeUnchecked  => .sizeUnchecked

def indices : Look → List Int64
  | get i | getUnchecked i => [i]
  | size | sizeUnchecked   => []

def run (link : Link) (b : Ref) : Look → RunM Int64
  | get i          => Primitive.get.run link (some b, i, ())
  | getUnchecked i => Primitive.getUnchecked.run link (some b, i, ())
  | size           => Primitive.size.run link (some b, ())
  | sizeUnchecked  => Primitive.sizeUnchecked.run link (some b, ())

-- The place may be anywhere, unless nothing looks at it.
def Fits (content : Bytes) : Look → Prop
  | getUnchecked i => Buffer.Holds content i
  | _              => True

-- The answer for a buffer that had the given bytes before words were stored in it.
def answer (content : Bytes) (last? : Int64 → Option Int64) : Look → Int
  | get i | getUnchecked i =>
    if Buffer.Holds content i then (last? i).elim (content.getD i.toInt.toNat 0).toNat (·.toInt % 256) else 0
  | size | sizeUnchecked => content.size

variable {content : Bytes} {s : Session} {ws : List Write} {b : Ref}

end Look

def Form.int? : Form → Option Int64
  | atom _ c => c.int?
  | _        => none

namespace Compiler

-- A form applies an operation to the buffer that another form gives, and to words that are written out.
structure Operates (c : Compiler) (f : Form) (op : Builtin) (g : Form) (words : List Int64) : Prop where
  operation : c.operation? f = some op
  buffer    : f.args.head? = some g
  words     : f.args.tail.map Form.int? = words.map some

-- The steps of a program that stores into buffers, the stores that it makes one after the other, and
-- the buffer that its last step gives.
inductive Storing (c : Compiler) : List Form → List Write → Ref → Prop
  | literal {b content} : c.heap.get? b = some (.bytes content) → Storing c [.atom b (.bytes content)] [] b
  | symbol {r name b content} : c.env.lookup name = some b → c.heap.get? b = some (.bytes content) →
    Storing c [.atom r (.symbol name)] [] b
  | write {f g ws} {w : Write} : c.Operates f w.op g [w.index, w.value] → Storing c [g] ws w.buffer →
    Storing c [f] (ws ++ [w]) w.buffer
  | block {f ws b} : c.operation? f = some .sequence → Storing c f.args ws b → Storing c [f] ws b
  | andThen {f g gs ws ws' b b'} : Storing c [f] ws b → Storing c (g :: gs) ws' b' →
    Storing c (f :: g :: gs) (ws ++ ws') b'

end Compiler

-- What a buffer is handed over as.
def Rep.passed? (b : Ref) : (required : Rep) → Option required.kind.Result
  | .bytes | .any => some (some b)
  | .void         => some ()
  | _             => none

-- Code makes some stores and gives a result, on whatever heap the stores fit.
def Code.Stores (s : Session) {k : Kind} (code : Code k) (ws : List Write) (v : k.Result) : Prop :=
  ∀ link h, (∀ w ∈ ws, w.Fits h) →
    Returns link code { s with heap := h } v { s with heap := h.stored ws }

theorem Form.code_of_int? {f : Form} {n : Int64} {c : Compiler} (h : f.int? = some n) :
    f.code .pureInt c = .ok (.const n) c := by
  cases f
  case atom r x =>
    cases x <;> cases h
    rfl
  all_goals cases h

def Operands.consts : (words : List Int64) → Operands ((words.map fun _ => Rep.pureInt).map Rep.kind)
  | []         => .nil
  | n :: words => .cons (.const n) (consts words)

namespace Compiler.Operates

variable {c : Compiler} {f g : Form} {op : Builtin} {words : List Int64}

theorem code_eq {required : Rep} (h : c.Operates f op g words) : f.code required c =
    Compile.builtin ⟨f, op, g.part :: f.args.tail.map Form.part⟩ required c := by
  obtain ⟨rest, hargs⟩ := List.head?_eq_some_iff.mp h.buffer
  rw [Form.code_of_operation? h.operation, hargs]
  rfl

theorem operands_eq {app : Application} (h : c.Operates f op g words) :
    Compile.operands app (words.map fun _ => .pureInt) (f.args.tail.map Form.part) c =
      .ok (.consts words) c := by
  have hwords := h.words
  clear h
  generalize f.args.tail = rest at hwords
  induction words generalizing rest
  case nil => rfl
  case cons n words hi =>
    obtain ⟨x, rest, rfl, hx, hrest⟩ := List.map_eq_cons_iff.mp hwords
    refine (bind_eq_of_ok (Form.code_of_int? hx)).trans (bind_eq_of_ok ?_)
    exact hi rest hrest

end Compiler.Operates

-- Compiling succeeds without a change, with code that makes the stores and gives the buffer.
def Performs (s : Session) (m : (required : Rep) → CompileM (Code required.kind)) (ws : List Write)
    (b : Ref) : Prop :=
  ∀ required v, required.passed? b = some v →
    ∃ code, m required s.toCompiler = .ok code s.toCompiler ∧ code.Stores s ws v

namespace Performs

variable {s : Session} {ws ws' : List Write} {b b' : Ref} {f g : Form}

theorem coerce (whole : Form) {value : Code .cell} (h : value.Stores s ws (some b)) :
    Performs s (Compile.coerce whole (.cell .bytes) value) ws b := by
  intro required v hv
  cases required <;> cases hv
  case bytes => exact ⟨value, rfl, h⟩
  case any   => exact ⟨value, rfl, h⟩
  case void  => exact ⟨.discard value, rfl, fun link heap hw => (h link heap hw).discard⟩

theorem literal {content : Bytes} : Performs s (Form.atom b (.bytes content)).code [] b := by
  have hcode : Code.Stores s (.literal b) [] (some b) := fun _ _ _ => .literal b
  intro required v hv
  cases required <;> cases hv
  case bytes => exact coerce (.atom b (.bytes content)) hcode .bytes (some b) rfl
  case any   => exact coerce (.atom b (.bytes content)) hcode .any (some b) rfl
  case void  => exact coerce (.atom b (.bytes content)) hcode .void () rfl

theorem symbol {r : Ref} {name : String} {content : Bytes} (hi : s.Idle) (hn : s.env.lookup name = some b)
    (hb : s.heap.get? b = some (.bytes content)) : Performs s (Form.atom r (.symbol name)).code [] b := by
  obtain ⟨e, he, hbinding⟩ := Option.bind_eq_some_iff.mp hn
  have hcode : Code.Stores s (.load e) [] (some b) := fun _ _ _ => hbinding ▸ .load e
  intro required v hv
  have hsymbol : (Form.atom r (.symbol name)).code required s.toCompiler =
      Compile.coerce (.atom r (.symbol name)) (.cell .bytes) (.load e) required s.toCompiler := by
    show Compile.symbol _ name required s.toCompiler = _
    unfold Compile.symbol
    rw [bind_eq_of_ok (Compile.intern_known he), bind_eq_of_ok (Compile.assumeOr_eq hi hbinding),
      bind_eq_of_ok (Compile.tagAt_of_get? hb)]
    rfl
  rw [hsymbol]
  exact coerce _ hcode required v hv

theorem andThen {parts : List Part} (hf : Performs s f.code ws b)
    (hg : Performs s (Compile.steps g.part parts) ws' b') :
    Performs s (Compile.steps f.part (g.part :: parts)) (ws ++ ws') b' := by
  intro required v hv
  obtain ⟨first, hfirst, hruns⟩ := hf .void () rfl
  obtain ⟨next, hnext, hruns'⟩ := hg required v hv
  refine ⟨.sequence first next, (bind_eq_of_ok hfirst).trans (bind_eq_of_ok hnext), ?_⟩
  intro link h hw
  have ⟨hws, hws'⟩ := List.forall_mem_append.mp hw
  rw [Heap.stored_append]
  exact (hruns link h hws).sequence (hruns' link _ fun w hw => Heap.fits_stored (hws' w hw))

theorem write {w : Write} (hf : s.Operates f w.op g [w.index, w.value])
    (hg : Performs s g.code ws w.buffer) : Performs s f.code (ws ++ [w]) w.buffer := by
  obtain ⟨buffer, hbuffer, hruns⟩ := hg .bytes (some w.buffer) rfl
  let value : Code .cell :=
    .primitive w.primitive (.cons buffer (.cons (.const w.index) (.cons (.const w.value) .nil)))
  have hvalue : value.Stores s (ws ++ [w]) (some w.buffer) := by
    intro link h hw
    have ⟨hws, hw⟩ := List.forall_mem_append.mp hw
    rw [Heap.stored_append]
    refine .primitive (.cons (hruns link h hws) (.cons (.const _) (.cons (.const _) .nil))) ?_
    exact Write.run_eq (s := { s with heap := h.stored ws }) (Heap.fits_stored (hw w (.head _)))
  have hsignature (required : Rep) : w.op.signature? required =
      some ⟨[.bytes, .pureInt, .pureInt], .cell .bytes, w.primitive⟩ := by
    unfold Write.op Write.primitive
    cases w.checked <;> rfl
  intro required v hv
  obtain ⟨code, hcode, hstores⟩ := coerce f hvalue required v hv
  refine ⟨code, ?_, hstores⟩
  rw [hf.code_eq, Compile.builtin_eq_primitive (hsignature required)]
  refine (bind_eq_of_ok ?_).trans hcode
  refine (bind_eq_of_ok hbuffer).trans (bind_eq_of_ok ?_)
  exact hf.operands_eq

end Performs

namespace Look

def code (buffer : Code .cell) : Look → Code .raw
  | get i          => .primitive .get (.cons buffer (.cons (.const i) .nil))
  | getUnchecked i => .primitive .getUnchecked (.cons buffer (.cons (.const i) .nil))
  | size           => .primitive .size (.cons buffer .nil)
  | sizeUnchecked  => .primitive .sizeUnchecked (.cons buffer .nil)

theorem returns {look : Look} {link : Link} {buffer : Code .cell} {s t : Session} {b : Ref} {n : Int64}
    (hb : Returns link buffer s (some b) t) (hn : look.run link b t = .ok n t) :
    Returns link (look.code buffer) s n t := by
  cases look
  case get i          => exact .primitive (.cons hb (.cons (.const i) .nil)) hn
  case getUnchecked i => exact .primitive (.cons hb (.cons (.const i) .nil)) hn
  case size           => exact .primitive (.cons hb .nil) hn
  case sizeUnchecked  => exact .primitive (.cons hb .nil) hn

end Look

namespace Session

-- An expression compiles without a change, and its code gives a result and leads to another session.
def Gives (s : Session) (expr : Value) (required : Rep) (v : required.kind.Result) (t : Session) : Prop :=
  ∃ code, CellLisp.compile expr required s.toCompiler = .ok code s.toCompiler ∧
    ∀ link, Returns link code s v t

-- What a sequence of stores does. Every one of them gives its buffer; what is read afterwards is what
-- was stored last, wherever there is a place; and nothing but the bytes of these buffers changes. A
-- program that makes the stores, with one expression inside of the other or one after the other, does
-- the same.
structure Stores (s : Session) (ws : List Write) (t : Session) : Prop where
  runs    : ∀ link, ws.mapM (Write.run link) s = .ok (ws.map fun w => some w.buffer) t
  answers : ∀ {b content}, s.heap.get? b = some (.bytes content) → ∀ look : Look, look.Fits content →
    ∀ link, look.run link b t = .ok (Int64.ofInt (look.answer content (Write.last? ws b))) t
  others  : ∀ r, (∀ w ∈ ws, w.buffer ≠ r) → t.heap.get? r = s.heap.get? r
  rest    : t = { s with heap := t.heap }
  gives   : s.Idle → ∀ {expr b}, s.Storing [s.heap.form expr] ws b → s.Gives expr .bytes (some b) t
  tells   : s.Idle → ∀ {expr g b content} {look : Look},
    s.Operates (s.heap.form expr) look.op g look.indices → s.Storing [g] ws b →
    s.heap.get? b = some (.bytes content) → look.Fits content →
    s.Gives expr .pureInt (Int64.ofInt (look.answer content (Write.last? ws b))) t

variable {s : Session} {ws : List Write}

theorem gives_of_code {expr : Value} {required : Rep} {code : Code required.kind} {v : required.kind.Result}
    {t : Session} (hi : s.Idle) (hc : (s.heap.form expr).code required s.toCompiler = .ok code s.toCompiler)
    (hr : ∀ link, Returns link code s v t) : s.Gives expr required v t :=
  ⟨code, compile_eq_ok hi hc, hr⟩

end Session
end CellLisp
