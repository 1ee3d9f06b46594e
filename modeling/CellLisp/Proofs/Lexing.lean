import CellLisp.Datum.Writer
import CellLisp.Token.Lexer

namespace CellLisp

-- Tokens come before those of the rest of a text.
def Tokens.after (ts : List Located) (rest : Tokens) : Tokens :=
  { rest with items := ts ++ rest.items }

@[simp]
theorem Tokens.after_after (ts us : List Located) (rest : Tokens) :
    (rest.after us).after ts = rest.after (ts ++ us) := by
  simp [after]

namespace Lexer

variable {p begun opened : Position} {c : Char} {cs rest spelling content : List Char}
  {token : Located}

-- An atom that stands before such a text is over.
def Ended (rest : List Char) : Prop :=
  ∀ c ∈ rest.head?, endsAtom c

theorem scan_cons_of_ok {mode mode' : Mode} {ts : List Located} (h : step mode p c = .ok (mode', ts)) :
    scan mode p (c :: cs) = (scan mode' (p.next c) cs).after ts := by
  simp only [scan, h, Tokens.after]

-- The character that ends an atom is taken as if nothing had been before it.
theorem scan_atom_of_ended (h : Ended rest) (ha : atom begun spelling.reverse = .ok token) :
    scan (.atom begun spelling) p rest = (scan .gap p rest).after [token] := by
  cases rest
  case nil => simp [scan, finish, ha, Tokens.after]
  case cons c cs =>
    have hc : endsAtom c := h c rfl
    have hstep : step (.atom begun spelling) p c = .ok ((lead p c).1, token :: (lead p c).2) := by
      simp [step, hc, ha, bind, Except.bind]
    have hlead : step .gap p c = .ok ((lead p c).1, (lead p c).2) := rfl
    rw [scan_cons_of_ok hstep, scan_cons_of_ok hlead, Tokens.after_after]
    rfl

theorem scan_atom (hc : ∀ c ∈ cs, endsAtom c = false) (h : Ended rest)
    (ha : atom begun (spelling.reverse ++ cs) = .ok token) :
    scan (.atom begun spelling) p (cs ++ rest) = (scan .gap (p.after cs) rest).after [token] := by
  induction cs generalizing spelling p
  case nil => exact scan_atom_of_ended h (by simpa using ha)
  case cons c cs hi =>
    have hstep : step (.atom begun spelling) p c = .ok (.atom begun (c :: spelling), []) := by
      simp [step, hc c]
    rw [List.cons_append, scan_cons_of_ok hstep, hi (fun d hd => hc d (.tail _ hd)) (by simpa using ha)]
    rfl

theorem lead_of_not_endsAtom (h : endsAtom c = false) : lead p c = (.atom p [c], []) := by
  simp [endsAtom, isDelimiter] at h
  simp [lead, h]

-- A text without any character that ends an atom, and the token that it stands for.
structure Spelling (cs : List Char) (token : Token) : Prop where
  ne_nil   : cs ≠ []
  unbroken : ∀ c ∈ cs, endsAtom c = false
  atom_eq  : ∀ p, atom p cs = .ok ⟨token, p⟩

-- The first character of a spelling begins an atom, and the others go on with it.
theorem Spelling.scan_eq {token : Token} (h : Spelling cs token) (hr : Ended rest) :
    scan .gap p (cs ++ rest) = (scan .gap (p.after cs) rest).after [⟨token, p⟩] := by
  cases cs
  case nil => exact absurd rfl h.ne_nil
  case cons c cs =>
    have hstep : step .gap p c = .ok (.atom p [c], []) :=
      congrArg Except.ok (lead_of_not_endsAtom (h.unbroken c (.head _)))
    rw [List.cons_append, scan_cons_of_ok hstep,
      scan_atom (fun d hd => h.unbroken d (.tail _ hd)) hr (h.atom_eq p)]
    rfl

theorem spelling_nil : Spelling ['n', 'i', 'l'] .nil where
  ne_nil := by simp
  unbroken := List.forall_mem_cons.mpr ⟨rfl, List.forall_mem_cons.mpr ⟨rfl, List.forall_mem_singleton.mpr rfl⟩⟩
  atom_eq := fun _ => rfl

theorem endsAtom_of_isDigit (h : c.isDigit) : endsAtom c = false := by
  have digits : ∀ n < 58, 48 ≤ n → endsAtom (Char.ofNat n) = false := by decide
  have ⟨hlow, hhigh⟩ := Char.isDigit_iff_toNat.mp h
  rw [← Char.ofNat_toNat c]
  exact digits c.toNat (Nat.lt_succ_of_le hhigh) hlow

end Lexer

namespace Token.Integer

open Lexer

variable {c : Char} {cs : List Char}

-- What the digits of a number amount to, after some digits before them.
theorem foldlM_decimalDigit? (h : ∀ c ∈ cs, c.isDigit) (n : Nat) :
    cs.foldlM (fun n c => (decimalDigit? c).map (n * 10 + ·)) n = some (Nat.ofDigitChars 10 cs n) := by
  induction cs generalizing n
  case nil => rfl
  case cons c cs hi =>
    have hc : decimalDigit? c = some (c.toNat - '0'.toNat) := if_pos (h c (.head _))
    rw [List.foldlM_cons, hc, Nat.ofDigitChars_cons, Nat.mul_comm 10 n]
    exact hi (fun d hd => h d (.tail _ hd)) _

theorem isDigit_of_mem_decimal (n : Nat) : ∀ c ∈ Nat.toDigits 10 n, c.isDigit :=
  fun _ => Nat.isDigit_of_mem_toDigits (by decide) (by decide)

theorem toDigits_eq_cons (n : Nat) : ∃ c cs, Nat.toDigits 10 n = c :: cs ∧ c.isDigit := by
  have ⟨c, cs, h⟩ := List.exists_cons_of_ne_nil (Nat.toDigits_ne_nil (n := n) (b := 10))
  exact ⟨c, cs, h, isDigit_of_mem_decimal n c (by simp [h])⟩

theorem number?_toDigits (n : Nat) : number? decimalDigit? 10 (Nat.toDigits 10 n) = some n := by
  rw [number?]
  · rw [foldlM_decimalDigit? (isDigit_of_mem_decimal n), Nat.ofDigitChars_ten_toDigits]
  · exact Nat.toDigits_ne_nil

theorem splitSign_of_isDigit (h : c.isDigit) : splitSign (c :: cs) = (false, c :: cs) := by
  unfold splitSign
  split <;> simp_all [Char.isDigit]

-- No digit is an `x`, so what starts with two digits is decimal.
theorem parse?_of_digits {negative : Bool} {digits : List Char} (h : splitSign cs = (negative, digits))
    (hd : ∀ c ∈ digits, c.isDigit) : parse? cs = decimal? negative digits := by
  unfold parse?
  rw [h]
  simp only
  split
  case h_1 => exact absurd (hd 'x' (by simp)) (by decide)
  case h_2 => exact absurd (hd 'X' (by simp)) (by decide)
  case h_3 => rfl

theorem decimal?_toDigits {negative : Bool} {n : Nat} {word : Int64}
    (h : word.toInt = if negative then -(n : Int) else n) :
    decimal? negative (Nat.toDigits 10 n) = some word := by
  have hlow := word.le_toInt
  have hhigh := word.toInt_lt
  simp only [decimal?, number?_toDigits, ← h]
  rw [if_pos ⟨hlow, hhigh⟩, Int64.ofInt_toInt]

theorem looksNumeric_of_isDigit (h : c.isDigit) : looksNumeric (c :: cs) := by
  cases cs <;> simp [looksNumeric, h]

end Token.Integer

namespace Lexer

open Token.Integer

variable {p : Position} {c : Char} {cs : List Char}

-- Without a sign the first digit shows the number, with one the second character does.
theorem spelling_of_digits {value : Int64} {n : Nat} (negative : Bool)
    (h : value.toInt = if negative then -(n : Int) else n)
    (hs : splitSign cs = (negative, Nat.toDigits 10 n))
    (hc : cs = Nat.toDigits 10 n ∨ cs = '-' :: Nat.toDigits 10 n) : Spelling cs (.integer value) := by
  have ⟨d, ds, hd, hdigit⟩ := toDigits_eq_cons n
  have hparse : parse? cs = some value :=
    (parse?_of_digits hs (isDigit_of_mem_decimal n)).trans (decimal?_toDigits h)
  have hlooks : looksNumeric cs := by
    rcases hc with rfl | rfl
    · exact hd ▸ looksNumeric_of_isDigit hdigit
    · simp [hd, looksNumeric, hdigit]
  have hunbroken : ∀ c ∈ Nat.toDigits 10 n, endsAtom c = false :=
    fun c h => endsAtom_of_isDigit (isDigit_of_mem_decimal n c h)
  constructor
  case ne_nil => rcases hc with rfl | rfl <;> simp [hd]
  case unbroken =>
    rcases hc with rfl | rfl
    · exact hunbroken
    · exact List.forall_mem_cons.mpr ⟨by decide, hunbroken⟩
  case atom_eq =>
    intro p
    simp [atom, hlooks, hparse]

theorem spelling_toString (value : Int64) :
    Spelling (toString value.toInt).toList (.integer value) := by
  rw [Int.toString_eq_repr]
  cases hv : value.toInt
  case ofNat n =>
    have ⟨d, ds, hd, hdigit⟩ := toDigits_eq_cons n
    have hrepr : (Int.ofNat n).repr.toList = Nat.toDigits 10 n := Nat.toList_repr
    rw [hrepr]
    exact spelling_of_digits false hv (hd ▸ splitSign_of_isDigit hdigit) (.inl rfl)
  case negSucc n =>
    have hrepr : (Int.negSucc n).repr.toList = '-' :: Nat.toDigits 10 (n + 1) := by
      simp [Int.repr, Nat.toList_repr]
    rw [hrepr]
    exact spelling_of_digits (n := n + 1) true hv rfl (.inr rfl)

-- The symbols that the lexer gives are spelled by their names: it keeps the characters of an atom as
-- they are, and stops before the first one that ends it.

def Mode.Unbroken : Mode → Prop
  | .atom _ spelling => spelling ≠ [] ∧ ∀ c ∈ spelling, endsAtom c = false
  | _ => True

def Spelled (t : Located) : Prop :=
  ∀ name, t.token = .symbol name → Spelling name.toList (.symbol name)

theorem spelled_of_atom {begun : Position} {t : Located} (hne : cs ≠ [])
    (hc : ∀ c ∈ cs, endsAtom c = false) (h : atom begun cs = .ok t) : Spelled t := by
  intro name ht
  unfold atom at h
  split at h
  · split at h <;> cases h
    cases ht
  · split at h <;> cases h <;> cases ht
    constructor
    case ne_nil => simpa
    case unbroken => simpa
    case atom_eq =>
      intro p
      simp_all [atom]

theorem unbroken_lead (p : Position) (c : Char) :
    (lead p c).1.Unbroken ∧ ∀ t ∈ (lead p c).2, Spelled t := by
  by_cases hc : endsAtom c
  case neg =>
    rw [lead_of_not_endsAtom (by simpa using hc)]
    simp_all [Mode.Unbroken]
  case pos =>
    unfold lead
    split
    · simp [Mode.Unbroken]
    · split
      all_goals simp_all [Mode.Unbroken, Spelled, endsAtom, isDelimiter]

theorem unbroken_step {mode mode' : Mode} {ts : List Located} (hm : mode.Unbroken)
    (h : step mode p c = .ok (mode', ts)) : mode'.Unbroken ∧ ∀ t ∈ ts, Spelled t := by
  cases mode
  case gap =>
    have hlead := unbroken_lead p c
    rwa [Except.ok.inj h] at hlead
  case comment =>
    cases h
    split <;> simp [Mode.Unbroken]
  case string opened escaped content =>
    cases escaped
    case false =>
      unfold step at h
      dsimp only at h
      split at h <;> cases h <;> simp [Mode.Unbroken, Spelled]
    case true =>
      cases h
      simp [Mode.Unbroken]
  case atom begun spelling =>
    have ⟨hne, hc⟩ := hm
    unfold step at h
    dsimp only at h
    split at h
    case isTrue =>
      cases ha : atom begun spelling.reverse
      case error e => simp [ha, bind, Except.bind] at h
      case ok t =>
        simp [ha, bind, Except.bind] at h
        have hlead := unbroken_lead p c
        have ht : Spelled t := spelled_of_atom (by simpa using hne) (by simpa using hc) ha
        rw [← h.1, ← h.2]
        exact ⟨hlead.1, List.forall_mem_cons.mpr ⟨ht, hlead.2⟩⟩
    case isFalse hend =>
      cases h
      simp_all [Mode.Unbroken]

theorem spelled_of_mem_scan {mode : Mode} {t : Located} (hm : mode.Unbroken)
    (h : t ∈ (scan mode p cs).items) : Spelled t := by
  induction cs generalizing mode p
  case nil =>
    cases mode
    case atom begun spelling =>
      cases ha : atom begun spelling.reverse <;> simp [scan, finish, ha] at h
      subst h
      exact spelled_of_atom (by simpa using hm.1) (by simpa using hm.2) ha
    all_goals simp [scan, finish] at h
  case cons c cs hi =>
    cases hs : step mode p c
    case error e => simp [scan, hs] at h
    case ok next =>
      have ⟨hmode, hts⟩ := unbroken_step hm hs
      rw [scan_cons_of_ok hs] at h
      rcases List.mem_append.mp h with h | h
      · exact hts t h
      · exact hi hmode h

end Lexer

-- The names that the lexer gives to symbols.
def Symbolic (name : String) : Prop :=
  ∃ cs, ∃ t ∈ (tokens cs).items, t.token = .symbol name

theorem Symbolic.spelling {name : String} (h : Symbolic name) :
    Lexer.Spelling name.toList (.symbol name) := by
  have ⟨_, _, ht, hname⟩ := h
  have hgap : Lexer.Mode.gap.Unbroken := trivial
  exact Lexer.spelled_of_mem_scan hgap ht name hname

end CellLisp
