import CellLisp.Proofs.Lexing
import Mathlib.Data.List.Forall2
import Mathlib.Data.Nat.Digits.Defs

namespace CellLisp

namespace Token.Integer

inductive Sign
  | absent
  | plus
  | minus

namespace Sign

def chars : Sign → List Char
  | absent => []
  | plus   => ['+']
  | minus  => ['-']

def isMinus : Sign → Bool
  | minus         => true
  | absent | plus => false

def of (s : Sign) (n : Nat) : Int :=
  if s.isMinus then -(n : Int) else n

end Sign

-- A character is a digit of some base, in either case.
structure Denotes (base : Nat) (c : Char) (d : Nat) : Prop where
  lt   : d < base
  char : c = Nat.digitChar d ∨ c = (Nat.digitChar d).toUpper

-- One or more digits, the first one of the highest weight.
structure Numeral (base : Nat) (cs : List Char) (n : Nat) : Prop where
  ne_nil : cs ≠ []
  digits : ∃ ds, List.Forall₂ (Denotes base) cs ds ∧ Nat.ofDigits base ds.reverse = n

-- The spellings of integers. A decimal literal is as large as it says. A hexadecimal one gives the bits of
-- a word, of which the sign takes the complement.
inductive Literal : List Char → Int64 → Prop
  | decimal (s : Sign) {cs n value} : Numeral 10 cs n → value.toInt = s.of n → Literal (s.chars ++ cs) value
  | hexadecimal (s : Sign) {x cs n value} : x = 'x' ∨ x = 'X' → Numeral 16 cs n → n < 2 ^ 64 →
    value.toInt = (s.of n).bmod (2 ^ 64) → Literal (s.chars ++ '0' :: x :: cs) value

-- A hexadecimal literal with a plus sign put behind its `0x`.
inductive InnerPlus : List Char → Int64 → Prop
  | plus (s : Sign) {x cs n value} : x = 'x' ∨ x = 'X' → Numeral 16 cs n → n < 2 ^ 64 →
    value.toInt = (s.of n).bmod (2 ^ 64) → InnerPlus (s.chars ++ '0' :: x :: '+' :: cs) value

-- The spellings that have to be integers.
inductive Numeric : List Char → Prop
  | digit (s : Sign) {c : Char} {cs} : c.isDigit → Numeric (s.chars ++ c :: cs)

variable {c : Char} {cs ds : List Char} {d n base : Nat} {value : Int64}

theorem decimalDigit?_iff : decimalDigit? c = some d ↔ Denotes 10 c d := by
  have table : ∀ n < 58, ∀ d ∈ decimalDigit? (Char.ofNat n), d < 10 ∧ Char.ofNat n = Nat.digitChar d := by
    decide
  have back : ∀ d < 10, decimalDigit? (Nat.digitChar d) = some d ∧
      decimalDigit? (Nat.digitChar d).toUpper = some d := by decide
  constructor
  case mp =>
    intro h
    have hc : c.isDigit := by
      by_contra hc
      simp [decimalDigit?, hc] at h
    have ⟨_, hle⟩ := Char.isDigit_iff_toNat.mp hc
    rw [← Char.ofNat_toNat c] at h ⊢
    have ⟨hd, hchar⟩ := table c.toNat (Nat.lt_succ_of_le hle) d h
    exact ⟨hd, .inl hchar⟩
  case mpr =>
    rintro ⟨hd, rfl | rfl⟩
    · exact (back d hd).1
    · exact (back d hd).2

theorem hexDigit?_iff : hexDigit? c = some d ↔ Denotes 16 c d := by
  have table : ∀ n < 103, ∀ d ∈ hexDigit? (Char.ofNat n),
      d < 16 ∧ (Char.ofNat n = Nat.digitChar d ∨ Char.ofNat n = (Nat.digitChar d).toUpper) := by decide
  have back : ∀ d < 16, hexDigit? (Nat.digitChar d) = some d ∧
      hexDigit? (Nat.digitChar d).toUpper = some d := by decide
  constructor
  case mp =>
    intro h
    have hle : c.toNat < 103 := by
      by_contra hlt
      have hdigit : ¬ c.isDigit := by
        intro hc
        have ⟨_, hle⟩ := Char.isDigit_iff_toNat.mp hc
        exact hlt (Nat.lt_of_le_of_lt hle (by decide))
      have hlower : ¬ c ≤ 'f' := fun hf => hlt (Nat.lt_succ_of_le hf)
      have hupper : ¬ c ≤ 'F' := fun hf => hlt (Nat.lt_of_le_of_lt hf (by decide))
      simp [hexDigit?, hdigit, hlower, hupper] at h
    rw [← Char.ofNat_toNat c] at h ⊢
    have ⟨hd, hchar⟩ := table c.toNat hle d h
    exact ⟨hd, hchar⟩
  case mpr =>
    rintro ⟨hd, rfl | rfl⟩
    · exact (back d hd).1
    · exact (back d hd).2

-- The digits are taken from the left, and each one moves those before it up.
theorem foldlM_digit? {digit? : Char → Option Nat} (hd : ∀ {c d}, digit? c = some d ↔ Denotes base c d)
    (acc : Nat) :
    cs.foldlM (fun n c => (digit? c).map (n * base + ·)) acc = some n ↔
      ∃ ds, List.Forall₂ (Denotes base) cs ds ∧ ds.foldl (fun n d => d + base * n) acc = n := by
  induction cs generalizing acc
  case nil => simp
  case cons c cs hi =>
    cases hc : digit? c
    case none =>
      have hnone : ∀ d, ¬ Denotes base c d := fun d h => by simp [hd.mpr h] at hc
      simp [List.foldlM_cons, hc, List.forall₂_cons_left_iff, hnone]
    case some d =>
      have hunique : ∀ e, Denotes base c e ↔ e = d := fun e => by rw [← hd, hc]; simp [eq_comm]
      simp only [List.foldlM_cons, hc, Option.map_some, Option.bind_eq_bind, Option.bind_some, hi,
        List.forall₂_cons_left_iff, hunique, Nat.mul_comm acc base, Nat.add_comm (base * acc) d]
      constructor
      · rintro ⟨ds, hds, hn⟩
        exact ⟨d :: ds, ⟨d, ds, rfl, hds, rfl⟩, hn⟩
      · rintro ⟨_, ⟨_, ds, rfl, hds, rfl⟩, hn⟩
        exact ⟨ds, hds, hn⟩

theorem number?_iff {digit? : Char → Option Nat} (hd : ∀ {c d}, digit? c = some d ↔ Denotes base c d) :
    number? digit? base cs = some n ↔ Numeral base cs n := by
  have hvalue (ds : List Nat) : Nat.ofDigits base ds.reverse = ds.foldl (fun n d => d + base * n) 0 := by
    rw [Nat.ofDigits_eq_foldr, List.foldr_reverse]
    rfl
  cases cs
  case nil => simpa [number?] using fun h : Numeral base [] n => h.ne_nil rfl
  case cons c cs =>
    rw [number?, foldlM_digit? hd]
    · simp only [← hvalue]
      exact ⟨fun h => ⟨by simp, h⟩, fun h => h.digits⟩
    · simp

theorem Denotes.isDigit (h : Denotes 10 c d) : c.isDigit := by
  by_contra hc
  simpa [decimalDigit?, hc] using decimalDigit?_iff.mpr h

theorem Numeral.isDigit (h : Numeral 10 cs n) : ∀ c ∈ cs, c.isDigit := by
  obtain ⟨-, ds, hds, -⟩ := h
  induction hds
  case nil          => simp
  case cons hd _ hi => exact List.forall_mem_cons.mpr ⟨hd.isDigit, hi⟩

-- No sign is a digit.
theorem Numeral.plus_not_mem (h : Numeral base cs n) (hb : base ≤ 16) : '+' ∉ cs := by
  have hplus : ∀ d < 16, '+' ≠ Nat.digitChar d ∧ '+' ≠ (Nat.digitChar d).toUpper := by decide
  obtain ⟨-, ds, hds, -⟩ := h
  induction hds
  case nil => simp
  case cons c d _ _ hd _ hi =>
    have ⟨hlower, hupper⟩ := hplus d (Nat.lt_of_lt_of_le hd.lt hb)
    refine List.not_mem_cons_of_ne_of_not_mem ?_ hi
    rintro rfl
    exact hd.char.elim hlower hupper

theorem Literal.plus_not_mem (h : Literal (c :: cs) value) : '+' ∉ cs := by
  generalize hcs : c :: cs = spelling at h
  cases h
  case decimal s ds n hn hv =>
    have hds := hn.plus_not_mem (by decide)
    cases s <;> cases hcs
    case absent.refl => exact fun h => hds (.tail _ h)
    all_goals exact hds
  case hexadecimal s x ds n hx hn hlt hv =>
    have hds := hn.plus_not_mem (by decide)
    cases s <;> cases hcs <;> rcases hx with rfl | rfl <;> simpa using hds

-- What is left of a spelling without its sign.
theorem exists_sign (cs : List Char) :
    ∃ s : Sign, cs = s.chars ++ (splitSign cs).2 ∧ (splitSign cs).1 = s.isMinus := by
  unfold splitSign
  split
  case h_1 => exact ⟨.minus, rfl, rfl⟩
  case h_2 => exact ⟨.plus, rfl, rfl⟩
  case h_3 => exact ⟨.absent, rfl, rfl⟩

theorem splitSign_sign (s : Sign) (h : c.isDigit) :
    splitSign (s.chars ++ c :: cs) = (s.isMinus, c :: cs) := by
  cases s
  case absent => exact splitSign_of_isDigit h
  case plus   => rfl
  case minus  => rfl

theorem dropPlus_of_numeral (h : Numeral 16 cs n) : dropPlus cs = cs := by
  unfold dropPlus
  split
  case h_1 cs => exact absurd (.head _) (h.plus_not_mem (by decide))
  case h_2    => rfl

-- A word is given by its bits, with the sign of the literal.
theorem signed_eq_iff (s : Sign) (n : Nat) :
    (if s.isMinus then -Int64.ofNat n else Int64.ofNat n) = value ↔
      value.toInt = (s.of n).bmod (2 ^ 64) := by
  have hword : (if s.isMinus then -Int64.ofNat n else Int64.ofNat n) = Int64.ofInt (s.of n) := by
    unfold Sign.of
    split
    case isTrue  => rw [Int64.ofInt_neg, Int64.ofInt_eq_ofNat]
    case isFalse => rw [Int64.ofInt_eq_ofNat]
  rw [hword, Int64.ofInt_eq_iff_bmod_eq_toInt, eq_comm]

theorem pattern?_iff {s : Sign} :
    (pattern? cs).map (fun word => if s.isMinus then -word else word) = some value ↔
      ∃ n, Numeral 16 (dropPlus cs) n ∧ n < 2 ^ 64 ∧ value.toInt = (s.of n).bmod (2 ^ 64) := by
  simp only [← number?_iff hexDigit?_iff, pattern?]
  cases number? hexDigit? 16 (dropPlus cs)
  case none => simp
  case some n =>
    simp only [Option.some.injEq, exists_eq_left', ← signed_eq_iff]
    simp

-- A number that fits a word is the word.
theorem fitting_eq_iff (i : Int) :
    (if -0x8000000000000000 ≤ i ∧ i < 0x8000000000000000 then some (Int64.ofInt i) else none) = some value ↔
      value.toInt = i := by
  constructor
  case mp =>
    intro h
    split at h
    case isFalse => cases h
    case isTrue hi =>
      cases h
      exact Int64.toInt_ofInt_of_le hi.1 hi.2
  case mpr =>
    rintro rfl
    have hlow := value.le_toInt
    have hhigh := value.toInt_lt
    rw [if_pos ⟨hlow, hhigh⟩, Int64.ofInt_toInt]

theorem decimal?_iff {s : Sign} :
    decimal? s.isMinus cs = some value ↔ ∃ n, Numeral 10 cs n ∧ value.toInt = s.of n := by
  simp only [← number?_iff decimalDigit?_iff, decimal?]
  cases number? decimalDigit? 10 cs
  case none   => simp
  case some n =>
    simp only [Option.some.injEq, exists_eq_left']
    exact fitting_eq_iff (s.of n)

-- What is read after `0x`, with or without a plus sign before the digits.
theorem numeral_dropPlus_iff :
    Numeral 16 (dropPlus cs) n ↔ Numeral 16 cs n ∨ ∃ ds, cs = '+' :: ds ∧ Numeral 16 ds n := by
  constructor
  case mp =>
    intro h
    unfold dropPlus at h
    split at h
    case h_1 ds => exact .inr ⟨ds, rfl, h⟩
    case h_2    => exact .inl h
  case mpr =>
    rintro (h | ⟨ds, rfl, h⟩)
    · rwa [dropPlus_of_numeral h]
    · exact h

theorem literal_or_innerPlus_of_parse? (h : parse? cs = some value) :
    Literal cs value ∨ InnerPlus cs value := by
  obtain ⟨s, hcs, hs⟩ := exists_sign cs
  have hexadecimal {x : Char} {hex : List Char} (hx : x = 'x' ∨ x = 'X')
      (hd : (splitSign cs).2 = '0' :: x :: hex)
      (h : (pattern? hex).map (fun word => if s.isMinus then -word else word) = some value) :
      Literal cs value ∨ InnerPlus cs value := by
    obtain ⟨n, hn, hlt, hvalue⟩ := pattern?_iff.mp h
    rw [hd] at hcs
    rw [hcs]
    rcases numeral_dropPlus_iff.mp hn with hn | ⟨ds, rfl, hn⟩
    · exact .inl (.hexadecimal s hx hn hlt hvalue)
    · exact .inr (.plus s hx hn hlt hvalue)
  simp only [parse?, hs] at h
  split at h
  case h_1 hex hd => exact hexadecimal (.inl rfl) hd h
  case h_2 hex hd => exact hexadecimal (.inr rfl) hd h
  case h_3 =>
    obtain ⟨n, hn, hvalue⟩ := decimal?_iff.mp h
    exact .inl (hcs ▸ .decimal s hn hvalue)

theorem parse?_hexadecimal (s : Sign) {x : Char} (hx : x = 'x' ∨ x = 'X')
    (hn : Numeral 16 (dropPlus cs) n) (hlt : n < 2 ^ 64) (hv : value.toInt = (s.of n).bmod (2 ^ 64)) :
    parse? (s.chars ++ '0' :: x :: cs) = some value := by
  have hsplit : splitSign (s.chars ++ '0' :: x :: cs) = (s.isMinus, '0' :: x :: cs) := splitSign_sign s rfl
  have hpattern := pattern?_iff.mpr ⟨n, hn, hlt, hv⟩
  rw [parse?, hsplit]
  rcases hx with rfl | rfl
  · exact hpattern
  · exact hpattern

theorem parse?_iff : parse? cs = some value ↔ Literal cs value ∨ InnerPlus cs value := by
  refine ⟨literal_or_innerPlus_of_parse?, ?_⟩
  rintro (h | h)
  · cases h
    case decimal s cs n hn hv =>
      obtain ⟨c, cs, rfl⟩ := List.exists_cons_of_ne_nil hn.ne_nil
      have hsplit : splitSign (s.chars ++ c :: cs) = (s.isMinus, c :: cs) :=
        splitSign_sign s (hn.isDigit c (.head _))
      rw [parse?_of_digits hsplit hn.isDigit]
      exact decimal?_iff.mpr ⟨n, hn, hv⟩
    case hexadecimal s x cs n hx hn hlt hv =>
      exact parse?_hexadecimal s hx (numeral_dropPlus_iff.mpr (.inl hn)) hlt hv
  · cases h
    case plus s x cs n hx hn hlt hv =>
      exact parse?_hexadecimal s hx (numeral_dropPlus_iff.mpr (.inr ⟨cs, rfl, hn⟩)) hlt hv

theorem Numeric.looksNumeric (h : Numeric cs) : looksNumeric cs := by
  cases h
  case digit s c cs hc =>
    cases s
    case absent => exact looksNumeric_of_isDigit hc
    all_goals simp [Sign.chars, Integer.looksNumeric, hc]

end Token.Integer

namespace Lexer

open Token.Integer

variable {p begun : Position} {cs rest spelling : List Char} {e : ReadError} {value : Int64}

theorem scan_atom_of_error (hc : ∀ c ∈ cs, endsAtom c = false) (h : Ended rest)
    (ha : atom begun (spelling.reverse ++ cs) = .error e) :
    scan (.atom begun spelling) p (cs ++ rest) = ⟨[], some e⟩ := by
  induction cs generalizing spelling p
  case nil =>
    rw [List.append_nil] at ha
    cases rest
    case nil => simp [scan, finish, ha]
    case cons c rest =>
      have hc : endsAtom c := h c rfl
      simp [scan, step, hc, ha, bind, Except.bind]
  case cons c cs hi =>
    have hstep : step (.atom begun spelling) p c = .ok (.atom begun (c :: spelling), []) := by
      simp [step, hc c]
    rw [List.cons_append, scan_cons_of_ok hstep, hi (fun d hd => hc d (.tail _ hd)) (by simpa using ha)]
    rfl

-- A spelling that has to be an integer and is none.
structure Misspelled (cs : List Char) : Prop where
  ne_nil   : cs ≠ []
  unbroken : ∀ c ∈ cs, endsAtom c = false
  numeric  : looksNumeric cs
  invalid  : parse? cs = none

theorem atom_of_misspelled (h : Misspelled cs) :
    atom p cs = .error (.invalidInteger (String.ofList cs) p) := by
  simp [atom, h.numeric, h.invalid]

theorem Misspelled.scan_eq (h : Misspelled cs) (hr : Ended rest) :
    scan .gap p (cs ++ rest) = ⟨[], some (.invalidInteger (String.ofList cs) p)⟩ := by
  obtain ⟨c, cs, rfl⟩ := List.exists_cons_of_ne_nil h.ne_nil
  have hstep : step .gap p c = .ok (.atom p [c], []) :=
    congrArg Except.ok (lead_of_not_endsAtom (h.unbroken c (.head _)))
  have hatom : atom p ([c].reverse ++ cs) = _ := atom_of_misspelled h
  rw [List.cons_append, scan_cons_of_ok hstep,
    scan_atom_of_error (fun d hd => h.unbroken d (.tail _ hd)) hr hatom]
  rfl

-- What becomes of an atom that has to be an integer, wherever it stands: it is an integer if it is
-- accepted as one, and otherwise the text ends with a fault that shows it.
structure Judges (cs : List Char) (accepts : Int64 → Prop) : Prop where
  integer : ∀ p rest, Ended rest → ∀ value,
    scan .gap p (cs ++ rest) = (scan .gap (p.after cs) rest).after [⟨.integer value, p⟩] ↔ accepts value
  invalid : ∀ p rest, Ended rest →
    (scan .gap p (cs ++ rest) = ⟨[], some (.invalidInteger (String.ofList cs) p)⟩ ↔ ∀ value, ¬ accepts value)

section Numeric

variable (hc : ∀ c ∈ cs, endsAtom c = false) (hn : Numeric cs)

include hc hn

theorem scan_of_parse?_some (hr : Ended rest) (h : parse? cs = some value) :
    scan .gap p (cs ++ rest) = (scan .gap (p.after cs) rest).after [⟨.integer value, p⟩] := by
  have hne : cs ≠ [] := by
    rintro rfl
    cases h
  have hspelling : Spelling cs (.integer value) :=
    ⟨hne, hc, fun p => by simp [atom, hn.looksNumeric, h]⟩
  exact hspelling.scan_eq hr

theorem judges_of_numeric : Judges cs (fun value => Literal cs value ∨ InnerPlus cs value) := by
  simp only [← parse?_iff]
  cases h : parse? cs
  case none =>
    have hne : cs ≠ [] := by
      rintro rfl
      cases hn.looksNumeric
    have hmisspelled : Misspelled cs := ⟨hne, hc, hn.looksNumeric, h⟩
    have hscan (p : Position) {rest : List Char} (hr : Ended rest) := hmisspelled.scan_eq (p := p) hr
    constructor
    · intro p rest hr value
      simp [hscan p hr, Tokens.after]
    · intro p rest hr
      simp [hscan p hr]
  case some value =>
    have hscan (p : Position) {rest : List Char} (hr : Ended rest) := scan_of_parse?_some (p := p) hc hn hr h
    constructor
    · intro p rest hr value'
      simp [hscan p hr, Tokens.after]
    · intro p rest hr
      simp [hscan p hr, Tokens.after]

end Numeric

-- `-0xfF` at the end of a list.
theorem judges_of_numeric_minus :
    (∀ c ∈ ['-', '0', 'x', 'f', 'F'], endsAtom c = false) ∧ Numeric ['-', '0', 'x', 'f', 'F'] ∧ Ended [')'] ∧
      scan .gap .start ['-', '0', 'x', 'f', 'F', ')'] =
        (scan .gap ⟨1, 6⟩ [')']).after [⟨.integer (-255), .start⟩] := by
  have hc : ∀ c ∈ ['-', '0', 'x', 'f', 'F'], endsAtom c = false := by
    have hall : ['-', '0', 'x', 'f', 'F'].all (fun c => !endsAtom c) := by decide
    simpa using List.all_eq_true.mp hall
  have hn : Numeric ['-', '0', 'x', 'f', 'F'] := .digit .minus rfl
  have hended : Ended [')'] := by simpa [Ended] using show endsAtom ')' by decide
  have hnumeral : Numeral 16 ['f', 'F'] 255 := (number?_iff hexDigit?_iff).mp (by decide)
  have hliteral : Literal ['-', '0', 'x', 'f', 'F'] (-255) :=
    .hexadecimal .minus (.inl rfl) hnumeral (by decide) (by decide)
  exact ⟨hc, hn, hended, ((judges_of_numeric hc hn).integer .start _ hended (-255)).mpr (.inl hliteral)⟩

-- `0x+10` is no literal, and is taken for 16.
theorem innerPlus_accepted :
    ¬ ∀ cs, (∀ c ∈ cs, endsAtom c = false) → Numeric cs → Judges cs (Literal cs) := by
  intro h
  have hc : ∀ c ∈ ['0', 'x', '+', '1', '0'], endsAtom c = false := by
    have hall : ['0', 'x', '+', '1', '0'].all (fun c => !endsAtom c) := by decide
    simpa using List.all_eq_true.mp hall
  have hn : Numeric ['0', 'x', '+', '1', '0'] := .digit .absent rfl
  have hscan : scan .gap .start (['0', 'x', '+', '1', '0'] ++ []) =
      (scan .gap (Position.start.after ['0', 'x', '+', '1', '0']) []).after [⟨.integer 16, .start⟩] := by
    decide
  have hliteral := ((h _ hc hn).integer .start [] (by simp [Ended]) 16).mp hscan
  exact hliteral.plus_not_mem (by decide)

end Lexer
end CellLisp
