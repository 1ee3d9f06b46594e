import CellLisp.Proofs.Grammar
import CellLisp.Proofs.Lexing

namespace CellLisp

namespace Byte

-- Printable ASCII, the end of a line and the tabulator.
def Plain (b : UInt8) : Prop :=
  (0x20 ≤ b ∧ b ≤ 0x7e) ∨ b = 0x0a ∨ b = 0x09

instance (b : UInt8) : Decidable (Plain b) :=
  inferInstanceAs (Decidable (_ ∨ _))

-- The lower-case digit of a number below sixteen.
def hexDigit (n : Nat) : UInt8 :=
  if n < 10 then 0x30 + n.toUInt8 else 0x57 + n.toUInt8

-- The bytes that a byte comes back as.
def respelled (b : UInt8) : List UInt8 :=
  if Plain b then [b] else [0x78, hexDigit (b.toNat / 16), hexDigit (b.toNat % 16)]

def char (b : UInt8) : Char :=
  Char.ofNat b.toNat

theorem utf8EncodeChar_char {b : UInt8} (h : b < 0x80) : String.utf8EncodeChar (char b) = [b] := by
  have ascii : ∀ n < 128, String.utf8EncodeChar (Char.ofNat n) = [n.toUInt8] := by decide
  simpa [char] using ascii b.toNat h

-- The UTF-8 encoding of ASCII text has one byte for each character.
theorem utf8_ofList {bs : List UInt8} (h : ∀ b ∈ bs, b < 0x80) :
    Text.utf8 (String.ofList (bs.map char)) = bs.toArray := by
  have hbytes : (bs.map char).flatMap String.utf8EncodeChar = bs := by
    induction bs
    case nil => rfl
    case cons b bs hi =>
      have ⟨hb, hbs⟩ := List.forall_mem_cons.mp h
      simp [utf8EncodeChar_char hb, hi hbs]
  simp [Text.utf8, String.toUTF8, List.utf8Encode, hbytes]

theorem digitChar_eq {n : Nat} (h : n < 16) : Nat.digitChar n = char (hexDigit n) := by
  have digits : ∀ n < 16, Nat.digitChar n = char (hexDigit n) := by decide
  exact digits n h

theorem hexDigit_lt {n : Nat} (h : n < 16) : 0x2f < hexDigit n ∧ hexDigit n < 0x80 := by
  have digits : ∀ n < 16, 0x2f < hexDigit n ∧ hexDigit n < 0x80 := by decide
  exact digits n h

theorem toNat_char (b : UInt8) : (char b).toNat = b.toNat := by
  have hvalid : b.toNat.isValidChar := .inl (Nat.lt_trans b.toNat_lt (by decide))
  rw [char, Char.ofNat, dif_pos hvalid]
  rfl

theorem char_ne {b : UInt8} {c : Char} (h : b.toNat ≠ c.toNat) : char b ≠ c :=
  fun heq => h (by rw [← heq, toNat_char])

theorem respelled_lt (b : UInt8) : ∀ a ∈ respelled b, a < 0x80 := by
  unfold respelled
  split
  case isTrue h =>
    simp only [List.mem_singleton, forall_eq]
    unfold Plain at h
    grind
  case isFalse =>
    have hhigh := hexDigit_lt (Nat.div_lt_of_lt_mul (n := 16) (k := 16) b.toNat_lt)
    have hlow := hexDigit_lt (Nat.mod_lt b.toNat (by decide : 0 < 16))
    simp [hhigh.2, hlow.2]

end Byte

namespace Lexer

open Byte

variable {p opened : Position} {c : Char} {content rest : List Char}

theorem scan_string_char (h : c ≠ '"') (h' : c ≠ '\\') :
    scan (.string opened false content) p (c :: rest) =
      scan (.string opened false (c :: content)) (p.next c) rest := by
  have hstep : step (.string opened false content) p c = .ok (.string opened false (c :: content), []) := by
    unfold step
    split <;> simp_all
  exact scan_cons_of_ok hstep

theorem scan_string_escape :
    scan (.string opened false content) p ('\\' :: c :: rest) =
      scan (.string opened false (unescape c :: content)) ((p.next '\\').next c) rest := by
  have hfirst : step (.string opened false content) p '\\' = .ok (.string opened true content, []) := rfl
  rw [scan_cons_of_ok hfirst]
  rfl

-- What a byte is written as is read as the bytes that it comes back as.
def ReadsBack (b : UInt8) : Prop :=
  ∀ (opened p : Position) (content rest : List Char),
    scan (.string opened false content) p ((Writer.byte b).toList ++ rest) =
      scan (.string opened false (((respelled b).map char).reverse ++ content))
        (p.after (Writer.byte b).toList) rest

theorem readsBack_of_escape {b : UInt8} (hb : (Writer.byte b).toList = ['\\', c])
    (hr : (respelled b).map char = [unescape c]) : ReadsBack b := by
  intro opened p content rest
  rw [hb, hr]
  exact scan_string_escape

theorem readsBack_of_printable {b : UInt8} (hb : Writer.byte b = String.singleton (char b))
    (hplain : Plain b) (hquote : b ≠ 0x22) (hslash : b ≠ 0x5c) : ReadsBack b := by
  intro opened p content rest
  have hquote : char b ≠ '"' := char_ne (fun h => hquote (UInt8.toNat_inj.mp h))
  have hslash : char b ≠ '\\' := char_ne (fun h => hslash (UInt8.toNat_inj.mp h))
  rw [hb, String.toList_singleton, respelled, if_pos hplain]
  exact scan_string_char hquote hslash

-- The backslash goes, and the letter and the digits after it stay.
theorem readsBack_of_hex {b : UInt8} (hb : Writer.byte b = "\\x" ++ Writer.hexDigits b)
    (hplain : ¬ Plain b) : ReadsBack b := by
  intro opened p content rest
  have hhigh := Nat.div_lt_of_lt_mul (n := 16) (k := 16) b.toNat_lt
  have hlow := Nat.mod_lt b.toNat (by decide : 0 < 16)
  have digit {n : Nat} (h : n < 16) : char (hexDigit n) ≠ '"' ∧ char (hexDigit n) ≠ '\\' := by
    have digits : ∀ n < 16, char (hexDigit n) ≠ '"' ∧ char (hexDigit n) ≠ '\\' := by decide
    exact digits n h
  have htext : (Writer.byte b).toList =
      ['\\', 'x', char (hexDigit (b.toNat / 16)), char (hexDigit (b.toNat % 16))] := by
    simp [hb, Writer.hexDigits, digitChar_eq hhigh, digitChar_eq hlow]
  rw [htext, respelled, if_neg hplain]
  have hx : unescape 'x' = char 0x78 := rfl
  simp only [List.cons_append, List.nil_append, scan_string_escape, hx,
    scan_string_char (digit hhigh).1 (digit hhigh).2, scan_string_char (digit hlow).1 (digit hlow).2]
  rfl

-- The reader undoes each escape of the writer but the one of a byte that is not printable.
theorem readsBack (b : UInt8) : ReadsBack b := by
  by_cases hquote : b = 0x22
  case pos => exact hquote ▸ readsBack_of_escape rfl rfl
  by_cases hslash : b = 0x5c
  case pos => exact hslash ▸ readsBack_of_escape rfl rfl
  by_cases hline : b = 0x0a
  case pos => exact hline ▸ readsBack_of_escape rfl rfl
  by_cases htab : b = 0x09
  case pos => exact htab ▸ readsBack_of_escape rfl rfl
  have hbyte : Writer.byte b = if 0x20 ≤ b ∧ b ≤ 0x7e then String.singleton (char b)
      else "\\x" ++ Writer.hexDigits b := by
    simp [Writer.byte, hquote, hslash, hline, htab, char]
  by_cases hprint : 0x20 ≤ b ∧ b ≤ 0x7e
  case pos =>
    rw [if_pos hprint] at hbyte
    exact readsBack_of_printable hbyte (.inl hprint) hquote hslash
  case neg =>
    rw [if_neg hprint] at hbyte
    have hplain : ¬ Plain b := by simp [Plain, hprint, hline, htab]
    exact readsBack_of_hex hbyte hplain

end Lexer

-- The bytes that a buffer comes back as.
def Bytes.respelled (content : Bytes) : Bytes :=
  (content.toList.flatMap Byte.respelled).toArray

namespace Byte

theorem length_le_flatMap_respelled (bs : List UInt8) : bs.length ≤ (bs.flatMap respelled).length := by
  induction bs
  case nil => simp
  case cons b bs hi =>
    have hb : 1 ≤ (respelled b).length := by unfold respelled; split <;> simp
    simp only [List.flatMap_cons, List.length_append, List.length_cons]
    omega

-- A byte that is not plain makes what comes back longer, and nothing makes it shorter.
theorem flatMap_respelled_eq_iff (bs : List UInt8) :
    bs.flatMap respelled = bs ↔ ∀ b ∈ bs, Plain b := by
  induction bs
  case nil => simp
  case cons b bs hi =>
    by_cases hb : Plain b
    case pos => simp [respelled, hb, hi]
    case neg =>
      refine iff_of_false (fun h => ?_) (fun h => hb (h b (.head _)))
      have hthree : (respelled b).length = 3 := by simp [respelled, hb]
      have hle := length_le_flatMap_respelled bs
      have hlength := congrArg List.length h
      rw [List.flatMap_cons, List.length_append, List.length_cons, hthree] at hlength
      omega

end Byte

theorem Bytes.respelled_eq_iff (content : Bytes) :
    content.respelled = content ↔ ∀ b ∈ content, Byte.Plain b := by
  rw [respelled, ← Array.toList_inj, Byte.flatMap_respelled_eq_iff]
  simp

namespace Lexer

open Byte

variable {p opened : Position} {content rest : List Char}

theorem scan_bytes (bs : List UInt8) :
    scan (.string opened false content) p (bs.flatMap (Writer.byte · |>.toList) ++ rest) =
      scan (.string opened false (((bs.flatMap respelled).map char).reverse ++ content))
        (p.after (bs.flatMap (Writer.byte · |>.toList))) rest := by
  induction bs generalizing p content
  case nil => rfl
  case cons b bs hi =>
    rw [List.flatMap_cons, List.append_assoc, readsBack b, hi]
    simp

end Lexer

open Lexer Grammar

-- A text is read as one expression, which ends where the text does.
def Reads (cs : List Char) (d : Datum) : Prop :=
  ∀ p rest, Ended rest → ∃ ts, Expr ts d ∧
    scan .gap p (cs ++ rest) = (scan .gap (p.after cs) rest).after ts

-- A text is read as what comes after the first element of a list.
structure ReadsTail (cs : List Char) (d : Datum) : Prop where
  ended    : ∀ rest, Ended (cs ++ ')' :: rest)
  elements : ∃ ds, Datum.list.chain ds = d ∧ ∀ p rest, ∃ ts, Exprs ts ds ∧
    scan .gap p (cs ++ ')' :: rest) = (scan .gap (p.after cs) (')' :: rest)).after ts

namespace Reads

variable {cs cs' : List Char} {d d' : Datum}

theorem of_spelling {token : Token} {a : Atom} (h : Spelling cs token) (ha : token.atom? = some a) :
    Reads cs (.atom a) :=
  fun p _ hr => ⟨[⟨token, p⟩], .atom ha, h.scan_eq hr⟩

-- A buffer is over with the quotation mark that ends it.
theorem bytes (content : Bytes) :
    Reads (Writer.bytes content).toList (.atom (.bytes content.respelled)) := by
  intro p rest _
  let text := content.toList.flatMap (Writer.byte · |>.toList)
  let chars := (content.toList.flatMap Byte.respelled).map Byte.char
  let t : Located := ⟨.string (String.ofList chars), p⟩
  have htext : (Writer.bytes content).toList = '"' :: (text ++ ['"']) := by
    simp [Writer.bytes, text, List.flatMap_map]
  have hascii : ∀ b ∈ content.toList.flatMap Byte.respelled, b < 0x80 := by
    intro b hb
    have ⟨c, _, hc⟩ := List.mem_flatMap.mp hb
    exact Byte.respelled_lt c b hc
  have hatom : t.token.atom? = some (.bytes content.respelled) := by
    simp [t, chars, Token.atom?, Byte.utf8_ofList hascii, Bytes.respelled]
  have hopen : step .gap p '"' = .ok (.string p false [], []) := rfl
  have hclose q : step (.string p false chars.reverse) q '"' = .ok (.gap, [t]) := by
    simp [step, t]
  refine ⟨[t], .atom hatom, ?_⟩
  rw [htext, List.cons_append, List.append_assoc, scan_cons_of_ok hopen, scan_bytes,
    List.append_nil, List.singleton_append, scan_cons_of_ok (hclose _)]
  simp [text, Tokens.after]

theorem list (h : Reads cs d) (h' : ReadsTail cs' d') :
    Reads ('(' :: (cs ++ cs' ++ [')'])) (.cons d d') := by
  intro p rest _
  have ⟨ds, hds, helements⟩ := h'.elements
  have ⟨ts, hts, hscan⟩ := h (p.next '(') (cs' ++ ')' :: rest) (h'.ended rest)
  have ⟨us, hus, hscan'⟩ := helements ((p.next '(').after cs) rest
  let o : Located := ⟨.openParen, p⟩
  let c : Located := ⟨.closeParen, ((p.next '(').after cs).after cs'⟩
  have hopen : step .gap p '(' = .ok (.gap, [o]) := rfl
  have hclose : step .gap c.position ')' = .ok (.gap, [c]) := rfl
  have hlist : Datum.list (d :: ds) = .cons d d' := congrArg (Datum.cons d) hds
  refine ⟨o :: ((ts ++ us) ++ [c]), hlist ▸ .list rfl rfl (.cons hts hus), ?_⟩
  have htext : '(' :: (cs ++ cs' ++ [')']) ++ rest = '(' :: (cs ++ (cs' ++ ')' :: rest)) := by simp
  rw [htext, scan_cons_of_ok hopen, hscan, hscan', scan_cons_of_ok hclose]
  simp [Tokens.after, c]

end Reads

namespace ReadsTail

variable {cs cs' : List Char} {d d' : Datum}

theorem nil : ReadsTail [] .absent where
  ended    := fun _ _ h => by cases h; rfl
  elements := ⟨[], rfl, fun _ _ => ⟨[], .nil, rfl⟩⟩

theorem cons (h : Reads cs d) (h' : ReadsTail cs' d') :
    ReadsTail (' ' :: (cs ++ cs')) (.cons d d') := by
  have ⟨ds, hds, helements⟩ := h'.elements
  constructor
  case ended => exact fun _ _ h => by cases h; rfl
  case elements =>
    refine ⟨_ :: ds, by rw [← hds]; rfl, fun p rest => ?_⟩
    have ⟨ts, hts, hscan⟩ := h (p.next ' ') (cs' ++ ')' :: rest) (h'.ended rest)
    have ⟨us, hus, hscan'⟩ := helements ((p.next ' ').after cs) rest
    have hblank : step .gap p ' ' = .ok (.gap, []) := rfl
    refine ⟨_, .cons hts hus, ?_⟩
    rw [List.cons_append, List.append_assoc, scan_cons_of_ok hblank, hscan, hscan']
    simp [Tokens.after]

end ReadsTail

namespace Datum

mutual

-- What the reader can give: atoms with a literal form, and lists of such data with one element or more.
def Literal : Datum → Prop
  | atom (.int _) | atom (.bytes _) | atom .nil => True
  | atom (.symbol name)                         => Symbolic name
  | cons head tail                              => head.Literal ∧ tail.Proper
  | _                                           => False

-- A list can end with a pair that has no tail, or with `nil` as its last tail.
def Proper : Datum → Prop
  | absent | atom .nil => True
  | cons head tail     => head.Literal ∧ tail.Proper
  | _                  => False

end

mutual

-- The same datum with each list ended the way the reader ends them: the last pair has no tail.
def ended : Datum → Datum
  | cons head tail => cons head.ended tail.endedTail
  | d              => d

def endedTail : Datum → Datum
  | atom .nil      => absent
  | cons head tail => cons head.ended tail.endedTail
  | d              => d

end

def buffers : Datum → List Bytes
  | atom (.bytes content) => [content]
  | cons head tail        => head.buffers ++ tail.buffers
  | _                     => []

-- The datum that a datum comes back as.
def respelled : Datum → Datum
  | atom (.bytes content) => atom (.bytes content.respelled)
  | cons head tail        => cons head.respelled tail.respelled
  | d                     => d

theorem reads_and (d : Datum) : (d.Literal → Reads d.write.toList d.respelled.ended) ∧
    (d.Proper → ReadsTail d.writeTail.toList d.respelled.endedTail) := by
  induction d
  case absent => exact ⟨False.elim, fun _ => .nil⟩
  case lambda => exact ⟨False.elim, False.elim⟩
  case atom a =>
    cases a
    case int value => exact ⟨fun _ => .of_spelling (spelling_toString value) rfl, False.elim⟩
    case symbol name => exact ⟨fun h => .of_spelling (Symbolic.spelling h) rfl, False.elim⟩
    case bytes content => exact ⟨fun _ => .bytes content, False.elim⟩
    case builtin => exact ⟨False.elim, False.elim⟩
    case error => exact ⟨False.elim, False.elim⟩
    case nil => exact ⟨fun _ => .of_spelling spelling_nil rfl, fun _ => .nil⟩
    case lost => exact ⟨False.elim, False.elim⟩
  case cons head tail hh ht =>
    constructor
    case left =>
      rintro ⟨hhead, htail⟩
      rw [write_cons]
      simpa [respelled, ended] using (hh.1 hhead).list (ht.2 htail)
    case right =>
      rintro ⟨hhead, htail⟩
      rw [writeTail_cons]
      simpa [respelled, endedTail] using ReadsTail.cons (hh.1 hhead) (ht.2 htail)

theorem respelled_ended (d : Datum) : d.respelled.ended = d.ended.respelled ∧
    d.respelled.endedTail = d.endedTail.respelled := by
  induction d
  case atom a => cases a <;> simp [respelled, ended, endedTail]
  case cons head tail hh ht => simp [respelled, ended, endedTail, hh, ht]
  all_goals simp [respelled, ended, endedTail]

theorem buffers_ended (d : Datum) : d.ended.buffers = d.buffers ∧ d.endedTail.buffers = d.buffers := by
  induction d
  case atom a => cases a <;> simp [ended, endedTail, buffers]
  case cons head tail hh ht => simp [ended, endedTail, buffers, hh, ht]
  all_goals simp [ended, endedTail, buffers]

theorem respelled_eq_iff (d : Datum) :
    d.respelled = d ↔ ∀ content ∈ d.buffers, ∀ b ∈ content, Byte.Plain b := by
  induction d
  case atom a =>
    cases a
    case bytes content => simp [respelled, buffers, Bytes.respelled_eq_iff]
    all_goals simp [respelled, buffers]
  case cons head tail hh ht => simp [respelled, buffers, hh, ht, or_imp, forall_and]
  all_goals simp [respelled, buffers]

end Datum

theorem readText_write {d : Datum} (h : d.Literal) :
    readText d.write = ⟨[d.respelled.ended], none⟩ ∧
      (readText d.write = ⟨[d.ended], none⟩ ↔
        ∀ content ∈ d.buffers, ∀ b ∈ content, Byte.Plain b) := by
  have ⟨ts, hts, hscan⟩ := (d.reads_and.1 h) .start [] (by simp [Ended])
  have htokens : tokens d.write.toList = ⟨ts, none⟩ := by
    simpa [tokens, scan, finish, Tokens.after] using hscan
  have hread : readText d.write = ⟨[d.respelled.ended], none⟩ := by
    have hts : Exprs ts [d.respelled.ended] := by simpa using Exprs.cons hts .nil
    rw [readText, htokens]
    exact Reader.parse_exprs hts
  refine ⟨hread, ?_⟩
  rw [hread, ← (Datum.buffers_ended d).1, ← Datum.respelled_eq_iff, (Datum.respelled_ended d).1]
  simp

-- A list that ends with `nil` and has a buffer with a byte that is not printable.
def Datum.withEscape : Datum :=
  .cons (.atom (.symbol "a")) (.cons (.atom (.bytes #[0x41, 0x1b])) (.atom .nil))

theorem readText_write_withEscape :
    Datum.withEscape.Literal ∧
      readText Datum.withEscape.write =
        ⟨[.list [.atom (.symbol "a"), .atom (.bytes #[0x41, 0x78, 0x31, 0x62])]], none⟩ ∧
      readText Datum.withEscape.write ≠ ⟨[Datum.withEscape.ended], none⟩ := by
  have ha : Symbolic "a" := ⟨['a'], ⟨.symbol "a", .start⟩, by decide, rfl⟩
  have h : Datum.withEscape.Literal := ⟨ha, trivial, trivial⟩
  have ⟨hread, hiff⟩ := readText_write h
  have hescape : ¬ ∀ content ∈ Datum.withEscape.buffers, ∀ b ∈ content, Byte.Plain b := fun hplain =>
    absurd (hplain #[0x41, 0x1b] (.head _) 0x1b (by simp)) (by decide)
  exact ⟨h, hread, hiff.not.mpr hescape⟩

end CellLisp
