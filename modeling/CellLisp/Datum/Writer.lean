import CellLisp.Datum

namespace CellLisp

def Builtin.ofWord? (word : Int64) : Option Builtin :=
  ofOpcode? word.toUInt64.toNat

namespace Writer

def hexDigits (b : UInt8) : String :=
  String.ofList [Nat.digitChar (b.toNat / 16), Nat.digitChar (b.toNat % 16)]

def byte (b : UInt8) : String :=
  if b = 0x22 then "\\\""
  else if b = 0x5c then "\\\\"
  else if b = 0x0a then "\\n"
  else if b = 0x09 then "\\t"
  else if 0x20 ≤ b ∧ b ≤ 0x7e then String.singleton (Char.ofNat b.toNat)
  else "\\x" ++ hexDigits b

def bytes (content : Bytes) : String :=
  "\"" ++ String.join (content.toList.map byte) ++ "\""

def builtin (opcode : Int64) : String :=
  match Builtin.ofWord? opcode with
  | some b => "<builtin " ++ b.name ++ ">"
  | none => "<builtin ?>"

def atom : Atom → String
  | .int value => toString value.toInt
  | .symbol name => name
  | .bytes content => bytes content
  | .builtin opcode => builtin opcode
  | .error code => "<error " ++ toString code.toInt ++ ">"
  | .nil => "nil"
  | .lost => "<lost>"

end Writer

namespace Datum

mutual

def writeAfter : Datum → String → String
  | absent, out => out ++ "nil"
  | atom a, out => out ++ Writer.atom a
  | cons head tail, out => tail.writeTailAfter (head.writeAfter (out ++ "(")) ++ ")"
  | lambda absent, out => out ++ "<fn>"
  | lambda params, out => params.writeAfter (out ++ "<fn ") ++ ">"

-- Writes what stands between the head of a pair and the parenthesis that closes it.
def writeTailAfter : Datum → String → String
  | absent, out => out
  | atom .nil, out => out
  | atom a, out => out ++ (" . " ++ Writer.atom a)
  | cons head tail, out => tail.writeTailAfter (head.writeAfter (out ++ " "))
  | lambda absent, out => out ++ " . <fn>"
  | lambda params, out => params.writeAfter (out ++ " . <fn ") ++ ">"

end

def write (d : Datum) : String :=
  d.writeAfter ""

def writeTail (d : Datum) : String :=
  d.writeTailAfter ""

theorem writeAfter_eq_and (d : Datum) : (∀ out, d.writeAfter out = out ++ d.write) ∧
    ∀ out, d.writeTailAfter out = out ++ d.writeTail := by
  induction d
  case absent => simp [write, writeTail, writeAfter, writeTailAfter]
  case atom a =>
    constructor
    case left  => simp [write, writeAfter]
    case right =>
      intro out
      cases a <;> simp [writeTail, writeTailAfter]
  case cons head tail hh ht =>
    constructor
    all_goals
      intro out
      simp only [write, writeTail, writeAfter, writeTailAfter]
      rw [hh.1, ht.2, hh.1 ("" ++ _), ht.2 (_ ++ head.write)]
      simp [String.append_assoc]
  case lambda params hi =>
    by_cases hp : params = absent
    case pos =>
      subst hp
      simp [write, writeTail, writeAfter, writeTailAfter]
    case neg =>
      have hafter out : (lambda params).writeAfter out = params.writeAfter (out ++ "<fn ") ++ ">" := by
        rw [writeAfter]
        exact hp
      have htail out :
          (lambda params).writeTailAfter out = params.writeAfter (out ++ " . <fn ") ++ ">" := by
        rw [writeTailAfter]
        exact hp
      constructor
      case left =>
        intro out
        rw [write, hafter, hafter, hi.1, hi.1 ("" ++ _)]
        simp [String.append_assoc]
      case right =>
        intro out
        rw [writeTail, htail, htail, hi.1, hi.1 ("" ++ _)]
        simp [String.append_assoc]

theorem writeAfter_eq (d : Datum) (out : String) : d.writeAfter out = out ++ d.write :=
  d.writeAfter_eq_and.1 out

theorem writeTailAfter_eq (d : Datum) (out : String) : d.writeTailAfter out = out ++ d.writeTail :=
  d.writeAfter_eq_and.2 out

theorem write_cons (head tail : Datum) :
    (cons head tail).write = "(" ++ head.write ++ tail.writeTail ++ ")" := by
  rw [write, writeAfter, writeTailAfter_eq, writeAfter_eq, String.empty_append]

theorem writeTail_cons (head tail : Datum) :
    (cons head tail).writeTail = " " ++ head.write ++ tail.writeTail := by
  rw [writeTail, writeTailAfter, writeTailAfter_eq, writeAfter_eq, String.empty_append]

end Datum
end CellLisp
