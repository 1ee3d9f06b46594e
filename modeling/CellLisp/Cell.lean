import CellLisp.Datum.Writer

namespace CellLisp

-- A place in the heap.
abbrev Ref := Nat

abbrev Value := Option Ref

-- A place in the table of compiled function bodies.
abbrev CodeId := Nat

inductive Tag
  | int
  | cons
  | symbol
  | lambda
  | builtin
  | bytes
  | error
  | nil
deriving DecidableEq, Repr

def Tag.name : Tag → String
  | int => "int"
  | cons => "cons"
  | symbol => "symbol"
  | lambda => "lambda"
  | builtin => "builtin"
  | bytes => "bytes"
  | error => "error"
  | nil => "nil"

inductive ErrorCode
  | compile
  | read
  | storage
  | noSession
deriving DecidableEq, Repr

def ErrorCode.word : ErrorCode → Int64
  | compile => 1
  | read => 2
  | storage => 3
  | noSession => 4

def ErrorCode.ofWord? (n : Int64) : Option ErrorCode :=
  [compile, read, storage, noSession].find? (·.word == n)

-- What is left of a cell whose first word was an address: its tag and its second word.
inductive Remnant
  | cons (tail : Value)
  | symbol (size : Nat)
  | lambda (code : Option CodeId)
  | bytes (size : Nat)
deriving DecidableEq

def Remnant.tag : Remnant → Tag
  | cons _ => .cons
  | symbol _ => .symbol
  | lambda _ => .lambda
  | bytes _ => .bytes

-- Every cell has a tag and two words. Code that does not look at the tag can write a number into the
-- first word; a cell that had an address there is then `spoilt`.
inductive Cell
  | int (value : Int64)
  | cons (head tail : Value)
  | symbol (name : String)
  | lambda (params : Value) (code : Option CodeId)
  | builtin (opcode : Int64)
  | bytes (content : Bytes)
  | error (code : Int64)
  | nil (word : Int64)
  | spoilt (word : Int64) (rest : Remnant)
deriving DecidableEq

namespace Cell

def tag : Cell → Tag
  | int _ => .int
  | cons _ _ => .cons
  | symbol _ => .symbol
  | lambda _ _ => .lambda
  | builtin _ => .builtin
  | bytes _ => .bytes
  | error _ => .error
  | nil _ => .nil
  | spoilt _ rest => rest.tag

def ofBuiltin (b : Builtin) : Cell :=
  builtin (Int64.ofNat b.opcode)

def ofError (e : ErrorCode) : Cell :=
  error e.word

def isNil (c : Cell) : Bool :=
  c.tag == .nil

def isList (c : Cell) : Bool :=
  c.tag == .cons || c.tag == .nil

def int? : Cell → Option Int64
  | int value => some value
  | _ => none

def head? : Cell → Value
  | cons head _ => head
  | _ => none

def tail? : Cell → Value
  | cons _ tail => tail
  | spoilt _ (.cons tail) => tail
  | _ => none

def symbol? : Cell → Option String
  | symbol name => some name
  | _ => none

def builtin? : Cell → Option Builtin
  | builtin opcode => Builtin.ofWord? opcode
  | _ => none

def params? : Cell → Value
  | lambda params _ => params
  | _ => none

def code? : Cell → Option CodeId
  | lambda _ code => code
  | spoilt _ (.lambda code) => code
  | _ => none

def error? : Cell → Option Int64
  | error code => some code
  | _ => none

def bytes? : Cell → Option Bytes
  | bytes content => some content
  | _ => none

def bufferSize? : Cell → Option Nat
  | bytes content => some content.size
  | spoilt _ (.bytes size) => some size
  | _ => none

-- The address that belongs to the tag is lost.
def lost (tag : Tag) : Cell → Bool
  | spoilt _ rest => rest.tag == tag
  | _ => false

-- The size of a buffer stands in the cell, but where the address is zero nothing is a buffer.
def sizeLost : Cell → Bool
  | spoilt word (.bytes _) => word == 0
  | _ => false

def byteLost (i : Nat) : Cell → Bool
  | spoilt word (.bytes size) => word == 0 || i < size
  | _ => false

def mapBytes (f : Bytes → Bytes) : Cell → Cell
  | bytes content => bytes (f content)
  | c => c

-- The number that an address reads as. It is not zero, and says nothing else.
def addressWord (r : Nat) : Int64 :=
  Int64.ofNat (16 * (r + 1))

def valueWord : Value → Int64
  | some r => addressWord r
  | none => 0

def firstWord : Cell → Int64
  | int value => value
  | builtin opcode => opcode
  | error code => code
  | nil word => word
  | cons head _ => valueWord head
  | lambda params _ => valueWord params
  | symbol _ => addressWord 0
  | bytes _ => addressWord 0
  | spoilt word _ => word

def secondWord : Cell → Int64
  | int _ | builtin _ | error _ | nil _ => 0
  | cons _ tail | spoilt _ (.cons tail) => valueWord tail
  | lambda _ code | spoilt _ (.lambda code) => (code.map addressWord).getD 0
  | symbol name => Int64.ofNat (Text.utf8 name).size
  | bytes content => Int64.ofNat content.size
  | spoilt _ (.symbol size) | spoilt _ (.bytes size) => Int64.ofNat size

-- A pair without a head and a function without parameters have a zero for their address.
def ofRemnant (word : Int64) : Remnant → Cell
  | .cons tail => if word = 0 then cons none tail else spoilt word (.cons tail)
  | .lambda code => if word = 0 then lambda none code else spoilt word (.lambda code)
  | rest => spoilt word rest

def setFirstWord (word : Int64) : Cell → Cell
  | int _ => int word
  | builtin _ => builtin word
  | error _ => error word
  | nil _ => nil word
  | cons _ tail => ofRemnant word (.cons tail)
  | symbol name => ofRemnant word (.symbol (Text.utf8 name).size)
  | lambda _ code => ofRemnant word (.lambda code)
  | bytes content => ofRemnant word (.bytes content.size)
  | spoilt _ rest => ofRemnant word rest

-- The characters of a buffer up to its first zero byte.
def text? (c : Cell) : Option String :=
  c.bytes?.map fun content => Text.ofBytes (content.toList.takeWhile (· != 0))

end Cell
end CellLisp
