namespace CellLisp

inductive Builtin
  | add
  | sub
  | mul
  | div
  | rem
  | lt
  | gt
  | branch
  | loop
  | define
  | assign
  | print
  | sequence
  | function
  | quote
  | car
  | cdr
  | cons
  | concat
  | alloc
  | allocText
  | get
  | getUnchecked
  | put
  | putUnchecked
  | size
  | sizeUnchecked
  | write
  | eval
  | pixel
  | fillRect
  | flip
  | blit
  | blitInverse
  | inkey
  | list
  | load
  | save
  | udpPoll
  | udpSend
  | tcpBind
  | tcpConnect
  | tcpSend
deriving DecidableEq, Repr

namespace Builtin

def all : List Builtin :=
  [.add, .sub, .mul, .div, .rem, .lt, .gt, .branch, .loop, .define, .assign, .print, .sequence,
   .function, .quote, .car, .cdr, .cons, .concat, .alloc, .allocText, .get, .getUnchecked, .put,
   .putUnchecked, .size, .sizeUnchecked, .write, .eval, .pixel, .fillRect, .flip, .blit,
   .blitInverse, .inkey, .list, .load, .save, .udpPoll, .udpSend, .tcpBind, .tcpConnect, .tcpSend]

def name : Builtin → String
  | add => "+"
  | sub => "-"
  | mul => "*"
  | div => "/"
  | rem => "%"
  | lt => "lt"
  | gt => "gt"
  | branch => "if"
  | loop => "while"
  | define => "def"
  | assign => "mut"
  | print => "print"
  | sequence => "do"
  | function => "fn"
  | quote => "quote"
  | car => "car"
  | cdr => "cdr"
  | cons => "cons"
  | concat => "concat"
  | alloc => "alloc"
  | allocText => "alloc-str"
  | get => "get"
  | getUnchecked => "uget"
  | put => "put"
  | putUnchecked => "uput"
  | size => "size"
  | sizeUnchecked => "usize"
  | write => "write"
  | eval => "eval"
  | pixel => "pixel"
  | fillRect => "rectfill"
  | flip => "flip"
  | blit => "blit-mono"
  | blitInverse => "blit-mono-inv"
  | inkey => "inkey"
  | list => "ls"
  | load => "load"
  | save => "save"
  | udpPoll => "udp-poll"
  | udpSend => "udp-send"
  | tcpBind => "tcp-bind"
  | tcpConnect => "tcp-connect"
  | tcpSend => "tcp-send"

-- The shape of a call, as shown when arguments are missing.
def usage : Builtin → String
  | add => "(+ a b)"
  | sub => "(- a b)"
  | mul => "(* a b)"
  | div => "(/ a b)"
  | rem => "(% a b)"
  | lt => "(lt a b)"
  | gt => "(gt a b)"
  | branch => "(if condition then [else])"
  | loop => "(while condition body)"
  | define => "(def symbol value)"
  | assign => "(mut symbol value)"
  | print => "(print value)"
  | sequence => "(do expr ...)"
  | function => "(fn param ... body)"
  | quote => "(quote expr)"
  | car => "(car list)"
  | cdr => "(cdr list)"
  | cons => "(cons head tail)"
  | concat => "(concat a b)"
  | alloc => "(alloc size)"
  | allocText => "(alloc-str size)"
  | get => "(get buffer index)"
  | getUnchecked => "(uget buffer index)"
  | put => "(put buffer index byte)"
  | putUnchecked => "(uput buffer index byte)"
  | size => "(size buffer)"
  | sizeUnchecked => "(usize buffer)"
  | write => "(write buffer value)"
  | eval => "(eval expr)"
  | pixel => "(pixel x y color)"
  | fillRect => "(rectfill x y w h color)"
  | flip => "(flip)"
  | blit => "(blit-mono bitmap x y w h color)"
  | blitInverse => "(blit-mono-inv bitmap x y w h color)"
  | inkey => "(inkey)"
  | list => "(ls)"
  | load => "(load path)"
  | save => "(save buffer path)"
  | udpPoll => "(udp-poll)"
  | udpSend => "(udp-send host port buffer)"
  | tcpBind => "(tcp-bind port)"
  | tcpConnect => "(tcp-connect host port)"
  | tcpSend => "(tcp-send buffer)"

def opcode (b : Builtin) : Nat :=
  b.ctorIdx

def ofOpcode? (n : Nat) : Option Builtin :=
  all[n]?

def ofName? (name : String) : Option Builtin :=
  all.find? (·.name == name)

-- The operations that have a name and no implementation.
def isNetwork : Builtin → Bool
  | udpPoll | udpSend | tcpBind | tcpConnect | tcpSend => true
  | _ => false

end Builtin
end CellLisp
