import CellLisp.Text.Blank
import CellLisp.ReadError
import CellLisp.Token
import CellLisp.Token.Integer

namespace CellLisp

structure Tokens where
  items : List Located
  fault : Option ReadError
deriving DecidableEq

namespace Lexer

inductive Mode
  | gap
  | comment
  | string (opened : Position) (escaped : Bool) (content : List Char)
  | atom (begun : Position) (spelling : List Char)

def isDelimiter (c : Char) : Bool :=
  c == '(' || c == ')' || c == '\'' || c == '"' || c == ';'

def endsAtom (c : Char) : Bool :=
  Text.isBlank c || isDelimiter c

def atom (begun : Position) (spelling : List Char) : Except ReadError Located :=
  if Token.Integer.looksNumeric spelling then
    match Token.Integer.parse? spelling with
    | some value => .ok ⟨.integer value, begun⟩
    | none => .error (.invalidInteger (String.ofList spelling) begun)
  else if spelling = ['n', 'i', 'l'] then .ok ⟨.nil, begun⟩
  else .ok ⟨.symbol (String.ofList spelling), begun⟩

def unescape : Char → Char
  | 'n' => '\n'
  | 't' => '\t'
  | 'r' => '\r'
  | '0' => '\x00'
  | c => c

def lead (p : Position) (c : Char) : Mode × List Located :=
  if Text.isBlank c then (.gap, [])
  else
    match c with
    | ';' => (.comment, [])
    | '(' => (.gap, [⟨.openParen, p⟩])
    | ')' => (.gap, [⟨.closeParen, p⟩])
    | '\'' => (.gap, [⟨.quote, p⟩])
    | '"' => (.string p false [], [])
    | c => (.atom p [c], [])

-- The contents of `Mode.string` and `Mode.atom` are kept last character first.
def step (mode : Mode) (p : Position) (c : Char) : Except ReadError (Mode × List Located) :=
  match mode with
  | .gap => .ok (lead p c)
  | .comment => .ok (if c = '\n' then .gap else .comment, [])
  | .string opened true content => .ok (.string opened false (unescape c :: content), [])
  | .string opened false content =>
    match c with
    | '"' => .ok (.gap, [⟨.string (String.ofList content.reverse), opened⟩])
    | '\\' => .ok (.string opened true content, [])
    | c => .ok (.string opened false (c :: content), [])
  | .atom begun spelling =>
    if endsAtom c then do
      let token ← atom begun spelling.reverse
      let (mode, tokens) := lead p c
      .ok (mode, token :: tokens)
    else .ok (.atom begun (c :: spelling), [])

def finish : Mode → Tokens
  | .gap | .comment => ⟨[], none⟩
  | .string opened _ _ => ⟨[], some (.unterminatedString opened)⟩
  | .atom begun spelling =>
    match atom begun spelling.reverse with
    | .ok token => ⟨[token], none⟩
    | .error fault => ⟨[], some fault⟩

def scan : Mode → Position → List Char → Tokens
  | mode, _, [] => finish mode
  | mode, p, c :: cs =>
    match step mode p c with
    | .ok (mode, tokens) =>
      let rest := scan mode (p.next c) cs
      { rest with items := tokens ++ rest.items }
    | .error fault => ⟨[], some fault⟩

end Lexer

def tokens (cs : List Char) : Tokens :=
  Lexer.scan .gap .start cs

end CellLisp
