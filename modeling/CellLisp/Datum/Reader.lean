import CellLisp.Datum
import CellLisp.Token.Lexer

namespace CellLisp

structure Reading where
  forms : List Datum
  fault : Option ReadError
deriving DecidableEq

namespace Reader

-- What is open around a token; the elements of a list are kept last one first.
inductive Frame
  | list (opened : Position) (items : List Datum)
  | quote (place : Position)

-- Hands a finished datum to what is open around it; it is a form if nothing is.
def deliver (d : Datum) : List Frame → List Datum × List Frame
  | [] => ([d], [])
  | .list opened items :: stack => ([], .list opened (d :: items) :: stack)
  | .quote _ :: stack => deliver d.quoted stack

def step (stack : List Frame) (t : Located) : Except ReadError (List Datum × List Frame) :=
  match t.token with
  | .openParen => .ok ([], .list t.position [] :: stack)
  | .quote => .ok ([], .quote t.position :: stack)
  | .closeParen =>
    match stack with
    | .list _ items :: stack => .ok (deliver (.list items.reverse) stack)
    | _ => .error (.unexpectedClose t.position)
  | .nil => .ok (deliver (.atom .nil) stack)
  | .symbol name => .ok (deliver (.atom (.symbol name)) stack)
  | .integer value => .ok (deliver (.atom (.int value)) stack)
  | .string content => .ok (deliver (.atom (.bytes (Text.utf8 content))) stack)

def unfinished : List Frame → Option ReadError
  | [] => none
  | .list opened _ :: _ => some (.unterminatedList opened)
  | .quote place :: _ => some (.danglingQuote place)

def parse (fault : Option ReadError) : List Frame → List Located → Reading
  | stack, [] => ⟨[], fault <|> unfinished stack⟩
  | stack, t :: ts =>
    match step stack t with
    | .ok (forms, stack) =>
      let rest := parse fault stack ts
      { rest with forms := forms ++ rest.forms }
    | .error fault => ⟨[], some fault⟩

end Reader

def readText (text : String) : Reading :=
  let ts := tokens text.toList
  Reader.parse ts.fault [] ts.items

-- Drops a first line that starts with `#!`, and keeps the end of that line.
def dropScriptLine (text : String) : String :=
  match text.toList with
  | '#' :: '!' :: cs => String.ofList (cs.dropWhile (· != '\n'))
  | _ => text

def readScript (text : String) : Reading :=
  readText (dropScriptLine text)

namespace Reading

def first (r : Reading) : Except ReadError Datum :=
  match r.forms with
  | d :: _ => .ok d
  | [] => .error (r.fault.getD .empty)

def all (r : Reading) : Except ReadError (List Datum) :=
  match r.fault with
  | none => .ok r.forms
  | some fault => .error fault

def needsMore (r : Reading) : Bool :=
  r.fault.any (·.isUnfinished)

end Reading
end CellLisp
