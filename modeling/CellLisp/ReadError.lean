import CellLisp.Text.Position

namespace CellLisp

inductive ReadError
  | unexpectedClose (place : Position)
  | unterminatedList (opened : Position)
  | unterminatedString (opened : Position)
  | invalidInteger (text : String) (place : Position)
  | danglingQuote (place : Position)
  | empty
deriving DecidableEq, Repr

namespace ReadError

def message : ReadError → String
  | unexpectedClose p => s!"{p.text}: unexpected `)`"
  | unterminatedList p => s!"{p.text}: unterminated list"
  | unterminatedString p => s!"{p.text}: unterminated string"
  | invalidInteger text p => s!"{p.text}: invalid integer literal `{text}`"
  | danglingQuote p => s!"{p.text}: quote must be followed by an expression"
  | empty => "no input"

-- The text ended inside something that more text can finish.
def isUnfinished : ReadError → Bool
  | unterminatedList _ | unterminatedString _ => true
  | _ => false

end ReadError
end CellLisp
