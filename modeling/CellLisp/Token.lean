import CellLisp.Text.Position

namespace CellLisp

inductive Token
  | openParen
  | closeParen
  | quote
  | nil
  | symbol (name : String)
  | integer (value : Int64)
  | string (content : String)
deriving DecidableEq

structure Located where
  token : Token
  position : Position
deriving DecidableEq

end CellLisp
