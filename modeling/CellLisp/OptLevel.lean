namespace CellLisp

inductive OptLevel
  | none
  | speed
  | speedAndSize
deriving DecidableEq, Repr

namespace OptLevel

def name : OptLevel → String
  | none => "none"
  | speed => "speed"
  | speedAndSize => "speed_and_size"

def spellings : OptLevel → List String
  | none => ["none", "0"]
  | speed => ["speed", "1"]
  | speedAndSize => ["speed_and_size", "speed-and-size", "2"]

def parse (text : String) : Except String OptLevel :=
  match [none, speed, speedAndSize].find? (·.spellings.contains text) with
  | some level => .ok level
  | Option.none => .error s!"unknown optimization level `{text}`"

end OptLevel
end CellLisp
