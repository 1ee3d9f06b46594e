import CellLisp.OptLevel

namespace CellLisp.Console

inductive Setting
  | file
  | expr
  | level
  | storage
deriving DecidableEq, Repr

namespace Setting

def usage : Setting → String
  | file => "[FILE]"
  | expr => "--eval <EXPR>"
  | level => "--opt-level <LEVEL>"
  | storage => "--storage <DIR>"

def ofLong? (name : String) : Option Setting :=
  if name = "eval" then some expr
  else if name = "opt-level" then some level
  else if name = "storage" then some storage
  else none

def ofShort? (name : Char) : Option Setting :=
  if name = 'e' then some expr else none

end Setting

inductive UsageError
  | unexpected (arg : String) (isOption : Bool)
  | missing (setting : Setting)
  | repeated (setting : Setting)
  | unknownLevel (text reason : String)

namespace UsageError

def detail (program : String) : UsageError → String
  | unexpected arg isOption =>
    let tip := s!"\n\n  tip: to pass '{arg}' as a value, use '-- {arg}'"
    s!"unexpected argument '{arg}' found" ++ (if isOption then tip else "") ++ usage
  | missing setting => s!"a value is required for '{setting.usage}' but none was supplied"
  | repeated setting => s!"the argument '{setting.usage}' cannot be used multiple times" ++ usage
  | unknownLevel text reason => s!"invalid value '{text}' for '{Setting.level.usage}': {reason}"
where
  usage := s!"\n\nUsage: {program} [OPTIONS] [FILE]"

def message (program : String) (e : UsageError) : String :=
  "error: " ++ e.detail program ++ "\n\nFor more information, try '--help'.\n"

end UsageError

inductive Argument
  | plain (text : String)
  | option (setting : Setting)
  | assignment (setting : Setting) (value : String)
  | unknown (option : String)
  | endOfOptions

namespace Argument

def ofLong (name : String) (value : Option String) : Argument :=
  match Setting.ofLong? name, value with
  | some setting, some value => assignment setting value
  | some setting, none => option setting
  | none, _ => unknown ("--" ++ name)

-- The value of a short option follows its letter, with or without an equals sign.
def ofShort (name : Char) (rest : List Char) : Argument :=
  match Setting.ofShort? name, rest with
  | some setting, [] => option setting
  | some setting, '=' :: value => assignment setting (String.ofList value)
  | some setting, value => assignment setting (String.ofList value)
  | none, _ => unknown ("-" ++ name.toString)

def ofString (arg : String) : Argument :=
  match arg.toList with
  | ['-', '-'] => endOfOptions
  | '-' :: '-' :: cs =>
    let name := String.ofList (cs.takeWhile (· ≠ '='))
    match cs.dropWhile (· ≠ '=') with
    | [] => ofLong name none
    | _ :: value => ofLong name (some (String.ofList value))
  | '-' :: c :: cs => ofShort c cs
  | _ => plain arg

end Argument

structure Options where
  file : Option String := none
  expr : Option String := none
  level : Option OptLevel := none
  storage : Option String := none

namespace Options

-- Gives a setting its value. A path is never empty.
def set (o : Options) (setting : Setting) (value : String) : Except UsageError Options :=
  match setting with
  | .file =>
    if o.file.isSome then .error (.unexpected value false)
    else if value.isEmpty then .error (.missing .file)
    else .ok { o with file := some value }
  | .expr =>
    if o.expr.isSome then .error (.repeated .expr) else .ok { o with expr := some value }
  | .level =>
    if o.level.isSome then .error (.repeated .level)
    else
      match OptLevel.parse value with
      | .ok level => .ok { o with level := some level }
      | .error reason => .error (.unknownLevel value reason)
  | .storage =>
    if o.storage.isSome then .error (.repeated .storage)
    else if value.isEmpty then .error (.missing .storage)
    else .ok { o with storage := some value }

def parse (o : Options) : List String → Except UsageError Options
  | [] => .ok o
  | arg :: args =>
    match Argument.ofString arg with
    | .plain text => do (← o.set .file text).parse args
    | .assignment setting value => do (← o.set setting value).parse args
    | .unknown option => .error (.unexpected option true)
    | .endOfOptions => args.foldlM (·.set .file ·) o
    | .option setting =>
      match args with
      | [] => .error (.missing setting)
      | value :: args =>
        match Argument.ofString value with
        | .plain text => do (← o.set setting text).parse args
        | .unknown option => .error (.unexpected option true)
        | _ => .error (.missing setting)

end Options
end CellLisp.Console
