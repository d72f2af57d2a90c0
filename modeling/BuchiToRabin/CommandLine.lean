import BuchiToRabin.Automaton.Reader
import BuchiToRabin.Determinization.Dot
namespace BuchiToRabin.CommandLine

structure Options where
  source : Option String := none
  settings : Settings := {}
  dot : Option String := none
  style : DotStyle := {}
  pairs : Bool := false
deriving DecidableEq

inductive Error where
  | noSource
  | noArgument (option : String)
  | noNumber (text : String)
  | unexpected (argument : String)
  | settings (e : Settings.Error)
deriving DecidableEq

def usage : String :=
  "usage: FILE [--engine single|multi] [--storage-bits INT] [--cross-check] [--dot FILE] [--show-trees] [--pairs]"

def Error.message : Error → String
  | .noSource => usage
  | .noArgument option => option ++ " needs an argument"
  | .noNumber text => "not a number: " ++ text
  | .unexpected argument => "unexpected argument: " ++ argument
  | .settings (.method e) => e.message
  | .settings (.storage e) => e.message

def withSettings (o : Options) (s : Except Settings.Error Settings) : Except Error Options :=
  match s with
  | .ok settings => .ok {o with settings}
  | .error e => .error (.settings e)

-- Options come in any order, and a later one takes the place of an earlier one.
def parseFrom (o : Options) : List String → Except Error Options
  | [] => .ok o
  | "--engine" :: name :: rest => do parseFrom (← withSettings o (o.settings.withMethod name)) rest
  | "--storage-bits" :: bits :: rest => match Text.numeral? bits.toList with
    | none => .error (.noNumber bits)
    | some n => do parseFrom (← withSettings o (o.settings.withStorage n)) rest
  | "--dot" :: path :: rest => parseFrom {o with dot := some path} rest
  | "--cross-check" :: rest => parseFrom {o with settings.crossCheck := true} rest
  | "--show-trees" :: rest => parseFrom {o with style.showTrees := true} rest
  | "--pairs" :: rest => parseFrom {o with pairs := true} rest
  | word :: rest =>
    if word = "--engine" ∨ word = "--storage-bits" ∨ word = "--dot" then .error (.noArgument word)
    else if word.startsWith "-" ∨ o.source.isSome then .error (.unexpected word)
    else parseFrom {o with source := some word} rest

def parse (words : List String) : Except Error (String × Options) := do
  let o ← parseFrom {} words
  match o.source with
  | none => throw .noSource
  | some path => return (path,o)

def automatonLine (A : Automaton) : String :=
  "automaton: " ++ A.stateCount.repr ++ " states, " ++ A.alphabetSize.repr ++ " symbols, " ++
    A.transitions.edgeCount.repr ++ " transitions"

def resultLines (d : Determinization) (o : Options) : List String :=
  ("states: " ++ d.size.repr) :: if o.pairs then d.rabinPairs.map RabinPair.render else []

end BuchiToRabin.CommandLine
