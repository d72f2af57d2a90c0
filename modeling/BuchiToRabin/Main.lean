import BuchiToRabin.CommandLine
namespace BuchiToRabin.CommandLine

def fail (message : String) : IO UInt32 := do
  IO.eprintln message
  return 1

def readFile (path : String) : IO (Except Automaton.Reader.Error Automaton) := do
  try
    return Automaton.Reader.readBytes (← IO.FS.readBinFile path).toList
  catch
    | .noFileOrDirectory .. => return .error .noFile
    | e => throw e

def execute (words : List String) : IO UInt32 := do
  match parse words with
  | .error e => fail e.message
  | .ok (path,options) =>
    match (← readFile path) with
    | .error e => fail e.message
    | .ok A =>
      IO.println (automatonLine A)
      match Machine.determinize A options.settings with
      | .error e => fail e.message
      | .ok d =>
        for line in resultLines d options do
          IO.println line
        if let some target := options.dot then
          IO.FS.writeFile target (d.dot options.style)
          IO.println ("Wrote " ++ target)
        return 0

end BuchiToRabin.CommandLine

def main (words : List String) : IO UInt32 := BuchiToRabin.CommandLine.execute words
