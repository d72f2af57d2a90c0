import BuchiToRabin.Automaton.Basic
import BuchiToRabin.Text.Lines
namespace BuchiToRabin.Automaton.Reader
open Text

inductive Quantity where
  | stateCount | alphabetSize | edgeCount | state | symbol
deriving DecidableEq

def Quantity.word : Quantity → String
  | .stateCount => "state count"
  | .alphabetSize => "alphabet size"
  | .edgeCount => "transition count"
  | .state => "state"
  | .symbol => "symbol"

inductive Fault where
  | expected (what : Quantity) (found : List Char)
  | outside (what : Quantity) (index bound : Nat)
  | fewFields (found : Nat)
  | noHeader
  | headerCut
  | edgesCut (missing : Nat)
  | oversized
deriving DecidableEq

def header : String := "BUECHI"

def Fault.message : Fault → String
  | .expected what found => "expected " ++ what.word ++ ", found '" ++ String.ofList found ++ "'"
  | .outside what i bound => what.word ++ " " ++ i.repr ++ " is outside 1..=" ++ bound.repr
  | .fewFields found => "transition needs 5 fields, found " ++ found.repr
  | .noHeader => "missing '" ++ header ++ "' header"
  | .headerCut => "unexpected end of input in the header"
  | .edgesCut missing => "unexpected end of input, " ++ missing.repr ++ " transitions missing"
  | .oversized => Machine.Panic.capacity.message

inductive Error where
  | noFile
  | notText
  | malformed (line : Nat) (fault : Fault)
  | rejected (e : Automaton.Error)
  | panic (p : Machine.Panic)
deriving DecidableEq

def Error.message : Error → String
  | .noFile => "I/O error: No such file or directory (os error 2)"
  | .notText => "I/O error: stream did not contain valid UTF-8"
  | .malformed line fault => "Parse error at line " ++ line.repr ++ ": " ++ fault.message
  | .rejected e => e.message
  | .panic p => p.message

-- A count that is too large is no fault of the text: no line is named.
def Fault.error (line : Nat) : Fault → Error
  | .oversized => .panic .capacity
  | fault => .malformed line fault

def number (what : Quantity) (token : List Char) : Except Fault Nat :=
  match numeral? token with
  | some n => .ok n
  | none => .error (.expected what token)

-- Written indices count from 1.
def index (what : Quantity) (bound : Nat) (token : List Char) : Except Fault Nat :=
  match number what token with
  | .error f => .error f
  | .ok i => if 1 ≤ i ∧ i ≤ bound then .ok i else .error (.outside what i bound)

-- Room for the edges, of 24 bytes each, is asked for at once.
def edgeTotal (token : List Char) : Except Fault Nat :=
  match number .edgeCount token with
  | .error f => .error f
  | .ok count => if Machine.Fits 24 count then .ok count else .error .oversized

def stateIndex (n : Nat) (token : List Char) : Except Fault Nat := (· - 1) <$> index .state n token

def states (n : Nat) (text : List Char) : Except Fault NatSet :=
  .ofList <$> (fields text).mapM (stateIndex n)

-- Only the first, third and fifth field count; they are read in the order source, symbol, target.
def edge (n k : Nat) (text : List Char) : Except Fault Edge :=
  match fields text with
  | source :: _ :: symbol :: _ :: target :: _ => do
    let source ← stateIndex n source
    let symbol ← index .symbol k symbol
    let target ← stateIndex n target
    return ⟨source,symbol,target⟩
  | short => .error (.fewFields short.length)

-- What has been read so far. Edges are held with the latest first.
inductive Stage where
  | preamble
  | stateCount
  | alphabetSize (n : Nat)
  | edgeCount (n k : Nat)
  | edges (n k missing : Nat) (read : List Edge)
  | initial (n k : Nat) (read : List Edge)
  | finals (n k : Nat) (read : List Edge) (start : NatSet)
  | done (n k : Nat) (read : List Edge) (start ends : NatSet)

def Stage.skipsBlank : Stage → Bool
  | .stateCount | .alphabetSize _ | .edgeCount _ _ | .edges .. => true
  | _ => false

-- With no edge left to read, the line of initial states comes next.
def Stage.afterEdges (n k : Nat) (read : List Edge) : Nat → Stage
  | 0 => .initial n k read
  | missing => .edges n k missing read

def Stage.take (text : List Char) : Stage → Except Fault Stage
  | .preamble => .ok (if text = header.toList then .stateCount else .preamble)
  | .stateCount => .alphabetSize <$> number .stateCount text
  | .alphabetSize n => .edgeCount n <$> number .alphabetSize text
  | .edgeCount n k => afterEdges n k [] <$> edgeTotal text
  | .edges n k missing read => do return afterEdges n k ((← edge n k text) :: read) (missing - 1)
  | .initial n k read => .finals n k read <$> states n text
  | .finals n k read start => .done n k read start <$> states n text
  | .done n k read start ends => .ok (.done n k read start ends)

-- Comments count nowhere but in the preamble, where no line but the header matters anyway.
def Stage.skips (text : List Char) : Stage → Bool
  | .preamble => false
  | s => text.head? = some '#' || text.isEmpty && s.skipsBlank

def Stage.feed (s : Stage) (line : List Char) : Except Fault Stage :=
  let text := trim line
  if s.skips text then .ok s else s.take text

def Stage.isDone : Stage → Bool
  | .done .. => true
  | _ => false

def assemble (n k : Nat) (read : List Edge) (start ends : NatSet) : Except Error Automaton :=
  match build n start ends k read.reverse with
  | .ok A => .ok A
  | .error e => .error (.rejected e)

-- The answer when reading stops after `count` lines. Missing lines of states mean empty sets.
def Stage.finish (count : Nat) : Stage → Except Error Automaton
  | .preamble => .error (.malformed count .noHeader)
  | .stateCount | .alphabetSize _ | .edgeCount _ _ => .error (.malformed count .headerCut)
  | .edges _ _ missing _ => .error (.malformed count (.edgesCut missing))
  | .initial n k read => assemble n k read ∅ ∅
  | .finals n k read start => assemble n k read start ∅
  | .done n k read start ends => assemble n k read start ends

-- `none` is a line that is not text. It is an error only if reading gets there.
def readFrom (s : Stage) (count : Nat) : List (Option (List Char)) → Except Error Automaton
  | [] => s.finish count
  | none :: _ => .error .notText
  | some line :: rest =>
    match s.feed line with
    | .error f => .error (f.error (count + 1))
    | .ok next => if next.isDone then next.finish (count + 1) else readFrom next (count + 1) rest

def readLines (ls : List (Option (List Char))) : Except Error Automaton := readFrom .preamble 0 ls

def readBytes (bytes : List UInt8) : Except Error Automaton := readLines ((lines 10 bytes).map decode)

def readText (text : String) : Except Error Automaton := readLines ((lines '\n' text.toList).map some)

end BuchiToRabin.Automaton.Reader
