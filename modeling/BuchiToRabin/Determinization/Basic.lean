import BuchiToRabin.Acceptance
import BuchiToRabin.Determinization.Checked
namespace BuchiToRabin

-- The deterministic automaton: states are the indices of its trees, counted from 1, and `rows` gives
-- the successors of each state in symbol order.
structure Determinization where
  buchiStates : Nat
  alphabetSize : Nat
  store : Store Tree
  rows : Array (List Nat)

namespace Determinization

def putAll (store : Store Tree) : List Tree → Except Failure (List (Nat × Bool) × Store Tree)
  | [] => .ok ([],store)
  | t :: ts => match store.put t with
    | (.error _,_) => .error .full
    | (.ok place,store) => do
      let (places,store) ← putAll store ts
      return (place :: places,store)

def discovered (places : List (Nat × Bool)) : List Nat := (places.filter (·.2)).map (·.1)

-- The row of one tree, with the trees discovered on the way. Room for all its successors, of 56 bytes each, is
-- asked for first, and all are computed before any is stored.
def expandWith (take : Tree → Nat → Except Failure Tree) (A : Automaton) (d : Determinization) (t : Tree) :
    Except Failure (List Nat × Determinization) := do
  if ¬ Machine.Fits 56 A.alphabetSize then throw (.panic .capacity)
  let ts ← A.symbols.mapM (take t)
  let ⟨buchiStates,alphabetSize,store,rows⟩ := d
  let (places,store) ← putAll store ts
  return (discovered places,⟨buchiStates,alphabetSize,store,rows.push (places.map (·.1))⟩)

def exploreWith (take : Tree → Nat → Except Failure Tree) (A : Automaton) :
    Nat → List Nat → Determinization → Except Failure Determinization
  | 0,_,d => .ok d
  | _+1,[],d => .ok d
  | turns+1,i :: queue,d =>
    if i ≠ d.rows.size + 1 then .error .order
    else match d.store.value i with
      | .error e => .error (.lookup e)
      | .ok t => do
        let (new,d) ← expandWith take A d t
        exploreWith take A turns (queue ++ new) d

def within (take : Tree → Nat → Except Failure Tree) (turns : Nat) (A : Automaton) (s : Settings) :
    Except Failure Determinization := do
  let (places,store) ← putAll (.empty s.storage) [.initial A]
  exploreWith take A turns (places.map (·.1)) ⟨A.stateCount,A.alphabetSize,store,#[]⟩

def expand (s : Settings) (A : Automaton) : Determinization → Tree → Except Failure (List Nat × Determinization) :=
  expandWith (checkedStep s A) A

def explore (s : Settings) (A : Automaton) : Nat → List Nat → Determinization → Except Failure Determinization :=
  exploreWith (checkedStep s A) A

def exploreWithin (turns : Nat) (A : Automaton) (s : Settings) : Except Failure Determinization :=
  within (checkedStep s A) turns A s

-- Each turn adds a row and rows never outnumber trees, so turns as many as the store has room for empty the
-- queue.
def ofAutomaton (A : Automaton) (s : Settings) : Except Failure Determinization :=
  exploreWithin s.storage.capacity A s

def size (d : Determinization) : Nat := d.store.count

def initial : Nat := 1

def states (d : Determinization) : List Nat := (List.range d.size).map (· + 1)

inductive Error where
  | stateZero
  | noState
  | noSymbol (a alphabetSize : Nat)
deriving DecidableEq

def Error.message : Error → String
  | .stateZero => "State ids are 1-based"
  | .noState => "No state has this number"
  | .noSymbol a k => "Symbol " ++ a.repr ++ " is outside 1..=" ++ k.repr

def tree (d : Determinization) (i : Nat) : Except Error Tree :=
  match d.store.value i with
  | .ok t => .ok t
  | .error .indexZero => .error .stateZero
  | .error _ => .error .noState

def successor (d : Determinization) (i a : Nat) : Except Error Nat :=
  if i = 0 then .error .stateZero
  else if ¬ (1 ≤ a ∧ a ≤ d.alphabetSize) then .error (.noSymbol a d.alphabetSize)
  else match d.rows[i - 1]? >>= (·[a - 1]?) with
    | some j => .ok j
    | none => .error .noState

def follow (d : Determinization) : Nat → List Nat → Except Error Nat
  | i,[] => .ok i
  | i,a :: w => do follow d (← d.successor i a) w

def find (d : Determinization) (t : Tree) : Option Nat := d.store.find t

def isDead (d : Determinization) (i : Nat) : Except Error Bool := Tree.isDead <$> d.tree i

def inLeft (d : Determinization) (i q : Nat) : Except Error Bool := (·.inLeft q) <$> d.tree i

def inRight (d : Determinization) (i q : Nat) : Except Error Bool := (·.inRight q) <$> d.tree i

def rabinPairs (d : Determinization) : List RabinPair :=
  (List.range d.buchiStates).map fun q => .collect q d.store.entries

end Determinization

namespace Machine

def exploreWithin (turns : Nat) (A : Automaton) (s : Settings) : Except Determinization.Failure Determinization :=
  Determinization.within (checkedStep s A) turns A s

def determinize (A : Automaton) (s : Settings) : Except Determinization.Failure Determinization :=
  exploreWithin s.storage.capacity A s

end Machine
end BuchiToRabin
