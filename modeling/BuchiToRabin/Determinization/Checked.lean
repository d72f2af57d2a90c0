import BuchiToRabin.Determinization.Settings
import BuchiToRabin.Step.Machine
namespace BuchiToRabin.Determinization

-- Why no deterministic automaton comes out: no room for a tree, one expanded out of turn or not to be found, a
-- step that fails. The last two name the method in charge, the tree and the symbol over which the methods differ.
inductive Failure where
  | full
  | order
  | lookup (e : Store.Error)
  | step (f : Machine.Fault)
  | panic (p : Machine.Panic)
  | trees (m : Method) (t : Tree) (symbol : Nat)
  | usedNames (m : Method) (t : Tree) (symbol : Nat)
deriving DecidableEq

def Failure.message : Failure → String
  | .full => Store.Error.full.message
  | .order => "States are expanded in id order"
  | .lookup e => e.message
  | .step f => f.message
  | .panic p => p.message
  | .trees m t a => "Engines " ++ m.render ++ " and " ++ m.other.render ++ " disagree on " ++ t.render ++
      " under symbol " ++ a.repr
  | .usedNames m t a => "Engines " ++ m.render ++ " and " ++ m.other.render ++
      " disagree on the used names of " ++ t.render ++ " under symbol " ++ a.repr

def stepBy (m : Method) (A : Automaton) (t : Tree) (a : Nat) : Except Failure Tree :=
  match m.step A a t with
  | .ok u => .ok u
  | .error e => .error (.step (.exhausted e))

-- A step by the chosen method, held against the other one where the settings ask for it: trees first,
-- then names in use.
def checkedWith (take : Method → Tree → Nat → Except Failure Tree) (s : Settings) (t : Tree) (a : Nat) :
    Except Failure Tree := do
  let u ← take s.method t a
  if s.crossCheck then
    let v ← take s.method.other t a
    if u.root ≠ v.root then throw (.trees s.method t a)
    if u.used ≠ v.used then throw (.usedNames s.method t a)
  return u

def checkedStep (s : Settings) (A : Automaton) : Tree → Nat → Except Failure Tree :=
  checkedWith (fun m => stepBy m A) s

end BuchiToRabin.Determinization

namespace BuchiToRabin.Machine
open Determinization

def stepBy (m : Method) (A : Automaton) (t : Tree) (a : Nat) : Except Failure Tree :=
  match step m A a t with
  | .ok u => .ok u
  | .error f => .error (.step f)

def checkedStep (s : Settings) (A : Automaton) : Tree → Nat → Except Failure Tree :=
  checkedWith (fun m => stepBy m A) s

end BuchiToRabin.Machine
