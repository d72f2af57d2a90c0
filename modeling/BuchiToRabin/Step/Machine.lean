import BuchiToRabin.NatSet.Block
import BuchiToRabin.Step.Method
namespace BuchiToRabin.Machine

-- A name is written with 32 bits, one more than its place: what is above them is cut off. The last place is
-- left with the number 0, which is no name.
def unnamed : Name := UInt32.size - 1

inductive Fault where
  | exhausted (e : Exhausted)
  | name (e : Name.Error)
  | panic (p : Panic)
deriving DecidableEq

def Fault.message : Fault → String
  | .exhausted e => e.message
  | .name e => e.message
  | .panic p => p.message

def nameCount (A : Automaton) : Nat := wrap (2 * A.stateCount)

def naming (limit : Nat) : Naming Fault where
  draw taken :=
    if taken.firstAbsent < limit then .ok (taken.firstAbsent % UInt32.size,taken.insert taken.firstAbsent)
    else .error (.exhausted ⟨limit,taken⟩)
  enter name used := if name = unnamed then .error (.name .zero) else .ok (used.insert name)

def fused (A : Automaton) (a : Nat) (t : Tree) : Except Fault Tree :=
  if t.root.isSome ∧ ¬ Block.Reserved A.stateCount then .error (.panic .index)
  else Step.fusedWith (naming (nameCount A)) A a t

-- A node without a name is noticed when it goes: what it took is then not in use any more.
def byRule (A : Automaton) (a : Nat) (t : Tree) : Except Fault Tree :=
  match t.root with
  | none => .ok .dead
  | some r => do
    let (f,named) ← Step.createWith (naming (nameCount A)) A (Step.update A a (Step.unmark r.forest)) t.used
    let (f,used) := Step.prune (Step.mergeAcross f ∅).1 named
    let (f,used) := Step.mergeUp f used
    if unnamed ∈ named \ (t.used ∪ used) then throw (.name .zero)
    return .ofForest f used

def step : Method → Automaton → Nat → Tree → Except Fault Tree
  | .fused => fused
  | .byRule => byRule

def runBy (A : Automaton) : Tree → List (Method × Nat) → Except Fault Tree
  | t,[] => .ok t
  | t,(m,a) :: w => do runBy A (← step m A a t) w

end BuchiToRabin.Machine
