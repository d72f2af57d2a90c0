import BuchiToRabin.Step.ByRule
import BuchiToRabin.Step.Fused
namespace BuchiToRabin

inductive Method where
  | fused
  | byRule
deriving DecidableEq

namespace Method

instance : Inhabited Method := ⟨.fused⟩

def other : Method → Method
  | .fused => .byRule
  | .byRule => .fused

def render : Method → String
  | .fused => "single"
  | .byRule => "multi"

inductive Error where
  | unknown (name : String)
deriving DecidableEq

def Error.message : Error → String
  | .unknown name => "unknown engine '" ++ name ++ "', expected 'single' or 'multi'"

def parse (name : String) : Except Error Method :=
  if name = "single" ∨ name = "single-pass" then .ok .fused
  else if name = "multi" ∨ name = "multi-pass" then .ok .byRule
  else .error (.unknown name)

def step : Method → Automaton → Nat → Tree → Except Exhausted Tree
  | .fused => Step.fused
  | .byRule => Step.byRule

def run (m : Method) (A : Automaton) : Tree → List Nat → Except Exhausted Tree
  | t,[] => .ok t
  | t,a :: w => do run m A (← m.step A a t) w

end Method
end BuchiToRabin
