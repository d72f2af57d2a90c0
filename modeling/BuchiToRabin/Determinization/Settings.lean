import BuchiToRabin.Step.Method
import BuchiToRabin.Store.Basic
namespace BuchiToRabin

structure Settings where
  storage : StorageBits := default
  method : Method := default
  -- Compute every step by the other method too, and compare.
  crossCheck : Bool := false
deriving DecidableEq

namespace Settings

inductive Error where
  | method (e : Method.Error)
  | storage (e : StorageBits.Error)
deriving DecidableEq

def withMethod (s : Settings) (name : String) : Except Error Settings :=
  match Method.parse name with
  | .ok method => .ok {s with method}
  | .error e => .error (.method e)

def withStorage (s : Settings) (bits : Nat) : Except Error Settings :=
  match StorageBits.ofNat bits with
  | .ok storage => .ok {s with storage}
  | .error e => .error (.storage e)

-- The method is looked at before the storage; what is not given keeps its default.
def ofOptions (method : Option String) (crossCheck : Option Bool) (bits : Option Nat) :
    Except Error Settings := do
  let s : Settings := {}
  let s ← match method with
    | some name => s.withMethod name
    | none => pure s
  let s := {s with crossCheck := crossCheck.getD s.crossCheck}
  match bits with
  | some n => s.withStorage n
  | none => pure s

end Settings
end BuchiToRabin
