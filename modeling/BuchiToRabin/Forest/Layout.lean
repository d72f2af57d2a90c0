import BuchiToRabin.Forest.Basic
namespace BuchiToRabin

structure Slot (α : Type u) where
  data : α
  kids : List Nat
deriving DecidableEq

namespace Forest

def rootPlaces (start : Nat) : Forest α → List Nat
  | .nil => []
  | .cons _ kids right => start :: rootPlaces (start + 1 + kids.size) right

def layout (start : Nat) : Forest α → List (Slot α)
  | .nil => []
  | .cons a kids right =>
    ⟨a,rootPlaces (start + 1) kids⟩ :: (layout (start + 1) kids ++ layout (start + 1 + kids.size) right)

end Forest

namespace Layout

-- One value a slot, from the last slot to the first: kids stand later, so their values are there.
-- `start` is the place of the first slot listed.
def sweep [Inhabited β] (f : α → List β → β) (start : Nat) : List (Slot α) → List β
  | [] => []
  | s :: later =>
    let values := sweep f (start + 1) later
    f s.data (s.kids.map fun k => values.getD (k - (start + 1)) default) :: values

-- Follows kids from the places on a stack, each node before its kids. The fuel bounds the visits.
def walk (slots : List (Slot α)) : Nat → List Nat → List Nat
  | 0,_ => []
  | _,[] => []
  | fuel+1,k :: stack =>
    match slots[k]? with
    | none => walk slots fuel stack
    | some s => k :: walk slots fuel (s.kids ++ stack)

def subtree (slots : List (Slot α)) (k : Nat) : List Nat := walk slots slots.length [k]

def forestAt (slots : List (Slot α)) : Nat → List Nat → Forest α
  | 0,_ => .nil
  | depth+1,ks => ks.foldr (fun k right => match slots[k]? with
    | none => right
    | some s => .cons s.data (forestAt slots depth s.kids) right) .nil

end Layout
end BuchiToRabin
