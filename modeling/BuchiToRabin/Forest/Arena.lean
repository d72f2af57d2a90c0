import BuchiToRabin.Forest.Layout
namespace BuchiToRabin

-- The places that nodes are written to, one after the other. A place is reserved before the kids of its
-- node are written, and is vacant until the node is.
structure Arena (α : Type u) where
  cells : List (Option (Slot α))
deriving DecidableEq

namespace Arena

inductive Error where
  | early (k : Nat)
  | misplaced
deriving DecidableEq

instance : EmptyCollection (Arena α) := ⟨⟨[]⟩⟩

def size (x : Arena α) : Nat := x.cells.length

def reserve (x : Arena α) : Nat × Arena α := (x.size,⟨x.cells ++ [none]⟩)

-- No kid stands before its node.
def fill (k : Nat) (s : Slot α) (x : Arena α) : Except Error (Arena α) :=
  if s.kids.all (k < ·) then .ok ⟨x.cells.set k (some s)⟩ else .error (.early k)

def cut (k : Nat) (x : Arena α) : List (Slot α) × Arena α :=
  ((x.cells.drop (k + 1)).filterMap id,⟨x.cells.take (k + 1)⟩)

def plant : Forest α → Arena α → Except Error (List Nat × Arena α)
  | .nil,x => .ok ([],x)
  | .cons a kids right,x => do
    let (k,x) := x.reserve
    let (below,x) ← plant kids x
    let x ← x.fill k ⟨a,below⟩
    let (beside,x) ← plant right x
    return (k :: beside,x)

end Arena

namespace Layout

def inOrder (expected : Nat) : List Nat → List (Option (Slot α)) → Bool
  | [],[] => true
  | k :: stack,some s :: later => k == expected && inOrder (expected + 1) (s.kids ++ stack) later
  | _,_ => false

def foldAt (f : α → List β → β) (slots : List (Slot α)) : Nat → List Nat → List β
  | 0,_ => []
  | depth+1,ks => ks.filterMap fun k => slots[k]?.map fun s => f s.data (foldAt f slots depth s.kids)

end Layout

namespace Arena

def inOrder (x : Arena α) : Bool := Layout.inOrder 0 (if x.cells.isEmpty then [] else [0]) x.cells

def finish (x : Arena α) : Except Error (List (Slot α)) :=
  if x.inOrder then .ok (x.cells.filterMap id) else .error .misplaced

end Arena
end BuchiToRabin
