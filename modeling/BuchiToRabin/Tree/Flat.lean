import BuchiToRabin.Forest.Arena
import BuchiToRabin.Tree.Basic
namespace BuchiToRabin

-- A tree as it is stored: slots whose kids are given by places, and the set of names in use. There is no
-- root when there are no slots.
structure FlatTree where
  slots : List (Slot Vertex)
  used : NatSet
deriving DecidableEq

namespace FlatTree

def dead : FlatTree := ⟨[],∅⟩

def store (x : Arena Vertex) (used : NatSet) : Except Arena.Error FlatTree := do
  return ⟨← x.finish,used⟩

def write (root : Option Node) (used : NatSet) : Except Arena.Error FlatTree := do
  let (_,x) ← Arena.plant (Tree.mk root used).forest ∅
  store x used

def ofRoot (r : Node) : Except Arena.Error FlatTree := write (some r) r.names

def initial (A : Automaton) : Except Arena.Error FlatTree := match (Tree.initial A).root with
  | none => .ok dead
  | some r => ofRoot r

def size (x : FlatTree) : Nat := x.slots.length

def node? (x : FlatTree) (k : Nat) : Option Node := match x.slots[k]? with
  | none => none
  | some s => some ⟨s.data,Layout.forestAt x.slots x.size s.kids⟩

def root? (x : FlatTree) : Option Node := x.node? 0

def tree (x : FlatTree) : Tree := ⟨x.root?,x.used⟩

def nodes (x : FlatTree) : List Node := (List.range x.size).filterMap x.node?

def subtree (x : FlatTree) (k : Nat) : List Nat := Layout.subtree x.slots k

def render (x : FlatTree) : String := match x.slots with
  | [] => "\x7b\x7d"
  | s :: _ => s.data.render (Layout.foldAt Vertex.render x.slots x.size s.kids)

-- Only the slots are compared; the names in use are bookkeeping.
instance : BEq FlatTree := ⟨fun x y => x.slots == y.slots⟩

instance : Fingerprint FlatTree := ⟨fun x => (Layout.sweep Vertex.digest 0 x.slots).headD 0⟩

end FlatTree
end BuchiToRabin
