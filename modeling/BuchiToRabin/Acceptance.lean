import BuchiToRabin.Tree.Basic
namespace BuchiToRabin

namespace Tree

def inRight (t : Tree) (q : Nat) : Bool := t.vertices.any fun v => v.marked && v.label.contains q

def inLeft (t : Tree) (q : Nat) : Bool := t.vertices.all fun v => !v.label.contains q

end Tree

-- The trees, by number, in which no node holds the Büchi state `index`, and those in which a marked
-- node does. Nothing is claimed here about the language that such pairs accept.
structure RabinPair where
  index : Nat
  left : NatSet
  right : NatSet
deriving DecidableEq

namespace RabinPair

def collect (q : Nat) (trees : List (Nat × Tree)) : RabinPair where
  index := q
  left := .ofList ((trees.filter (·.2.inLeft q)).map (·.1))
  right := .ofList ((trees.filter (·.2.inRight q)).map (·.1))

def render (p : RabinPair) : String :=
  "q" ++ p.index.repr ++ ": L = " ++ p.left.render ++ ", R = " ++ p.right.render

end RabinPair
end BuchiToRabin
