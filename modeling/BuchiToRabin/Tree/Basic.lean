import BuchiToRabin.Automaton.Basic
import BuchiToRabin.Forest.Layout
import BuchiToRabin.NatSet.Words
namespace BuchiToRabin

-- Names count from 0, so that a set of names is a set of naturals. A written name is one more.
abbrev Name := Nat

namespace Name

def number (name : Name) : Nat := name + 1

inductive Error where
  | zero
deriving DecidableEq

def Error.message : Error → String
  | .zero => "Names are 1-based"

def ofNumber : Nat → Except Error Name
  | 0 => .error .zero
  | n+1 => .ok n

end Name

structure Exhausted where
  limit : Nat
  taken : NatSet
deriving DecidableEq

def Exhausted.message (e : Exhausted) : String :=
  "Name universe of size " ++ e.limit.repr ++ " is exhausted: " ++ e.taken.render

def Name.allocate (limit : Nat) (taken : NatSet) : Except Exhausted (Name × NatSet) :=
  if taken.firstAbsent < limit then .ok (taken.firstAbsent,taken.insert taken.firstAbsent)
  else .error ⟨limit,taken⟩

-- Where a step has its names from: one that is not taken is drawn, and entered among those in use.
structure Naming (ε : Type) where
  draw : NatSet → Except ε (Name × NatSet)
  enter : Name → NatSet → Except ε NatSet

def Naming.plain (limit : Nat) : Naming Exhausted := ⟨Name.allocate limit,fun name used => .ok (used.insert name)⟩

structure Vertex where
  name : Name
  label : NatSet
  marked : Bool
deriving DecidableEq

namespace Vertex

def render (v : Vertex) (kids : List String) : String :=
  "\x7b" ++ v.name.number.repr ++ "," ++ v.label.render ++ "," ++ (if v.marked then "true" else "false") ++
    ",\x7b" ++ ",".intercalate kids ++ "\x7d\x7d"

def digest (v : Vertex) (kids : List UInt64) : UInt64 :=
  Fingerprint.mixAll (fingerprint (v.name.number.toUInt64,v.marked.toUInt64,fingerprint v.label)) kids

end Vertex

namespace Forest

def names : Forest Vertex → NatSet
  | .nil => ∅
  | .cons v kids right => (kids.names ∪ right.names).insert v.name

def states : Forest Vertex → NatSet
  | .nil => ∅
  | .cons v kids right => v.label ∪ (kids.states ∪ right.states)

end Forest

structure Node where
  top : Vertex
  kids : Forest Vertex
deriving DecidableEq

namespace Node

def leaf (v : Vertex) : Node := ⟨v,.nil⟩

def forest (r : Node) : Forest Vertex := .cons r.top r.kids .nil

def size (r : Node) : Nat := r.forest.size

def names (r : Node) : NatSet := r.forest.names

def statesBelow (r : Node) : NatSet := r.kids.states

def render (r : Node) : String := r.top.render (r.kids.fold Vertex.render)

instance : Fingerprint Node := ⟨fun r => r.top.digest (r.kids.fold Vertex.digest)⟩

end Node

-- A state of the determinized automaton: at most one root, and the set of names in use. The tree
-- without a root is the dead state.
structure Tree where
  root : Option Node
  used : NatSet
deriving DecidableEq

namespace Tree

def dead : Tree := ⟨none,∅⟩
instance : Inhabited Tree := ⟨dead⟩

def ofRoot (r : Node) : Tree := ⟨some r,r.names⟩

-- The tree before the first symbol. The root holds the initial states and is marked if one of them
-- is final; final ones among others get a node of their own below it.
def initial (A : Automaton) : Tree :=
  let overlap := A.initial ∩ A.finals
  if A.initial = ∅ then dead
  else if overlap = ∅ then ofRoot (.leaf ⟨0,A.initial,false⟩)
  else if overlap = A.initial then ofRoot (.leaf ⟨0,A.initial,true⟩)
  else ofRoot ⟨⟨0,A.initial,true⟩,.cons ⟨1,overlap,false⟩ .nil .nil⟩

def isDead (t : Tree) : Bool := t.root.isNone

def forest (t : Tree) : Forest Vertex := match t.root with
  | none => .nil
  | some r => r.forest

-- The tree at the front of a forest becomes the root.
def ofForest (f : Forest Vertex) (used : NatSet) : Tree := match f with
  | .nil => ⟨none,used⟩
  | .cons v kids _ => ⟨some ⟨v,kids⟩,used⟩

def vertices (t : Tree) : List Vertex := t.forest.preorder

def size (t : Tree) : Nat := t.forest.size

def names (t : Tree) : NatSet := t.forest.names

def slots (t : Tree) : List (Slot Vertex) := t.forest.layout 0

def node? (t : Tree) (k : Nat) : Option Node := match t.slots[k]? with
  | none => none
  | some s => some ⟨s.data,Layout.forestAt t.slots t.slots.length s.kids⟩

inductive Error where
  | noNode (k : Nat)
deriving DecidableEq

def Error.message : Error → String
  | .noNode k => "Node NodeId(" ++ k.repr ++ ") is not in the tree"

def node (t : Tree) (k : Nat) : Except Error Node := match t.node? k with
  | none => .error (.noNode k)
  | some r => .ok r

def render (t : Tree) : String := match t.root with
  | none => "\x7b\x7d"
  | some r => r.render

-- Trees are compared by their nodes; the names in use are bookkeeping.
instance : BEq Tree := ⟨fun s t => s.root == t.root⟩

-- Swept over the layout; 0 without a root.
instance : Fingerprint Tree := ⟨fun t => (Layout.sweep Vertex.digest 0 t.slots).headD 0⟩

end Tree
end BuchiToRabin
