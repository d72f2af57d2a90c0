import BuchiToRabin.Tree.Basic
namespace BuchiToRabin.Tree

inductive Flaw where
  | emptyLabel (name : Name)
  | repeated (name : Name)
  | escapes (kid parent : Name)
  | overlaps (kid : Name)
  | covered (name : Name)
  | stale (names used : NatSet)
deriving DecidableEq

def Flaw.message : Flaw → String
  | .emptyLabel name => "node " ++ name.number.repr ++ " has an empty label"
  | .repeated name => "name " ++ name.number.repr ++ " is used twice"
  | .escapes kid parent => "child " ++ kid.number.repr ++ " escapes parent " ++ parent.number.repr
  | .overlaps kid => "child " ++ kid.number.repr ++ " overlaps a left sibling"
  | .covered name => "node " ++ name.number.repr ++ " is covered by its children"
  | .stale names used => "names " ++ names.render ++ " differ from used names " ++ used.render

-- Labels of siblings, from left to right; `below` joins the labels further left.
def checkKids (parent : Vertex) (below : NatSet) : Forest Vertex → Except Flaw NatSet
  | .nil => .ok below
  | .cons v _ right =>
    if ¬ v.label ⊆ parent.label then .error (.escapes v.name parent.name)
    else if v.label.intersects below then .error (.overlaps v.name)
    else checkKids parent (below ∪ v.label) right

-- A node and the labels of its kids. `names` holds the names met before it.
def checkVertex (v : Vertex) (kids : Forest Vertex) (names : NatSet) : Except Flaw NatSet := do
  if v.label = ∅ then throw (.emptyLabel v.name)
  if v.name ∈ names then throw (.repeated v.name)
  let below ← checkKids v ∅ kids
  if ¬ kids.isEmpty ∧ below = v.label then throw (.covered v.name)
  return names.insert v.name

def checkForest : Forest Vertex → NatSet → Except Flaw NatSet
  | .nil,names => .ok names
  | .cons v kids right,names => do
    let names ← checkVertex v kids names
    let names ← checkForest kids names
    checkForest right names

-- The first flaw in pre-order; names in use are compared last.
def check (t : Tree) : Except Flaw Unit := do
  let names ← checkForest t.forest ∅
  if names ≠ t.used then throw (.stale names t.used)

end BuchiToRabin.Tree
