import BuchiToRabin.Tree.Basic
namespace BuchiToRabin.Step

def unmark (f : Forest Vertex) : Forest Vertex := f.map fun v => {v with marked := false}

def update (A : Automaton) (a : Nat) (f : Forest Vertex) : Forest Vertex :=
  f.map fun v => {v with label := A.post a v.label}

-- A node whose label meets the final states gets a marked last kid. A node names its kid before any
-- node below it does.
def createWith (N : Naming ε) (A : Automaton) : Forest Vertex → NatSet → Except ε (Forest Vertex × NatSet)
  | .nil,used => .ok (.nil,used)
  | .cons v kids right,used => do
    let fresh := v.label ∩ A.finals
    let (new,used) ←
      if fresh = ∅ then pure (Forest.nil,used)
      else do
        let (name,used) ← N.draw used
        pure (Forest.cons ⟨name,fresh,true⟩ .nil .nil,used)
    let (kids,used) ← createWith N A kids used
    let (right,used) ← createWith N A right used
    return (.cons v (kids ++ new) right,used)

def create (A : Automaton) : Forest Vertex → NatSet → Except Exhausted (Forest Vertex × NatSet) :=
  createWith (.plain A.nameCount) A

-- A node loses the states that nodes to its left hold. `seen` takes in a label after the subtree.
def mergeAcross : Forest Vertex → NatSet → Forest Vertex × NatSet
  | .nil,seen => (.nil,seen)
  | .cons v kids right,seen =>
    let below := mergeAcross kids seen
    let rest := mergeAcross right (below.2 ∪ v.label)
    (.cons {v with label := v.label \ seen} below.1 rest.1,rest.2)

def prune : Forest Vertex → NatSet → Forest Vertex × NatSet
  | .nil,used => (.nil,used)
  | .cons v kids right,used =>
    if v.label = ∅ then prune right (used \ (Node.mk v kids).names)
    else
      let below := prune kids used
      let rest := prune right below.2
      (.cons v below.1 rest.1,rest.2)

-- A node whose states are all held below it drops its kids and is marked.
def mergeUp : Forest Vertex → NatSet → Forest Vertex × NatSet
  | .nil,used => (.nil,used)
  | .cons v kids right,used =>
    if kids.states = v.label then
      let rest := mergeUp right (used \ kids.names)
      (.cons {v with marked := true} .nil rest.1,rest.2)
    else
      let below := mergeUp kids used
      let rest := mergeUp right below.2
      (.cons v below.1 rest.1,rest.2)

def byRule (A : Automaton) (a : Nat) (t : Tree) : Except Exhausted Tree :=
  match t.root with
  | none => .ok .dead
  | some r => do
    let (f,used) ← create A (update A a (unmark r.forest)) t.used
    let (f,used) := prune (mergeAcross f ∅).1 used
    let (f,used) := mergeUp f used
    return .ofForest f used

end BuchiToRabin.Step
