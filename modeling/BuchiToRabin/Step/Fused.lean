import BuchiToRabin.Tree.Basic
namespace BuchiToRabin.Step

-- `reserved`: names as if no node had been dropped in this step.
structure Pass where
  reserved : NatSet
  used : NatSet
  unseen : NatSet
deriving DecidableEq

def sproutWith (N : Naming ε) (A : Automaton) (target : NatSet) (p : Pass) : Except ε (Option Vertex × Pass) :=
  if target ∩ A.finals = ∅ then .ok (none,p)
  else do
    let (name,reserved) ← N.draw p.reserved
    let used ← N.enter name p.used
    return (some ⟨name,target ∩ A.finals,true⟩,{p with reserved,used})

def settle : Option Vertex → Pass → Forest Vertex × Pass
  | none,p => (.nil,p)
  | some v,p =>
    let label := v.label ∩ p.unseen
    if label = ∅ then (.nil,{p with used := p.used.erase v.name})
    else (.cons {v with label} .nil .nil,{p with unseen := p.unseen \ label})

def forget (v : Vertex) (fresh : Option Vertex) (p : Pass) : Pass :=
  let used := p.used.erase v.name
  {p with used := match fresh with
    | none => used
    | some w => used.erase w.name}

-- Everything below a dropped node goes too. It still takes the names of its new kids, so that names
-- given later do not depend on what is dropped.
def discardWith (N : Naming ε) (A : Automaton) (a : Nat) : Forest Vertex → Pass → Except ε Pass
  | .nil,p => .ok p
  | .cons v kids right,p => do
    let reserved ←
      if (A.post a v.label).intersects A.finals then Prod.snd <$> N.draw p.reserved
      else pure p.reserved
    let p ← discardWith N A a kids {p with reserved,used := p.used.erase v.name}
    discardWith N A a right p

def visitWith (N : Naming ε) (A : Automaton) (a : Nat) : Forest Vertex → Pass → Except ε (Forest Vertex × Pass)
  | .nil,p => .ok (.nil,p)
  | .cons v kids right,p => do
    let target := A.post a v.label
    let (fresh,p) ← sproutWith N A target p
    let label := target ∩ p.unseen
    if label = ∅ then
      let p ← discardWith N A a kids (forget v fresh p)
      visitWith N A a right p
    else
      let before := p.unseen.card
      let (old,p) ← visitWith N A a kids p
      let (new,p) := settle fresh p
      let kids := old ++ new
      let claimed := before - p.unseen.card
      let p := {p with unseen := p.unseen \ label}
      if claimed = label.card then
        let (right,p) ← visitWith N A a right {p with used := p.used \ kids.names}
        return (.cons ⟨v.name,label,true⟩ .nil right,p)
      else
        let (right,p) ← visitWith N A a right p
        return (.cons ⟨v.name,label,false⟩ kids right,p)

def fusedWith (N : Naming ε) (A : Automaton) (a : Nat) (t : Tree) : Except ε Tree :=
  match t.root with
  | none => .ok .dead
  | some r => do
    let (f,p) ← visitWith N A a r.forest ⟨t.used,t.used,.full A.stateCount⟩
    return .ofForest f p.used

def sprout (A : Automaton) : NatSet → Pass → Except Exhausted (Option Vertex × Pass) :=
  sproutWith (.plain A.nameCount) A

def discard (A : Automaton) (a : Nat) : Forest Vertex → Pass → Except Exhausted Pass :=
  discardWith (.plain A.nameCount) A a

def visit (A : Automaton) (a : Nat) : Forest Vertex → Pass → Except Exhausted (Forest Vertex × Pass) :=
  visitWith (.plain A.nameCount) A a

def fused (A : Automaton) (a : Nat) (t : Tree) : Except Exhausted Tree := fusedWith (.plain A.nameCount) A a t

end BuchiToRabin.Step
