import BuchiToRabin.Step.Method
import BuchiToRabin.Tree.Flat
namespace BuchiToRabin

inductive FlatTree.Error where
  | exhausted (e : Exhausted)
  | arena (e : Arena.Error)
deriving DecidableEq

namespace Step

-- The state of a traversal that writes what it builds to an arena.
structure Writing extends Pass where
  arena : Arena Vertex

def Writing.fill (k : Nat) (s : Slot Vertex) (w : Writing) : Except FlatTree.Error Writing := do
  let arena ← (w.arena.fill k s).mapError .arena
  return {w with arena}

-- A node loses its kids: all that was written after its place is cut off, and its names are free.
def Writing.collapse (k : Nat) (v : Vertex) (w : Writing) : Except FlatTree.Error Writing :=
  let (lost,arena) := w.arena.cut k
  let used := lost.foldl (fun names s => names.erase s.data.name) w.used
  Writing.fill k ⟨v,[]⟩ {w with used,arena}

def settleInto : Option Vertex → Writing → Except FlatTree.Error (List Nat × Writing)
  | none,w => .ok ([],w)
  | some v,w => do
    let label := v.label ∩ w.unseen
    if label = ∅ then return ([],{w with used := w.used.erase v.name})
    else
      let (k,arena) := w.arena.reserve
      let w ← Writing.fill k ⟨{v with label},[]⟩ {w with unseen := w.unseen \ label,arena}
      return ([k],w)

-- As `visit`, but the result is written to the arena. A node's place is reserved before its kids are
-- visited, and filled once they are counted.
def visitInto (A : Automaton) (a : Nat) :
    Forest Vertex → Writing → Except FlatTree.Error (List Nat × Writing)
  | .nil,w => .ok ([],w)
  | .cons v kids right,w => do
    let target := A.post a v.label
    let (fresh,p) ← (sprout A target w.toPass).mapError .exhausted
    let label := target ∩ p.unseen
    if label = ∅ then
      let p ← (discard A a kids (forget v fresh p)).mapError .exhausted
      visitInto A a right ⟨p,w.arena⟩
    else
      let (k,arena) := w.arena.reserve
      let before := p.unseen.card
      let (old,w) ← visitInto A a kids ⟨p,arena⟩
      let (new,w) ← settleInto fresh w
      let claimed := before - w.unseen.card
      let w := {w with unseen := w.unseen \ label}
      let w ← if claimed = label.card then w.collapse k ⟨v.name,label,true⟩
        else w.fill k ⟨⟨v.name,label,false⟩,old ++ new⟩
      let (right,w) ← visitInto A a right w
      return (k :: right,w)

def fusedFlat (A : Automaton) (a : Nat) (x : FlatTree) : Except FlatTree.Error FlatTree :=
  match x.root? with
  | none => .ok .dead
  | some r => do
    let (_,w) ← visitInto A a r.forest ⟨⟨x.used,x.used,.full A.stateCount⟩,∅⟩
    (FlatTree.store w.arena w.used).mapError .arena

-- The rules work on the recursive form, which is written down again at the end.
def byRuleFlat (A : Automaton) (a : Nat) (x : FlatTree) : Except FlatTree.Error FlatTree :=
  match x.root? with
  | none => .ok .dead
  | some r => do
    let t ← (byRule A a ⟨some r,x.used⟩).mapError .exhausted
    (FlatTree.write t.root t.used).mapError .arena

end Step

namespace Method

def stepFlat : Method → Automaton → Nat → FlatTree → Except FlatTree.Error FlatTree
  | .fused => Step.fusedFlat
  | .byRule => Step.byRuleFlat

end Method
end BuchiToRabin
