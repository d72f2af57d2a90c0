import BuchiToRabin.Proofs.Tree.Nodes
import BuchiToRabin.Proofs.Tree.Places
namespace BuchiToRabin.Forest

-- A node holds the state, and every other one that does stands less deep. The first root is number `i`.
structure Deepest (f : Forest Vertex) (i q : Nat) (n : Place × Vertex) : Prop where
  node : n ∈ f.places i
  held : q ∈ n.2.label
  less : ∀ m ∈ f.places i, q ∈ m.2.label → m ≠ n → m.1.length < n.1.length

variable {f g kids right : Forest Vertex} {v : Vertex} {i q : Nat} {n : Place × Vertex}

namespace Deepest

theorem root (held : q ∈ v.label) (below : q ∉ kids.states) (further : q ∉ right.states) :
    (Forest.cons v kids right).Deepest i q ([i],v) := by
  refine ⟨mem_places_cons.mpr (.inl rfl),held,?_⟩
  intro m node own other
  rcases mem_places_cons.mp node with rfl | ⟨u,deeper,rfl⟩ | node
  · exact absurd rfl other
  · exact absurd ((mem_states_places kids 0).mpr ⟨u,deeper,own⟩) below
  · exact absurd ((mem_states_places right (i + 1)).mpr ⟨m,node,own⟩) further

theorem under (deepest : kids.Deepest 0 q n) (further : q ∉ right.states) :
    (Forest.cons v kids right).Deepest i q (Forest.under i n) := by
  refine ⟨mem_places_cons.mpr (.inr (.inl ⟨n,deepest.node,rfl⟩)),deepest.held,?_⟩
  intro m node own other
  rcases mem_places_cons.mp node with rfl | ⟨u,deeper,rfl⟩ | node
  · obtain ⟨j,p,-,place⟩ := place_cons deepest.node
    rw [Forest.under,place]
    exact Nat.succ_lt_succ (Nat.succ_pos _)
  · exact Nat.succ_lt_succ (deepest.less u deeper own fun same => other (congrArg _ same))
  · exact absurd ((mem_states_places right (i + 1)).mpr ⟨m,node,own⟩) further

theorem beside (here : q ∉ v.label) (below : q ∉ kids.states) (deepest : right.Deepest (i + 1) q n) :
    (Forest.cons v kids right).Deepest i q n := by
  refine ⟨mem_places_cons.mpr (.inr (.inr deepest.node)),deepest.held,?_⟩
  intro m node own other
  rcases mem_places_cons.mp node with rfl | ⟨u,deeper,rfl⟩ | node
  · exact absurd own here
  · exact absurd ((mem_states_places kids 0).mpr ⟨u,deeper,own⟩) below
  · exact deepest.less m node own other

end Deepest

end BuchiToRabin.Forest
