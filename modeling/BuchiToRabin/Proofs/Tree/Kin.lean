import BuchiToRabin.Proofs.Tree.Trims
namespace BuchiToRabin

-- A node among its kin: the name of its parent, unless it is a root, and the names of its kids in order.
structure Kin where
  parent : Option Name
  node : Vertex
  kids : List Name
deriving DecidableEq

namespace Forest

def rootNames : Forest Vertex → List Name
  | .nil => []
  | .cons v _ right => v.name :: right.rootNames

-- The nodes in pre-order, where the roots have a given parent.
def kin (parent : Option Name) : Forest Vertex → List Kin
  | .nil => []
  | .cons v kids right => ⟨parent,v,kids.rootNames⟩ :: (kids.kin (some v.name) ++ right.kin parent)

variable {f : Forest Vertex} {k l : Kin} {p : Option Name}

@[simp] theorem rootNames_append (g f : Forest Vertex) : (f ++ g).rootNames = f.rootNames ++ g.rootNames := by
  induction f with
  | nil => rfl
  | cons v kids right _ ih => rw [cons_append,rootNames,rootNames,ih,List.cons_append]

@[simp] theorem kin_append (g f : Forest Vertex) (p : Option Name) : (f ++ g).kin p = f.kin p ++ g.kin p := by
  induction f with
  | nil => rfl
  | cons v kids right _ ih => rw [cons_append,kin,kin,ih,List.cons_append,List.append_assoc]

theorem mem_kin_cons {v : Vertex} {kids right : Forest Vertex} : k ∈ (Forest.cons v kids right).kin p ↔
    k = ⟨p,v,kids.rootNames⟩ ∨ k ∈ kids.kin (some v.name) ∨ k ∈ right.kin p := by
  rw [kin,List.mem_cons,List.mem_append]

theorem kin_nodes (f : Forest Vertex) : ∀ p, (f.kin p).map Kin.node = f.preorder := by
  induction f with
  | nil => intro p; rfl
  | cons v kids right below ih =>
    intro p
    rw [kin,List.map_cons,List.map_append,below,ih,preorder]

theorem kin_names (f : Forest Vertex) (p : Option Name) : (f.kin p).map (·.node.name) = f.nameList := by
  rw [nameList,←kin_nodes f p,List.map_map]
  rfl

theorem kin_node_mem (node : k ∈ f.kin p) : k.node ∈ f.preorder := by
  rw [←kin_nodes f p]
  exact List.mem_map_of_mem node

theorem kin_name_mem (node : k ∈ f.kin p) : k.node.name ∈ f.names := by
  rw [←mem_nameList,←kin_names f p]
  exact List.mem_map_of_mem node

theorem rootNames_subset (f : Forest Vertex) : ∀ x ∈ f.rootNames, x ∈ f.names := by
  induction f with
  | nil => intro x root; cases root
  | cons v kids right _ ih =>
    intro x root
    rcases List.mem_cons.mp root with rfl | root
    · simp
    · simp [ih x root]

theorem kids_subset (node : k ∈ f.kin p) : ∀ x ∈ k.kids, x ∈ f.names := by
  induction f generalizing p with
  | nil => cases node
  | cons v kids right below ih =>
    intro x kid
    rw [names_cons,NatSet.mem_insert,NatSet.mem_union]
    rcases mem_kin_cons.mp node with rfl | node | node
    · exact .inr (.inl (rootNames_subset kids x kid))
    · exact .inr (.inl (below node x kid))
    · exact .inr (.inr (ih node x kid))

-- A node is a root, or its parent lists it among its kids.
theorem kin_parent (node : k ∈ f.kin p) : (k.parent = p ∧ k.node.name ∈ f.rootNames) ∨
    ∃ l ∈ f.kin p, k.parent = some l.node.name ∧ k.node.name ∈ l.kids := by
  induction f generalizing p with
  | nil => cases node
  | cons v kids right below ih =>
    rcases mem_kin_cons.mp node with rfl | node | node
    · exact .inl ⟨rfl,List.mem_cons_self⟩
    · right
      rcases below node with ⟨parent,root⟩ | ⟨l,deeper,parent,kid⟩
      · exact ⟨_,mem_kin_cons.mpr (.inl rfl),parent,root⟩
      · exact ⟨l,mem_kin_cons.mpr (.inr (.inl deeper)),parent,kid⟩
    · rcases ih node with ⟨parent,root⟩ | ⟨l,beside,parent,kid⟩
      · exact .inl ⟨parent,List.mem_cons_of_mem _ root⟩
      · exact .inr ⟨l,mem_kin_cons.mpr (.inr (.inr beside)),parent,kid⟩

end Forest

namespace Trims

variable {f g : Forest Vertex} {lost : NatSet}

theorem rootNames (trims : Trims f g lost) : g.rootNames.Sublist f.rootNames := by
  induction trims with
  | nil => exact .slnil
  | drop _ ih => exact .cons _ ih
  | keep name _ _ _ _ beside =>
    rw [Forest.rootNames,Forest.rootNames,name]
    exact .cons_cons _ beside

-- Whoever stays keeps its parent, and its kids that stay keep their order.
theorem kin (trims : Trims f g lost) : ∀ {p k}, k ∈ g.kin p → ∃ l ∈ f.kin p, k.node.name = l.node.name ∧
    k.parent = l.parent ∧ k.node.label ⊆ l.node.label ∧ k.kids.Sublist l.kids := by
  induction trims with
  | nil => intro p k node; cases node
  | drop _ ih =>
    intro p k node
    obtain ⟨l,beside,kept⟩ := ih node
    exact ⟨l,Forest.mem_kin_cons.mpr (.inr (.inr beside)),kept⟩
  | keep name label below _ belowIh besideIh =>
    intro p k node
    rcases Forest.mem_kin_cons.mp node with rfl | node | node
    · exact ⟨_,Forest.mem_kin_cons.mpr (.inl rfl),name,rfl,label,below.rootNames⟩
    · rw [name] at node
      obtain ⟨l,deeper,kept⟩ := belowIh node
      exact ⟨l,Forest.mem_kin_cons.mpr (.inr (.inl deeper)),kept⟩
    · obtain ⟨l,beside,kept⟩ := besideIh node
      exact ⟨l,Forest.mem_kin_cons.mpr (.inr (.inr beside)),kept⟩

end Trims
end BuchiToRabin
