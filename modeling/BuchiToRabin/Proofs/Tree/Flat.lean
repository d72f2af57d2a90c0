import BuchiToRabin.Proofs.Forest.Layout
import BuchiToRabin.Tree.Flat
namespace BuchiToRabin

namespace Forest

-- Every node with all below it, in pre-order.
def nodes : Forest Vertex → List Node
  | .nil => []
  | .cons v kids right => ⟨v,kids⟩ :: (kids.nodes ++ right.nodes)

end Forest

namespace FlatTree

variable {x : FlatTree} {f kids : Forest Vertex} {v : Vertex} {start k : Nat}

theorem node?_of_standsAt (stands : (Forest.cons v kids .nil).StandsAt x.slots k) (deep : kids.size ≤ x.size) :
    x.node? k = some ⟨v,kids⟩ := by
  obtain ⟨root,kidsStand,-⟩ := stands
  rw [node?,root]
  dsimp only
  rw [kidsStand.forestAt deep]

theorem map_node?_range' (stands : f.StandsAt x.slots start) (deep : f.size ≤ x.size) :
    (List.range' start f.size).map x.node? = f.nodes.map some := by
  induction f generalizing start with
  | nil => rfl
  | cons v kids right below ih =>
    obtain ⟨root,kidsStand,rightStands⟩ := stands
    rw [Forest.size] at deep
    have first := node?_of_standsAt ⟨root,kidsStand,trivial⟩ (by omega)
    rw [Forest.range'_size_cons,List.map_cons,List.map_append,first,below kidsStand (by omega),
      ih rightStands (by omega),Forest.nodes,List.map_cons,List.map_append]

end FlatTree

namespace Tree

-- How a tree is stored.
def flat (t : Tree) : FlatTree := ⟨t.slots,t.used⟩

variable {k : Nat}

theorem single (t : Tree) : t.forest = .nil ∨ ∃ a kids, t.forest = .cons a kids .nil := by
  obtain ⟨root,used⟩ := t
  cases root with
  | none => exact .inl rfl
  | some r => exact .inr ⟨r.top,r.kids,rfl⟩

theorem size_flat (t : Tree) : t.flat.size = t.forest.size := Forest.layout_length t.forest 0

theorem standsAt_flat (t : Tree) : t.forest.StandsAt t.flat.slots 0 := by
  have stands := Forest.standsAt_layout t.forest [] []
  rwa [List.nil_append,List.append_nil] at stands

theorem root?_flat (t : Tree) : t.flat.root? = t.root := by
  have stands := t.standsAt_flat
  have deep := t.size_flat
  obtain ⟨root,used⟩ := t
  cases root with
  | none => rfl
  | some r =>
    change (Forest.cons r.top r.kids .nil).StandsAt _ 0 at stands
    change _ = 1 + r.kids.size + 0 at deep
    exact FlatTree.node?_of_standsAt stands (by omega)

@[simp] theorem tree_flat (t : Tree) : t.flat.tree = t := by
  rw [FlatTree.tree,root?_flat]
  rfl

theorem nodes_flat (t : Tree) : t.flat.nodes = t.forest.nodes := by
  have all := congrArg (List.filterMap id) (FlatTree.map_node?_range' t.standsAt_flat (Nat.le_of_eq t.size_flat.symm))
  rw [List.filterMap_map,List.filterMap_map,←List.range_eq_range'] at all
  rw [FlatTree.nodes,size_flat]
  exact all.trans List.filterMap_some

-- The slots of a subtree stand together, and visiting on finds no more.
theorem walk_flat (t : Tree) (place : k < t.flat.size) : ∃ n, t.flat.node? k = some n ∧
    n.size ≤ t.flat.size ∧ ∀ more, Layout.walk t.flat.slots (n.size + more) [k] = List.range' k n.size := by
  obtain ⟨v,kids,stands,small⟩ := t.standsAt_flat.node (Nat.zero_le k) (by rwa [Nat.zero_add,←size_flat])
  rw [←size_flat] at small
  have size : (Node.mk v kids).size = 1 + kids.size := Nat.add_zero _
  refine ⟨⟨v,kids⟩,FlatTree.node?_of_standsAt stands (Nat.le_of_lt small),by omega,fun more => ?_⟩
  have walked := stands.walk more []
  have none : Layout.walk t.flat.slots more [] = [] := by cases more <;> rfl
  rw [none,List.append_nil,List.append_nil] at walked
  exact walked

theorem fingerprint_flat (t : Tree) : fingerprint t.flat = t.root.elim 0 fingerprint := by
  have swept := Layout.sweep_layout Vertex.digest t.forest 0 []
  rw [List.append_nil,Layout.sweep,List.append_nil] at swept
  change (Layout.sweep Vertex.digest 0 (t.forest.layout 0)).headD 0 = _
  rw [swept]
  obtain ⟨root,used⟩ := t
  cases root <;> rfl

theorem render_flat (t : Tree) : t.flat.render = t.render := by
  have stands := t.standsAt_flat
  have deep := t.size_flat
  obtain ⟨root,used⟩ := t
  cases root with
  | none => rfl
  | some r =>
    obtain ⟨-,kidsStand,-⟩ := stands
    change _ = 1 + r.kids.size + 0 at deep
    change r.top.render (Layout.foldAt Vertex.render _ _ (r.kids.rootPlaces 1)) = _
    rw [kidsStand.foldAt Vertex.render (by omega)]
    rfl

-- The slots tell the tree.
theorem flat_beq (t u : Tree) : (t.flat == u.flat) = true ↔ t.root = u.root := by
  constructor
  · intro same
    have slots : t.flat.slots = u.flat.slots := eq_of_beq same
    rw [←root?_flat t,←root?_flat u]
    unfold FlatTree.root? FlatTree.node? FlatTree.size
    rw [slots]
  · intro same
    have slots : t.flat.slots = u.flat.slots := by
      obtain ⟨root,used⟩ := t
      cases same
      rfl
    exact show (t.flat.slots == u.flat.slots) = true from beq_iff_eq.mpr slots

end Tree

namespace FlatTree

variable {x : FlatTree}

theorem store_behind (t : Tree) : store ((∅ : Arena Vertex).behind t.forest) t.used = .ok t.flat := by
  rw [store,Arena.finish_behind t.single]
  rfl

-- Writing a tree down always succeeds.
theorem write_eq (root : Option Node) (used : NatSet) : write root used = .ok (Tree.mk root used).flat := by
  rw [write,Arena.plant_eq,ok_bind]
  exact store_behind ⟨root,used⟩

theorem ofRoot_eq (r : Node) : ofRoot r = .ok (Tree.ofRoot r).flat := write_eq (some r) r.names

theorem initial_eq (A : Automaton) : initial A = .ok (Tree.initial A).flat := by
  have first : Tree.initial A = .dead ∨ ∃ r, Tree.initial A = .ofRoot r := by
    unfold Tree.initial
    dsimp only
    split_ifs
    · exact .inl rfl
    · exact .inr ⟨_,rfl⟩
    · exact .inr ⟨_,rfl⟩
    · exact .inr ⟨_,rfl⟩
  rw [initial]
  rcases first with same | ⟨r,same⟩
  · rw [same]
    rfl
  · rw [same]
    exact ofRoot_eq r

end FlatTree
end BuchiToRabin
