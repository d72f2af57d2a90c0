import BuchiToRabin.Proofs.Fingerprint
import BuchiToRabin.Proofs.Tree.Flat
namespace BuchiToRabin

namespace Forest

variable {f : Forest Vertex} {k : Nat} {m : Node}

-- Another subtree in place of the one whose root is number `k` in pre-order.
def graft (n : Node) : Forest Vertex → Nat → Forest Vertex
  | .nil,_ => .nil
  | .cons _ _ right,0 => .cons n.top n.kids right
  | .cons v kids right,k+1 =>
    if k < kids.size then .cons v (graft n kids k) right else .cons v kids (graft n right (k - kids.size))

@[simp] theorem nodes_length (f : Forest Vertex) : f.nodes.length = f.size := by
  induction f with
  | nil => rfl
  | cons v kids right below ih =>
    rw [nodes,List.length_cons,List.length_append,below,ih,size]
    omega

-- A node of a first tree and what is to its right.
theorem nodes_cons_cases {v : Vertex} {kids right : Forest Vertex}
    (stands : (Forest.cons v kids right).nodes[k]? = some m) :
    (k = 0 ∧ m = ⟨v,kids⟩) ∨ (∃ j, k = j + 1 ∧ j < kids.size ∧ kids.nodes[j]? = some m) ∨
      ∃ j, k = j + 1 ∧ kids.size ≤ j ∧ right.nodes[j - kids.size]? = some m := by
  cases k with
  | zero => exact .inl ⟨rfl,(Option.some.inj stands).symm⟩
  | succ j =>
    rw [nodes,List.getElem?_cons_succ] at stands
    right
    rcases Nat.lt_or_ge j kids.size with under | beside
    · rw [List.getElem?_append_left (by rwa [nodes_length])] at stands
      exact .inl ⟨j,rfl,under,stands⟩
    · rw [List.getElem?_append_right (by rwa [nodes_length]),nodes_length] at stands
      exact .inr ⟨j,rfl,beside,stands⟩

theorem graft_self (stands : f.nodes[k]? = some m) : f.graft m k = f := by
  induction f generalizing k with
  | nil => cases stands
  | cons v kids right below ih =>
    rcases nodes_cons_cases stands with ⟨rfl,rfl⟩ | ⟨j,rfl,under,stands⟩ | ⟨j,rfl,beside,stands⟩
    · rfl
    · rw [graft,if_pos under,below stands]
    · rw [graft,if_neg (Nat.not_lt.mpr beside),ih stands]

-- Of the digests of the roots one hangs on what is grafted, and on its fingerprint only. By induction up to
-- the root: each node on the way loses nothing of one digest among those of its kids.
theorem digests_graft (stands : f.nodes[k]? = some m) : ∃ (before after : List UInt64) (up : UInt64 → UInt64),
    Function.Injective up ∧
      ∀ n, (f.graft n k).fold Vertex.digest = before ++ up (fingerprint n) :: after := by
  induction f generalizing k with
  | nil => cases stands
  | cons v kids right below ih =>
    rcases nodes_cons_cases stands with ⟨rfl,rfl⟩ | ⟨j,rfl,under,stands⟩ | ⟨j,rfl,beside,stands⟩
    · exact ⟨[],right.fold Vertex.digest,id,Function.injective_id,fun n => rfl⟩
    · obtain ⟨before,after,up,lossless,digests⟩ := below stands
      refine ⟨[],right.fold Vertex.digest,fun h => v.digest (before ++ up h :: after),?_,fun n => ?_⟩
      · exact (Fingerprint.mixAll_injective_word _ before after).comp lossless
      · rw [graft,if_pos under,fold,digests,List.nil_append]
    · obtain ⟨before,after,up,lossless,digests⟩ := ih stands
      refine ⟨v.digest (kids.fold Vertex.digest) :: before,after,up,lossless,fun n => ?_⟩
      rw [graft,if_neg (Nat.not_lt.mpr beside),fold,digests,List.cons_append]

end Forest

-- A vertex with its kids, changed in itself only.
theorem Node.fingerprint_ne {m : Node} {v : Vertex}
    (differ : fingerprint (v.name.number.toUInt64,v.marked.toUInt64,fingerprint v.label) ≠
      fingerprint (m.top.name.number.toUInt64,m.top.marked.toUInt64,fingerprint m.top.label)) :
    fingerprint {m with top := v} ≠ fingerprint m :=
  fun same => differ (Fingerprint.mixAll_injective_seed (m.kids.fold Vertex.digest) same)

namespace Tree

variable {t : Tree} {k : Nat} {m : Node}

def graft (t : Tree) (k : Nat) (n : Node) : Tree := .ofForest (t.forest.graft n k) t.used

theorem nodes_of_node? (stands : t.node? k = some m) : t.forest.nodes[k]? = some m := by
  change t.flat.node? k = some m at stands
  have inside : k < t.forest.size := by
    rw [←size_flat]
    by_contra past
    rw [FlatTree.node?,List.getElem?_eq_none (Nat.le_of_not_lt past)] at stands
    cases stands
  have all := congrArg (·[k]?) (FlatTree.map_node?_range' t.standsAt_flat (Nat.le_of_eq t.size_flat.symm))
  rw [List.getElem?_map,List.getElem?_map,List.getElem?_range' inside,Option.map_some,Nat.zero_add,Nat.one_mul,
    stands] at all
  obtain ⟨n,found,same⟩ := Option.map_eq_some_iff.mp all.symm
  rwa [Option.some.inj same] at found

theorem fingerprint_eq (t : Tree) : fingerprint t = (t.forest.fold Vertex.digest).headD 0 := by
  rw [show fingerprint t = fingerprint t.flat from rfl,fingerprint_flat]
  obtain ⟨root,used⟩ := t
  cases root <;> rfl

theorem fingerprint_ofForest (f : Forest Vertex) (used : NatSet) :
    fingerprint (ofForest f used) = (f.fold Vertex.digest).headD 0 := by
  rw [fingerprint_eq]
  cases f <;> rfl

-- The fingerprint of the whole hangs on a subtree through the fingerprint of that only, and loses nothing of it.
theorem fingerprint_graft (stands : t.node? k = some m) : ∃ up : UInt64 → UInt64, Function.Injective up ∧
    (∀ n, fingerprint (t.graft k n) = up (fingerprint n)) ∧ fingerprint t = up (fingerprint m) := by
  have node := nodes_of_node? stands
  obtain ⟨before,after,up,lossless,digests⟩ := Forest.digests_graft node
  have whole := digests m
  rw [Forest.graft_self node] at whole
  have first : before = [] := by
    rcases t.single with none | ⟨v,kids,one⟩
    · rw [none] at node
      cases node
    · rw [one] at whole
      rcases List.cons_eq_append_iff.mp whole with ⟨first,-⟩ | ⟨_,_,last⟩
      · exact first
      · exact absurd last.symm (List.append_ne_nil_of_right_ne_nil _ (List.cons_ne_nil _ _))
  rw [first,List.nil_append] at whole
  refine ⟨up,lossless,fun n => ?_,?_⟩
  · rw [graft,fingerprint_ofForest,digests,first]
    rfl
  · rw [fingerprint_eq,whole]
    rfl

-- What the fingerprint does not miss where a node stands: any change of the subtree that shows in the fingerprint
-- of the subtree, and any change of the node alone. A name enters as one word.
structure Sensitive (t : Tree) (k : Nat) (m : Node) : Prop where
  subtree : ∀ n, fingerprint (t.graft k n) ≠ fingerprint t ↔ fingerprint n ≠ fingerprint m
  name : ∀ x : Name, m.top.name.number < UInt64.size → x.number < UInt64.size → x ≠ m.top.name →
    fingerprint (t.graft k {m with top := {m.top with name := x}}) ≠ fingerprint t
  mark : ∀ b, b ≠ m.top.marked → fingerprint (t.graft k {m with top := {m.top with marked := b}}) ≠ fingerprint t
  label : ∀ s, fingerprint s ≠ fingerprint m.top.label →
    fingerprint (t.graft k {m with top := {m.top with label := s}}) ≠ fingerprint t

theorem fingerprint_sensitive :
    Fingerprint.Lossless ∧ ∀ t k m, Tree.node? t k = some m → t.Sensitive k m := by
  refine ⟨Fingerprint.lossless,fun t k m stands => ?_⟩
  obtain ⟨up,lossless,grafted,whole⟩ := fingerprint_graft stands
  have subtree (n : Node) : fingerprint (t.graft k n) ≠ fingerprint t ↔ fingerprint n ≠ fingerprint m := by
    rw [grafted,whole,ne_eq,lossless.eq_iff]
  refine ⟨subtree,?_,?_,?_⟩
  · intro x own fits other
    refine (subtree _).mpr (Node.fingerprint_ne ((Fingerprint.first_injective _ _).ne ?_))
    exact fun same => other (Nat.succ.inj (Fingerprint.toUInt64_inj fits own same))
  · intro b other
    refine (subtree _).mpr (Node.fingerprint_ne ((Fingerprint.second_injective _ _).ne ?_))
    exact Fingerprint.flag_injective.ne other
  · intro s other
    exact (subtree _).mpr (Node.fingerprint_ne ((Fingerprint.third_injective _ _).ne other))

def lopsided : Tree := ofRoot ⟨⟨0,.ofList [0,1,2],true⟩,
  .cons ⟨1,.ofList [0],false⟩ (.cons ⟨2,.ofList [0],true⟩ .nil .nil) (.cons ⟨3,.ofList [1],false⟩ .nil .nil)⟩

-- The node on the lowest level gets another name.
theorem fingerprint_sensitive_lopsided : lopsided.node? 2 = some (.leaf ⟨2,.ofList [0],true⟩) ∧
    lopsided.Sensitive 2 (.leaf ⟨2,.ofList [0],true⟩) ∧
    fingerprint (lopsided.graft 2 (.leaf ⟨3,.ofList [0],true⟩)) ≠ fingerprint lopsided :=
  have stands : lopsided.node? 2 = some (.leaf ⟨2,.ofList [0],true⟩) := by decide +kernel
  have sensitive := fingerprint_sensitive.2 lopsided 2 _ stands
  ⟨stands,sensitive,sensitive.name 3 (by decide) (by decide) (by decide)⟩

end Tree
end BuchiToRabin
