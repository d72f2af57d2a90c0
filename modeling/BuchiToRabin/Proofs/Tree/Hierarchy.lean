import Mathlib.Data.List.Chain
import BuchiToRabin.Proofs.Tree.Deepest
namespace BuchiToRabin

namespace Place

variable {p q : Place} {i j : Nat}

-- The place of a node that stands over another one, at whatever distance.
def Above (p q : Place) : Prop := p <+: q ∧ p ≠ q

theorem above_cons : Above (i :: p) (j :: q) ↔ i = j ∧ Above p q := by
  unfold Above
  rw [List.cons_prefix_cons,ne_eq,List.cons.injEq]
  constructor
  · rintro ⟨⟨rfl,above⟩,other⟩
    exact ⟨rfl,above,fun same => other ⟨rfl,same⟩⟩
  · rintro ⟨rfl,above,other⟩
    exact ⟨⟨rfl,above⟩,fun same => other same.2⟩

theorem not_above_nil : ¬ Above p [] := fun above => above.2 (List.prefix_nil.mp above.1)

theorem nil_above (deeper : q ≠ []) : Above [] q := ⟨List.nil_prefix,deeper.symm⟩

end Place

namespace Forest

variable {f kids right : Forest Vertex} {v : Vertex} {n m : Place × Vertex} {i q : Nat}

theorem place_ne_nil {f : Forest α} {n : Place × α} (node : n ∈ f.places i) : n.1 ≠ [] := by
  obtain ⟨j,p,-,place⟩ := place_cons node
  rw [place]
  exact List.cons_ne_nil j p

-- What the labels of any two nodes have to do with each other, at whatever distance. The first root is
-- number `i`.
structure Layered (f : Forest Vertex) (i : Nat) : Prop where
  filled : ∀ n ∈ f.places i, n.2.label ≠ ∅
  smaller : ∀ n ∈ f.places i, ∀ m ∈ f.places i, Place.Above n.1 m.1 →
    m.2.label ⊆ n.2.label ∧ m.2.label ≠ n.2.label
  apart : ∀ n ∈ f.places i, ∀ m ∈ f.places i, ¬ n.1 <+: m.1 → ¬ m.1 <+: n.1 → ∀ q ∈ n.2.label, q ∉ m.2.label
  own : ∀ n ∈ f.places i, ∃ q ∈ n.2.label, ∀ m ∈ f.places i, Place.Above n.1 m.1 → q ∉ m.2.label

theorem root_above (below : m ∈ kids.places 0) : Place.Above [i] (under i m).1 :=
  Place.above_cons.mpr ⟨rfl,Place.nil_above (place_ne_nil below)⟩

theorem root_mem_places (v : Vertex) (kids right : Forest Vertex) (i : Nat) :
    ([i],v) ∈ (Forest.cons v kids right).places i := mem_places_cons.mpr (.inl rfl)

theorem under_mem_places (v : Vertex) (right : Forest Vertex) (i : Nat) (node : n ∈ kids.places 0) :
    under i n ∈ (Forest.cons v kids right).places i := mem_places_cons.mpr (.inr (.inl ⟨n,node,rfl⟩))

theorem beside_mem_places (v : Vertex) (kids : Forest Vertex) (node : n ∈ right.places (i + 1)) :
    n ∈ (Forest.cons v kids right).places i := mem_places_cons.mpr (.inr (.inr node))

theorem label_subset_states (node : n ∈ f.places i) : n.2.label ⊆ f.states :=
  fun _ held => (mem_states_places f i).mpr ⟨n,node,held⟩

theorem Layered.of_root (layered : (Forest.cons v kids right).Layered i) : (∃ q ∈ v.label, q ∉ kids.states) ∧
    kids.states ⊆ v.label ∧ ∀ q ∈ v.label, q ∉ right.states := by
  have first := root_mem_places v kids right i
  refine ⟨?_,?_,?_⟩
  · obtain ⟨q,held,alone⟩ := layered.own _ first
    refine ⟨q,held,fun deeper => ?_⟩
    obtain ⟨n,node,own⟩ := (mem_states_places kids 0).mp deeper
    exact alone _ (under_mem_places v right i node) (root_above node) own
  · intro q deeper
    obtain ⟨n,node,own⟩ := (mem_states_places kids 0).mp deeper
    exact (layered.smaller _ first _ (under_mem_places v right i node) (root_above node)).1 q own
  · intro q held further
    obtain ⟨n,node,own⟩ := (mem_states_places right (i + 1)).mp further
    have apart := beside_apart node []
    exact layered.apart _ first _ (beside_mem_places v kids node) apart.1 apart.2 q held own

theorem Layered.of_under (layered : (Forest.cons v kids right).Layered i) : kids.Layered 0 := by
  have down {n : Place × Vertex} (node : n ∈ kids.places 0) := under_mem_places v right i node
  refine ⟨fun n node => layered.filled (under i n) (down node),?_,?_,?_⟩
  · intro n node m other above
    exact layered.smaller (under i n) (down node) (under i m) (down other) (Place.above_cons.mpr ⟨rfl,above⟩)
  · intro n node m other left right
    exact layered.apart (under i n) (down node) (under i m) (down other)
      (fun touch => left (List.cons_prefix_cons.mp touch).2) fun touch => right (List.cons_prefix_cons.mp touch).2
  · intro n node
    obtain ⟨q,held,alone⟩ := layered.own _ (down node)
    exact ⟨q,held,fun m other above => alone (under i m) (down other) (Place.above_cons.mpr ⟨rfl,above⟩)⟩

theorem Layered.of_beside (layered : (Forest.cons v kids right).Layered i) : right.Layered (i + 1) := by
  have along {n : Place × Vertex} (node : n ∈ right.places (i + 1)) := beside_mem_places v kids node
  refine ⟨fun n node => layered.filled n (along node),?_,?_,?_⟩
  · intro n node m other
    exact layered.smaller n (along node) m (along other)
  · intro n node m other
    exact layered.apart n (along node) m (along other)
  · intro n node
    obtain ⟨q,held,alone⟩ := layered.own n (along node)
    exact ⟨q,held,fun m other => alone m (along other)⟩

-- What stands below a node is found where the node itself is.
theorem below_root (other : m ∈ (Forest.cons v kids right).places i) (above : Place.Above [i] m.1) :
    ∃ l ∈ kids.places 0, m = under i l := by
  rcases mem_places_cons.mp other with rfl | ⟨l,deeper,rfl⟩ | other
  · exact absurd rfl above.2
  · exact ⟨l,deeper,rfl⟩
  · exact absurd above.1 (beside_apart other []).1

theorem below_under (other : m ∈ (Forest.cons v kids right).places i) (above : Place.Above (under i n).1 m.1) :
    ∃ l ∈ kids.places 0, m = under i l ∧ Place.Above n.1 l.1 := by
  rcases mem_places_cons.mp other with rfl | ⟨l,deeper,rfl⟩ | other
  · exact absurd (Place.above_cons.mp above).2 Place.not_above_nil
  · exact ⟨l,deeper,rfl,(Place.above_cons.mp above).2⟩
  · exact absurd above.1 (beside_apart other n.1).1

theorem below_beside (node : n ∈ right.places (i + 1)) (other : m ∈ (Forest.cons v kids right).places i)
    (above : Place.Above n.1 m.1) : m ∈ right.places (i + 1) := by
  rcases mem_places_cons.mp other with rfl | ⟨l,deeper,rfl⟩ | other
  · exact absurd above.1 (beside_apart node []).2
  · exact absurd above.1 (beside_apart node l.1).2
  · exact other

-- A root to the left of others: it has a state that nothing below it has, what is below it is its own, and
-- nothing of it is further on. Two nodes are cases of where each of them stands.
theorem Layered.cons (own : ∃ q ∈ v.label, q ∉ kids.states) (inside : kids.states ⊆ v.label)
    (further : ∀ q ∈ v.label, q ∉ right.states) (below : kids.Layered 0) (beside : right.Layered (i + 1)) :
    (Forest.cons v kids right).Layered i := by
  obtain ⟨q,held,alone⟩ := own
  have within {n : Place × Vertex} (node : n ∈ kids.places 0) : n.2.label ⊆ v.label :=
    fun q own => inside q (label_subset_states node q own)
  have distant {n : Place × Vertex} (node : n ∈ right.places (i + 1)) : ∀ q ∈ v.label, q ∉ n.2.label :=
    fun q held there => further q held (label_subset_states node q there)
  refine ⟨?_,?_,?_,?_⟩
  · intro n node
    rcases mem_places_cons.mp node with rfl | ⟨k,deep,rfl⟩ | node
    · exact NatSet.ne_empty_iff.mpr ⟨q,held⟩
    · exact below.filled k deep
    · exact beside.filled n node
  · intro n node m other above
    rcases mem_places_cons.mp node with rfl | ⟨k,deep,rfl⟩ | node
    · obtain ⟨l,deeper,rfl⟩ := below_root other above
      exact ⟨within (n := l) deeper,fun same => alone (label_subset_states deeper q (same ▸ held))⟩
    · obtain ⟨l,deeper,rfl,nearer⟩ := below_under other above
      exact below.smaller k deep l deeper nearer
    · exact beside.smaller n node m (below_beside node other above) above
  · intro n node m other left right
    rcases mem_places_cons.mp node with rfl | ⟨k,deep,rfl⟩ | node
    · rcases mem_places_cons.mp other with rfl | ⟨l,deeper,rfl⟩ | other
      · exact absurd List.prefix_rfl left
      · exact absurd (root_above deeper).1 left
      · exact distant other
    · rcases mem_places_cons.mp other with rfl | ⟨l,deeper,rfl⟩ | other
      · exact absurd (root_above deep).1 right
      · exact below.apart k deep l deeper (fun touch => left (List.cons_prefix_cons.mpr ⟨rfl,touch⟩))
          fun touch => right (List.cons_prefix_cons.mpr ⟨rfl,touch⟩)
      · exact fun q own => distant other q (within deep q own)
    · rcases mem_places_cons.mp other with rfl | ⟨l,deeper,rfl⟩ | other
      · exact fun q there held => distant node q held there
      · exact fun q there own => distant node q (within deeper q own) there
      · exact beside.apart n node m other left right
  · intro n node
    rcases mem_places_cons.mp node with rfl | ⟨k,deep,rfl⟩ | node
    · refine ⟨q,held,fun m other above => ?_⟩
      obtain ⟨l,deeper,rfl⟩ := below_root other above
      exact fun own => alone (label_subset_states deeper q own)
    · obtain ⟨p,own,only⟩ := below.own k deep
      refine ⟨p,own,fun m other above => ?_⟩
      obtain ⟨l,deeper,rfl,nearer⟩ := below_under other above
      exact only l deeper nearer
    · obtain ⟨p,own,only⟩ := beside.own n node
      exact ⟨p,own,fun m other above => only m (below_beside node other above) above⟩

-- The local conditions say as much as those on all pairs of nodes.
theorem lawful_iff_layered (f : Forest Vertex) : ∀ i, f.Lawful ∧ f.Apart ↔ f.Layered i := by
  induction f with
  | nil => exact fun i => ⟨fun _ => ⟨nofun,nofun,nofun,nofun⟩,fun _ => ⟨trivial,trivial⟩⟩
  | cons v kids right below ih =>
    intro i
    constructor
    · rintro ⟨⟨heads,kidsLawful,rightLawful⟩,⟨further,rightApart⟩⟩
      have same := kidsLawful.nested.states_eq_cover
      refine .cons ?_ ?_ ?_ ((below 0).mp ⟨kidsLawful,heads.apart⟩) ((ih (i + 1)).mp ⟨rightLawful,rightApart⟩)
      · by_contra none
        refine heads.uncovered (NatSet.ext fun q => ⟨heads.inside q,fun held => ?_⟩)
        by_contra alone
        exact none ⟨q,held,same ▸ alone⟩
      · rw [same]
        exact heads.inside
      · rw [rightLawful.nested.states_eq_cover]
        exact further
    · intro layered
      obtain ⟨⟨q,held,alone⟩,inside,further⟩ := layered.of_root
      obtain ⟨kidsLawful,kidsApart⟩ := (below 0).mpr layered.of_under
      obtain ⟨rightLawful,rightApart⟩ := (ih (i + 1)).mpr layered.of_beside
      rw [kidsLawful.nested.states_eq_cover] at alone inside
      rw [rightLawful.nested.states_eq_cover] at further
      have filled : v.label ≠ ∅ := NatSet.ne_empty_iff.mpr ⟨q,held⟩
      exact ⟨⟨⟨filled,inside,fun same => alone (same ▸ held),kidsApart⟩,kidsLawful,rightLawful⟩,further,rightApart⟩

-- The nodes that hold a state, in pre-order.
def holders (f : Forest Vertex) (i q : Nat) : List (Place × Vertex) := (f.places i).filter fun n => q ∈ n.2.label

-- Each node is a kid of the one before it, and the first is a root.
def Line (l : List (Place × Vertex)) : Prop :=
  l.IsChain (fun n m => Place.Parent n.1 m.1) ∧ ∀ n ∈ l.head?, n.1.length = 1

theorem holders_eq_nil (none : q ∉ f.states) : f.holders i q = [] := by
  refine List.filter_eq_nil_iff.mpr fun n node held => none ?_
  exact label_subset_states node q (of_decide_eq_true held)

theorem holders_cons (f : Forest Vertex) (v : Vertex) (right : Forest Vertex) (i q : Nat) :
    (Forest.cons v f right).holders i q =
      (if q ∈ v.label then [([i],v)] else []) ++ ((f.holders 0 q).map (under i) ++ right.holders (i + 1) q) := by
  have kept : (fun n : Place × Vertex => decide (q ∈ n.2.label)) ∘ under i = fun n => decide (q ∈ n.2.label) := rfl
  rw [holders,places,List.filter_cons,List.filter_append,List.filter_map,kept]
  split <;> simp_all [holders]

theorem Line.under {l : List (Place × Vertex)} (line : Line l) : Line (([i],v) :: l.map (under i)) := by
  refine ⟨List.isChain_cons.mpr ⟨?_,?_⟩,fun n first => Option.some.inj first ▸ rfl⟩
  · intro n kid
    rw [List.head?_map] at kid
    obtain ⟨m,first,rfl⟩ := Option.map_eq_some_iff.mp kid
    have single := line.2 m first
    exact Place.parent_cons.mpr ⟨rfl,List.nil_prefix,single⟩
  · exact (List.isChain_map (Forest.under i)).mpr (line.1.imp fun n m kid => Place.parent_cons.mpr ⟨rfl,kid⟩)

theorem Layered.line (layered : f.Layered i) (q : Nat) : Line (f.holders i q) := by
  induction f generalizing i with
  | nil => exact ⟨.nil,nofun⟩
  | cons v kids right below ih =>
    obtain ⟨-,inside,further⟩ := layered.of_root
    rw [holders_cons]
    by_cases held : q ∈ v.label
    · rw [if_pos held,holders_eq_nil (further q held),List.append_nil]
      exact (below layered.of_under).under
    · rw [if_neg held,holders_eq_nil fun deeper => held (inside q deeper)]
      exact ih layered.of_beside

end Forest

namespace Tree

theorem place_root {t : Tree} {n : Place × Vertex} (node : n ∈ t.forest.places 0) (single : n.1.length = 1) :
    n.1 = [0] := by
  obtain ⟨root,used⟩ := t
  cases root with
  | none => cases node
  | some r =>
    rcases Forest.mem_places_cons.mp node with rfl | ⟨m,deeper,rfl⟩ | node
    · rfl
    · exact absurd (List.length_eq_zero_iff.mp (Nat.succ.inj single)) (Forest.place_ne_nil deeper)
    · cases node

-- What holds of a valid tree at any distance. Names in use are those of the nodes.
structure Ordered (t : Tree) : Prop extends t.forest.Layered 0 where
  distinct : (t.vertices.map Vertex.name).Nodup
  used : ∀ x, x ∈ t.used ↔ ∃ v ∈ t.vertices, v.name = x

theorem valid_iff_ordered {t : Tree} : t.Valid ↔ t.Ordered := by
  have names : t.used = t.names ↔ ∀ x, x ∈ t.used ↔ ∃ v ∈ t.vertices, v.name = x := by
    simp only [NatSet.ext_iff,Tree.names,←Forest.mem_nameList,Forest.nameList,List.mem_map]
    rfl
  constructor
  · intro valid
    exact ⟨(Forest.lawful_iff_layered t.forest 0).mp ⟨valid.lawful,t.forest_apart⟩,valid.distinct,names.mp valid.used⟩
  · intro ordered
    exact ⟨((Forest.lawful_iff_layered t.forest 0).mpr ordered.toLayered).1,ordered.distinct,names.mpr ordered.used⟩

-- The nodes that hold a state stand below each other, from the root on.
structure Lined (t : Tree) : Prop where
  kids : ∀ q, (t.forest.holders 0 q).IsChain fun n m => Place.Parent n.1 m.1
  first : ∀ q, ∀ n ∈ (t.forest.holders 0 q).head?, n.1 = [0]
  size : ∀ r, t.root = some r → t.size ≤ r.top.label.card

-- Comparing each node with its kids, and siblings with each other, is enough for all pairs of nodes.
theorem check_global (t : Tree) : (t.check = .ok () ↔ t.Ordered) ∧ (t.check = .ok () → t.Lined) := by
  refine ⟨check_exact.trans valid_iff_ordered,fun checked => ?_⟩
  have valid := check_exact.mp checked
  have layered := (valid_iff_ordered.mp valid).toLayered
  refine ⟨fun q => (layered.line q).1,?_,?_⟩
  · intro q n first
    have node := List.mem_of_mem_filter (List.mem_of_mem_head? first)
    exact place_root node ((layered.line q).2 n first)
  · intro r root
    have small := valid.lawful.size_le t.forest_apart
    have cover : t.forest.cover = r.top.label := by
      rw [forest,root]
      exact NatSet.union_empty r.top.label
    rwa [cover] at small

-- The root keeps state 3 for itself; state 0 is held on three levels.
def tiered : Tree := ofRoot ⟨⟨0,.ofList [0,1,2,3],false⟩,
  .cons ⟨2,.ofList [0,1],true⟩ (.cons ⟨1,.ofList [0],false⟩ .nil .nil) (.cons ⟨3,.ofList [2],false⟩ .nil .nil)⟩

theorem check_global_tiered : tiered.check = .ok () ∧ tiered.Ordered ∧ tiered.Lined :=
  have checked : tiered.check = .ok () := by decide +kernel
  have global := check_global tiered
  ⟨checked,global.1.mp checked,global.2 checked⟩

example : (tiered.forest.holders 0 0).map Prod.fst = [[0],[0,0],[0,0,0]] := by decide +kernel

end Tree
end BuchiToRabin
