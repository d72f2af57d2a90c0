import BuchiToRabin.Proofs.Step.Run
namespace BuchiToRabin

-- Where a node stands in a forest: which root it is below, then which kid at each level down to the node.
abbrev Place := List Nat

namespace Place

-- `p` lies in the subtree of an earlier sibling of `q` or of a node above `q`.
def Precedes (p q : Place) : Prop := ∃ (r : Place) (i j : Nat), i < j ∧ r ++ [i] <+: p ∧ r ++ [j] <+: q

def Parent (p q : Place) : Prop := p <+: q ∧ q.length = p.length + 1

variable {p q : Place} {i j : Nat}

theorem not_precedes_nil : ¬ Precedes p [] := by
  rintro ⟨r,i,j,_,_,right⟩
  exact absurd (List.prefix_nil.mp right) (List.append_ne_nil_of_right_ne_nil r (List.cons_ne_nil j []))

theorem not_nil_precedes : ¬ Precedes [] q := by
  rintro ⟨r,i,j,_,left,_⟩
  exact absurd (List.prefix_nil.mp left) (List.append_ne_nil_of_right_ne_nil r (List.cons_ne_nil i []))

theorem precedes_cons : Precedes (i :: p) (j :: q) ↔ i < j ∨ i = j ∧ Precedes p q := by
  constructor
  · rintro ⟨r,k,l,lt,left,right⟩
    cases r with
    | nil =>
      obtain ⟨rfl,-⟩ := List.cons_prefix_cons.mp left
      obtain ⟨rfl,-⟩ := List.cons_prefix_cons.mp right
      exact .inl lt
    | cons m r =>
      obtain ⟨rfl,before⟩ := List.cons_prefix_cons.mp left
      obtain ⟨rfl,after⟩ := List.cons_prefix_cons.mp right
      exact .inr ⟨rfl,r,k,l,lt,before,after⟩
  · rintro (lt | ⟨rfl,r,k,l,lt,left,right⟩)
    · exact ⟨[],i,j,lt,List.cons_prefix_cons.mpr ⟨rfl,List.nil_prefix⟩,List.cons_prefix_cons.mpr ⟨rfl,List.nil_prefix⟩⟩
    · exact ⟨i :: r,k,l,lt,List.cons_prefix_cons.mpr ⟨rfl,left⟩,List.cons_prefix_cons.mpr ⟨rfl,right⟩⟩

instance decidePrecedes : (p q : Place) → Decidable (Precedes p q)
  | _,[] => isFalse not_precedes_nil
  | [],_ :: _ => isFalse not_nil_precedes
  | _ :: p,_ :: q =>
    have := decidePrecedes p q
    decidable_of_iff _ precedes_cons.symm

instance : Decidable (Parent p q) := inferInstanceAs (Decidable (_ ∧ _))

theorem parent_cons : Parent (i :: p) (j :: q) ↔ i = j ∧ Parent p q := by
  unfold Parent
  rw [List.cons_prefix_cons,List.length_cons,List.length_cons,Nat.add_right_cancel_iff,and_assoc]

end Place

namespace Forest

def under (i : Nat) (n : Place × α) : Place × α := (i :: n.1,n.2)

-- The nodes in pre-order with their places, where the first root is number `i`.
def places : Forest α → Nat → List (Place × α)
  | .nil,_ => []
  | .cons a kids right,i => ([i],a) :: ((kids.places 0).map (under i) ++ right.places (i + 1))

-- For each node in pre-order what the nodes from its root down to it hold.
def branches : Forest α → List (List α)
  | .nil => []
  | .cons a kids right => [a] :: (kids.branches.map (a :: ·) ++ right.branches)

theorem branch_ne_nil {f : Forest α} : ∀ {l}, l ∈ f.branches → l ≠ [] := by
  induction f with
  | nil => intro l branch; cases branch
  | cons a kids right _ ih =>
    intro l branch
    rw [branches,List.mem_cons,List.mem_append,List.mem_map] at branch
    rcases branch with rfl | ⟨m,_,rfl⟩ | beside
    · exact List.cons_ne_nil a []
    · exact List.cons_ne_nil a m
    · exact ih beside

-- The branches of the first tree are those up to the next one that has a root alone.
theorem takeWhile_branches (a : α) (kids right : Forest α) :
    (kids.branches.map (a :: ·) ++ right.branches).takeWhile (fun l => 2 ≤ l.length) = kids.branches.map (a :: ·) := by
  have beside : right.branches.takeWhile (fun l => 2 ≤ l.length) = [] := by
    cases right with
    | nil => rfl
    | cons => rfl
  rw [List.takeWhile_append_of_pos,beside,List.append_nil]
  intro l branch
  obtain ⟨m,below,rfl⟩ := List.mem_map.mp branch
  have := List.length_pos_of_ne_nil (branch_ne_nil below)
  exact decide_eq_true (Nat.succ_le_succ this)

theorem branches_inj {f : Forest α} : ∀ {g : Forest α}, f.branches = g.branches → f = g := by
  induction f with
  | nil =>
    intro g same
    cases g with
    | nil => rfl
    | cons => cases same
  | cons a kids right below ih =>
    intro g same
    cases g with
    | nil => cases same
    | cons b kids' right' =>
      obtain ⟨root,rest⟩ := List.cons.inj same
      obtain rfl := (List.cons.inj root).1
      have kidsSame : kids.branches.map (a :: ·) = kids'.branches.map (a :: ·) := by
        rw [←takeWhile_branches a kids right,rest,takeWhile_branches]
      rw [kidsSame] at rest
      rw [below (List.map_injective_iff.mpr (fun l m eq => (List.cons.inj eq).2) kidsSame),
        ih (List.append_cancel_left rest)]

variable {f : Forest Vertex} {n : Place × Vertex} {i q : Nat}

theorem places_preorder (f : Forest α) : ∀ i, (f.places i).map Prod.snd = f.preorder := by
  induction f with
  | nil => intro i; rfl
  | cons a kids right below ih =>
    intro i
    simp only [places,preorder,List.map_cons,List.map_append,List.map_map,ih,←below 0]
    rfl

theorem mem_places_cons {a : α} {kids right : Forest α} {n : Place × α} : n ∈ (Forest.cons a kids right).places i ↔
    n = ([i],a) ∨ (∃ m ∈ kids.places 0, under i m = n) ∨ n ∈ right.places (i + 1) := by
  rw [places,List.mem_cons,List.mem_append,List.mem_map]

-- A node of a list of places is the first root, or stands below it, or further on.
theorem places_cons_split {a : α} {kids right : Forest α} {before after : List (Place × α)} {n : Place × α}
    (split : (Forest.cons a kids right).places i = before ++ n :: after) :
    (before = [] ∧ n = ([i],a)) ∨
    (∃ first m rest, kids.places 0 = first ++ m :: rest ∧ before = ([i],a) :: first.map (under i) ∧ n = under i m) ∨
    ∃ first, right.places (i + 1) = first ++ n :: after ∧
      before = ([i],a) :: ((kids.places 0).map (under i) ++ first) := by
  rw [places] at split
  rcases before with - | ⟨u,before⟩
  · exact .inl ⟨rfl,(List.cons.inj split).1.symm⟩
  · obtain ⟨rfl,beyond⟩ := List.cons.inj split
    right
    rcases List.append_eq_append_iff.mp beyond with ⟨first,rfl,late⟩ | ⟨rest,early,late⟩
    · exact .inr ⟨first,late,rfl⟩
    · cases rest with
      | nil =>
        rw [List.append_nil] at early
        exact .inr ⟨[],late.symm,by rw [early,List.append_nil]⟩
      | cons m rest =>
        obtain ⟨rfl,-⟩ := List.cons.inj late
        obtain ⟨first,_,whole,rfl,place⟩ := List.map_eq_append_iff.mp early
        obtain ⟨m,rest,rfl,rfl,-⟩ := List.map_eq_cons_iff.mp place
        exact .inl ⟨first,m,rest,whole,rfl,rfl⟩

theorem places_append (f g : Forest α) : ∀ i, ∃ j, (f ++ g).places i = f.places i ++ g.places j := by
  induction f with
  | nil => intro i; exact ⟨i,rfl⟩
  | cons a kids right _ ih =>
    intro i
    obtain ⟨j,rest⟩ := ih (i + 1)
    exact ⟨j,by rw [cons_append,places,rest,places,List.cons_append,List.append_assoc]⟩

theorem mem_places_append {f : Forest α} {n : Place × α} (node : n ∈ f.places i) (g : Forest α) :
    n ∈ (f ++ g).places i := by
  obtain ⟨j,both⟩ := places_append f g i
  rw [both]
  exact List.mem_append_left _ node

theorem mem_places_last (f : Forest α) (a : α) (i : Nat) :
    ∃ j, ([j],a) ∈ (f ++ .cons a .nil .nil).places i := by
  obtain ⟨j,both⟩ := places_append f (.cons a .nil .nil) i
  refine ⟨j,?_⟩
  rw [both]
  exact List.mem_append_right _ (.head _)

theorem place_cons {f : Forest α} {n : Place × α} : ∀ {i}, n ∈ f.places i → ∃ j p, i ≤ j ∧ n.1 = j :: p := by
  induction f with
  | nil => intro i node; cases node
  | cons a kids right _ ih =>
    intro i node
    rcases mem_places_cons.mp node with rfl | ⟨m,_,rfl⟩ | node
    · exact ⟨i,[],Nat.le_refl i,rfl⟩
    · exact ⟨i,m.1,Nat.le_refl i,rfl⟩
    · obtain ⟨j,p,later,same⟩ := ih node
      exact ⟨j,p,Nat.le_of_succ_le later,same⟩

-- The trees beside each other do not touch.
theorem beside_apart {right : Forest α} {n : Place × α} (node : n ∈ right.places (i + 1)) (p : Place) :
    ¬ i :: p <+: n.1 ∧ ¬ n.1 <+: i :: p := by
  obtain ⟨j,r,later,place⟩ := place_cons node
  rw [place,List.cons_prefix_cons,List.cons_prefix_cons]
  omega

theorem mem_states_places (f : Forest Vertex) (i : Nat) : q ∈ f.states ↔ ∃ n ∈ f.places i, q ∈ n.2.label := by
  rw [mem_states,←places_preorder f i]
  simp only [List.mem_map,exists_exists_and_eq_and]

theorem mem_cover_places (f : Forest Vertex) :
    ∀ i, q ∈ f.cover ↔ ∃ n ∈ f.places i, n.1.length = 1 ∧ q ∈ n.2.label := by
  induction f with
  | nil => intro i; simp [places]
  | cons v kids right _ ih =>
    intro i
    rw [cover_cons,NatSet.mem_union,ih (i + 1)]
    constructor
    · rintro (held | ⟨n,node,root,held⟩)
      · exact ⟨_,mem_places_cons.mpr (.inl rfl),rfl,held⟩
      · exact ⟨n,mem_places_cons.mpr (.inr (.inr node)),root,held⟩
    · rintro ⟨n,node,root,held⟩
      rcases mem_places_cons.mp node with rfl | ⟨m,deeper,rfl⟩ | node
      · exact .inl held
      · obtain ⟨j,p,_,same⟩ := place_cons deeper
        simp [under,same] at root
      · exact .inr ⟨n,node,root,held⟩

end Forest
end BuchiToRabin
