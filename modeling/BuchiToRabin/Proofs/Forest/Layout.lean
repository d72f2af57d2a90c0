import BuchiToRabin.Forest.Arena
import BuchiToRabin.Proofs.Attempt
namespace BuchiToRabin
namespace Forest

-- One value for each node, in pre-order.
def values (h : α → List β → β) : Forest α → List β
  | .nil => []
  | .cons a kids right => h a (kids.fold h) :: (kids.values h ++ right.values h)

-- The slots from a place on are those of a forest, and its places are theirs.
def StandsAt (slots : List (Slot α)) : Nat → Forest α → Prop
  | _,.nil => True
  | start,.cons a kids right => slots[start]? = some ⟨a,kids.rootPlaces (start + 1)⟩ ∧
    kids.StandsAt slots (start + 1) ∧ right.StandsAt slots (start + 1 + kids.size)

variable {f kids : Forest α} {slots : List (Slot α)} {start depth k : Nat}

-- The places of a first tree and of what is to its right.
theorem add_size_cons (start : Nat) (a : α) (kids right : Forest α) :
    start + (cons a kids right).size = start + 1 + kids.size + right.size := by
  rw [size]
  omega

theorem range'_size_cons (start : Nat) (a : α) (kids right : Forest α) : List.range' start (cons a kids right).size =
    start :: (List.range' (start + 1) kids.size ++ List.range' (start + 1 + kids.size) right.size) := by
  rw [size,List.range'_append_1,Nat.add_assoc,Nat.add_comm 1,List.range'_succ]

@[simp] theorem size_append (g : Forest α) : ∀ f : Forest α, (f ++ g).size = f.size + g.size
  | .nil => (Nat.zero_add _).symm
  | .cons _ kids right => by
    rw [cons_append,size,size,size_append g right]
    omega

@[simp] theorem layout_length (f : Forest α) : ∀ start, (f.layout start).length = f.size := by
  induction f with
  | nil => intro start; rfl
  | cons a kids right below ih =>
    intro start
    rw [layout,List.length_cons,List.length_append,below,ih,size]
    omega

theorem layout_append (g : Forest α) (f : Forest α) : ∀ start,
    (f ++ g).layout start = f.layout start ++ g.layout (start + f.size) := by
  induction f with
  | nil => intro start; rfl
  | cons a kids right _ ih =>
    intro start
    rw [cons_append,layout,layout,ih,add_size_cons,List.cons_append,List.append_assoc]

theorem rootPlaces_append (g : Forest α) (f : Forest α) : ∀ start,
    (f ++ g).rootPlaces start = f.rootPlaces start ++ g.rootPlaces (start + f.size) := by
  induction f with
  | nil => intro start; rfl
  | cons a kids right _ ih =>
    intro start
    rw [cons_append,rootPlaces,rootPlaces,ih,add_size_cons,List.cons_append]

theorem le_of_mem_rootPlaces (f : Forest α) : ∀ {start}, k ∈ f.rootPlaces start → start ≤ k := by
  induction f with
  | nil => intro start root; cases root
  | cons a kids right _ ih =>
    intro start root
    rcases List.mem_cons.mp root with rfl | root
    · exact Nat.le_refl k
    · have := ih root
      omega

theorem map_data_layout (f : Forest α) : ∀ start, (f.layout start).map Slot.data = f.preorder := by
  induction f with
  | nil => intro start; rfl
  | cons a kids right below ih =>
    intro start
    rw [layout,List.map_cons,List.map_append,below,ih,preorder]

@[simp] theorem values_length (h : α → List β → β) : ∀ f : Forest α, (f.values h).length = f.size
  | .nil => rfl
  | .cons _ kids right => by
    rw [values,List.length_cons,List.length_append,values_length h kids,values_length h right,size]
    omega

theorem standsAt_layout (f : Forest α) : ∀ before after : List (Slot α),
    f.StandsAt (before ++ f.layout before.length ++ after) before.length := by
  induction f with
  | nil => intro before after; trivial
  | cons a kids right below ih =>
    intro before after
    let root : Slot α := ⟨a,kids.rootPlaces (before.length + 1)⟩
    have first : (before ++ [root]).length = before.length + 1 := by simp
    have second : (before ++ root :: kids.layout (before.length + 1)).length = before.length + 1 + kids.size := by
      simp only [List.length_append,List.length_cons,layout_length]
      omega
    refine ⟨?_,?_,?_⟩
    · simp [layout]
    · have inner := below (before ++ [root]) (right.layout (before.length + 1 + kids.size) ++ after)
      rw [first] at inner
      simpa [layout,root] using inner
    · have outer := ih (before ++ root :: kids.layout (before.length + 1)) after
      rw [second] at outer
      simpa [layout,root] using outer

namespace StandsAt

-- At each of its places stands a node of the forest.
theorem node (stands : f.StandsAt slots start) (lower : start ≤ k) (upper : k < start + f.size) :
    ∃ a kids, (Forest.cons a kids .nil).StandsAt slots k ∧ kids.size < f.size := by
  induction f generalizing start with
  | nil => rw [size] at upper; omega
  | cons a kids right below ih =>
    obtain ⟨root,kidsStand,rightStands⟩ := stands
    rw [size] at upper ⊢
    by_cases first : k = start
    · subst first
      exact ⟨a,kids,⟨root,kidsStand,trivial⟩,by omega⟩
    · by_cases under : k < start + 1 + kids.size
      · obtain ⟨b,deeper,found,small⟩ := below kidsStand (by omega) under
        exact ⟨b,deeper,found,by omega⟩
      · obtain ⟨b,deeper,found,small⟩ := ih rightStands (by omega) (by omega)
        exact ⟨b,deeper,found,by omega⟩

theorem forestAt (stands : f.StandsAt slots start) (deep : f.size ≤ depth) :
    Layout.forestAt slots depth (f.rootPlaces start) = f := by
  induction f generalizing start depth with
  | nil => cases depth <;> rfl
  | cons a kids right below ih =>
    obtain ⟨root,kidsStand,rightStands⟩ := stands
    rw [size] at deep
    cases depth with
    | zero => omega
    | succ depth =>
      have rest := ih rightStands (show right.size ≤ depth + 1 by omega)
      have under := below kidsStand (show kids.size ≤ depth by omega)
      rw [Layout.forestAt] at rest ⊢
      rw [rootPlaces,List.foldr_cons,root,rest]
      dsimp only
      rw [under]

theorem foldAt (h : α → List β → β) (stands : f.StandsAt slots start) (deep : f.size ≤ depth) :
    Layout.foldAt h slots depth (f.rootPlaces start) = f.fold h := by
  induction f generalizing start depth with
  | nil => cases depth <;> rfl
  | cons a kids right below ih =>
    obtain ⟨root,kidsStand,rightStands⟩ := stands
    rw [size] at deep
    cases depth with
    | zero => omega
    | succ depth =>
      have rest := ih rightStands (show right.size ≤ depth + 1 by omega)
      have under := below kidsStand (show kids.size ≤ depth by omega)
      rw [Layout.foldAt] at rest ⊢
      rw [rootPlaces,List.filterMap_cons,root,Option.map_some,rest,fold,under]

-- A stack that starts with the roots of a forest is left after one visit a node.
theorem walk (stands : f.StandsAt slots start) (fuel : Nat) (stack : List Nat) :
    Layout.walk slots (f.size + fuel) (f.rootPlaces start ++ stack) =
      List.range' start f.size ++ Layout.walk slots fuel stack := by
  induction f generalizing start fuel stack with
  | nil => rw [size,Nat.zero_add]; rfl
  | cons a kids right below ih =>
    obtain ⟨root,kidsStand,rightStands⟩ := stands
    have visits : 1 + kids.size + right.size + fuel = kids.size + (right.size + fuel) + 1 := by omega
    rw [range'_size_cons,size,visits,rootPlaces,List.cons_append,Layout.walk,root]
    dsimp only
    rw [below kidsStand,ih rightStands,List.cons_append,List.append_assoc]

end StandsAt
end Forest

namespace Layout

-- Among the values of a forest, those at the places of its roots.
theorem map_getD_rootPlaces [Inhabited β] (h : α → List β → β) (f : Forest α) :
    ∀ (before after : List β) (start : Nat),
      (f.rootPlaces (start + before.length)).map (fun k => (before ++ f.values h ++ after).getD (k - start) default) =
        f.fold h := by
  induction f with
  | nil => intro before after start; rfl
  | cons a kids right _ ih =>
    intro before after start
    have beyond := ih (before ++ h a (kids.fold h) :: kids.values h) after start
    have count : start + (before ++ h a (kids.fold h) :: kids.values h).length =
        start + before.length + 1 + kids.size := by
      simp only [List.length_append,List.length_cons,Forest.values_length]
      omega
    rw [count] at beyond
    rw [Forest.rootPlaces,List.map_cons,Forest.fold,←beyond]
    congr 1
    · simp [Forest.values]
    · simp [Forest.values]

theorem sweep_layout [Inhabited β] (h : α → List β → β) (f : Forest α) : ∀ (start : Nat) (later : List (Slot α)),
    sweep h start (f.layout start ++ later) = f.values h ++ sweep h (start + f.size) later := by
  induction f with
  | nil => intro start later; rfl
  | cons a kids right below ih =>
    intro start later
    let beyond := right.values h ++ sweep h (start + 1 + kids.size + right.size) later
    have rest : sweep h (start + 1) (kids.layout (start + 1) ++ right.layout (start + 1 + kids.size) ++ later) =
        kids.values h ++ beyond := by
      rw [List.append_assoc,below,ih]
    have kidsValues := map_getD_rootPlaces h kids [] beyond (start + 1)
    rw [List.nil_append,List.length_nil,Nat.add_zero] at kidsValues
    rw [Forest.layout,List.cons_append,sweep,rest,Forest.add_size_cons,Forest.values,List.cons_append,List.append_assoc]
    dsimp only
    rw [kidsValues]

-- Reading a forest off the stack leaves what is below it on the stack, and what is after it in the list.
theorem inOrder_layout (f : Forest α) : ∀ (start : Nat) (stack : List Nat) (later : List (Option (Slot α))),
    inOrder start (f.rootPlaces start ++ stack) ((f.layout start).map some ++ later) =
      inOrder (start + f.size) stack later := by
  induction f with
  | nil => intro start stack later; rfl
  | cons a kids right below ih =>
    intro start stack later
    rw [Forest.rootPlaces,Forest.layout,List.map_cons,List.cons_append,List.cons_append,inOrder,beq_self_eq_true,
      Bool.true_and,List.map_append,List.append_assoc,below,ih,Forest.add_size_cons]

end Layout

namespace Arena

variable {f : Forest α}

-- The arena with a forest written to its end.
def behind (x : Arena α) (f : Forest α) : Arena α := ⟨x.cells ++ (f.layout x.size).map some⟩

theorem behind_nil (x : Arena α) : x.behind .nil = x := by
  rw [behind,Forest.layout,List.map_nil,List.append_nil]

@[simp] theorem size_behind (x : Arena α) (f : Forest α) : (x.behind f).size = x.size + f.size := by
  rw [size,behind,List.length_append,List.length_map,Forest.layout_length,size]

@[simp] theorem size_reserve (x : Arena α) : x.reserve.2.size = x.size + 1 := by
  rw [reserve,size,List.length_append,List.length_singleton,size]

theorem behind_behind (x : Arena α) (f g : Forest α) : (x.behind f).behind g = x.behind (f ++ g) := by
  rw [behind,size_behind,behind,behind,Forest.layout_append,List.map_append,List.append_assoc]

-- A reserved place is filled with a node whose kids were written after it.
theorem fill_behind (x : Arena α) (a : α) (kids : Forest α) :
    (x.reserve.2.behind kids).fill x.size ⟨a,kids.rootPlaces (x.size + 1)⟩ = .ok (x.behind (.cons a kids .nil)) := by
  have later : (kids.rootPlaces (x.size + 1)).all (x.size < ·) = true := by
    rw [List.all_eq_true]
    intro k root
    exact decide_eq_true (Forest.le_of_mem_rootPlaces kids root)
  rw [fill,if_pos later,behind,behind,size_reserve,reserve]
  simp [size,Forest.layout]

theorem cut_behind (x : Arena α) (kids : Forest α) :
    (x.reserve.2.behind kids).cut x.size = (kids.layout (x.size + 1),x.reserve.2) := by
  have count : (x.cells ++ [none]).length = x.size + 1 := by rw [List.length_append,List.length_singleton,size]
  rw [cut,behind,size_reserve,reserve,←count,List.drop_left,List.take_left,List.filterMap_map]
  simp

theorem plant_eq (f : Forest α) : ∀ x : Arena α, plant f x = .ok (f.rootPlaces x.size,x.behind f) := by
  induction f with
  | nil => intro x; rw [behind_nil]; rfl
  | cons a kids right below ih =>
    intro x
    have filled := fill_behind x a kids
    have place : (x.behind (.cons a kids .nil)).size = x.size + 1 + kids.size := by
      rw [size_behind,Forest.add_size_cons,Forest.size,Nat.add_zero]
    rw [plant]
    dsimp only
    rw [below,ok_bind,size_reserve]
    dsimp only
    rw [show x.reserve.1 = x.size from rfl,filled,ok_bind,ih,ok_bind,place,behind_behind]
    rfl

-- Of one tree at most, written to an empty arena, the slots are the layout.
theorem finish_behind (single : f = .nil ∨ ∃ a kids, f = .cons a kids .nil) :
    ((∅ : Arena α).behind f).finish = .ok (f.layout 0) := by
  have cells : ((∅ : Arena α).behind f).cells = (f.layout 0).map some := List.nil_append _
  have ordered : ((∅ : Arena α).behind f).inOrder = true := by
    have all := Layout.inOrder_layout f 0 [] []
    rw [List.append_nil,List.append_nil] at all
    rw [inOrder,cells]
    rcases single with rfl | ⟨a,kids,rfl⟩
    · rfl
    · exact all
  rw [finish,if_pos ordered,cells]
  simp

end Arena
end BuchiToRabin
