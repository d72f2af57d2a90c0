namespace BuchiToRabin

-- Ordered trees side by side: the first has root `a` over `kids`, the others stand in `right`.
inductive Forest (α : Type u) where
  | nil
  | cons (a : α) (kids right : Forest α)
deriving DecidableEq

namespace Forest

instance : EmptyCollection (Forest α) := ⟨.nil⟩
instance : Inhabited (Forest α) := ⟨.nil⟩

def append : Forest α → Forest α → Forest α
  | .nil,g => g
  | .cons a kids right,g => .cons a kids (append right g)

instance : Append (Forest α) := ⟨append⟩

@[simp] theorem nil_append (g : Forest α) : .nil ++ g = g := rfl
@[simp] theorem cons_append (a : α) (kids right g : Forest α) :
    .cons a kids right ++ g = .cons a kids (right ++ g) := rfl

theorem append_nil : ∀ f : Forest α, f ++ .nil = f
  | .nil => rfl
  | .cons _ _ right => by rw [cons_append,append_nil right]

theorem append_assoc (g h : Forest α) : ∀ f : Forest α, f ++ g ++ h = f ++ (g ++ h)
  | .nil => rfl
  | .cons _ _ right => by simp only [cons_append,append_assoc g h right]

def isEmpty : Forest α → Bool
  | .nil => true
  | .cons .. => false

def size : Forest α → Nat
  | .nil => 0
  | .cons _ kids right => 1 + kids.size + right.size

def map (f : α → β) : Forest α → Forest β
  | .nil => .nil
  | .cons a kids right => .cons (f a) (kids.map f) (right.map f)

-- Every node before its kids, kids from left to right.
def preorder : Forest α → List α
  | .nil => []
  | .cons a kids right => a :: (kids.preorder ++ right.preorder)

-- One value for each tree, made from the root and the values of the kids.
def fold (f : α → List β → β) : Forest α → List β
  | .nil => []
  | .cons a kids right => f a (kids.fold f) :: right.fold f

@[simp] theorem preorder_length : ∀ f : Forest α, f.preorder.length = f.size
  | .nil => rfl
  | .cons _ kids right => by
    simp only [preorder,size,List.length_cons,List.length_append,preorder_length kids,preorder_length right]
    omega

@[simp] theorem preorder_append (g : Forest α) : ∀ f : Forest α, (f ++ g).preorder = f.preorder ++ g.preorder
  | .nil => rfl
  | .cons _ _ right => by simp [preorder,preorder_append g right]

@[simp] theorem preorder_map (f : α → β) : ∀ g : Forest α, (g.map f).preorder = g.preorder.map f
  | .nil => rfl
  | .cons _ kids right => by simp [map,preorder,preorder_map f kids,preorder_map f right]

end Forest
end BuchiToRabin
