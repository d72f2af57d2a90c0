import BuchiToRabin.Proofs.NatSet.Algebra
import BuchiToRabin.Tree.Basic
namespace BuchiToRabin.Forest

def cover : Forest Vertex → NatSet
  | .nil => ∅
  | .cons v _ right => v.label ∪ right.cover

-- Every kid's label lies in its parent's label. Siblings may overlap, labels may be empty and names
-- may repeat.
def Nested : Forest Vertex → Prop
  | .nil => True
  | .cons v kids right => kids.cover ⊆ v.label ∧ kids.Nested ∧ right.Nested

instance decideNested : (f : Forest Vertex) → Decidable f.Nested
  | .nil => isTrue trivial
  | .cons v kids right =>
    have := decideNested kids
    have := decideNested right
    inferInstanceAs (Decidable (kids.cover ⊆ v.label ∧ kids.Nested ∧ right.Nested))

@[simp] theorem cover_nil : (Forest.nil : Forest Vertex).cover = ∅ := rfl
@[simp] theorem cover_cons (v : Vertex) (kids right : Forest Vertex) :
    (Forest.cons v kids right).cover = v.label ∪ right.cover := rfl
@[simp] theorem states_nil : (Forest.nil : Forest Vertex).states = ∅ := rfl
@[simp] theorem states_cons (v : Vertex) (kids right : Forest Vertex) :
    (Forest.cons v kids right).states = v.label ∪ (kids.states ∪ right.states) := rfl
@[simp] theorem names_nil : (Forest.nil : Forest Vertex).names = ∅ := rfl
@[simp] theorem names_cons (v : Vertex) (kids right : Forest Vertex) :
    (Forest.cons v kids right).names = (kids.names ∪ right.names).insert v.name := rfl
@[simp] theorem nested_nil : (Forest.nil : Forest Vertex).Nested := trivial
@[simp] theorem nested_cons {v : Vertex} {kids right : Forest Vertex} :
    (Forest.cons v kids right).Nested ↔ kids.cover ⊆ v.label ∧ kids.Nested ∧ right.Nested := Iff.rfl

@[simp] theorem cover_append (g f : Forest Vertex) : (f ++ g).cover = f.cover ∪ g.cover := by
  induction f with
  | nil => simp
  | cons v kids right _ ih => simp only [cons_append,cover_cons,ih]; grind

@[simp] theorem names_append (g f : Forest Vertex) : (f ++ g).names = f.names ∪ g.names := by
  induction f with
  | nil => simp
  | cons v kids right _ ih => simp only [cons_append,names_cons,ih]; grind

theorem nested_append {f g : Forest Vertex} : (f ++ g).Nested ↔ f.Nested ∧ g.Nested := by
  induction f with
  | nil => simp
  | cons v kids right _ ih => simp only [cons_append,nested_cons,ih,and_assoc]

theorem Nested.states_eq_cover {f : Forest Vertex} (nested : f.Nested) : f.states = f.cover := by
  induction f with
  | nil => rfl
  | cons v kids right below ih =>
    obtain ⟨inside,kidsNested,rightNested⟩ := nested
    rw [states_cons,cover_cons,below kidsNested,ih rightNested]
    grind

end BuchiToRabin.Forest
