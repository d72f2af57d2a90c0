import Mathlib.Data.Set.Function
import BuchiToRabin.Proofs.NatSet.Algebra
namespace BuchiToRabin.NatSet

def image (f : Nat → Nat) (s : NatSet) : NatSet := .ofList (s.elements.map f)

-- `u` and `w` tell the same of each number below `n`, which `w` knows by its new name.
def Agree (f : Nat → Nat) (n : Nat) (u w : NatSet) : Prop := ∀ q, q < n → (f q ∈ w ↔ q ∈ u)

variable {f : Nat → Nat} {n i q : Nat} {s t u w : NatSet}

@[simp] theorem mem_image : i ∈ s.image f ↔ ∃ q, q ∈ s ∧ f q = i := by
  unfold image
  rw [mem_ofList,List.mem_map]
  simp only [mem_elements]

@[simp] theorem image_empty (f : Nat → Nat) : (∅ : NatSet).image f = ∅ := rfl

@[simp] theorem image_union (f : Nat → Nat) (s t : NatSet) : (s ∪ t).image f = s.image f ∪ t.image f := by
  ext i
  simp only [mem_image,mem_union,or_and_right,exists_or]

theorem image_eq_empty_iff : s.image f = ∅ ↔ s = ∅ := by
  constructor
  · intro nothing
    apply eq_empty_iff.mpr
    intro q present
    exact eq_empty_iff.mp nothing (f q) (mem_image.mpr ⟨q,present,rfl⟩)
  · intro nothing
    rw [nothing,image_empty]

namespace Agree

theorem inter_image (agree : Agree f n u w) (within : s ⊆ .full n) :
    s.image f ∩ w = (s ∩ u).image f := by
  ext i
  simp only [mem_inter,mem_image]
  constructor
  · intro both
    obtain ⟨⟨q,present,rfl⟩,claimed⟩ := both
    exact ⟨q,⟨present,(agree q (mem_full.mp (within q present))).mp claimed⟩,rfl⟩
  · intro both
    obtain ⟨q,⟨present,claimed⟩,rfl⟩ := both
    exact ⟨⟨q,present,rfl⟩,(agree q (mem_full.mp (within q present))).mpr claimed⟩

end Agree

section
variable (one : Set.InjOn f (Set.Iio n))
include one

-- Where no two numbers get one name, a set and its image tell the same.
theorem agree_image (within : s ⊆ .full n) : Agree f n s (s.image f) := by
  intro q small
  rw [mem_image]
  constructor
  · intro named
    obtain ⟨p,present,same⟩ := named
    rw [←one (mem_full.mp (within p present)) small same]
    exact present
  · intro present
    exact ⟨q,present,rfl⟩

theorem image_inj (within : s ⊆ .full n) (within' : t ⊆ .full n) : s.image f = t.image f ↔ s = t := by
  constructor
  · intro same
    ext q
    by_cases small : q < n
    · rw [←agree_image one within q small,same,agree_image one within' q small]
    · exact iff_of_false (fun present => small (mem_full.mp (within q present)))
        (fun present => small (mem_full.mp (within' q present)))
  · intro same
    rw [same]

theorem Agree.sdiff_image (agree : Agree f n u w) (within : s ⊆ .full n) :
    Agree f n (u \ s) (w \ s.image f) := by
  intro q small
  rw [mem_sdiff,mem_sdiff,agree q small,agree_image one within q small]

end
end BuchiToRabin.NatSet
