import Mathlib.Data.Finset.Card
import BuchiToRabin.NatSet.Lemmas
namespace BuchiToRabin.NatSet

variable {s t u : NatSet} {i n : Nat}

attribute [grind =] mem_union mem_inter mem_sdiff mem_insert mem_erase mem_full
attribute [grind .] not_mem_empty
attribute [grind ext] ext

@[grind =] theorem subset_iff : s ⊆ t ↔ ∀ i, i ∈ s → i ∈ t := Iff.rfl

@[simp] theorem union_empty (s : NatSet) : s ∪ ∅ = s := by grind
@[simp] theorem empty_union (s : NatSet) : ∅ ∪ s = s := by grind
@[simp] theorem empty_inter (s : NatSet) : ∅ ∩ s = ∅ := by grind
@[simp] theorem empty_sdiff (s : NatSet) : ∅ \ s = ∅ := by grind
@[simp] theorem sdiff_empty (s : NatSet) : s \ ∅ = s := by grind

theorem sdiff_sdiff (s t u : NatSet) : (s \ t) \ u = s \ (t ∪ u) := by grind

theorem ne_empty_iff : s ≠ ∅ ↔ ∃ i, i ∈ s := by
  rw [Ne,eq_empty_iff]
  simp

theorem inter_eq_empty_iff : s ∩ t = ∅ ↔ ∀ i ∈ s, i ∉ t := by
  simp [eq_empty_iff]

theorem intersects_eq_false_iff : s.intersects t = false ↔ ∀ i ∈ s, i ∉ t := by
  rw [←Bool.not_eq_true,intersects_iff]
  simp

-- Sizes are those of finite sets: `card` counts the elements listed once each.
theorem card_eq_toFinset (s : NatSet) : s.card = s.elements.toFinset.card := by
  rw [List.toFinset_card_of_nodup s.elements_nodup,elements_length]

@[simp] theorem card_empty : (∅ : NatSet).card = 0 := by
  rw [←elements_length,elements_empty,List.length_nil]

theorem card_le_of_subset (sub : s ⊆ t) : s.card ≤ t.card := by
  rw [card_eq_toFinset,card_eq_toFinset]
  apply Finset.card_le_card
  intro i present
  simpa using sub i (by simpa using present)

theorem eq_of_subset_of_card_le (sub : s ⊆ t) (small : t.card ≤ s.card) : s = t := by
  rw [card_eq_toFinset,card_eq_toFinset] at small
  have within : s.elements.toFinset ⊆ t.elements.toFinset := by
    intro i present
    simpa using sub i (by simpa using present)
  have same := Finset.eq_of_subset_of_card_le within small
  ext i
  simpa using Finset.ext_iff.mp same i

theorem card_lt_of_subset (sub : s ⊆ t) (ne : s ≠ t) : s.card < t.card := by
  have le := card_le_of_subset sub
  have : ¬ t.card ≤ s.card := fun small => ne (eq_of_subset_of_card_le sub small)
  omega

theorem card_union (apart : ∀ i ∈ s, i ∉ t) : (s ∪ t).card = s.card + t.card := by
  rw [card_eq_toFinset,card_eq_toFinset,card_eq_toFinset,←Finset.card_union_of_disjoint]
  · congr 1
    ext i
    simp
  · rw [Finset.disjoint_left]
    intro i left
    simpa using apart i (by simpa using left)

theorem card_insert (absent : i ∉ s) : (s.insert i).card = s.card + 1 := by
  have single : (s.insert i).elements.toFinset = Insert.insert i s.elements.toFinset := by
    ext j
    simp
  rw [card_eq_toFinset,card_eq_toFinset,single,Finset.card_insert_of_notMem (by simpa using absent)]

@[simp] theorem card_full (n : Nat) : (full n).card = n := by
  have range : (full n).elements.toFinset = Finset.range n := by
    ext i
    simp
  rw [card_eq_toFinset,range,Finset.card_range]

theorem card_sub_card_sdiff (s t : NatSet) : s.card - (s \ t).card = (t ∩ s).card := by
  have parts : s = (s \ t) ∪ (t ∩ s) := by grind
  have apart : ∀ i ∈ s \ t, i ∉ t ∩ s := by grind
  have whole := congrArg card parts
  rw [card_union apart] at whole
  omega

-- All numbers below the first absent one are in, so there are no more of them than elements.
theorem firstAbsent_le_card (s : NatSet) : s.firstAbsent ≤ s.card := by
  have below : full s.firstAbsent ⊆ s := fun i present => mem_of_lt_firstAbsent (mem_full.mp present)
  simpa using card_le_of_subset below

theorem firstAbsent_full (n : Nat) : (full n).firstAbsent = n := by
  have absent := (full n).firstAbsent_not_mem
  rw [mem_full] at absent
  by_contra other
  have below : n < (full n).firstAbsent := by omega
  exact absurd (mem_full.mp (mem_of_lt_firstAbsent below)) (Nat.lt_irrefl n)

end BuchiToRabin.NatSet
