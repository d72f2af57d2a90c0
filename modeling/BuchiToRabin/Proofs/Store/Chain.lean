import Mathlib.Data.List.Basic
import BuchiToRabin.Store.Basic
namespace BuchiToRabin.Store

-- The indices on the way from `i` to the end of its chain.
inductive Follows (s : Store α) : Nat → List Nat → Prop where
  | stop : Follows s 0 []
  | on : s.next i = .ok j → Follows s j is → Follows s i (i :: is)

variable {α : Type u} {s t : Store α} {v : α} {i j k c last : Nat} {is js : List Nat}

theorem value_succ_eq_ok {i : Nat} : s.value (i + 1) = .ok v ↔ s.values[i]? = some v := by
  rw [value]
  cases s.values[i]? with
  | none => simp
  | some w => simp

theorem value_ok_pos (held : s.value i = .ok v) : 1 ≤ i ∧ i ≤ s.count := by
  cases i with
  | zero => cases held
  | succ i =>
    obtain ⟨inside,-⟩ := Array.getElem?_eq_some_iff.mp (value_succ_eq_ok.mp held)
    exact ⟨by omega,inside⟩

theorem exists_value (positive : 1 ≤ i) (inside : i ≤ s.count) : ∃ v, s.value i = .ok v := by
  obtain ⟨i,rfl⟩ := Nat.exists_eq_add_of_le' positive
  exact ⟨_,value_succ_eq_ok.mpr (Array.getElem?_eq_getElem (Nat.lt_of_succ_le inside))⟩

theorem next_eq_ok : s.next i = .ok j ↔ (1 ≤ i ∧ i ≤ s.count) ∧ s.link (i - 1) = j := by
  unfold next
  cases held : s.value i with
  | error e =>
    refine ⟨nofun,fun found => ?_⟩
    obtain ⟨v,present⟩ := exists_value found.1.1 found.1.2
    cases held.symm.trans present
  | ok v =>
    constructor
    · intro same
      exact ⟨value_ok_pos held,Except.ok.inj same⟩
    · intro found
      rw [found.2]

theorem next_congr (positive : 1 ≤ i) (inside : i ≤ s.count) (more : s.count ≤ t.count)
    (same : t.link (i - 1) = s.link (i - 1)) : t.next i = s.next i := by
  have old : s.next i = .ok (s.link (i - 1)) := next_eq_ok.mpr ⟨⟨positive,inside⟩,rfl⟩
  rw [old]
  exact next_eq_ok.mpr ⟨⟨positive,Nat.le_trans inside more⟩,same⟩

-- Links lead on.
theorem next_later (next : s.next i = .ok j) : j = 0 ∨ i < j ∧ j ≤ s.count := by
  obtain ⟨inside,rfl⟩ := next_eq_ok.mp next
  rcases s.link_le (i - 1) with none | ⟨later,small⟩
  · exact .inl none
  · exact .inr ⟨by omega,small⟩

namespace Follows

theorem inside (path : s.Follows i is) : ∀ k ∈ is, 1 ≤ k ∧ i ≤ k ∧ k ≤ s.count := by
  induction path with
  | stop => nofun
  | on next rest ih =>
    rename_i i j is
    obtain ⟨here,-⟩ := next_eq_ok.mp next
    intro k listed
    rcases List.mem_cons.mp listed with rfl | later
    · exact ⟨here.1,Nat.le_refl k,here.2⟩
    · have bounds := ih k later
      rcases next_later next with rfl | ⟨less,-⟩
      · cases rest with
        | stop => cases later
        | on next' _ => cases next'
      · omega

theorem ascending (path : s.Follows i is) : is.Pairwise (· < ·) := by
  induction path with
  | stop => exact .nil
  | on next rest ih =>
    refine .cons ?_ ih
    intro k later
    have bounds := rest.inside k later
    rcases next_later next with rfl | ⟨less,-⟩
    · cases rest with
      | stop => cases later
      | on next' _ => cases next'
    · omega

theorem frame (path : s.Follows i is) (same : ∀ k ∈ is, t.next k = s.next k) : t.Follows i is := by
  induction path with
  | stop => exact .stop
  | on next _ ih => exact .on ((same _ (.head _)).trans next) (ih fun k later => same k (.tail _ later))

-- A chain goes on where its last link is turned.
theorem extend (path : s.Follows i is) (ending : is.getLast? = some last)
    (same : ∀ k ∈ is, k ≠ last → t.next k = s.next k) (turned : t.next last = .ok j) (more : t.Follows j js) :
    t.Follows i (is ++ js) := by
  induction path with
  | stop => cases ending
  | on next rest ih =>
    rename_i i k is
    cases is with
    | nil =>
      cases ending
      exact .on turned more
    | cons l is =>
      rw [List.getLast?_cons_cons] at ending
      have less := List.rel_of_pairwise_cons (ascending (.on next rest)) (List.mem_of_getLast? ending)
      refine .on ((same i (.head _) (Nat.ne_of_lt less)).trans next) (ih ending ?_)
      intro m later
      exact same m (.tail _ later)

end Follows

section
variable [BEq α]

def holds (s : Store α) (v : α) (i : Nat) : Bool := match s.value i with
  | .ok w => v == w
  | .error _ => false

theorem holds_of_value {w : α} (held : s.value i = .ok w) : s.holds v i = (v == w) := by
  rw [holds,held]

-- The first of the listed indices that holds a value equal to `v`.
def among (s : Store α) (v : α) (is : List Nat) : Option Nat := is.find? (s.holds v)

-- A search along a chain stops at the first equal value, or else at the last index.
theorem Follows.seek (path : s.Follows i is) : ∀ {last} (le : last ≤ s.values.size) (inside : i ≤ s.values.size),
    (∀ k, s.among v is = some k → s.seek v last le i inside = .found k) ∧
      (s.among v is = none → ∃ le', s.seek v last le i inside = .ending (is.getLastD last) le') := by
  induction path with
  | stop =>
    intro last le inside
    rw [Store.seek]
    refine ⟨?_,fun _ => ⟨le,rfl⟩⟩
    intro k found
    cases found
  | on next rest ih =>
    rename_i i j is
    intro last le inside
    obtain ⟨here,rfl⟩ := next_eq_ok.mp next
    obtain ⟨i,rfl⟩ := Nat.exists_eq_add_of_le' here.1
    have held : s.holds v (i + 1) = (v == s.values[i]) :=
      holds_of_value (value_succ_eq_ok.mpr (Array.getElem?_eq_getElem inside))
    rw [Store.seek,among,List.find?_cons,held,List.getLastD_cons]
    cases v == s.values[i] with
    | true =>
      refine ⟨fun k same => congrArg Spot.found (Option.some.inj same),?_⟩
      intro absent
      cases absent
    | false => exact ih inside (s.link_le_size i)

variable [Fingerprint α]

theorem Follows.find_eq (path : s.Follows (s.head (s.chainOf v)) is) : s.find v = s.among v is := by
  have search := path.seek (v := v) (Nat.zero_le _) (s.head_le _)
  rw [find,locate]
  cases looked : s.among v is with
  | some k => rw [search.1 k looked]
  | none =>
    obtain ⟨le,ended⟩ := search.2 looked
    rw [ended]

end
end BuchiToRabin.Store
