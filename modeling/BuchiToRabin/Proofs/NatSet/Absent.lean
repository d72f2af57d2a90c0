import Mathlib.Data.Nat.Nth
import BuchiToRabin.Proofs.NatSet.Algebra
namespace BuchiToRabin.NatSet

-- The numbers that are not in the set, in ascending order.
def absent : NatSet → Nat → Nat
  | s,0 => s.firstAbsent
  | s,k+1 => (s.insert s.firstAbsent).absent k

def takeAbsent (s : NatSet) (k : Nat) : NatSet := s ∪ .ofList ((List.range k).map s.absent)

variable {s : NatSet} {i j k : Nat}

theorem mem_takeAbsent : i ∈ s.takeAbsent k ↔ i ∈ s ∨ ∃ j < k, s.absent j = i := by
  rw [takeAbsent,mem_union,mem_ofList,List.mem_map]
  simp only [List.mem_range]

@[simp] theorem takeAbsent_zero (s : NatSet) : s.takeAbsent 0 = s := union_empty s

theorem takeAbsent_succ (s : NatSet) (k : Nat) : s.takeAbsent (k + 1) = (s.takeAbsent k).insert (s.absent k) := by
  ext i
  rw [mem_insert,mem_takeAbsent,mem_takeAbsent]
  constructor
  · rintro (old | ⟨j,before,rfl⟩)
    · exact .inr (.inl old)
    · rcases Nat.lt_succ_iff_lt_or_eq.mp before with earlier | rfl
      · exact .inr (.inr ⟨j,earlier,rfl⟩)
      · exact .inl rfl
  · rintro (rfl | old | ⟨j,before,rfl⟩)
    · exact .inr ⟨k,Nat.lt_succ_self k,rfl⟩
    · exact .inl old
    · exact .inr ⟨j,Nat.lt_succ_of_lt before,rfl⟩

theorem takeAbsent_insert (s : NatSet) (k : Nat) :
    (s.insert s.firstAbsent).takeAbsent k = s.takeAbsent (k + 1) := by
  induction k with
  | zero => rw [takeAbsent_zero,takeAbsent_succ,takeAbsent_zero]; rfl
  | succ k ih => rw [takeAbsent_succ,ih,takeAbsent_succ s (k + 1)]; rfl

theorem firstAbsent_takeAbsent (k : Nat) : ∀ s : NatSet, (s.takeAbsent k).firstAbsent = s.absent k := by
  induction k with
  | zero => intro s; rw [takeAbsent_zero]; rfl
  | succ k ih => intro s; rw [←takeAbsent_insert,ih]; rfl

theorem takeAbsent_mono (le : j ≤ k) : s.takeAbsent j ⊆ s.takeAbsent k := by
  intro i present
  rw [mem_takeAbsent] at present ⊢
  exact present.imp_right fun ⟨l,before,same⟩ => ⟨l,Nat.lt_of_lt_of_le before le,same⟩

theorem absent_not_mem (s : NatSet) (k : Nat) : s.absent k ∉ s.takeAbsent k := by
  rw [←firstAbsent_takeAbsent]
  exact firstAbsent_not_mem _

theorem mem_takeAbsent_of_lt (below : i < s.absent k) : i ∈ s.takeAbsent k :=
  mem_of_lt_firstAbsent (firstAbsent_takeAbsent k s ▸ below)

theorem absent_strictMono (s : NatSet) : StrictMono s.absent := by
  intro j k lt
  by_contra le
  have taken : s.absent k ∈ s.takeAbsent (j + 1) := by
    rw [takeAbsent_succ,mem_insert]
    rcases Nat.eq_or_lt_of_le (Nat.le_of_not_lt le) with same | below
    · exact .inl same
    · exact .inr (mem_takeAbsent_of_lt below)
  exact absent_not_mem s k (takeAbsent_mono lt _ taken)

theorem absent_eq_nth (s : NatSet) (k : Nat) : s.absent k = Nat.nth (· ∉ s) k := by
  induction k using Nat.strongRecOn with
  | ind k ih =>
    have new := absent_not_mem s k
    rw [mem_takeAbsent,not_or] at new
    have least : IsLeast {i | i ∉ s ∧ ∀ j < k, Nat.nth (· ∉ s) j < i} (s.absent k) := by
      refine ⟨⟨new.1,?_⟩,?_⟩
      · intro j before
        rw [←ih j before]
        exact absent_strictMono s before
      · intro i other
        by_contra smaller
        rcases mem_takeAbsent.mp (mem_takeAbsent_of_lt (Nat.lt_of_not_le smaller)) with old | ⟨j,before,rfl⟩
        · exact other.1 old
        · have apart := other.2 j before
          rw [←ih j before] at apart
          exact Nat.lt_irrefl _ apart
    rw [Nat.nth_eq_sInf]
    exact least.csInf_eq.symm

end BuchiToRabin.NatSet
