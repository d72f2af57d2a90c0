import Mathlib.Order.Bounds.Basic
import BuchiToRabin.NatSet.Registers
import BuchiToRabin.Proofs.NatSet.Block
namespace BuchiToRabin

-- Which finite set a block stands for, whatever words it has for it.
structure Block.Packs (b : Block) (s : Finset Nat) : Prop where
  mem : ∀ i, b.contains i = true ↔ i ∈ s
  count : b.count = s.card

namespace Block.Packs

variable {a b : Block} {s t : Finset Nat}

theorem empty : Block.empty.Packs ∅ := ⟨fun i => by simp [contains_empty],rfl⟩

theorem reserve (n : Nat) : (Block.reserve n).Packs ∅ := ⟨fun i => by simp [contains_reserve],rfl⟩

theorem full (filled : Block.full n = .ok b) : b.Packs (.range n) := by
  refine ⟨fun i => by simp [contains_full filled],?_⟩
  obtain ⟨-,rfl⟩ := full_eq_ok.mp filled
  exact (Finset.card_range n).symm

theorem clear (b : Block) : b.clear.Packs ∅ := ⟨fun i => by simp [contains_clear],rfl⟩

theorem insert (packs : b.Packs s) (i : Nat) : (b.insert i).2.Packs (Insert.insert i s) := by
  refine ⟨fun j => ?_,?_⟩
  · rw [contains_insert,Bool.or_eq_true,decide_eq_true_eq,packs.mem,Finset.mem_insert]
  · unfold Block.insert
    dsimp only
    rw [contains_grow]
    by_cases present : b.contains i = true
    · rw [if_pos present,Finset.insert_eq_of_mem ((packs.mem i).mp present)]
      exact packs.count
    · rw [if_neg present,Finset.card_insert_of_notMem fun member => present ((packs.mem i).mpr member)]
      exact congrArg (· + 1) packs.count

theorem insertAll (is : List Nat) : ∀ {b s}, Packs b s → (b.insertAll is).Packs (s ∪ is.toFinset) := by
  induction is with
  | nil =>
    intro b s packs
    rw [List.toFinset_nil,Finset.union_empty]
    exact packs
  | cons i is ih =>
    intro b s packs
    rw [List.toFinset_cons,Finset.union_insert,←Finset.insert_union]
    exact ih (packs.insert i)

theorem erase (packs : b.Packs s) (i : Nat) : (b.erase i).2.Packs (s.erase i) := by
  refine ⟨fun j => ?_,?_⟩
  · rw [contains_erase,Bool.and_eq_true,decide_eq_true_eq,packs.mem,Finset.mem_erase]
  · unfold Block.erase
    by_cases present : b.contains i = true
    · rw [if_pos present,Finset.card_erase_of_mem ((packs.mem i).mp present)]
      exact congrArg (· - 1) packs.count
    · rw [if_neg present,Finset.erase_eq_of_notMem fun member => present ((packs.mem i).mpr member)]
      exact packs.count

-- What is counted afresh is counted rightly.
theorem combine {f : UInt64 → UInt64 → UInt64} (mem : ∀ i, (Block.combine f a b).contains i = true ↔ i ∈ s) :
    (Block.combine f a b).Packs s := ⟨mem,weigh_eq_card mem⟩

theorem union (left : a.Packs s) (right : b.Packs t) : (a.union b).Packs (s ∪ t) := by
  apply combine
  intro i
  rw [←Block.union,contains_union,Bool.or_eq_true,left.mem,right.mem,Finset.mem_union]

theorem inter (left : a.Packs s) (right : b.Packs t) : (a.inter b).Packs (s ∩ t) := by
  apply combine
  intro i
  rw [←Block.inter,contains_inter,Bool.and_eq_true,left.mem,right.mem,Finset.mem_inter]

theorem diff (left : a.Packs s) (right : b.Packs t) : (a.diff b).Packs (s \ t) := by
  apply combine
  intro i
  rw [←Block.diff,contains_diff,Bool.and_eq_true,Bool.not_eq_true',←Bool.not_eq_true,left.mem,right.mem,
    Finset.mem_sdiff]

theorem contains_eq (packs : b.Packs s) (i : Nat) : b.contains i = decide (i ∈ s) :=
  Bool.eq_iff_iff.mpr ((packs.mem i).trans decide_eq_true_iff.symm)

theorem insert_fst (packs : b.Packs s) (i : Nat) : (b.insert i).1 = decide (i ∉ s) := by
  unfold Block.insert
  dsimp only
  rw [contains_grow,packs.contains_eq]
  by_cases member : i ∈ s <;> simp [member]

theorem erase_fst (packs : b.Packs s) (i : Nat) : (b.erase i).1 = decide (i ∈ s) := by
  unfold Block.erase
  rw [packs.contains_eq]
  by_cases member : i ∈ s <;> simp [member]

theorem isEmpty_eq (packs : b.Packs s) : b.isEmpty = decide (s = ∅) := by
  rw [isEmpty,packs.count,Bool.eq_iff_iff,beq_iff_eq,Finset.card_eq_zero,decide_eq_true_eq]

theorem intersects_eq (left : a.Packs s) (right : b.Packs t) : a.intersects b = decide (s ∩ t).Nonempty := by
  rw [Bool.eq_iff_iff,intersects_iff,decide_eq_true_eq]
  simp only [left.mem,right.mem,Finset.Nonempty,Finset.mem_inter]

theorem subset_eq (left : a.Packs s) (right : b.Packs t) : a.subset b = decide (s ⊆ t) := by
  rw [Bool.eq_iff_iff,subset_iff,decide_eq_true_eq]
  simp only [left.mem,right.mem,Finset.subset_iff]

theorem elements_eq (packs : b.Packs s) : b.elements = s.sort := by
  obtain ⟨ascending,mem⟩ := b.elements_exact
  have same : b.elements.toFinset = s := by
    ext i
    rw [List.mem_toFinset,mem,packs.mem]
  rw [←same]
  exact ((List.toFinset_sort _ (ascending.imp fun lt => Nat.ne_of_lt lt)).mpr
    (ascending.imp fun lt => Nat.le_of_lt lt)).symm

theorem min?_eq_some (packs : b.Packs s) (i : Nat) : b.min? = some i ↔ IsLeast (s : Set Nat) i := by
  obtain ⟨ascending,mem⟩ := b.elements_exact
  have member (j : Nat) : j ∈ b.elements ↔ j ∈ s := (mem j).trans (packs.mem j)
  rw [min?_eq]
  cases listed : b.elements with
  | nil =>
    rw [listed] at member
    exact ⟨nofun,fun least => absurd ((member i).mpr least.1) List.not_mem_nil⟩
  | cons j later =>
    rw [listed] at member ascending
    obtain ⟨first,-⟩ := List.pairwise_cons.mp ascending
    have least : IsLeast (s : Set Nat) j := by
      refine ⟨(member j).mp List.mem_cons_self,?_⟩
      intro k present
      rcases List.mem_cons.mp ((member k).mpr present) with rfl | after
      · exact Nat.le_refl _
      · exact Nat.le_of_lt (first k after)
    rw [List.head?_cons,Option.some.injEq]
    constructor
    · rintro rfl
      exact least
    · exact fun other => least.unique other

theorem firstAbsent_least (packs : b.Packs s) : IsLeast {i | i ∉ s} b.firstAbsent := by
  obtain ⟨absent,below⟩ := b.firstAbsent_exact
  refine ⟨fun member => ?_,fun i missing => ?_⟩
  · rw [(packs.mem _).mpr member] at absent
    cases absent
  · by_contra smaller
    exact missing ((packs.mem i).mp (below i (Nat.lt_of_not_le smaller)))

end Block.Packs

namespace Registers

-- The set that a command leaves in its register, were there sets in all of them.
def Command.outcome (S : Nat → Finset Nat) : Command → Finset Nat
  | .empty _ | .reserve _ _ | .clear _ => ∅
  | .full _ n => .range n
  | .collect _ is => is.toFinset
  | .extend r is => S r ∪ is.toFinset
  | .copy _ a => S a
  | .insert r i => Insert.insert i (S r)
  | .erase r i => (S r).erase i
  | .union r a => S r ∪ S a
  | .inter r a => S r ∩ S a
  | .diff r a => S r \ S a
  | .meet _ a b => S a ∩ S b
  | .contains r _ | .isEmpty r | .min r | .firstAbsent r | .render r | .intersects r _ | .subset r _
  | .same r _ => S r

def Command.apply (S : Nat → Finset Nat) (c : Command) : Nat → Finset Nat :=
  Function.update S c.register (c.outcome S)

-- All registers are empty to begin with.
def sets (cs : List Command) : Nat → Finset Nat := cs.foldl Command.apply fun _ => ∅

-- A full set of the greatest sizes cannot be had: its size rounded up is past the last word there is.
def Command.Fits : Command → Prop
  | .full _ n => n + 63 < 2 ^ 64
  | _ => True

instance : DecidablePred Command.Fits := fun c => by
  cases c with
  | full r n => exact inferInstanceAs (Decidable (n + 63 < 2 ^ 64))
  | _ => exact inferInstanceAs (Decidable True)

-- The sets with commands that fail left out.
def Command.keep (S : Nat → Finset Nat) (c : Command) : Nat → Finset Nat := if c.Fits then c.apply S else S

def Packed (rs : Registers) (S : Nat → Finset Nat) : Prop := ∀ r, (rs.block r).Packs (S r)

theorem packed_start : Packed start fun _ => ∅ := fun _ => .empty

variable {rs : Registers} {S : Nat → Finset Nat}

theorem result_full {r n : Nat} (fits : n + 63 < 2 ^ 64) : ∃ b, rs.result (.full r n) = .ok b :=
  ⟨_,Block.full_eq_ok.mpr ⟨Block.reserved_iff.mpr fits,rfl⟩⟩

-- Nothing else fails.
theorem result_fits (rs : Registers) (c : Command) : (∃ b, rs.result c = .ok b) ↔ c.Fits := by
  cases c with
  | full r n =>
    constructor
    · rintro ⟨b,filled⟩
      exact Block.reserved_iff.mp (Block.full_eq_ok.mp filled).1
    · exact result_full
  | _ => exact iff_of_true ⟨_,rfl⟩ trivial

theorem Packed.result {b : Block} {c : Command} (packed : Packed rs S) (done : rs.result c = .ok b) :
    b.Packs (c.outcome S) := by
  cases c with
  | full r n => exact .full done
  | empty r => cases done; exact .empty
  | reserve r n => cases done; exact .reserve n
  | collect r is =>
    cases done
    have collected := Block.Packs.empty.insertAll is
    rwa [Finset.empty_union] at collected
  | extend r is => cases done; exact (packed r).insertAll is
  | clear r => cases done; exact .clear _
  | copy r a => cases done; exact packed a
  | insert r i => cases done; exact (packed r).insert i
  | erase r i => cases done; exact (packed r).erase i
  | union r a => cases done; exact (packed r).union (packed a)
  | inter r a => cases done; exact (packed r).inter (packed a)
  | diff r a => cases done; exact (packed r).diff (packed a)
  | meet r a b => cases done; exact (packed a).inter (packed b)
  | contains r | isEmpty r | min r | firstAbsent r | render r | intersects r | subset r | same r =>
    cases done; exact packed r

theorem Packed.step (packed : Packed rs S) (c : Command) : Packed (rs.step c) (c.keep S) := by
  intro q
  cases done : rs.result c with
  | error p =>
    have short : ¬ c.Fits := fun fits => by
      obtain ⟨b,other⟩ := (result_fits rs c).mpr fits
      cases done.symm.trans other
    simpa [Registers.step,done,Command.keep,short] using packed q
  | ok b =>
    have fits : c.Fits := (result_fits rs c).mp ⟨b,done⟩
    by_cases own : q = c.register
    · subst own
      simpa [Registers.step,done,set,Command.keep,fits,Command.apply] using packed.result done
    · simpa [Registers.step,done,set,Command.keep,fits,Command.apply,own] using packed q

theorem Packed.run (cs : List Command) : ∀ {rs S}, Packed rs S → Packed (rs.run cs) (cs.foldl Command.keep S) := by
  induction cs with
  | nil => intro rs S packed; exact packed
  | cons c cs ih => intro rs S packed; exact ih (packed.step c)

theorem Packed.min (packed : Packed rs S) (r : Nat) : ∃ least, rs.answer (.min r) = .least least ∧
    (least = none ↔ S r = ∅) ∧ ∀ i, least = some i ↔ IsLeast (S r : Set Nat) i := by
  refine ⟨_,rfl,?_,(packed r).min?_eq_some⟩
  rw [Block.min?_eq,(packed r).elements_eq,List.head?_eq_none_iff,←List.length_eq_zero_iff,Finset.length_sort,
    Finset.card_eq_zero]

end Registers
end BuchiToRabin
