import Mathlib.Data.Finset.Lattice.Fold
import Mathlib.Order.Monotone.Basic
namespace BuchiToRabin.InfinitePath

-- Nodes stand in levels, and edges lead from a level to the one after it.
variable {α : Type u} {level : Nat → α → Prop} {edge : Nat → α → α → Prop}

-- What holds of some element of a finite set at every stage, and once lost stays lost, holds of one
-- element at all stages.
theorem exists_forall_of_finite {P : Nat → α → Prop} (bound : Finset α)
    (shrinks : ∀ m s, P (m + 1) s → P m s) (held : ∀ m, ∃ s ∈ bound, P m s) :
    ∃ s ∈ bound, ∀ m, P m s := by
  by_contra none
  push Not at none
  choose! last lost using none
  obtain ⟨s,inside,holds⟩ := held (bound.sup last)
  have earlier : last s ≤ bound.sup last := Finset.le_sup inside
  have descends : Antitone fun m => P m s := antitone_nat_of_succ_le fun m => shrinks m s
  exact lost s inside (descends earlier holds)

-- Edges lead on from a node of level `k` for `m` levels more.
def Lasts (level : Nat → α → Prop) (edge : Nat → α → α → Prop) : Nat → Nat → α → Prop
  | 0,k,s => level k s
  | m+1,k,s => level k s ∧ ∃ r, edge k s r ∧ Lasts level edge m (k + 1) r

theorem Lasts.here {m : Nat} : ∀ {k s}, Lasts level edge m k s → level k s := by
  intro k s lasts
  cases m with
  | zero => exact lasts
  | succ m => exact lasts.1

theorem Lasts.shorter {m : Nat} : ∀ {k s}, Lasts level edge (m + 1) k s → Lasts level edge m k s := by
  induction m with
  | zero =>
    intro k s lasts
    exact lasts.1
  | succ m ih =>
    intro k s lasts
    obtain ⟨here,r,goes,rest⟩ := lasts
    exact ⟨here,r,goes,ih rest⟩

theorem exists_lasts (filled : ∀ k, ∃ s, level k s)
    (back : ∀ k r, level (k + 1) r → ∃ s, level k s ∧ edge k s r) (m : Nat) :
    ∀ k, ∃ s, Lasts level edge m k s := by
  induction m with
  | zero => exact filled
  | succ m ih =>
    intro k
    obtain ⟨r,lasts⟩ := ih (k + 1)
    obtain ⟨s,here,goes⟩ := back k r lasts.here
    exact ⟨s,here,r,goes,lasts⟩

-- Where every level is finite and has a node, and every node has an edge into it, there is an infinite
-- path.
theorem exists_path (bound : Finset α) (finite : ∀ k s, level k s → s ∈ bound)
    (filled : ∀ k, ∃ s, level k s) (back : ∀ k r, level (k + 1) r → ∃ s, level k s ∧ edge k s r) :
    ∃ path : Nat → α, ∀ k, level k (path k) ∧ edge k (path k) (path (k + 1)) := by
  have first : ∃ s ∈ bound, ∀ m, Lasts level edge m 0 s := by
    refine exists_forall_of_finite bound (fun m s => Lasts.shorter) ?_
    intro m
    obtain ⟨s,lasts⟩ := exists_lasts filled back m 0
    exact ⟨s,finite 0 s lasts.here,lasts⟩
  have onward : ∀ k s, (∀ m, Lasts level edge m k s) →
      ∃ r, edge k s r ∧ ∀ m, Lasts level edge m (k + 1) r := by
    intro k s endless
    have held : ∀ m, ∃ r ∈ bound, edge k s r ∧ Lasts level edge m (k + 1) r := by
      intro m
      obtain ⟨-,r,goes,rest⟩ := endless (m + 1)
      exact ⟨r,finite (k + 1) r rest.here,goes,rest⟩
    obtain ⟨r,-,all⟩ := exists_forall_of_finite bound (fun m r both => ⟨both.1,both.2.shorter⟩) held
    exact ⟨r,(all 0).1,fun m => (all m).2⟩
  obtain ⟨start,-,begins⟩ := first
  choose next goes lasts using onward
  let path : (k : Nat) → {s // ∀ m, Lasts level edge m k s} := fun k =>
    Nat.rec (motive := fun k => {s // ∀ m, Lasts level edge m k s}) ⟨start,begins⟩
      (fun k s => ⟨next k s.1 s.2,lasts k s.1 s.2⟩) k
  exact ⟨fun k => (path k).1,fun k => ⟨(path k).2 0,goes k (path k).1 (path k).2⟩⟩

end BuchiToRabin.InfinitePath
