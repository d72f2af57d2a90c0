import Mathlib.Data.Finset.Prod
import BuchiToRabin.Proofs.Automaton.InfinitePath
import BuchiToRabin.Proofs.Automaton.Post
namespace BuchiToRabin.Automaton

variable {A : Automaton} {w : Nat → Nat}

theorem Accepts.word (accepts : A.Accepts w) : A.Word w := by
  obtain ⟨run,⟨-,moves⟩,-⟩ := accepts
  intro i
  exact (A.edge_lt _ _ _ (moves i)).2

def AcceptsFrom (A : Automaton) (q : Nat) (w : Nat → Nat) : Prop :=
  ∃ run : Nat → Nat, run 0 = q ∧ (∀ i, A.Moves (run i) (w i) (run (i + 1))) ∧ ∀ i, ∃ j, i ≤ j ∧ run j ∈ A.finals

theorem AcceptsFrom.accepts {q : Nat} (accepts : A.AcceptsFrom q w) (start : q ∈ A.initial) :
    A.Accepts w := by
  obtain ⟨run,rfl,moves,often⟩ := accepts
  exact ⟨run,⟨start,moves⟩,often⟩

theorem AcceptsFrom.before {q p : Nat} (accepts : A.AcceptsFrom p fun i => w (i + 1))
    (first : A.Moves q (w 0) p) : A.AcceptsFrom q w := by
  obtain ⟨run,rfl,moves,often⟩ := accepts
  refine ⟨fun i => if i = 0 then q else run (i - 1),rfl,?_,?_⟩
  · intro i
    cases i with
    | zero => exact first
    | succ i => exact moves i
  · intro i
    obtain ⟨j,later,final⟩ := often i
    exact ⟨j + 1,by omega,final⟩

-- What is reached from initial states can be gone back to them.
theorem accepts_of_reached (reached : Nat → NatSet) (first : reached 0 ⊆ A.initial)
    (moves : ∀ i, reached (i + 1) ⊆ A.post (w i) (reached i)) (n : Nat) :
    ∀ q ∈ reached n, A.AcceptsFrom q (fun i => w (n + i)) → A.Accepts w := by
  induction n with
  | zero =>
    intro q held accepts
    simp only [Nat.zero_add] at accepts
    exact accepts.accepts (first q held)
  | succ n ih =>
    intro p held accepts
    obtain ⟨q,earlier,goes⟩ := mem_post.mp (moves n p held)
    have shifted : (fun i => w (n + 1 + i)) = fun i => w (n + (i + 1)) := by
      funext i
      congr 1
      omega
    rw [shifted] at accepts
    exact ih q earlier (AcceptsFrom.before (w := fun i => w (n + i)) accepts goes)

-- Sets of states along a word. `visited` holds those with a path to them that has met a final state since
-- the last break; there is a break when that is so for all states held, and then it is forgotten.
structure Breakpoints (A : Automaton) (w : Nat → Nat) (held visited : Nat → NatSet) (breaks : Nat → Prop) :
    Prop where
  filled : ∀ k, held k ≠ ∅
  moves : ∀ k, held (k + 1) ⊆ A.post (w k) (held k)
  inside : ∀ k, visited k ⊆ held k
  visits : ∀ k, visited (k + 1) ⊆ A.post (w k) (visited k) ∪ (A.post (w k) (held k) ∩ A.finals)
  complete : ∀ k, breaks (k + 1) →
    held (k + 1) ⊆ A.post (w k) (visited k) ∪ (A.post (w k) (held k) ∩ A.finals)
  forgets : ∀ k, breaks k → visited k = ∅
  often : ∀ k, ∃ j, k ≤ j ∧ breaks j

namespace Breakpoints

variable {held visited : Nat → NatSet} {breaks : Nat → Prop}

-- A state held, with a flag that may be up if a final state was met since the last break, and has to be
-- up at a break.
def Flagged (held visited : Nat → NatSet) (breaks : Nat → Prop) (k : Nat) (s : Nat × Bool) : Prop :=
  s.1 ∈ held k ∧ (s.2 = true → s.1 ∈ visited k ∨ breaks k) ∧ (breaks k → s.2 = true)

-- A final state puts the flag up. It stays up as long as there is no break.
def Goes (A : Automaton) (w : Nat → Nat) (breaks : Nat → Prop) (k : Nat) (s r : Nat × Bool) : Prop :=
  A.Moves s.1 (w k) r.1 ∧ (r.2 = true → r.1 ∈ A.finals ∨ s.2 = true ∧ ¬ breaks k)

theorem exists_flagged {k q : Nat} (present : q ∈ held k) : ∃ b, Flagged held visited breaks k (q,b) := by
  by_cases breaking : breaks k
  · exact ⟨true,present,fun _ => .inr breaking,fun _ => rfl⟩
  · exact ⟨false,present,nofun,fun broken => absurd broken breaking⟩

theorem back (points : Breakpoints A w held visited breaks) (k : Nat) (r : Nat × Bool)
    (flagged : Flagged held visited breaks (k + 1) r) :
    ∃ s, Flagged held visited breaks k s ∧ Goes A w breaks k s r := by
  obtain ⟨p,b⟩ := r
  obtain ⟨present,up,forced⟩ := flagged
  cases b with
  | false =>
    obtain ⟨q,earlier,moves⟩ := mem_post.mp (points.moves k p present)
    obtain ⟨c,flagged⟩ := exists_flagged earlier
    exact ⟨(q,c),flagged,moves,nofun⟩
  | true =>
    have met : p ∈ A.post (w k) (visited k) ∪ (A.post (w k) (held k) ∩ A.finals) := by
      rcases up rfl with met | breaking
      · exact points.visits k p met
      · exact points.complete k breaking p present
    rcases NatSet.mem_union.mp met with before | now
    · obtain ⟨q,met,moves⟩ := mem_post.mp before
      have unbroken : ¬ breaks k := by
        intro breaking
        rw [points.forgets k breaking] at met
        exact NatSet.not_mem_empty met
      exact ⟨(q,true),⟨points.inside k q met,fun _ => .inl met,fun _ => rfl⟩,moves,fun _ => .inr ⟨rfl,unbroken⟩⟩
    · obtain ⟨reached,final⟩ := NatSet.mem_inter.mp now
      obtain ⟨q,earlier,moves⟩ := mem_post.mp reached
      obtain ⟨c,flagged⟩ := exists_flagged earlier
      exact ⟨(q,c),flagged,moves,fun _ => .inl final⟩

-- A flag that is up some time after a break was put up by a final state after that break.
theorem exists_final {path : Nat → Nat × Bool} (goes : ∀ k, Goes A w breaks k (path k) (path (k + 1)))
    {i : Nat} (breaking : breaks i) (d : Nat) :
    (path (i + 1 + d)).2 = true → ∃ j, i ≤ j ∧ (path j).1 ∈ A.finals := by
  induction d with
  | zero =>
    intro up
    rcases (goes i).2 up with final | ⟨-,unbroken⟩
    · exact ⟨i + 1,by omega,final⟩
    · exact absurd breaking unbroken
  | succ d ih =>
    intro up
    rcases (goes (i + 1 + d)).2 up with final | ⟨earlier,-⟩
    · exact ⟨i + 1 + d + 1,by omega,final⟩
    · exact ih earlier

-- Finite paths exist that meet a final state between any two breaks, so there is an infinite one.
theorem accepts (points : Breakpoints A w held visited breaks) : ∃ q ∈ held 0, A.AcceptsFrom q w := by
  have finite : ∀ k s, Flagged held visited breaks k s →
      s ∈ (held 0 ∪ .full A.stateCount).elements.toFinset ×ˢ ({false,true} : Finset Bool) := by
    intro k s flagged
    have present : s.1 ∈ held 0 ∪ .full A.stateCount := by
      cases k with
      | zero => exact NatSet.mem_union.mpr (.inl flagged.1)
      | succ k => exact NatSet.mem_union.mpr (.inr (A.post_subset_full _ _ _ (points.moves k _ flagged.1)))
    simpa using present
  have filled : ∀ k, ∃ s, Flagged held visited breaks k s := by
    intro k
    obtain ⟨q,present⟩ := NatSet.ne_empty_iff.mp (points.filled k)
    obtain ⟨b,flagged⟩ := exists_flagged present
    exact ⟨(q,b),flagged⟩
  obtain ⟨path,along⟩ := InfinitePath.exists_path _ finite filled points.back
  refine ⟨(path 0).1,(along 0).1.1,fun i => (path i).1,rfl,fun i => (along i).2.1,?_⟩
  intro i
  obtain ⟨j,later,breaking⟩ := points.often i
  obtain ⟨k,last,again⟩ := points.often (j + 1)
  obtain ⟨d,rfl⟩ := Nat.exists_eq_add_of_le last
  obtain ⟨l,after,final⟩ := exists_final (fun k => (along k).2) breaking d ((along (j + 1 + d)).1.2.2 again)
  exact ⟨l,by omega,final⟩

end Breakpoints
end BuchiToRabin.Automaton
