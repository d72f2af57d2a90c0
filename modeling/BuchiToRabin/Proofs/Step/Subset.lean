import BuchiToRabin.Acceptance
import BuchiToRabin.Proofs.Step.Acceptance
namespace BuchiToRabin

namespace Tree

variable {A : Automaton} {t : Tree} {r : Node} {q : Nat}

theorem cover_of_root (root : t.root = some r) : t.forest.cover = r.top.label := by
  unfold forest
  rw [root]
  exact NatSet.union_empty _

theorem cover_of_rootless (root : t.root = none) : t.forest.cover = ∅ := by
  unfold forest
  rw [root]
  rfl

theorem isDead_iff_root : t.isDead = true ↔ t.root = none := Option.isNone_iff_eq_none

-- The root of a tree holds something, so the tree without a root is the one that holds nothing.
theorem Over.isDead_iff (fits : t.Over A) : t.isDead = true ↔ t.forest.cover = ∅ := by
  rw [isDead_iff_root]
  constructor
  · exact cover_of_rootless
  · intro empty
    cases root : t.root with
    | none => rfl
    | some r =>
      rw [cover_of_root root] at empty
      have lawful := fits.lawful
      unfold forest at lawful
      rw [root] at lawful
      exact absurd empty lawful.1.filled

-- Whatever a node holds, the root holds too.
theorem Over.inLeft_iff (fits : t.Over A) : t.inLeft q = true ↔ q ∉ t.forest.cover := by
  rw [←fits.nested.states_eq_cover,Forest.mem_states]
  unfold inLeft vertices
  rw [List.all_eq_true]
  constructor
  · intro missed held
    obtain ⟨v,node,own⟩ := held
    have out := missed v node
    rw [show v.label.contains q = true from own] at out
    cases out
  · intro missed v node
    cases own : v.label.contains q with
    | false => rfl
    | true => exact absurd ⟨v,node,own⟩ missed

end Tree

namespace Step

variable {A : Automaton} {t : Tree} {q : Nat}

theorem cover_next (fits : t.Over A) (a : Nat) : (next A t a).forest.cover = A.post a t.forest.cover :=
  fits.cover_step (step_eq_next fits .fused a)

-- The roots of the trees along a word hold the ends of all paths from the states held at first: none is lost
-- when nodes merge, are pruned or collapse.
theorem mem_cover_foldl (w : List Nat) : ∀ {t : Tree}, t.Over A →
    (q ∈ (w.foldl (next A) t).forest.cover ↔ ∃ p ∈ t.forest.cover, A.Reads p w q) := by
  induction w with
  | nil =>
    intro t _
    constructor
    · intro held
      exact ⟨q,held,.stay⟩
    · intro found
      obtain ⟨p,held,reads⟩ := found
      cases reads
      exact held
  | cons a w ih =>
    intro t fits
    rw [List.foldl_cons,ih (next_over fits a),cover_next fits]
    constructor
    · intro found
      obtain ⟨p,reached,reads⟩ := found
      obtain ⟨o,held,moves⟩ := Automaton.mem_post.mp reached
      exact ⟨o,held,.move moves reads⟩
    · intro found
      obtain ⟨o,held,reads⟩ := found
      cases reads with
      | move moves reads => exact ⟨_,Automaton.mem_post.mpr ⟨o,held,moves⟩,reads⟩

theorem mem_cover_iff_reaches (w : List Nat) :
    q ∈ (w.foldl (next A) (.initial A)).forest.cover ↔ A.Reaches w q := by
  rw [mem_cover_foldl w (Tree.initial_over A),Tree.initial_cover]
  rfl

theorem next_dead (dead : t.root = none) (a : Nat) : next A t a = .dead := by
  unfold next grown
  rw [dead]
  rfl

end Step
end BuchiToRabin
