import BuchiToRabin.Proofs.Determinization.Acceptance
import BuchiToRabin.Proofs.Tree.Deepest
namespace BuchiToRabin

namespace Step

variable {A : Automaton} {t : Tree}

theorem lit_foldl (A : Automaton) (w : List Nat) : Lit A (w.foldl (next A) (.initial A)).forest := by
  rcases w.eq_nil_or_concat' with rfl | ⟨w,a,rfl⟩
  · exact lit_initial A
  · rw [List.foldl_append]
    exact lit_next (foldl_next_over w (Tree.initial_over A)) a

end Step

namespace Tree

variable {A : Automaton} {t : Tree} {q : Nat}

end Tree

namespace Determinization

variable {A : Automaton} {d : Determinization} {p : RabinPair} {i q : Nat} {t : Tree}

namespace Exact

theorem tree_lit (exact : Exact A d) (held : d.tree i = .ok t) : Lit A t.forest := by
  obtain ⟨positive,small⟩ := (exact.numbers i).mp ⟨t,held⟩
  obtain ⟨w,symbols,path⟩ := exact.reached i positive small
  cases held.symm.trans (exact.follow_tree symbols path)
  exact Step.lit_foldl A w

-- For a final state every tree is on one side.
theorem left_or_right (exact : Exact A d) (held : d.tree i = .ok t) (final : q ∈ A.finals) :
    i ∈ (RabinPair.collect q d.store.entries).left ↔ i ∉ (RabinPair.collect q d.store.entries).right := by
  have fits := exact.tree_over held
  have lit := exact.tree_lit held
  rw [RabinPair.mem_collect_left,RabinPair.mem_collect_right,tree_eq_ok.mp held]
  simp only [Except.ok.injEq,exists_eq_left']
  rw [fits.inLeft_iff,fits.inRight_iff_of_final lit final]

theorem parts (exact : Exact A d) (final : q ∈ A.finals) :
    (RabinPair.collect q d.store.entries).left ∪ (RabinPair.collect q d.store.entries).right = .ofList d.states ∧
      (RabinPair.collect q d.store.entries).left ∩ (RabinPair.collect q d.store.entries).right = ∅ := by
  constructor
  · ext i
    rw [NatSet.mem_union,NatSet.mem_ofList,exact.mem_states]
    constructor
    · rintro (left | right)
      · obtain ⟨t,held,-⟩ := RabinPair.mem_collect_left.mp left
        exact ⟨t,tree_eq_ok.mpr held⟩
      · obtain ⟨t,held,-⟩ := RabinPair.mem_collect_right.mp right
        exact ⟨t,tree_eq_ok.mpr held⟩
    · rintro ⟨t,held⟩
      rw [exact.left_or_right held final]
      exact (Classical.em _).symm
  · rw [NatSet.inter_eq_empty_iff]
    intro i left
    obtain ⟨t,held,-⟩ := RabinPair.mem_collect_left.mp left
    exact (exact.left_or_right (tree_eq_ok.mpr held) final).mp left

end Exact

end Determinization
end BuchiToRabin
