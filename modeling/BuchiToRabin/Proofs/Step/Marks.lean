import BuchiToRabin.Proofs.Step.Subset
namespace BuchiToRabin

-- Every final state that a root holds is held by a marked node. This one may be fresh, or have been marked
-- over its kids, and which of the two is not said.
def Lit (A : Automaton) (f : Forest Vertex) : Prop :=
  ∀ q ∈ f.cover, q ∈ A.finals → ∃ v kids, f.Has v kids ∧ v.marked = true ∧ q ∈ v.label

namespace Lit

variable {A : Automaton} {f g kids right : Forest Vertex} {v : Vertex} {q : Nat}

theorem nil (A : Automaton) : Lit A .nil := fun _ none => absurd none NatSet.not_mem_empty

theorem append (left : Lit A f) (right : Lit A g) : Lit A (f ++ g) := by
  intro q held final
  rw [Forest.cover_append,NatSet.mem_union] at held
  rcases held with held | held
  · obtain ⟨v,kids,has,marked,own⟩ := left q held final
    exact ⟨v,kids,Forest.has_append.mpr (.inl has),marked,own⟩
  · obtain ⟨v,kids,has,marked,own⟩ := right q held final
    exact ⟨v,kids,Forest.has_append.mpr (.inr has),marked,own⟩

theorem marked (marked : v.marked = true) (beside : Lit A right) : Lit A (.cons v kids right) := by
  intro q held final
  rw [Forest.cover_cons,NatSet.mem_union] at held
  rcases held with own | held
  · exact ⟨v,kids,.root,marked,own⟩
  · obtain ⟨w,deeper,has,marked,own⟩ := beside q held final
    exact ⟨w,deeper,.beside has,marked,own⟩

-- A node need not be marked if its kids hold all its final states.
theorem covered (sub : v.label ∩ A.finals ⊆ kids.cover) (below : Lit A kids) (beside : Lit A right) :
    Lit A (.cons v kids right) := by
  intro q held final
  rw [Forest.cover_cons,NatSet.mem_union] at held
  rcases held with own | held
  · obtain ⟨w,deeper,has,marked,own⟩ := below q (sub q (NatSet.mem_inter.mpr ⟨own,final⟩)) final
    exact ⟨w,deeper,.under has,marked,own⟩
  · obtain ⟨w,deeper,has,marked,own⟩ := beside q held final
    exact ⟨w,deeper,.beside has,marked,own⟩

end Lit

namespace Step

variable {A : Automaton} {f g : Forest Vertex} {used named after label : NatSet} {fresh : Option Vertex}
  {t : Tree}

-- A fresh node is marked, and stays so if it stays.
theorem Buds.lit (buds : Buds A label used fresh named) (unseen : NatSet) : Lit A (kept (kid fresh) unseen) := by
  cases buds with
  | rest apart => exact .nil A
  | grow meets free =>
    unfold kid kept
    dsimp only
    split
    · exact .nil A
    · split
      · exact .marked rfl (.nil A)
      · exact .marked rfl (.nil A)

-- The fresh node below a node holds all its final states, before any state is claimed further left.
theorem Grows.lit (grows : Grows A f used g after) : ∀ unseen, Lit A (kept g unseen) := by
  induction grows with
  | nil => intro unseen; exact .nil A
  | cons bud below beside belowLit besideLit =>
    rename_i _ fresh _ _ kids' _ _ _ _ v
    intro unseen
    by_cases gone : v.label ∩ unseen = ∅
    · rw [kept_gone gone]
      exact besideLit _
    · by_cases covered : (kids' ++ kid fresh).cover ∩ unseen = v.label ∩ unseen
      · rw [kept_covered gone covered]
        exact .marked rfl (besideLit _)
      · rw [kept_open gone covered]
        refine .covered ?_ ?_ (besideLit _)
        · rw [cover_kept,Forest.cover_append,bud.cover_kid]
          show v.label ∩ unseen ∩ A.finals ⊆ _
          grind
        · rw [kept_append]
          exact .append (belowLit unseen) (bud.lit _)

theorem lit_next (fits : t.Over A) (a : Nat) : Lit A (next A t a).forest := by
  obtain ⟨g,reserved,grows,same⟩ := (fits.step_exact .fused).mp (step_eq_next fits .fused a)
  rw [same,forest_outcome grows]
  exact grows.lit _

theorem lit_initial (A : Automaton) : Lit A (Tree.initial A).forest := by
  unfold Tree.initial
  dsimp only
  split
  · exact .nil A
  · split
    · rename_i apart
      refine .covered ?_ (.nil A) (.nil A)
      show A.initial ∩ A.finals ⊆ _
      rw [apart]
      exact fun _ present => present
    · split
      · exact .marked rfl (.nil A)
      · exact .marked rfl (.nil A)

theorem lit_trees (A : Automaton) (w : Nat → Nat) (i : Nat) : Lit A (trees A w i).forest := by
  cases i with
  | zero => exact lit_initial A
  | succ i => exact lit_next (trees_over A w i) (w i)

end Step

namespace Tree

variable {A : Automaton} {t : Tree} {q : Nat}

theorem inRight_iff : t.inRight q = true ↔ ∃ v kids, t.forest.Has v kids ∧ v.marked = true ∧ q ∈ v.label := by
  unfold inRight vertices
  simp only [List.any_eq_true,Bool.and_eq_true,Forest.mem_preorder_iff]
  constructor
  · intro found
    obtain ⟨v,⟨kids,has⟩,marked,own⟩ := found
    exact ⟨v,kids,has,marked,own⟩
  · intro found
    obtain ⟨v,kids,has,marked,own⟩ := found
    exact ⟨v,⟨kids,has⟩,marked,own⟩

-- For a final state the marks tell no more than the root does.
theorem Over.inRight_iff_of_final (fits : t.Over A) (lit : Lit A t.forest) (final : q ∈ A.finals) :
    t.inRight q = true ↔ q ∈ t.forest.cover := by
  rw [inRight_iff]
  constructor
  · intro found
    obtain ⟨v,kids,has,-,own⟩ := found
    rw [←fits.nested.states_eq_cover]
    exact has.label_subset q own
  · intro held
    exact lit q held final

end Tree
end BuchiToRabin
