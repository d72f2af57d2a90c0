import Mathlib.Data.Finite.Prod
import BuchiToRabin.Proofs.Step.Run
namespace BuchiToRabin

theorem NatSet.finite_within (n : Nat) : {s : NatSet | s ⊆ .full n}.Finite := by
  refine ((Set.finite_lt_nat (2 ^ n)).image NatSet.mk).subset ?_
  intro s within
  refine ⟨s.bits,Nat.lt_pow_two_of_testBit _ ?_,rfl⟩
  intro i high
  cases present : s.bits.testBit i with
  | false => rfl
  | true => exact absurd (NatSet.mem_full.mp (within i present)) (Nat.not_lt.mpr high)

theorem Vertex.finite_within (names states : Nat) :
    {v : Vertex | v.name < names ∧ v.label ⊆ .full states}.Finite := by
  have parts := (Set.finite_lt_nat names).prod ((NatSet.finite_within states).prod (Set.finite_univ (α := Bool)))
  refine (parts.image fun p => ⟨p.1,p.2.1,p.2.2⟩).subset ?_
  intro v small
  obtain ⟨name,label⟩ := small
  exact ⟨(v.name,v.label,v.marked),⟨name,label,trivial⟩,rfl⟩

-- By induction on the number of nodes: a forest is empty, or has a first root and two smaller forests.
theorem Forest.finite_over {α : Type} {nodes : Set α} (finite : nodes.Finite) (n : Nat) :
    {f : Forest α | f.size ≤ n ∧ ∀ v ∈ f.preorder, v ∈ nodes}.Finite := by
  induction n with
  | zero =>
    refine (Set.finite_singleton .nil).subset ?_
    intro f small
    cases f with
    | nil => rfl
    | cons v kids right =>
      have none := small.1
      rw [size] at none
      omega
  | succ n ih =>
    refine (((finite.prod (ih.prod ih)).image fun p => .cons p.1 p.2.1 p.2.2).insert .nil).subset ?_
    intro f small
    obtain ⟨size_le,inside⟩ := small
    cases f with
    | nil => exact .inl rfl
    | cons v kids right =>
      rw [size] at size_le
      simp only [preorder,List.mem_cons,List.mem_append] at inside
      have below : kids.size ≤ n := by omega
      have beside : right.size ≤ n := by omega
      refine .inr ⟨(v,kids,right),⟨inside v (.inl rfl),⟨below,?_⟩,beside,?_⟩,rfl⟩
      · exact fun w deeper => inside w (.inr (.inl deeper))
      · exact fun w later => inside w (.inr (.inr later))

namespace Tree

variable {A : Automaton} {t u : Tree} {a : Nat}

theorem ofForest_forest (t : Tree) : .ofForest t.forest t.used = t := by
  obtain ⟨root,used⟩ := t
  cases root <;> rfl

-- There are finitely many nodes to choose from, and no more of them in a tree than states.
theorem finite_over (A : Automaton) : {t : Tree | t.Over A ∧ t.used ⊆ .full A.nameCount}.Finite := by
  have nodes := Vertex.finite_within A.nameCount A.stateCount
  have parts := (Forest.finite_over nodes A.stateCount).prod (NatSet.finite_within A.nameCount)
  refine (parts.image fun p => .ofForest p.1 p.2).subset ?_
  intro t fits
  obtain ⟨fits,named⟩ := fits
  refine ⟨(t.forest,t.used),⟨⟨fits.size_le,?_⟩,named⟩,t.ofForest_forest⟩
  intro v node
  constructor
  · have own : v.name ∈ t.used := by
      rw [fits.used]
      exact Forest.mem_nameList.mp (List.mem_map_of_mem node)
    exact NatSet.mem_full.mp (named _ own)
  · exact labels_within_iff.mp fits.within v node

-- The trees along the finite words, where a method is chosen for each symbol.
def Reachable (A : Automaton) (t : Tree) : Prop :=
  ∃ w : List (Method × Nat), (∀ step ∈ w, step.2 ∈ A.symbols) ∧ Step.runBy A (.initial A) w = .ok t

theorem reachable_iff :
    t.Reachable A ↔ ∃ w : List Nat, (∀ a ∈ w, a ∈ A.symbols) ∧ t = w.foldl (Step.next A) (.initial A) := by
  constructor
  · intro reached
    obtain ⟨w,symbols,ran⟩ := reached
    rw [Step.runBy_eq_next A w (initial_over A)] at ran
    refine ⟨w.map Prod.snd,?_,(Except.ok.inj ran).symm⟩
    intro a listed
    obtain ⟨step,taken,rfl⟩ := List.mem_map.mp listed
    exact symbols step taken
  · intro reached
    obtain ⟨w,symbols,rfl⟩ := reached
    refine ⟨w.map (.fused,·),?_,?_⟩
    · intro step listed
      obtain ⟨a,taken,rfl⟩ := List.mem_map.mp listed
      exact symbols a taken
    · rw [←Step.run_eq_runBy,Step.run_eq_next .fused A w (initial_over A)]

theorem reachable_initial (A : Automaton) : (initial A).Reachable A := ⟨[],nofun,rfl⟩

namespace Reachable

theorem next (reached : t.Reachable A) (symbol : a ∈ A.symbols) : (Step.next A t a).Reachable A := by
  obtain ⟨w,symbols,rfl⟩ := reachable_iff.mp reached
  refine reachable_iff.mpr ⟨w ++ [a],?_,?_⟩
  · intro b listed
    rcases List.mem_append.mp listed with old | last
    · exact symbols b old
    · rw [List.mem_singleton.mp last]
      exact symbol
  · rw [List.foldl_append]
    rfl

theorem fits (reached : t.Reachable A) : t.Over A := by
  obtain ⟨w,-,rfl⟩ := reachable_iff.mp reached
  exact Step.foldl_next_over w (initial_over A)

theorem named (reached : t.Reachable A) : t.used ⊆ .full A.nameCount := by
  obtain ⟨w,-,rfl⟩ := reachable_iff.mp reached
  exact Step.foldl_next_named w (initial_over A) (initial_named A)

end Reachable

theorem finite_reachable (A : Automaton) : {t : Tree | t.Reachable A}.Finite :=
  (finite_over A).subset fun _ reached => ⟨reached.fits,reached.named⟩

end Tree
end BuchiToRabin
