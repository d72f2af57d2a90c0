import BuchiToRabin.Proofs.Step.Preservation
namespace BuchiToRabin

namespace Forest

theorem mem_states {q : Nat} {f : Forest Vertex} : q ∈ f.states ↔ ∃ v ∈ f.preorder, q ∈ v.label := by
  induction f with
  | nil => simp [preorder]
  | cons v kids right below ih =>
    simp only [states_cons,NatSet.mem_union,below,ih,preorder,List.mem_cons,List.mem_append]
    grind

end Forest

namespace Tree

theorem labels_within_iff {t : Tree} {s : NatSet} :
    t.forest.states ⊆ s ↔ ∀ v ∈ t.vertices, v.label ⊆ s := by
  constructor
  · intro within v node q held
    exact within q (Forest.mem_states.mpr ⟨v,node,held⟩)
  · intro within q held
    obtain ⟨v,node,held⟩ := Forest.mem_states.mp held
    exact within v node q held

theorem initial_over (A : Automaton) : (initial A).Over A := by
  have initial_lt : A.initial ⊆ .full A.stateCount := fun q start =>
    NatSet.mem_full.mpr (A.initial_lt q start)
  unfold initial
  dsimp only
  split
  · exact ⟨⟨trivial,.nil,rfl⟩,fun _ none => absurd none NatSet.not_mem_empty⟩
  · rename_i filled
    have leaf (marked : Bool) : (ofRoot (.leaf ⟨0,A.initial,marked⟩)).Over A := by
      refine ⟨⟨⟨Vertex.heads_nil filled,trivial,trivial⟩,?_,rfl⟩,?_⟩
      · simp [forest,ofRoot,Node.forest,Node.leaf]
      · simpa [forest,ofRoot,Node.forest,Node.leaf] using initial_lt
    split
    · exact leaf false
    · rename_i meets
      split
      · exact leaf true
      · rename_i rest
        have heads : Vertex.Heads ⟨0,A.initial,true⟩ (.cons ⟨1,A.initial ∩ A.finals,false⟩ .nil .nil) := by
          refine ⟨filled,?_,?_,⟨fun _ _ => NatSet.not_mem_empty,trivial⟩⟩
          · simp only [Forest.cover_cons,Forest.cover_nil]; grind
          · simpa using rest
        refine ⟨⟨⟨heads,⟨Vertex.heads_nil meets,trivial,trivial⟩,trivial⟩,?_,rfl⟩,?_⟩
        · simp [forest,ofRoot,Node.forest]
        · simp only [forest,ofRoot,Node.forest,Forest.states_cons,Forest.states_nil]
          grind

-- Two names are enough to begin with, and there are two as soon as there is a state.
theorem initial_named (A : Automaton) : (initial A).used ⊆ .full A.nameCount := by
  unfold initial
  dsimp only
  split
  · exact fun _ none => absurd none NatSet.not_mem_empty
  · rename_i filled
    obtain ⟨q,start⟩ := NatSet.ne_empty_iff.mp filled
    have room : 1 < A.nameCount := by
      have := A.initial_lt q start
      unfold Automaton.nameCount
      omega
    split
    · simp only [ofRoot,Node.leaf,Node.names,Node.forest,Forest.names_cons,Forest.names_nil]; grind
    · split
      · simp only [ofRoot,Node.leaf,Node.names,Node.forest,Forest.names_cons,Forest.names_nil]; grind
      · simp only [ofRoot,Node.names,Node.forest,Forest.names_cons,Forest.names_nil]; grind

theorem Over.named_step {A : Automaton} {a : Nat} {t u : Tree} {m : Method} (fits : t.Over A)
    (named : t.used ⊆ .full A.nameCount) (ran : m.step A a t = .ok u) : u.used ⊆ .full A.nameCount := by
  obtain ⟨g,reserved,grows,rfl⟩ := (fits.step_exact m).mp ran
  have := grows.after_subset named
  rw [Step.used_outcome]
  grind

end Tree

namespace Step

variable {A : Automaton}

-- The tree after a step, where no method is to be named.
def next (A : Automaton) (t : Tree) (a : Nat) : Tree := (grown A a t).toOption.getD default

theorem step_eq_next {t : Tree} (fits : t.Over A) (m : Method) (a : Nat) :
    m.step A a t = .ok (next A t a) := by
  obtain ⟨u,ran,-⟩ := fits.step m a
  rw [ran,next,←fits.step_eq_grown m,ran]
  rfl

theorem next_over {t : Tree} (fits : t.Over A) (a : Nat) : (next A t a).Over A :=
  fits.of_step (step_eq_next fits .fused a)

theorem next_named {t : Tree} (fits : t.Over A) (named : t.used ⊆ .full A.nameCount) (a : Nat) :
    (next A t a).used ⊆ .full A.nameCount :=
  fits.named_step named (step_eq_next fits .fused a)

-- The tree after a word, where a method is chosen for each symbol.
def runBy (A : Automaton) : Tree → List (Method × Nat) → Except Exhausted Tree
  | t,[] => .ok t
  | t,(m,a) :: w => do runBy A (← m.step A a t) w

theorem run_eq_runBy (m : Method) (A : Automaton) (w : List Nat) : ∀ t : Tree,
    m.run A t w = runBy A t (w.map (m,·)) := by
  induction w with
  | nil => intro t; rfl
  | cons a w ih =>
    intro t
    simp only [Method.run,List.map_cons,runBy,ih]

-- Methods leave no trace in a run.
theorem runBy_eq_next (A : Automaton) (w : List (Method × Nat)) : ∀ {t : Tree}, t.Over A →
    runBy A t w = .ok ((w.map Prod.snd).foldl (next A) t) := by
  induction w with
  | nil => intro t _; rfl
  | cons step w ih =>
    intro t fits
    obtain ⟨m,a⟩ := step
    rw [runBy,step_eq_next fits,ok_bind]
    exact ih (next_over fits a)

theorem run_eq_next (m : Method) (A : Automaton) (w : List Nat) {t : Tree} (fits : t.Over A) :
    m.run A t w = .ok (w.foldl (next A) t) := by
  have symbols : (w.map (m,·)).map Prod.snd = w := by simp
  rw [run_eq_runBy,runBy_eq_next A _ fits,symbols]

theorem foldl_next_over (w : List Nat) : ∀ {t : Tree}, t.Over A → (w.foldl (next A) t).Over A := by
  induction w with
  | nil => intro t fits; exact fits
  | cons a w ih => intro t fits; exact ih (next_over fits a)

theorem foldl_next_named (w : List Nat) : ∀ {t : Tree}, t.Over A → t.used ⊆ .full A.nameCount →
    (w.foldl (next A) t).used ⊆ .full A.nameCount := by
  induction w with
  | nil => intro t _ named; exact named
  | cons a w ih => intro t fits named; exact ih (next_over fits a) (next_named fits named a)

theorem begins_over {start : Tree} (begins : start = .initial A ∨
    start.check = .ok () ∧ ∀ v ∈ start.vertices, v.label ⊆ .full A.stateCount) : start.Over A := by
  rcases begins with rfl | ⟨checked,within⟩
  · exact Tree.initial_over A
  · exact ⟨Tree.check_exact.mp checked,Tree.labels_within_iff.mpr within⟩

theorem machine_runBy_eq (small : A.stateCount < 2 ^ 31) (w : List (Method × Nat)) : ∀ t : Tree,
    Machine.runBy A t w = (runBy A t w).mapError .exhausted := by
  induction w with
  | nil => intro t; rfl
  | cons step w ih =>
    intro t
    obtain ⟨m,a⟩ := step
    simp only [Machine.runBy,runBy,Machine.step_eq small,ih,mapError_bind]

-- A run that fails nowhere, whose trees pass the check with labels and size in range. A word is any prefix of a
-- longer one, so this holds all along.
structure SoundRun (A : Automaton) (start : Tree) (w : List (Method × Nat)) (t : Tree) : Prop where
  ran : Machine.runBy A start w = .ok t
  checked : t.check = .ok ()
  labels : ∀ v ∈ t.vertices, v.label ⊆ .full A.stateCount
  size : t.size ≤ A.stateCount
  names : start = .initial A → ∀ v ∈ t.vertices, 1 ≤ v.name.number ∧ v.name.number ≤ 2 * A.stateCount

-- Names stay below the limit where they are below it at the start.
theorem runBy_valid (A : Automaton) (small : A.stateCount < 2 ^ 31) (start : Tree)
    (begins : start = .initial A ∨ start.check = .ok () ∧ ∀ v ∈ start.vertices, v.label ⊆ .full A.stateCount)
    (w : List (Method × Nat)) : ∃ t, SoundRun A start w t := by
  have fits := begins_over begins
  have last := foldl_next_over (w.map Prod.snd) fits
  refine ⟨(w.map Prod.snd).foldl (next A) start,?_,Tree.check_exact.mpr last.toValid,
    Tree.labels_within_iff.mp last.within,last.size_le,?_⟩
  · rw [machine_runBy_eq small,runBy_eq_next A w fits]
    rfl
  · intro first v node
    subst first
    have named := foldl_next_named (w.map Prod.snd) fits (Tree.initial_named A)
    have used : v.name ∈ ((w.map Prod.snd).foldl (next A) (.initial A)).used := by
      rw [last.used]
      exact Forest.mem_nameList.mp (List.mem_map_of_mem node)
    have := NatSet.mem_full.mp (named _ used)
    unfold Automaton.nameCount at this
    unfold Name.number
    omega

-- A valid tree with names beyond the limit.
def lateNames : Tree :=
  ⟨some ⟨⟨20,.ofList [0,1,2],false⟩,.cons ⟨7,.ofList [1],true⟩ .nil (.cons ⟨9,.ofList [2],false⟩ .nil .nil)⟩,
    .ofList [7,9,20]⟩

theorem runBy_valid_lateNames : Automaton.guess.stateCount < 2 ^ 31 ∧
    (lateNames.check = .ok () ∧ ∀ v ∈ lateNames.vertices, v.label ⊆ .full Automaton.guess.stateCount) ∧
      ∃ t, SoundRun .guess lateNames [(.fused,1),(.byRule,2),(.fused,5)] t :=
  ⟨by decide,⟨by decide +kernel,by decide +kernel⟩,
    runBy_valid .guess (by decide) lateNames (.inr ⟨by decide +kernel,by decide +kernel⟩) _⟩

-- Twice as many states as this have no number: there are no names to give.
def crammed : Automaton := .ofEdges (2 ^ 63) (.ofList [0]) (.ofList [1]) 1 [⟨0,1,1⟩] (by decide +kernel)

theorem runBy_fails_crammed :
    ¬ ∀ (A : Automaton) (w : List (Method × Nat)), ∃ t, SoundRun A (.initial A) w t := by
  intro all
  obtain ⟨t,sound⟩ := all crammed [(.byRule,1)]
  have failed : Machine.runBy crammed (.initial crammed) [(.byRule,1)] = .error (.exhausted ⟨0,.ofList [0]⟩) := by
    decide +kernel
  cases failed.symm.trans sound.ran

end Step
end BuchiToRabin
