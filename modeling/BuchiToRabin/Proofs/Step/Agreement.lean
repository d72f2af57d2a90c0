import BuchiToRabin.Proofs.Step.Machine
import BuchiToRabin.Proofs.Step.Rules
import BuchiToRabin.Proofs.Step.Visits
namespace BuchiToRabin.Step

variable {A : Automaton} {a : Nat}

-- What a step gives once every fresh node has its name: what is kept of the grown tree, and the names
-- reserved but for those that go.
def outcome (A : Automaton) (g : Forest Vertex) (reserved : NatSet) : Tree :=
  .ofForest (kept g (.full A.stateCount)) (reserved \ dropped g (.full A.stateCount))

-- A whole step, where the fresh nodes are named before anything is dropped.
def grown (A : Automaton) (a : Nat) (t : Tree) : Except Exhausted Tree :=
  match t.root with
  | none => .ok .dead
  | some r => do
    let (g,reserved) ← create A (advance A a r.forest) t.used
    return outcome A g reserved

theorem byRule_eq_grown {t : Tree} (nested : t.forest.Nested) : byRule A a t = grown A a t := by
  unfold byRule grown
  cases root : t.root with
  | none => rfl
  | some r =>
    rw [Tree.forest,root] at nested
    show (create A (advance A a r.forest) t.used >>= _) = (create A (advance A a r.forest) t.used >>= _)
    cases created : create A (advance A a r.forest) t.used with
    | error e => rfl
    | ok pair =>
      obtain ⟨g,reserved⟩ := pair
      have grows := (create_exact _).mp created
      have inside : ∀ i ∈ g.cover, i ∈ NatSet.full A.stateCount ↔ i ∉ (∅ : NatSet) := by
        intro i present
        rw [grows.cover_eq,cover_advance] at present
        have := A.post_subset_full a _ i present
        grind
      obtain ⟨same,names⟩ := merged_pruned_mergeAcross g (grows.nested (nested_advance nested)) ∅ _ inside
      simp only [ok_bind,prune_eq,mergeUp_eq,same,outcome,←names,NatSet.sdiff_sdiff]

theorem fused_eq_grown {t : Tree} (nested : t.forest.Nested) (named : t.names ⊆ t.used) :
    fused A a t = grown A a t := by
  rw [fused_eq,grown]
  cases root : t.root with
  | none => rfl
  | some r =>
    rw [Tree.names,Tree.forest,root] at named
    rw [Tree.forest,root] at nested
    dsimp only
    cases created : create A (advance A a r.forest) t.used with
    | error e => rw [visit_error r.forest created]; rfl
    | ok pair =>
      obtain ⟨g,reserved⟩ := pair
      have grows := (create_exact _).mp created
      have ran := visit_ok (p := ⟨t.used,t.used,.full A.stateCount⟩) r.forest nested named
        (fun _ present => present) grows
      have used : t.used ∪ (reserved \ t.used) = reserved := by
        have := grows.used_subset
        grind
      simp only [ran,ok_bind,Pass.after,used,pure_eq_ok,outcome]

theorem step_eq_grown {t : Tree} (nested : t.forest.Nested) (named : t.names ⊆ t.used) (m : Method) :
    m.step A a t = grown A a t := by
  cases m with
  | fused => exact fused_eq_grown nested named
  | byRule => exact byRule_eq_grown nested

-- The kids of the root overlap, one of them holds nothing, the name 1 stands twice and 9 is stale.
def tangled : Tree :=
  ⟨some ⟨⟨0,.ofList [0,1,2],true⟩,
    .cons ⟨1,.ofList [1],false⟩ (.cons ⟨2,.ofList [1],false⟩ .nil .nil)
      (.cons ⟨1,.ofList [1,2],false⟩ .nil (.cons ⟨4,∅,true⟩ .nil .nil))⟩,.ofList [0,1,2,4,9]⟩

end BuchiToRabin.Step
