import BuchiToRabin.Proofs.Determinization.Path
import BuchiToRabin.Proofs.Step.Marks
namespace BuchiToRabin

-- Rabin acceptance: the states visited come back to the right set for ever, and leave the left set in the end.
def RabinPair.Accepts (p : RabinPair) (path : Nat → Nat) : Prop :=
  (∀ n, ∃ k, n ≤ k ∧ path k ∈ p.right) ∧ ∃ n, ∀ k, n ≤ k → path k ∉ p.left

namespace RabinPair

variable {s : Store Tree} {i q : Nat}

theorem mem_numbers (kind : Tree → Bool) : i ∈ NatSet.ofList ((s.entries.filter (kind ·.2)).map (·.1)) ↔
    ∃ t, s.value i = .ok t ∧ kind t = true := by
  simp only [NatSet.mem_ofList,List.mem_map,List.mem_filter,Prod.exists,Store.mem_entries]
  constructor
  · intro listed
    obtain ⟨_,t,⟨held,inside⟩,rfl⟩ := listed
    exact ⟨t,held,inside⟩
  · intro found
    obtain ⟨t,held,inside⟩ := found
    exact ⟨i,t,⟨held,inside⟩,rfl⟩

theorem mem_collect_right : i ∈ (collect q s.entries).right ↔ ∃ t, s.value i = .ok t ∧ t.inRight q = true :=
  mem_numbers (·.inRight q)

theorem mem_collect_left : i ∈ (collect q s.entries).left ↔ ∃ t, s.value i = .ok t ∧ t.inLeft q = true :=
  mem_numbers (·.inLeft q)

end RabinPair

namespace Determinization

variable {A : Automaton} {s : Settings} {d : Determinization} {p : RabinPair} {w path run : Nat → Nat} {q : Nat}

theorem rabinPairs_getElem? (state : q < d.buchiStates) :
    d.rabinPairs[q]? = some (.collect q d.store.entries) := by
  rw [rabinPairs,List.getElem?_map,List.getElem?_range state,Option.map_some]

theorem eq_collect (listed : p ∈ d.rabinPairs) : p = .collect p.index d.store.entries := by
  obtain ⟨q,-,rfl⟩ := List.mem_map.mp listed
  rfl

namespace Path

theorem mem_right (visits : d.Path w path) (exact : Exact A d) (word : A.Word w) (listed : p ∈ d.rabinPairs)
    (k : Nat) : path k ∈ p.right ↔ (Step.trees A w k).inRight p.index = true := by
  have held := tree_eq_ok.mp (visits.tree_eq exact word k)
  rw [eq_collect listed,RabinPair.mem_collect_right,held]
  simp [RabinPair.collect]

theorem mem_left (visits : d.Path w path) (exact : Exact A d) (word : A.Word w) (listed : p ∈ d.rabinPairs)
    (k : Nat) : path k ∈ p.left ↔ ¬ A.Reaches (beginning w k) p.index := by
  have held := tree_eq_ok.mp (visits.tree_eq exact word k)
  rw [eq_collect listed,RabinPair.mem_collect_left,held]
  simp only [RabinPair.collect,Except.ok.injEq,exists_eq_left']
  rw [(Step.trees_over A w k).inLeft_iff,Step.trees_eq_foldl,Step.mem_cover_iff_reaches]

-- For a final state the two sets part the trees.
theorem mem_right_of_final (visits : d.Path w path) (exact : Exact A d) (word : A.Word w)
    (listed : p ∈ d.rabinPairs) (final : p.index ∈ A.finals) (k : Nat) :
    path k ∈ p.right ↔ A.Reaches (beginning w k) p.index := by
  rw [visits.mem_right exact word listed,
    (Step.trees_over A w k).inRight_iff_of_final (Step.lit_trees A w k) final,Step.trees_eq_foldl,
    Step.mem_cover_iff_reaches]

-- So the pair of a final state asks only whether this state can be reached from some time on.
theorem accepts_iff_of_final (visits : d.Path w path) (exact : Exact A d) (word : A.Word w)
    (listed : p ∈ d.rabinPairs) (final : p.index ∈ A.finals) :
    p.Accepts path ↔ ∃ n, ∀ k, n ≤ k → A.Reaches (beginning w k) p.index := by
  unfold RabinPair.Accepts
  simp only [visits.mem_right_of_final exact word listed final,visits.mem_left exact word listed,not_not]
  constructor
  · intro accepts
    exact accepts.2
  · intro settled
    obtain ⟨n,reaches⟩ := settled
    refine ⟨?_,n,reaches⟩
    intro m
    exact ⟨max m n,by omega,reaches _ (by omega)⟩

end Path

section
variable {a : Nat}

-- A state with a loop, and one that a single symbol leads to from there.
theorem reaches_beyond_loop (start : q ∈ A.initial) (loop : A.Moves q a q) {r : Nat} (moves : A.Moves q a r) :
    ∀ k, 1 ≤ k → A.Reaches (beginning (fun _ => a) k) r := by
  have stays : ∀ k, A.Reaches (beginning (fun _ => a) k) q := by
    intro k
    induction k with
    | zero => exact ⟨q,start,.stay⟩
    | succ k ih => rw [beginning_succ]; exact ih.snoc loop
  intro k positive
  obtain ⟨k,rfl⟩ := Nat.exists_eq_add_of_le' positive
  rw [beginning_succ]
  exact (stays k).snoc moves

end

theorem guess_reaches : ∀ k, 1 ≤ k → Automaton.guess.Reaches (beginning (fun _ => 1) k) 1 :=
  reaches_beyond_loop (q := 0) (by decide +kernel) (by decide +kernel) (by decide +kernel)

theorem guess_word : Automaton.guess.Word fun _ => 1 :=
  fun _ => ⟨Nat.le_refl 1,show 1 ≤ Automaton.guess.alphabetSize by decide +kernel⟩

-- From some time on, no marked node other than `x` holds `q`.
def Owns (t : Nat → Tree) (q : Nat) (x : Name) : Prop :=
  ∃ n, ∀ k, n ≤ k → ∀ v ∈ (t k).vertices, v.marked = true → q ∈ v.label → v.name = x

theorem Path.flashes (visits : d.Path w path) (exact : Exact A d) (word : A.Word w) (listed : p ∈ d.rabinPairs)
    {x : Name} (owns : Owns (Step.trees A w) p.index x) (accepts : p.Accepts path) :
    Step.Flashes (Step.trees A w) x := by
  obtain ⟨n,owner⟩ := owns
  intro m
  obtain ⟨k,later,right⟩ := accepts.1 (max m n)
  rw [visits.mem_right exact word listed,Tree.inRight_iff] at right
  obtain ⟨v,kids,has,marked,own⟩ := right
  have node := Forest.mem_preorder_iff.mpr ⟨kids,has⟩
  exact ⟨k,by omega,v,node,owner k (by omega) v node marked own,marked⟩

-- What the states visited on an infinite word say about it. The nodes of their trees, by name, tell whether
-- it is accepted. A pair, which goes by Büchi state, does so where a single node comes to hold the marks.
structure Verdict (A : Automaton) (d : Determinization) (w path : Nat → Nat) : Prop where
  held : ∀ k, d.tree (path k) = .ok (Step.trees A w k)
  named : A.Accepts w ↔ ∃ x, Step.Stays (Step.trees A w) x ∧ Step.Flashes (Step.trees A w) x
  final : ∀ p ∈ d.rabinPairs, p.index ∈ A.finals →
    (p.Accepts path ↔ ∃ n, ∀ k, n ≤ k → A.Reaches (beginning w k) p.index)
  owned : ∀ p ∈ d.rabinPairs, ∀ x, Step.Stays (Step.trees A w) x → Owns (Step.trees A w) p.index x →
    p.Accepts path → A.Accepts w

theorem Path.verdict (visits : d.Path w path) (exact : Exact A d) (word : A.Word w) : Verdict A d w path := by
  have history := Step.history_trees A (fun _ => .fused) w
  refine ⟨visits.tree_eq exact word,⟨history.exists_flash,?_⟩,?_,?_⟩
  · intro flash
    obtain ⟨x,stays,flashes⟩ := flash
    exact history.accepts stays flashes
  · intro p listed final
    exact visits.accepts_iff_of_final exact word listed final
  · intro p listed x stays owns accepts
    exact history.accepts stays (visits.flashes exact word listed owns accepts)

-- Both 0 and 1 are held by the root, and 1 by a marked kid, from the first symbol on.
def guessed : Tree :=
  ⟨some ⟨⟨0,.ofList [0,1],false⟩,.cons ⟨1,.ofList [1],true⟩ .nil .nil⟩,.ofList [0,1]⟩

theorem trees_guess (k : Nat) : Step.trees .guess (fun _ => 1) (k + 1) = guessed := by
  induction k with
  | zero => decide +kernel
  | succ k ih => rw [Step.trees,ih]; decide +kernel

theorem rabinPairs_verdict (A : Automaton) (s : Settings) (d : Determinization) (w : Nat → Nat)
    (made : ofAutomaton A s = .ok d) (word : A.Word w) :
    ∃ path, (∀ other, d.Path w other ↔ other = path) ∧ Verdict A d w path := by
  obtain ⟨exact,-⟩ := exact_of_made made
  obtain ⟨path,visits⟩ := exact.exists_path word
  exact ⟨path,visits.only,visits.verdict exact word⟩

theorem rabinPairs_verdict_guess : ∃ d, ofAutomaton .guess tight = .ok d ∧ ∃ path,
    (∀ other, d.Path (fun _ => 1) other ↔ other = path) ∧ Verdict .guess d (fun _ => 1) path ∧
      ∃ p ∈ d.rabinPairs, p.Accepts path ∧ ∃ x, Step.Stays (Step.trees .guess fun _ => 1) x ∧
        Owns (Step.trees .guess fun _ => 1) p.index x := by
  obtain ⟨d,made⟩ := exists_tight
  obtain ⟨path,only,verdict⟩ := rabinPairs_verdict .guess tight d _ made guess_word
  have buchi := (exact_of_made made).2
  have pair := rabinPairs_getElem? (d := d) (q := 1) (by rw [buchi]; decide +kernel)
  have listed := List.mem_of_getElem? pair
  refine ⟨d,made,path,only,verdict,_,listed,?_,1,⟨1,?_⟩,1,?_⟩
  · rw [verdict.final _ listed (show 1 ∈ Automaton.guess.finals by decide +kernel)]
    exact ⟨1,guess_reaches⟩
  · intro k positive
    obtain ⟨k,rfl⟩ := Nat.exists_eq_add_of_le' positive
    rw [trees_guess]
    decide +kernel
  · intro k positive
    obtain ⟨k,rfl⟩ := Nat.exists_eq_add_of_le' positive
    rw [trees_guess]
    show ∀ v ∈ guessed.vertices, v.marked = true → 1 ∈ v.label → v.name = 1
    decide +kernel

-- A final state without successors ends every path that meets it.
theorem glimpse_rejects (w : Nat → Nat) : ¬ Automaton.glimpse.Accepts w := by
  intro accepts
  obtain ⟨run,⟨-,moves⟩,often⟩ := accepts
  obtain ⟨j,-,final⟩ := often 0
  obtain ⟨⟨state,next⟩,positive,small⟩ := Automaton.glimpse.edge_lt _ _ _ (moves j)
  have symbol : w j = 1 := Nat.le_antisymm small positive
  have stuck : ∀ q < Automaton.glimpse.stateCount, q ∈ Automaton.glimpse.finals →
      ∀ r < Automaton.glimpse.stateCount, ¬ Automaton.glimpse.Moves q 1 r := by decide +kernel
  have goes := moves j
  rw [symbol] at goes
  exact stuck _ state final _ next goes

-- Fresh nodes take turns at holding the final state, each of them marked and none of them staying. The pair
-- of this state accepts, and the word is not accepted.
theorem rabinPairs_unsound : ∃ d, ofAutomaton .glimpse tight = .ok d ∧ Automaton.glimpse.Word (fun _ => 1) ∧
    ∃ path p, d.Path (fun _ => 1) path ∧ d.rabinPairs[1]? = some p ∧ p = ⟨1,.ofList [1],.ofList [2,3]⟩ ∧
      p.Accepts path ∧ ¬ Automaton.glimpse.Accepts fun _ => 1 := by
  have pair : (ofAutomaton .glimpse tight).toOption.map (·.rabinPairs[1]?) =
      some (some ⟨1,.ofList [1],.ofList [2,3]⟩) := by decide +kernel
  obtain ⟨d,made,pair⟩ := exists_made pair
  obtain ⟨exact,-⟩ := exact_of_made made
  have word : Automaton.glimpse.Word fun _ => 1 :=
    fun _ => ⟨Nat.le_refl 1,show 1 ≤ Automaton.glimpse.alphabetSize by decide +kernel⟩
  obtain ⟨path,visits⟩ := exact.exists_path word
  refine ⟨d,made,word,path,_,visits,pair,rfl,?_,glimpse_rejects _⟩
  rw [visits.accepts_iff_of_final exact word (List.mem_of_getElem? pair)
    (show 1 ∈ Automaton.glimpse.finals by decide +kernel)]
  exact ⟨1,reaches_beyond_loop (q := 0) (by decide +kernel) (by decide +kernel) (by decide +kernel)⟩

end Determinization
end BuchiToRabin
