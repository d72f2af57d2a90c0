import BuchiToRabin.Proofs.Determinization.Exactness
import BuchiToRabin.Proofs.Step.Subset
namespace BuchiToRabin

-- The first `k` symbols of an infinite word.
def beginning (w : Nat → Nat) (k : Nat) : List Nat := (List.range k).map w

theorem beginning_succ (w : Nat → Nat) (k : Nat) : beginning w (k + 1) = beginning w k ++ [w k] := by
  simp [beginning,List.range_succ]

theorem Automaton.Run.reaches {A : Automaton} {w run : Nat → Nat} (runs : A.Run w run) (k : Nat) :
    A.Reaches (beginning w k) (run k) := by
  induction k with
  | zero => exact ⟨run 0,runs.start,.stay⟩
  | succ k ih => rw [beginning_succ]; exact ih.snoc (runs.moves k)

theorem Step.trees_eq_foldl (A : Automaton) (w : Nat → Nat) (k : Nat) :
    trees A w k = (beginning w k).foldl (next A) (.initial A) := by
  induction k with
  | zero => rfl
  | succ k ih => rw [trees,beginning_succ,List.foldl_append,←ih]; rfl

namespace Determinization

variable {A : Automaton} {s : Settings} {d : Determinization} {w path other : Nat → Nat} {t u : Tree} {i j a : Nat}

theorem exact_of_made (made : ofAutomaton A s = .ok d) : Exact A d ∧ d.buchiStates = A.stateCount := by
  obtain ⟨_,_,_,_,chart,complete⟩ := ofAutomaton_ok made
  exact ⟨chart.exact_of_complete complete,chart.buchi⟩

theorem exists_made {β : Type} {f : Determinization → β} {b : β}
    (shown : (ofAutomaton A s).toOption.map f = some b) : ∃ d, ofAutomaton A s = .ok d ∧ f d = b := by
  cases made : ofAutomaton A s with
  | error failure => rw [made] at shown; cases shown
  | ok d =>
    rw [made] at shown
    exact ⟨d,rfl,Option.some.inj shown⟩

theorem exists_tight : ∃ d, ofAutomaton .guess tight = .ok d := by
  have size : (ofAutomaton .guess tight).toOption.map (·.size) = some 3 := by decide +kernel
  obtain ⟨d,made,-⟩ := exists_made size
  exact ⟨d,made⟩

namespace Exact

theorem mem_states (exact : Exact A d) : i ∈ d.states ↔ ∃ t, d.tree i = .ok t := by
  rw [exact.numbers,states,List.mem_map]
  simp only [List.mem_range]
  constructor
  · rintro ⟨j,small,rfl⟩
    omega
  · rintro ⟨positive,small⟩
    exact ⟨i - 1,by omega,by omega⟩

theorem follow (exact : Exact A d) {w : List Nat} (symbols : ∀ a ∈ w, a ∈ A.symbols) :
    ∃ i, d.follow initial w = .ok i ∧ d.tree i = .ok (w.foldl (Step.next A) (.initial A)) := by
  obtain ⟨i,t,path,held,runs⟩ := exact.reads w symbols
  have ran := runs .fused
  rw [Step.run_eq_next .fused A w (Tree.initial_over A)] at ran
  cases ran
  exact ⟨i,path,held⟩

theorem follow_tree (exact : Exact A d) {w : List Nat} (symbols : ∀ a ∈ w, a ∈ A.symbols)
    (path : d.follow initial w = .ok i) : d.tree i = .ok (w.foldl (Step.next A) (.initial A)) := by
  obtain ⟨j,again,held⟩ := exact.follow symbols
  cases path.symm.trans again
  exact held

-- A state leads to the one that holds the next tree.
theorem successor (exact : Exact A d) (held : d.tree i = .ok t) (symbol : a ∈ A.symbols) :
    ∃ j, d.successor i a = .ok j ∧ d.tree j = .ok (Step.next A t a) := by
  obtain ⟨positive,small⟩ := (exact.numbers i).mp ⟨t,held⟩
  obtain ⟨w,symbols,path⟩ := exact.reached i positive small
  cases held.symm.trans (exact.follow_tree symbols path)
  have longer : ∀ b ∈ w ++ [a], b ∈ A.symbols := by
    intro b reads
    rcases List.mem_append.mp reads with old | last
    · exact symbols b old
    · rw [List.mem_singleton.mp last]
      exact symbol
  obtain ⟨j,path',held'⟩ := exact.follow longer
  rw [follow_append,path,ok_bind,follow_single] at path'
  rw [List.foldl_append] at held'
  exact ⟨j,path',held'⟩

theorem same_state (exact : Exact A d) (held : d.tree i = .ok t) (held' : d.tree j = .ok t) : i = j :=
  exact.distinct i j t t held held' rfl

theorem tree_over (exact : Exact A d) (held : d.tree i = .ok t) : t.Over A := by
  obtain ⟨positive,small⟩ := (exact.numbers i).mp ⟨t,held⟩
  obtain ⟨w,symbols,path⟩ := exact.reached i positive small
  cases held.symm.trans (exact.follow_tree symbols path)
  exact Step.foldl_next_over w (Tree.initial_over A)

end Exact

-- The states that the deterministic automaton visits when it reads an infinite word.
structure Path (d : Determinization) (w path : Nat → Nat) : Prop where
  start : path 0 = initial
  goes : ∀ k, d.successor (path k) (w k) = .ok (path (k + 1))

theorem Path.unique (one : d.Path w path) (two : d.Path w other) : other = path := by
  funext k
  induction k with
  | zero => rw [one.start,two.start]
  | succ k ih =>
    have goes := two.goes k
    rw [ih] at goes
    exact Except.ok.inj (goes.symm.trans (one.goes k))

theorem Path.only (one : d.Path w path) (other : Nat → Nat) : d.Path w other ↔ other = path := by
  constructor
  · exact one.unique
  · intro same
    rw [same]
    exact one

theorem Path.follow_beginning (visits : d.Path w path) (k : Nat) :
    d.follow initial (beginning w k) = .ok (path k) := by
  induction k with
  | zero => rw [visits.start]; rfl
  | succ k ih => rw [beginning_succ,follow_append,ih,ok_bind,follow_single,visits.goes]

theorem Path.tree_eq (visits : d.Path w path) (exact : Exact A d) (word : A.Word w) (k : Nat) :
    d.tree (path k) = .ok (Step.trees A w k) := by
  rw [Step.trees_eq_foldl]
  refine exact.follow_tree ?_ (visits.follow_beginning k)
  intro a reads
  obtain ⟨i,-,rfl⟩ := List.mem_map.mp reads
  exact Automaton.mem_symbols.mpr (word i)

-- There is one path for every word, and its states hold the trees along the word.
theorem Exact.exists_path (exact : Exact A d) (word : A.Word w) : ∃ path, d.Path w path := by
  have symbol : ∀ k, w k ∈ A.symbols := fun k => Automaton.mem_symbols.mpr (word k)
  have visited : ∀ k, ∃ i, d.tree i = .ok (Step.trees A w k) := by
    intro k
    induction k with
    | zero =>
      obtain ⟨i,-,held⟩ := exact.follow (w := []) nofun
      exact ⟨i,held⟩
    | succ k ih =>
      obtain ⟨i,held⟩ := ih
      obtain ⟨j,-,held⟩ := exact.successor held (symbol k)
      exact ⟨j,held⟩
  choose path held using visited
  refine ⟨path,?_,?_⟩
  · obtain ⟨i,start,first⟩ := exact.follow (w := []) nofun
    cases start
    exact exact.same_state (held 0) first
  · intro k
    obtain ⟨j,goes,next⟩ := exact.successor (held k) (symbol k)
    rw [goes,exact.same_state next (held (k + 1))]

end Determinization
end BuchiToRabin
