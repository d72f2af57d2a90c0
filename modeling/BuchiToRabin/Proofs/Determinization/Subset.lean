import BuchiToRabin.Proofs.Determinization.Path
namespace BuchiToRabin.Determinization

variable {A : Automaton} {s : Settings} {d : Determinization} {t : Tree} {i j a q : Nat}

theorem inLeft_eq (held : d.tree i = .ok t) (q : Nat) : d.inLeft i q = .ok (t.inLeft q) := by
  rw [inLeft,held]
  rfl

theorem isDead_eq_ok {dead : Bool} : d.isDead i = .ok dead ↔ ∃ t, d.tree i = .ok t ∧ t.isDead = dead := by
  unfold isDead
  constructor
  · intro found
    cases held : d.tree i with
    | error e => rw [held] at found; cases found
    | ok t =>
      rw [held] at found
      exact ⟨t,rfl,Except.ok.inj found⟩
  · intro found
    obtain ⟨t,held,rfl⟩ := found
    rw [held]
    rfl

-- What the subset construction says of a word, and where the deterministic automaton shows it.
structure Tracks (A : Automaton) (d : Determinization) (w : List Nat) (i : Nat) (t : Tree) : Prop where
  follows : d.follow initial w = .ok i
  held : d.tree i = .ok t
  root : ∀ r, t.root = some r → ∀ q, q ∈ r.top.label ↔ A.Reaches w q
  dead : ∃ dead, d.isDead i = .ok dead ∧ (dead = true ↔ ¬ ∃ q, A.Reaches w q)
  left : ∀ q, ∃ out, d.inLeft i q = .ok out ∧ (out = true ↔ ¬ A.Reaches w q)

theorem Exact.tracks (exact : Exact A d) {w : List Nat} (symbols : ∀ a ∈ w, a ∈ A.symbols) :
    ∃ i t, Tracks A d w i t := by
  obtain ⟨i,path,held⟩ := exact.follow symbols
  have fits := exact.tree_over held
  refine ⟨i,_,path,held,?_,⟨_,isDead_eq_ok.mpr ⟨_,held,rfl⟩,?_⟩,fun q => ⟨_,inLeft_eq held q,?_⟩⟩
  · intro r root q
    rw [←Tree.cover_of_root root]
    exact Step.mem_cover_iff_reaches w
  · rw [fits.isDead_iff,NatSet.eq_empty_iff]
    simp only [Step.mem_cover_iff_reaches,not_exists]
  · rw [fits.inLeft_iff,Step.mem_cover_iff_reaches]

theorem Exact.dead_unique (exact : Exact A d) (one : d.isDead i = .ok true) (other : d.isDead j = .ok true) :
    i = j := by
  obtain ⟨t,held,dead⟩ := isDead_eq_ok.mp one
  obtain ⟨u,held',dead'⟩ := isDead_eq_ok.mp other
  rw [Tree.isDead_iff_root] at dead dead'
  exact exact.distinct i j t u held held' (dead.trans dead'.symm)

theorem Exact.dead_stays (exact : Exact A d) (dead : d.isDead i = .ok true) (symbol : a ∈ A.symbols) :
    d.successor i a = .ok i := by
  obtain ⟨t,held,rootless⟩ := isDead_eq_ok.mp dead
  obtain ⟨j,goes,next⟩ := exact.successor held symbol
  rw [Step.next_dead (Tree.isDead_iff_root.mp rootless)] at next
  rw [goes,exact.dead_unique dead (isDead_eq_ok.mpr ⟨_,next,rfl⟩)]

-- The deterministic automaton refines the subset construction. It has one state at most for no states at
-- all, and never leaves it.
theorem ofAutomaton_refines_subsets (A : Automaton) (s : Settings) (d : Determinization)
    (made : ofAutomaton A s = .ok d) :
    (∀ w, (∀ a ∈ w, a ∈ A.symbols) → ∃ i t, Tracks A d w i t) ∧
      (∀ i j, d.isDead i = .ok true → d.isDead j = .ok true → i = j) ∧
      ∀ i a, d.isDead i = .ok true → a ∈ A.symbols → d.successor i a = .ok i := by
  obtain ⟨exact,-⟩ := exact_of_made made
  refine ⟨?_,?_,?_⟩
  · intro w symbols
    exact exact.tracks symbols
  · intro i j one other
    exact exact.dead_unique one other
  · intro i a dead symbol
    exact exact.dead_stays dead symbol

theorem ofAutomaton_refines_subsets_tight : ∃ d, ofAutomaton .guess tight = .ok d ∧
    (∀ w, (∀ a ∈ w, a ∈ Automaton.guess.symbols) → ∃ i t, Tracks .guess d w i t) ∧
      (∀ i j, d.isDead i = .ok true → d.isDead j = .ok true → i = j) ∧
      ∀ i a, d.isDead i = .ok true → a ∈ Automaton.guess.symbols → d.successor i a = .ok i := by
  obtain ⟨d,made⟩ := exists_tight
  exact ⟨d,made,ofAutomaton_refines_subsets .guess tight d made⟩

end BuchiToRabin.Determinization
