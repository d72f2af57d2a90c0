import BuchiToRabin.Proofs.Automaton.Acceptance
import BuchiToRabin.Proofs.Step.Descent
import BuchiToRabin.Proofs.Step.Run
namespace BuchiToRabin

namespace Tree

theorem initial_cover (A : Automaton) : (initial A).forest.cover = A.initial := by
  unfold initial
  dsimp only
  split
  · rename_i empty
    exact empty.symm
  · split
    · simp [forest,ofRoot,Node.forest,Node.leaf]
    · split <;> simp [forest,ofRoot,Node.forest,Node.leaf]

end Tree

namespace Step

-- The trees along an infinite word, where a method is chosen for each symbol.
structure History (A : Automaton) (m : Nat → Method) (w : Nat → Nat) (t : Nat → Tree) : Prop where
  start : t 0 = .initial A
  steps : ∀ i, (m i).step A (w i) (t i) = .ok (t (i + 1))

def Stays (t : Nat → Tree) (x : Name) : Prop := ∃ n, ∀ i, n ≤ i → x ∈ (t i).names

def Flashes (t : Nat → Tree) (x : Name) : Prop :=
  ∀ n, ∃ i, n ≤ i ∧ ∃ v ∈ (t i).vertices, v.name = x ∧ v.marked = true

variable {A : Automaton} {m : Nat → Method} {w run : Nat → Nat} {t : Nat → Tree}

def trees (A : Automaton) (w : Nat → Nat) : Nat → Tree
  | 0 => .initial A
  | i+1 => next A (trees A w i) (w i)

theorem trees_over (A : Automaton) (w : Nat → Nat) (i : Nat) : (trees A w i).Over A := by
  induction i with
  | zero => exact Tree.initial_over A
  | succ i ih => exact next_over ih (w i)

theorem history_trees (A : Automaton) (m : Nat → Method) (w : Nat → Nat) : History A m w (trees A w) where
  start := rfl
  steps i := step_eq_next (trees_over A w i) (m i) (w i)

namespace History

theorem unique {s : Nat → Tree} (one : History A m w s) (other : History A m w t) : s = t := by
  funext i
  induction i with
  | zero => rw [one.start,other.start]
  | succ i ih =>
    have ran := one.steps i
    rw [ih,other.steps i] at ran
    exact (Except.ok.inj ran).symm

theorem fits (history : History A m w t) (i : Nat) : (t i).Over A := by
  induction i with
  | zero =>
    rw [history.start]
    exact Tree.initial_over A
  | succ i ih => exact ih.of_step (history.steps i)

theorem cover_step (history : History A m w t) (i : Nat) :
    (t (i + 1)).forest.cover = A.post (w i) (t i).forest.cover :=
  (history.fits i).cover_step (history.steps i)

end History

-- The states of a node that stays, and those of its kids, break where the node is marked: its kids hold
-- what has met a final state since the last mark.
theorem breakpoints {u : Nat → Vertex} {kids : Nat → Forest Vertex}
    (heads : ∀ i, (u i).Heads (kids i))
    (descends : ∀ i, Descends A (w i) (u i) (kids i) (u (i + 1)) (kids (i + 1)))
    (first : (u 0).marked = true → kids 0 = .nil) (often : ∀ i, ∃ j, i ≤ j ∧ (u j).marked = true) :
    A.Breakpoints w (fun i => (u i).label) (fun i => (kids i).cover) fun i => (u i).marked = true where
  filled i := (heads i).filled
  moves i := (descends i).label_subset
  inside i := (heads i).inside
  visits i := (descends i).cover_subset
  complete i marked := ((descends i).of_marked marked).2
  forgets i marked := by
    cases i with
    | zero => simp [first marked]
    | succ i => simp [((descends i).of_marked marked).1]
  often := often

-- Soundness.
theorem History.accepts {x : Name} (history : History A m w t) (stays : Stays t x) (flashes : Flashes t x) :
    A.Accepts w := by
  obtain ⟨n,stays⟩ := stays
  -- Nodes are watched from a mark on, and not from the first tree, whose root may be marked over a kid.
  have nodes : ∀ i, ∃ v kids, (t (n + 1 + i)).forest.Has v kids ∧ v.name = x := fun i =>
    Forest.mem_names_iff.mp (stays (n + 1 + i) (by omega))
  choose u kids has name using nodes
  have descends : ∀ i, Descends A (w (n + 1 + i)) (u i) (kids i) (u (i + 1)) (kids (i + 1)) := fun i =>
    (history.fits (n + 1 + i)).descends_of_name (history.steps (n + 1 + i)) (has i) (has (i + 1))
      ((name (i + 1)).trans (name i).symm)
  have first : (u 0).marked = true → kids 0 = .nil := by
    intro marked
    obtain ⟨v,below,old,oldName⟩ := Forest.mem_names_iff.mp (stays n (Nat.le_refl n))
    exact (((history.fits n).descends_of_name (history.steps n) old (has 0)
      ((name 0).trans oldName.symm)).of_marked marked).1
  have often : ∀ i, ∃ j, i ≤ j ∧ (u j).marked = true := by
    intro i
    obtain ⟨k,later,v,node,vName,marked⟩ := flashes (n + 1 + i)
    obtain ⟨j,rfl⟩ := Nat.exists_eq_add_of_le (Nat.le_of_add_right_le later)
    obtain ⟨below,other⟩ := Forest.mem_preorder_iff.mp node
    obtain ⟨rfl,-⟩ := other.unique (history.fits (n + 1 + j)).distinct (has j) (vName.trans (name j).symm)
    exact ⟨j,by omega,marked⟩
  have heads : ∀ i, (u i).Heads (kids i) := fun i => (has i).heads (history.fits (n + 1 + i)).lawful
  obtain ⟨q,held,accepts⟩ := (breakpoints heads descends first often).accepts
  refine Automaton.accepts_of_reached (fun i => (t i).forest.cover) ?_ ?_ (n + 1) q ?_ accepts
  · intro q start
    rwa [history.start,Tree.initial_cover] at start
  · intro i q reached
    rwa [history.cover_step i] at reached
  · have within := (has 0).label_subset q held
    rwa [(history.fits (n + 1 + 0)).nested.states_eq_cover] at within

section
variable {f : Nat → Forest Vertex}

-- A path through forests, each carried on from the one before, is held further and further left.
theorem finds_later {n : Nat} (moves : ∀ i, A.Moves (run i) (w i) (run (i + 1)))
    (carries : ∀ i, n ≤ i → Carries A (w i) (run (i + 1)) (f i) (f (i + 1))) {place : Nat}
    (finds : ∃ v kids, (f n).Finds (run n) place v kids) {i : Nat} (later : n ≤ i) :
    ∃ place' v kids, place' ≤ place ∧ (f i).Finds (run i) place' v kids := by
  induction i,later using Nat.le_induction with
  | base =>
    obtain ⟨v,kids,finds⟩ := finds
    exact ⟨place,v,kids,Nat.le_refl _,finds⟩
  | succ i later ih =>
    obtain ⟨place',v,kids,le,finds⟩ := ih
    obtain ⟨next,v',kids',finds,nextLe,-⟩ := finds.carries (moves i) (carries i later)
    exact ⟨next,v',kids',Nat.le_trans nextLe le,finds⟩

-- At some time it is as far left as it gets, and from then on it stays in one tree.
theorem settles (moves : ∀ i, A.Moves (run i) (w i) (run (i + 1))) (place : Nat) : ∀ n,
    (∀ i, n ≤ i → Carries A (w i) (run (i + 1)) (f i) (f (i + 1))) →
    (∃ v kids, (f n).Finds (run n) place v kids) →
    ∃ x k, n ≤ k ∧ ∀ i, k ≤ i → ∃ place v kids, (f i).Finds (run i) place v kids ∧ v.name = x := by
  induction place using Nat.strongRecOn with
  | ind place ih =>
    intro n carries finds
    by_cases stays : ∀ i, n ≤ i → ∃ v kids, (f i).Finds (run i) place v kids
    · obtain ⟨v,kids,first⟩ := finds
      refine ⟨v.name,n,Nat.le_refl n,fun i later => ⟨place,?_⟩⟩
      induction i,later using Nat.le_induction with
      | base => exact ⟨v,kids,first,rfl⟩
      | succ i later same =>
        obtain ⟨u,below,finds,name⟩ := same
        obtain ⟨place',u',below',finds',-,sameName⟩ := finds.carries (moves i) (carries i later)
        obtain ⟨_,_,again⟩ := stays (i + 1) (by omega)
        obtain ⟨rfl,-⟩ := again.unique finds'
        exact ⟨u',below',finds',(sameName rfl).trans name⟩
    · push Not at stays
      obtain ⟨i,later,elsewhere⟩ := stays
      obtain ⟨place',v,kids,le,found⟩ := finds_later moves carries finds later
      have left : place' < place := by
        rcases Nat.lt_or_eq_of_le le with left | rfl
        · exact left
        · exact absurd found (elsewhere v kids)
      obtain ⟨x,k,after,settled⟩ := ih place' left i (fun j much => carries j (by omega)) ⟨v,kids,found⟩
      exact ⟨x,k,by omega,settled⟩

end

-- From `n` on, trees have a node of name `x` that holds the path, and no more than `b` states.
def Follows (t : Nat → Tree) (run : Nat → Nat) (b : Nat) (x : Name) (n : Nat) : Prop :=
  ∀ i, n ≤ i → ∃ v kids, (t i).forest.Has v kids ∧ v.name = x ∧ run i ∈ v.label ∧ v.label.card ≤ b

theorem Follows.stays {b n : Nat} {x : Name} (follows : Follows t run b x n) : Stays t x := by
  refine ⟨n,fun i later => ?_⟩
  obtain ⟨v,kids,has,name,-⟩ := follows i later
  exact Forest.mem_names_iff.mpr ⟨v,kids,has,name⟩

-- A node that follows an accepting path and is not marked any more has a kid, in the end, that follows it.
theorem Follows.descend {b n : Nat} {x : Name} (history : History A m w t)
    (moves : ∀ i, A.Moves (run i) (w i) (run (i + 1))) (often : ∀ i, ∃ j, i ≤ j ∧ run j ∈ A.finals)
    (follows : Follows t run (b + 1) x n) (dark : ¬ Flashes t x) : ∃ y k, Follows t run b y k := by
  unfold Flashes at dark
  push Not at dark
  obtain ⟨k,dark⟩ := dark
  -- Beyond both positions there is one node to watch, never marked.
  have nodes : ∀ i, ∃ v kids, (t (n + k + i)).forest.Has v kids ∧ v.name = x ∧
      run (n + k + i) ∈ v.label ∧ v.label.card ≤ b + 1 := fun i => follows (n + k + i) (by omega)
  choose u kids has name held small using nodes
  have unmarked : ∀ i, (u i).marked = false := fun i => by
    have := dark (n + k + i) (by omega) (u i) (Forest.mem_preorder_iff.mpr ⟨kids i,has i⟩) (name i)
    simpa using this
  have descends : ∀ i, Descends A (w (n + k + i)) (u i) (kids i) (u (i + 1)) (kids (i + 1)) := fun i =>
    (history.fits (n + k + i)).descends_of_name (history.steps (n + k + i)) (has i) (has (i + 1))
      ((name (i + 1)).trans (name i).symm)
  obtain ⟨j,after,final⟩ := often (n + k + 1)
  obtain ⟨d,rfl⟩ := Nat.exists_eq_add_of_le after
  have below : run (n + k + (d + 1)) ∈ (kids (d + 1)).cover := by
    apply (descends d).mem_cover (unmarked (d + 1)) (held (d + 1))
    have moved := Automaton.mem_post.mpr ⟨_,held d,moves (n + k + d)⟩
    have final : run (n + k + (d + 1)) ∈ A.finals := by rwa [show n + k + (d + 1) = n + k + 1 + d by omega]
    exact NatSet.mem_union.mpr (.inr (NatSet.mem_inter.mpr ⟨moved,final⟩))
  obtain ⟨place,v,deeper,finds⟩ := Forest.exists_finds below
  have carries : ∀ i, d + 1 ≤ i → Carries A (w (n + k + i)) (run (n + k + (i + 1))) (kids i) (kids (i + 1)) :=
    fun i _ => (descends i).carries (unmarked (i + 1)) (held (i + 1))
  obtain ⟨y,l,_,settled⟩ := settles (w := fun i => w (n + k + i)) (fun i => moves (n + k + i)) place (d + 1)
    carries ⟨v,deeper,finds⟩
  refine ⟨y,n + k + l,fun i later => ?_⟩
  obtain ⟨i,rfl⟩ := Nat.exists_eq_add_of_le (Nat.le_of_add_right_le later)
  obtain ⟨_,v,deeper,finds,named⟩ := settled i (by omega)
  have heads := (has i).heads (history.fits (n + k + i)).lawful
  have fewer := NatSet.card_lt_of_subset heads.inside heads.uncovered
  have within := NatSet.card_le_of_subset finds.label_subset
  have enough := small i
  exact ⟨v,deeper,(has i).trans finds.has,named,finds.held,by omega⟩

-- A node below holds fewer states, so going down comes to an end.
theorem Follows.exists_flash (history : History A m w t) (moves : ∀ i, A.Moves (run i) (w i) (run (i + 1)))
    (often : ∀ i, ∃ j, i ≤ j ∧ run j ∈ A.finals) (b : Nat) : ∀ {x n}, Follows t run b x n →
      ∃ y, Stays t y ∧ Flashes t y := by
  induction b with
  | zero =>
    intro x n follows
    obtain ⟨v,kids,has,name,held,none⟩ := follows n (Nat.le_refl n)
    have empty : ∅ = v.label := NatSet.eq_of_subset_of_card_le (fun q absent => absurd absent NatSet.not_mem_empty)
      (by simpa using none)
    rw [←empty] at held
    exact absurd held NatSet.not_mem_empty
  | succ b ih =>
    intro x n follows
    by_cases flashes : Flashes t x
    · exact ⟨x,follows.stays,flashes⟩
    · obtain ⟨y,k,below⟩ := follows.descend history moves often flashes
      exact ih below

-- Completeness. The root holds all states reached, so it follows every path to begin with.
theorem History.exists_flash (history : History A m w t) (accepts : A.Accepts w) :
    ∃ x, Stays t x ∧ Flashes t x := by
  obtain ⟨run,⟨start,moves⟩,often⟩ := accepts
  have held : run 0 ∈ (t 0).forest.cover := by
    rw [history.start,Tree.initial_cover]
    exact start
  obtain ⟨place,v,kids,finds⟩ := Forest.exists_finds held
  have carries : ∀ i, 0 ≤ i → Carries A (w i) (run (i + 1)) (t i).forest (t (i + 1)).forest := fun i _ =>
    (history.fits i).carries_step (history.steps i) (A.edge_lt _ _ _ (moves i)).1.2
  obtain ⟨x,n,-,settled⟩ := settles (f := fun i => (t i).forest) moves place 0 carries ⟨v,kids,finds⟩
  have follows : Follows t run A.stateCount x n := by
    intro i later
    obtain ⟨_,v,kids,finds,name⟩ := settled i later
    have within : v.label ⊆ .full A.stateCount := fun q own =>
      (history.fits i).within q (finds.has.label_subset q own)
    have small := NatSet.card_le_of_subset within
    rw [NatSet.card_full] at small
    exact ⟨v,kids,finds.has,name,finds.held,small⟩
  exact follows.exists_flash history moves often A.stateCount

-- Along a word every step succeeds, whatever the methods, and the trees tell whether the word is accepted.
theorem accepts_iff_stays_flashes (A : Automaton) (w : Nat → Nat) :
    ∃ t, (∀ m s, History A m w s ↔ s = t) ∧ (A.Accepts w ↔ ∃ x, Stays t x ∧ Flashes t x) := by
  have history := history_trees A (fun _ => .fused) w
  refine ⟨trees A w,?_,?_⟩
  · intro m s
    constructor
    · intro other
      exact other.unique (history_trees A m w)
    · intro same
      subst same
      exact history_trees A m w
  · constructor
    · intro accepts
      exact history.exists_flash accepts
    · intro flash
      obtain ⟨x,stays,flashes⟩ := flash
      exact history.accepts stays flashes

end Step
end BuchiToRabin
