import BuchiToRabin.Proofs.Determinization.Path
import BuchiToRabin.Proofs.Step.Reachable
namespace BuchiToRabin.Determinization

variable {A : Automaton} {s : Settings} {d : Determinization} {r q : Store Tree} {t : Tree} {ts : List Tree}
  {places : List (Nat × Bool)} {failure : Failure} {e : Store.Error} {trees : Finset Tree}

-- Only trees that can be reached are stored.
def Reached (A : Automaton) (r : Store Tree) : Prop := ∀ i t, r.value i = .ok t → t.Reachable A

theorem Stocks.reached (stocks : Stocks A r ts places q) (reached : Reached A r)
    (all : ∀ t ∈ ts, t.Reachable A) : Reached A q := by
  intro i t held
  rcases stocks.value_cases held with old | new
  · exact reached i t old
  · exact all t new

theorem symbols_reachable (fits : t.Reachable A) : ∀ u ∈ A.symbols.map (Step.next A t), u.Reachable A := by
  intro u listed
  obtain ⟨a,symbol,rfl⟩ := List.mem_map.mp listed
  exact fits.next symbol

theorem Stock.nodup (stock : Stock A r) : r.values.toList.Nodup := by
  rw [List.nodup_iff_getElem?_ne_getElem?]
  intro i j less inside same
  rw [Array.getElem?_toList,Array.getElem?_toList] at same
  rw [Array.length_toList] at inside
  have held := Store.value_succ_eq_ok.mpr (Array.getElem?_eq_getElem inside)
  have again := Store.value_succ_eq_ok.mpr (same.trans (Array.getElem?_eq_getElem inside))
  have equal := stock.apart _ _ _ _ again held rfl
  omega

def stored (r : Store Tree) : Finset Tree := r.values.toList.toFinset

theorem mem_stored : t ∈ stored r ↔ ∃ i, r.value i = .ok t := by
  unfold stored
  rw [List.mem_toFinset,List.mem_iff_getElem?]
  constructor
  · intro listed
    obtain ⟨i,held⟩ := listed
    exact ⟨i + 1,Store.value_succ_eq_ok.mpr (Array.getElem?_toList.symm.trans held)⟩
  · intro found
    obtain ⟨i,held⟩ := found
    obtain ⟨i,rfl⟩ := Nat.exists_eq_add_of_le' (Store.value_ok_pos held).1
    exact ⟨i,Array.getElem?_toList.trans (Store.value_succ_eq_ok.mp held)⟩

theorem Stock.card_stored (stock : Stock A r) : (stored r).card = r.count := by
  unfold stored
  rw [List.toFinset_card_of_nodup stock.nodup,Array.length_toList]
  rfl

section
variable (all : ∀ t, t ∈ trees ↔ t.Reachable A)
include all

theorem Reached.stored_subset (reached : Reached A r) : stored r ⊆ trees := by
  intro t listed
  obtain ⟨i,held⟩ := mem_stored.mp listed
  exact (all t).mpr (reached i t held)

-- A store that has no room for another tree holds as many as it can, and this one is not among them.
theorem Stock.capacity_le (stock : Stock A r) (reached : Reached A r) (fits : t.Reachable A)
    (failed : r.put t = (.error e,q)) : r.size.capacity ≤ trees.card := by
  obtain ⟨absent,full,-,-⟩ := Store.put_error failed
  have new : t ∉ stored r := by
    intro listed
    obtain ⟨i,held⟩ := mem_stored.mp listed
    have differs := stock.complete.find_none absent held
    rw [Tree.beq_iff.mpr rfl] at differs
    cases differs
  have more : insert t (stored r) ⊆ trees :=
    Finset.insert_subset ((all t).mpr fits) (reached.stored_subset all)
  have bound := Finset.card_le_card more
  rw [Finset.card_insert_of_notMem new,stock.card_stored] at bound
  omega

theorem putAll_error (ts : List Tree) : ∀ {r}, Stock A r → Reached A r → (∀ t ∈ ts, t.Reachable A) →
    putAll r ts = .error failure → failure = .full ∧ r.size.capacity ≤ trees.card := by
  induction ts with
  | nil => intro r _ _ _ failed; cases failed
  | cons t ts ih =>
    intro r stock reached fits failed
    have first : t.Reachable A := fits t (.head _)
    unfold putAll at failed
    rcases done : r.put t with ⟨answer,q⟩
    rw [done] at failed
    cases answer with
    | error e =>
      cases failed
      exact ⟨rfl,stock.capacity_le all reached first done⟩
    | ok place =>
      obtain ⟨i,isNew⟩ := place
      have stocks := stock.put first.fits done
      have reachedNext := stocks.reached reached fun u listed => List.mem_singleton.mp listed ▸ first
      rcases bind_eq_error.mp failed with rest | ⟨_,_,returned⟩
      · rw [←stocks.extend.size]
        exact ih stocks.stock reachedNext (fun u later => fits u (.tail _ later)) rest
      · cases returned

theorem explore_error (room : Machine.Fits 56 A.alphabetSize) (turns : Nat) : ∀ {d}, Chart A d → Reached A d.store →
    explore s A turns d.waiting d = .error failure →
      failure = .full ∧ d.store.size.capacity ≤ trees.card := by
  induction turns with
  | zero => intro d _ _ failed; cases failed
  | succ turns ih =>
    intro d chart reached failed
    rcases chart.complete_or_held with complete | ⟨t,held⟩
    · rw [explore_complete complete] at failed
      cases failed
    · have fits := reached _ t held
      rw [chart.explore_succ held] at failed
      rcases bind_eq_error.mp failed with now | ⟨⟨new,e⟩,done,later⟩
      · rw [expand_eq s room fits.fits] at now
        rcases bind_eq_error.mp now with put | ⟨_,_,returned⟩
        · exact putAll_error all _ chart.stock reached (symbols_reachable fits) put
        · cases returned
      · obtain ⟨charted,extend,-,-⟩ := chart.expand held done
        obtain ⟨places,store,put,-,rfl⟩ := expand_ok fits.fits done
        have stocks := Stock.putAll _ chart.stock (symbols_over fits.fits) put
        rw [←extend.size]
        exact ih charted (stocks.reached reached (symbols_reachable fits)) later

theorem ofAutomaton_error (room : Machine.Fits 56 A.alphabetSize) (failed : ofAutomaton A s = .error failure) :
    failure = .full ∧ s.storage.capacity ≤ trees.card := by
  have first : ∀ t ∈ [Tree.initial A], t.Reachable A := by
    intro t listed
    rw [List.mem_singleton.mp listed]
    exact Tree.reachable_initial A
  have nothing : Reached A (.empty s.storage) := fun i t held => absurd held Store.value_empty
  rcases bind_eq_error.mp failed with put | ⟨⟨places,store⟩,put,-⟩
  · exact putAll_error all _ (stock_empty A s.storage) nothing first put
  · rw [ofAutomaton,exploreWithin_eq _ put] at failed
    rw [←size_start put]
    exact explore_error all room _ (chart_start put) ((stocks_start put).reached nothing first) failed

-- An exploration that comes to an end has stored all trees that can be reached.
theorem Exact.stored_eq (exact : Exact A d) : stored d.store = trees := by
  ext t
  rw [mem_stored,all,Tree.reachable_iff]
  constructor
  · intro held
    obtain ⟨i,held⟩ := held
    obtain ⟨positive,small⟩ := Store.value_ok_pos held
    obtain ⟨w,symbols,path⟩ := exact.reached i positive small
    have reads := tree_eq_ok.mp (exact.follow_tree symbols path)
    exact ⟨w,symbols,Except.ok.inj (held.symm.trans reads)⟩
  · intro reached
    obtain ⟨w,symbols,rfl⟩ := reached
    obtain ⟨i,-,held⟩ := exact.follow symbols
    exact ⟨i,tree_eq_ok.mp held⟩

theorem ofAutomaton_size (made : ofAutomaton A s = .ok d) :
    d.rows.size = d.size ∧ d.size = trees.card ∧ d.size < s.storage.capacity := by
  obtain ⟨places,store,put,explored,chart,complete⟩ := ofAutomaton_ok made
  have count := chart.stock.card_stored
  rw [(chart.exact_of_complete complete).stored_eq all] at count
  have size := ((chart_start put).extends_of_explore _ explored).size.trans (size_start put)
  have room := chart.stock.room
  rw [size] at room
  exact ⟨complete,count.symm,room⟩

end

-- Turns beyond those that empty the queue do nothing.
theorem explore_more (turns : Nat) : ∀ {d more}, Chart A d → d.store.size.capacity ≤ d.rows.size + turns →
    turns ≤ more → explore s A more d.waiting d = explore s A turns d.waiting d := by
  induction turns with
  | zero =>
    intro d more chart enough _
    have room := chart.stock.room
    have behind := chart.behind
    omega
  | succ turns ih =>
    intro d more chart enough le
    obtain ⟨more,rfl⟩ := Nat.exists_eq_add_of_le' (Nat.le_trans (Nat.le_add_left 1 turns) le)
    rcases chart.complete_or_held with complete | ⟨t,held⟩
    · rw [explore_complete complete,explore_complete complete]
    · rw [chart.explore_succ held,chart.explore_succ held]
      cases done : expand s A d t with
      | error failure => rfl
      | ok found =>
        obtain ⟨new,e⟩ := found
        obtain ⟨charted,extend,rows,-⟩ := chart.expand held done
        rw [ok_bind,ok_bind]
        refine ih charted ?_ (by omega)
        rw [extend.size,rows]
        omega

theorem exploreWithin_more {turns : Nat} (enough : s.storage.capacity ≤ turns) :
    exploreWithin turns A s = ofAutomaton A s := by
  unfold ofAutomaton
  cases put : putAll (.empty s.storage) [.initial A] with
  | error failure => rw [exploreWithin,exploreWithin,within,within,put]; rfl
  | ok found =>
    obtain ⟨places,store⟩ := found
    rw [exploreWithin_eq _ put,exploreWithin_eq _ put]
    refine explore_more _ (chart_start put) ?_ enough
    rw [size_start put]
    exact Nat.le_add_left _ _

theorem runBy_iff_reachable (small : A.stateCount < 2 ^ 31) : t.Reachable A ↔
    ∃ w : List (Method × Nat), (∀ step ∈ w, step.2 ∈ A.symbols) ∧ Machine.runBy A (.initial A) w = .ok t := by
  simp only [Tree.Reachable,Step.machine_runBy_eq small,mapError_eq_ok]

-- Exploration ends, and it fails in one way only: when there are more trees to reach than the store has room
-- for. The methods never differ, no name is wanting, and no tree is expanded out of turn.
structure FailsIffFull (A : Automaton) (trees : Finset Tree) : Prop where
  reached : ∀ t, t ∈ trees ↔
    ∃ w : List (Method × Nat), (∀ step ∈ w, step.2 ∈ A.symbols) ∧ Machine.runBy A (.initial A) w = .ok t
  distinct : ∀ t ∈ trees, ∀ u ∈ trees, t.root = u.root → t = u
  ends : ∀ (s : Settings) turns, s.storage.capacity ≤ turns → Machine.exploreWithin turns A s = Machine.determinize A s
  holds : ∀ s d, Machine.determinize A s = .ok d → d.rows.size = d.size ∧ d.size = trees.card
  fails : ∀ s, (∃ failure, Machine.determinize A s = .error failure) ↔ 1 <<< s.storage.bits - 1 < trees.card
  reports : ∀ s failure, Machine.determinize A s = .error failure →
    failure = .full ∧ failure.message = "Storage is full"

-- There has to be room to list the successors of a tree.
theorem determinize_fails_iff_full (A : Automaton) (small : A.stateCount < 2 ^ 31)
    (room : Machine.Fits 56 A.alphabetSize) : ∃ trees, FailsIffFull A trees := by
  obtain ⟨trees,listed⟩ := (Tree.finite_reachable A).exists_finset
  have all : ∀ t, t ∈ trees ↔ t.Reachable A := listed
  refine ⟨trees,fun t => (all t).trans (runBy_iff_reachable small),?_,?_,?_,?_,?_⟩
  · intro t first u second same
    exact ((all t).mp first).fits.toValid.eq_of_root ((all u).mp second).fits.toValid same
  · intro s turns enough
    rw [machine_exploreWithin_eq small,machine_determinize_eq small]
    exact exploreWithin_more enough
  · intro s d made
    rw [machine_determinize_eq small] at made
    obtain ⟨rows,size,-⟩ := ofAutomaton_size all made
    exact ⟨rows,size⟩
  · intro s
    rw [machine_determinize_eq small]
    change _ ↔ s.storage.capacity - 1 < trees.card
    constructor
    · rintro ⟨failure,failed⟩
      have full := (ofAutomaton_error all room failed).2
      have some := s.storage.capacity_pos
      omega
    · intro more
      cases made : ofAutomaton A s with
      | error failure => exact ⟨failure,rfl⟩
      | ok d =>
        obtain ⟨-,size,room⟩ := ofAutomaton_size all made
        omega
  · intro s failure failed
    rw [machine_determinize_eq small] at failed
    obtain ⟨rfl,-⟩ := ofAutomaton_error all room failed
    exact ⟨rfl,rfl⟩

theorem determinize_fails_iff_full_guess : Automaton.guess.stateCount < 2 ^ 31 ∧
    Machine.Fits 56 Automaton.guess.alphabetSize ∧ ∃ trees, FailsIffFull .guess trees :=
  ⟨by decide,by decide,determinize_fails_iff_full .guess (by decide) (by decide)⟩

-- Nothing but the dead tree to store, and more symbols than a list has room for.
def lettered : Automaton := .ofEdges 1 ∅ ∅ (2 ^ 64 - 1) [] (by decide +kernel)

theorem determinize_cramped_lettered : ¬ ∀ A : Automaton, ∃ trees, FailsIffFull A trees := by
  intro all
  obtain ⟨trees,fails⟩ := all lettered
  have failed : Machine.determinize lettered tight = .error (.panic .capacity) :=
    failure?_eq_some.mp (by decide +kernel)
  cases (fails.reports _ _ failed).1

end BuchiToRabin.Determinization
