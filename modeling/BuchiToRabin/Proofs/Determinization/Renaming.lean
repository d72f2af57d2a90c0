import BuchiToRabin.Proofs.Determinization.Acceptance
import BuchiToRabin.Proofs.Step.Renaming
namespace BuchiToRabin

namespace Tree

variable {f : Nat → Nat} {A : Automaton} {t u : Tree}

theorem root_eq_of_forest (same : t.forest = u.forest) : t.root = u.root := by
  unfold forest at same
  cases one : t.root with
  | none =>
    cases other : u.root with
    | none => rfl
    | some r => rw [one,other] at same; cases same
  | some r =>
    cases other : u.root with
    | none => rw [one,other] at same; cases same
    | some r' => rw [one,other] at same; cases r; cases r'; cases same; rfl

-- Trees are told apart by their nodes, whatever the names of the states.
theorem rename_beq (one : Set.InjOn f (Set.Iio A.stateCount)) (fits : t.Over A) (fits' : u.Over A) :
    (t.rename f == u.rename f) = (t == u) := by
  rw [Bool.eq_iff_iff,beq_iff,beq_iff]
  constructor
  · intro same
    have forests : (t.rename f).forest = (u.rename f).forest := by
      unfold forest
      rw [same]
    rw [forest_rename,forest_rename] at forests
    exact root_eq_of_forest (Forest.rename_inj one t.forest fits.within fits'.within forests)
  · intro same
    unfold rename
    rw [same]

end Tree

namespace Determinization

-- The same places in both stores, and room for as many. The chains are others.
structure Twin (f : Nat → Nat) (p p' : Store Tree) : Prop where
  size : p'.size = p.size
  values : p'.values = p.values.map (.rename f)

structure Twins (f : Nat → Nat) (d d' : Determinization) : Prop where
  twin : Twin f d.store d'.store
  rows : d'.rows = d.rows
  alphabet : d'.alphabetSize = d.alphabetSize

variable {f : Nat → Nat} {A A' : Automaton} {s : Settings} {d d' e : Determinization} {p p' r : Store Tree}
  {t : Tree} {place : Nat × Bool} {places : List (Nat × Bool)} {new : List Nat} {i : Nat}

namespace Twin

theorem count (twin : Twin f p p') : p'.count = p.count := by
  unfold Store.count
  rw [twin.values,Array.size_map]

theorem value (twin : Twin f p p') (i : Nat) : p'.value i = (p.value i).map (.rename f) := by
  cases i with
  | zero => rfl
  | succ i =>
    rw [Store.value,Store.value,twin.values,Array.getElem?_map]
    cases p.values[i]? <;> rfl

theorem entries (twin : Twin f p p') : p'.entries = p.entries.map fun e => (e.1,e.2.rename f) := by
  unfold Store.entries
  rw [twin.values,Array.toList_map,List.zipIdx_map,List.map_map,List.map_map]
  rfl

-- The two stores hold trees of a kind in the same places.
theorem exists_iff (twin : Twin f p p') (stock : Stock A p) {kind kind' : Tree → Bool}
    (same : ∀ t, t.Over A → kind' (t.rename f) = kind t) :
    (∃ t, p'.value i = .ok t ∧ kind' t = true) ↔ ∃ t, p.value i = .ok t ∧ kind t = true := by
  rw [twin.value]
  cases held : p.value i with
  | error failure => exact iff_of_false (fun none => nomatch none.choose_spec.1) (fun none => nomatch none.choose_spec.1)
  | ok t =>
    have kinds := same t (stock.fits i t held)
    constructor
    · intro found
      obtain ⟨_,named,holds⟩ := found
      cases named
      exact ⟨t,rfl,kinds ▸ holds⟩
    · intro found
      obtain ⟨_,named,holds⟩ := found
      cases named
      exact ⟨t.rename f,rfl,kinds.trans holds⟩

theorem append {r' : Store Tree} (twin : Twin f p p') (appends : p.Appends t r)
    (appends' : p'.Appends (t.rename f) r') : Twin f r r' where
  size := by rw [appends.size,appends'.size,twin.size]
  values := by rw [appends.values,appends'.values,twin.values,Array.map_push]

variable (embeds : A.Embeds f A') (stock : Stock A p) (stock' : Stock A' p')
include embeds stock stock'

theorem find_eq (twin : Twin f p p') (fits : t.Over A) : p'.find (t.rename f) = p.find t := by
  rw [Store.Lists.find_eq stock'.complete,Store.Lists.find_eq stock.complete,twin.entries,List.find?_map,
    Option.map_map]
  have same : p.entries.find? ((fun e => t.rename f == e.2) ∘ fun e => (e.1,e.2.rename f)) =
      p.entries.find? fun e => t == e.2 := by
    apply List.find?_congr
    intro e listed
    exact Tree.rename_beq embeds.one fits (stock.fits _ _ (Store.mem_entries.mp listed))
  rw [same]
  rfl

-- Where one store finds the tree or has room for it, so does the other.
theorem put (twin : Twin f p p') (fits : t.Over A) (done : p.put t = (.ok place,r)) :
    ∃ r', p'.put (t.rename f) = (.ok place,r') ∧ Twin f r r' := by
  have find := twin.find_eq embeds stock stock' fits
  have count := twin.count
  rcases done' : p'.put (t.rename f) with ⟨answer,r'⟩
  cases answer with
  | error failure =>
    obtain ⟨absent',full,-,-⟩ := Store.put_error done'
    obtain ⟨i,isNew⟩ := place
    rcases Store.put_ok done with ⟨found,-⟩ | ⟨-,-,-,room,-⟩
    · rw [find,found] at absent'
      cases absent'
    · rw [twin.size,count] at full
      exact absurd room (Nat.not_lt_of_le full)
  | ok place' =>
    obtain ⟨rfl,⟨rfl,rfl⟩ | ⟨appends,appends'⟩⟩ := Store.put_agree find count done done'
    · exact ⟨_,rfl,twin⟩
    · exact ⟨_,rfl,twin.append appends appends'⟩

end Twin

theorem putAll_twin (embeds : A.Embeds f A') (ts : List Tree) : ∀ {p p' r places}, Stock A p → Stock A' p' →
    Twin f p p' → (∀ t ∈ ts, t.Over A ∧ (t.rename f).Over A') → putAll p ts = .ok (places,r) →
      ∃ r', putAll p' (ts.map (.rename f)) = .ok (places,r') ∧ Twin f r r' := by
  induction ts with
  | nil =>
    intro p p' r places _ _ twin _ done
    cases done
    exact ⟨p',rfl,twin⟩
  | cons t ts ih =>
    intro p p' r places stock stock' twin overs done
    obtain ⟨i,isNew,q,later,first,rest,rfl⟩ := putAll_cons done
    obtain ⟨fits,fits'⟩ := overs t (.head _)
    obtain ⟨q',first',twin⟩ := twin.put embeds stock stock' fits first
    obtain ⟨r',rest',last⟩ := ih (stock.put fits first).stock (stock'.put fits' first').stock twin
      (fun u listed => overs u (.tail _ listed)) rest
    refine ⟨r',?_,last⟩
    rw [List.map_cons,putAll,first']
    dsimp only
    rw [rest']
    rfl

theorem symbols_eq (embeds : A.Embeds f A') : A'.symbols = A.symbols := by
  unfold Automaton.symbols Automaton.firstSymbols
  rw [embeds.alphabet]

theorem expand_twin (embeds : A.Embeds f A') (chart : Chart A d) (chart' : Chart A' d') (twins : Twins f d d')
    (fits : t.Over A) (fits' : (t.rename f).Over A') (done : expand s A d t = .ok (new,e)) :
    ∃ e', expand s A' d' (t.rename f) = .ok (new,e') ∧ Twins f e e' := by
  have room : Machine.Fits 56 A'.alphabetSize := by
    rw [embeds.alphabet]
    exact room_of_expand done
  obtain ⟨places,store,put,rfl,rfl⟩ := expand_ok fits done
  have successors : A'.symbols.map (Step.next A' (t.rename f)) =
      (A.symbols.map (Step.next A t)).map (.rename f) := by
    rw [symbols_eq embeds,List.map_map]
    exact List.map_congr_left fun a _ => Tree.next_rename embeds fits fits' a
  have overs : ∀ u ∈ A.symbols.map (Step.next A t), u.Over A ∧ (u.rename f).Over A' := by
    intro u listed
    refine ⟨symbols_over fits u listed,symbols_over fits' _ ?_⟩
    rw [successors]
    exact List.mem_map_of_mem listed
  obtain ⟨store',put',twin⟩ := putAll_twin embeds _ chart.stock chart'.stock twins.twin overs put
  refine ⟨⟨d'.buchiStates,d'.alphabetSize,store',d'.rows.push (places.map (·.1))⟩,?_,twin,?_,twins.alphabet⟩
  · rw [expand_eq s room fits',successors,put']
    rfl
  · change d'.rows.push (places.map (·.1)) = d.rows.push (places.map (·.1))
    rw [twins.rows]

namespace Twins

theorem waiting (twins : Twins f d d') : d'.waiting = d.waiting := by
  unfold Determinization.waiting
  rw [twins.rows,twins.twin.count]

end Twins

-- The two explorations go in step.
theorem explore_twin (embeds : A.Embeds f A') (turns : Nat) : ∀ {d d'}, Chart A d → Chart A' d' → Twins f d d' →
    explore s A turns d.waiting d = .ok e → ∃ e', explore s A' turns d'.waiting d' = .ok e' ∧ Twins f e e' := by
  induction turns with
  | zero =>
    intro d d' _ _ twins done
    cases done
    exact ⟨d',rfl,twins⟩
  | succ turns ih =>
    intro d d' chart chart' twins done
    rcases chart.explore_cases done with ⟨complete,rfl⟩ | ⟨t,new,g,held,first,rest⟩
    · refine ⟨d',explore_complete ?_ _,twins⟩
      rw [twins.rows,twins.twin.count]
      exact complete
    · have held' : d'.store.value (d'.rows.size + 1) = .ok (t.rename f) := by
        rw [twins.rows,twins.twin.value,held]
        rfl
      obtain ⟨g',first',twins⟩ := expand_twin embeds chart chart' twins (chart.stock.fits _ t held)
        (chart'.stock.fits _ _ held') first
      obtain ⟨e',rest',last⟩ := ih (chart.expand held first).1 (chart'.expand held' first').1 twins rest
      refine ⟨e',?_,last⟩
      rw [chart'.explore_succ held',first']
      exact rest'

-- The second automaton is the first one with other names in the labels of its trees.
structure Mirrors (f : Nat → Nat) (A : Automaton) (d d' : Determinization) : Prop where
  size : d'.size = d.size
  rows : d'.rows = d.rows
  successor : ∀ i a, d'.successor i a = d.successor i a
  tree : ∀ i, d'.tree i = (d.tree i).map (.rename f)
  pairs : ∀ q, q < A.stateCount → ∃ p p', d.rabinPairs[q]? = some p ∧ d'.rabinPairs[f q]? = some p' ∧
    p'.left = p.left ∧ p'.right = p.right

theorem Twins.mirrors (embeds : A.Embeds f A') (chart : Chart A d) (chart' : Chart A' d') (twins : Twins f d d') :
    Mirrors f A d d' where
  size := twins.twin.count
  rows := twins.rows
  successor i a := by
    unfold Determinization.successor
    rw [twins.rows,twins.alphabet]
  tree i := by
    unfold Determinization.tree
    rw [twins.twin.value]
    cases d.store.value i with
    | ok t => rfl
    | error failure => cases failure <;> rfl
  pairs q small := by
    have state : q < d.buchiStates := by rw [chart.buchi]; exact small
    have state' : f q < d'.buchiStates := by rw [chart'.buchi]; exact embeds.lt q small
    refine ⟨_,_,rabinPairs_getElem? state,rabinPairs_getElem? state',?_,?_⟩
    · ext i
      rw [RabinPair.mem_collect_left,RabinPair.mem_collect_left]
      exact twins.twin.exists_iff chart.stock fun t fits => Tree.inLeft_rename embeds.one fits small
    · ext i
      rw [RabinPair.mem_collect_right,RabinPair.mem_collect_right]
      exact twins.twin.exists_iff chart.stock fun t fits => Tree.inRight_rename embeds.one fits small

theorem ofAutomaton_mirrors (embeds : A.Embeds f A') (made : ofAutomaton A s = .ok d) :
    ∃ d', ofAutomaton A' s = .ok d' ∧ Mirrors f A d d' := by
  obtain ⟨places,store,put,explored,chart,-⟩ := ofAutomaton_ok made
  have nothing : Twin f (.empty s.storage) (.empty s.storage) := ⟨rfl,by simp [Store.empty]⟩
  have overs : ∀ t ∈ [Tree.initial A], t.Over A ∧ (t.rename f).Over A' := by
    intro t listed
    rw [List.mem_singleton.mp listed,←Tree.initial_rename embeds]
    exact ⟨Tree.initial_over A,Tree.initial_over A'⟩
  obtain ⟨store',put',twin⟩ := putAll_twin embeds _ (stock_empty A s.storage) (stock_empty A' s.storage) nothing
    overs put
  rw [List.map_singleton,←Tree.initial_rename embeds] at put'
  obtain ⟨d',explored',twins⟩ := explore_twin embeds _ (chart_start put) (chart_start put')
    ⟨twin,rfl,embeds.alphabet⟩ explored
  have made' : ofAutomaton A' s = .ok d' := by
    rw [ofAutomaton,exploreWithin_eq _ put']
    exact explored'
  obtain ⟨-,-,-,-,chart',-⟩ := ofAutomaton_ok made'
  exact ⟨d',made',twins.mirrors embeds chart chart'⟩

-- An embedding leaves no fewer states.
theorem stateCount_le (embeds : A.Embeds f A') : A.stateCount ≤ A'.stateCount := by
  have count := Finset.card_le_card_of_injOn (s := .range A.stateCount) (t := .range A'.stateCount) f
    (fun q small => Finset.mem_coe.mpr (Finset.mem_range.mpr (embeds.lt q (Finset.mem_range.mp small))))
    (fun p small q small' => embeds.one (Finset.mem_range.mp small) (Finset.mem_range.mp small'))
  rwa [Finset.card_range,Finset.card_range] at count

-- Nothing depends on what the states are called, nor on states that cannot be reached.
theorem determinize_embeds (f : Nat → Nat) (A A' : Automaton) (small : A'.stateCount < 2 ^ 31) (s : Settings)
    (d : Determinization) (embeds : A.Embeds f A') (made : Machine.determinize A s = .ok d) :
    ∃ d', Machine.determinize A' s = .ok d' ∧ Mirrors f A d d' := by
  rw [machine_determinize_eq (Nat.lt_of_le_of_lt (stateCount_le embeds) small)] at made
  rw [machine_determinize_eq small]
  exact ofAutomaton_mirrors embeds made

-- The states of `Automaton.guess` in the opposite order, across the border of a word, among others that lead
-- to them or nowhere.
def padded : Automaton :=
  .ofEdges 70 (.ofList [66]) (.ofList [65,3]) 2
    [⟨66,1,66⟩,⟨66,1,65⟩,⟨65,1,65⟩,⟨66,2,66⟩,⟨66,2,64⟩,⟨64,2,64⟩,⟨0,1,66⟩,⟨3,2,3⟩] (by decide +kernel)

theorem guess_embeds : Automaton.guess.Embeds (66 - ·) padded where
  lt := by decide +kernel
  one := by
    intro p small q small' same
    change p < 4 at small
    change q < 4 at small'
    dsimp only at same
    omega
  alphabet := rfl
  initial := by decide +kernel
  finals := by decide +kernel
  edges := by decide +kernel

theorem determinize_embeds_padded : padded.stateCount < 2 ^ 31 ∧ ∃ d d',
    Automaton.guess.Embeds (66 - ·) padded ∧ Machine.determinize .guess tight = .ok d ∧
      Machine.determinize padded tight = .ok d' ∧ Mirrors (66 - ·) .guess d d' := by
  obtain ⟨d,plain⟩ := exists_tight
  have made : Machine.determinize .guess tight = .ok d := (machine_determinize_eq (by decide) tight).trans plain
  have small : padded.stateCount < 2 ^ 31 := by decide +kernel
  obtain ⟨d',made',mirrors⟩ := determinize_embeds (66 - ·) .guess padded small tight d guess_embeds made
  exact ⟨small,d,d',guess_embeds,made,made',mirrors⟩

-- The automaton that has too many states, without those that cannot be reached.
def pair : Automaton := .ofEdges 2 (.ofList [0]) (.ofList [1]) 1 [⟨0,1,1⟩] (by decide +kernel)

theorem pair_embeds : pair.Embeds id Step.crammed where
  lt := by
    intro q small
    change q < 2 at small
    change q < 2 ^ 63
    omega
  one := Function.injective_id.injOn
  alphabet := rfl
  initial := by decide +kernel
  finals := by decide +kernel
  edges := by decide +kernel

theorem determinize_fails_crammed : ¬ ∀ (f : Nat → Nat) (A A' : Automaton) (s : Settings) (d : Determinization),
    A.Embeds f A' → Machine.determinize A s = .ok d → ∃ d', Machine.determinize A' s = .ok d' ∧ Mirrors f A d d' := by
  intro all
  have returns : failure? (Machine.determinize pair tight) = none := by decide +kernel
  have fails : Machine.determinize Step.crammed tight = .error (.step (.exhausted ⟨0,.ofList [0]⟩)) :=
    failure?_eq_some.mp (by decide +kernel)
  cases made : Machine.determinize pair tight with
  | error failure => rw [made] at returns; cases returns
  | ok d =>
    obtain ⟨d',made',-⟩ := all id pair Step.crammed tight d pair_embeds made
    cases fails.symm.trans made'

end Determinization
end BuchiToRabin
