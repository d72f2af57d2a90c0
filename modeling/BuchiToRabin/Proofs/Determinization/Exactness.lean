import BuchiToRabin.Proofs.Determinization.Chart
namespace BuchiToRabin.Determinization

variable {A : Automaton} {s s' : Settings} {d d' e e' : Determinization} {t : Tree} {i j a : Nat}

theorem initial_over (A : Automaton) : ∀ t ∈ [Tree.initial A], t.Over A := by
  intro t listed
  rw [List.mem_singleton.mp listed]
  exact Tree.initial_over A

theorem tree_eq_ok : d.tree i = .ok t ↔ d.store.value i = .ok t := by
  unfold tree
  cases d.store.value i with
  | ok u => simp
  | error failure => cases failure <;> simp

-- A state for each tree that can be reached, and no other. Reading a word gives the tree of the state where
-- it leads, with its names in use.
structure Exact (A : Automaton) (d : Determinization) : Prop where
  reads : ∀ w, (∀ a ∈ w, a ∈ A.symbols) → ∃ i t, d.follow initial w = .ok i ∧ d.tree i = .ok t ∧
    ∀ m : Method, m.run A (.initial A) w = .ok t
  numbers : ∀ i, (∃ t, d.tree i = .ok t) ↔ 1 ≤ i ∧ i ≤ d.size
  reached : ∀ i, 1 ≤ i → i ≤ d.size → ∃ w, (∀ a ∈ w, a ∈ A.symbols) ∧ d.follow initial w = .ok i
  distinct : ∀ i j t u, d.tree i = .ok t → d.tree j = .ok u → t.root = u.root → i = j
  found : ∀ t i, d.find t = some i ↔ ∃ u, d.tree i = .ok u ∧ (u == t) = true
  rows_size : d.rows.size = d.size
  rows : ∀ row ∈ d.rows, row.length = A.alphabetSize ∧ ∀ j ∈ row, 1 ≤ j ∧ j ≤ d.size

namespace Chart

theorem successor (chart : Chart A d) (complete : d.rows.size = d.store.count) (held : d.store.value i = .ok t)
    (symbol : a ∈ A.symbols) : ∃ j, d.successor i a = .ok j ∧ d.store.value j = .ok (Step.next A t a) := by
  obtain ⟨positive,small⟩ := Store.value_ok_pos held
  obtain ⟨i,rfl⟩ := Nat.exists_eq_add_of_le' positive
  have inside : i < d.rows.size := by omega
  have found := Array.getElem?_eq_getElem inside
  obtain ⟨u,same,goes⟩ := chart.exact i _ found
  cases held.symm.trans same
  have listed := Automaton.symbols_getElem? symbol
  obtain ⟨short,at'⟩ := List.getElem?_eq_some_iff.mp listed
  have long := goes.length_eq ▸ short
  have leads := goes.get short long
  simp only [List.get_eq_getElem,at'] at leads
  refine ⟨_,successor_eq_ok.mpr ⟨positive,?_,_,found,List.getElem?_eq_getElem long⟩,leads⟩
  rw [chart.alphabet]
  exact Automaton.mem_symbols.mp symbol

theorem follow (chart : Chart A d) (complete : d.rows.size = d.store.count) (w : List Nat) : ∀ {i t},
    d.store.value i = .ok t → (∀ a ∈ w, a ∈ A.symbols) →
      ∃ j, d.follow i w = .ok j ∧ d.store.value j = .ok (w.foldl (Step.next A) t) := by
  induction w with
  | nil => intro i t held _; exact ⟨i,rfl,held⟩
  | cons a w ih =>
    intro i t held symbols
    obtain ⟨k,goes,next⟩ := chart.successor complete held (symbols a (.head _))
    obtain ⟨j,path,last⟩ := ih next fun b later => symbols b (.tail _ later)
    refine ⟨j,?_,last⟩
    rw [Determinization.follow,goes]
    exact path

theorem found (chart : Chart A d) : d.find t = some i ↔ ∃ u, d.tree i = .ok u ∧ (u == t) = true := by
  have complete := chart.stock.complete
  constructor
  · intro here
    obtain ⟨u,held,same⟩ := complete.find_some here
    exact ⟨u,tree_eq_ok.mpr held,Tree.beq_iff.mpr (Tree.beq_iff.mp same).symm⟩
  · intro equal
    obtain ⟨u,held,same⟩ := equal
    rw [tree_eq_ok] at held
    rw [Tree.beq_iff] at same
    unfold find
    cases looked : d.store.find t with
    | none =>
      have differs := complete.find_none looked held
      rw [Tree.beq_iff.mpr same.symm] at differs
      cases differs
    | some j =>
      obtain ⟨v,other,again⟩ := complete.find_some looked
      rw [chart.stock.apart i j u v held other (same.trans (Tree.beq_iff.mp again))]

theorem exact_of_complete (chart : Chart A d) (complete : d.rows.size = d.store.count) : Exact A d where
  reads w symbols := by
    obtain ⟨i,path,held⟩ := chart.follow complete w chart.first symbols
    exact ⟨i,_,path,tree_eq_ok.mpr held,fun m => Step.run_eq_next m A w (Tree.initial_over A)⟩
  numbers i := by
    constructor
    · intro held
      obtain ⟨t,held⟩ := held
      exact Store.value_ok_pos (tree_eq_ok.mp held)
    · intro inside
      obtain ⟨t,held⟩ := Store.exists_value inside.1 inside.2
      exact ⟨t,tree_eq_ok.mpr held⟩
  reached := chart.reached
  distinct i j t u left right := chart.stock.apart i j t u (tree_eq_ok.mp left) (tree_eq_ok.mp right)
  found t i := chart.found
  rows_size := complete
  rows row listed := by
    obtain ⟨k,small,rfl⟩ := Array.mem_iff_getElem.mp listed
    obtain ⟨t,-,goes⟩ := chart.exact k _ (Array.getElem?_eq_getElem small)
    refine ⟨by rw [←goes.length_eq,A.symbols_length],?_⟩
    intro j entry
    obtain ⟨l,inside,rfl⟩ := List.mem_iff_getElem.mp entry
    exact Store.value_ok_pos (goes.get (goes.length_eq ▸ inside) inside)

end Chart

-- Two stages of exploration whose stores may have room for more or fewer trees.
structure Alike (d d' : Determinization) : Prop where
  values : d.store.values = d'.store.values
  rows : d.rows = d'.rows
  alphabet : d.alphabetSize = d'.alphabetSize
  buchi : d.buchiStates = d'.buchiStates

-- A tree is found under the same index wherever the same trees are stored, in whatever chains.
theorem put_alike {p p' r r' : Store Tree} {place place' : Nat × Bool} (complete : p.Complete)
    (complete' : p'.Complete) (values : p.values = p'.values) (done : p.put t = (.ok place,r))
    (done' : p'.put t = (.ok place',r')) : place = place' ∧ r.values = r'.values := by
  have entries : p.entries = p'.entries := by unfold Store.entries; rw [values]
  have find : p.find t = p'.find t := by
    rw [Store.Lists.find_eq complete,Store.Lists.find_eq complete',entries]
  have count : p.count = p'.count := by unfold Store.count; rw [values]
  obtain ⟨same,⟨rfl,rfl⟩ | ⟨appends,appends'⟩⟩ := Store.put_agree find.symm count.symm done done'
  · exact ⟨same.symm,values⟩
  · exact ⟨same.symm,by rw [appends.values,appends'.values,values]⟩

theorem putAll_alike (ts : List Tree) : ∀ {p p' r r' places places'}, Stock A p → Stock A p' →
    p.values = p'.values → (∀ t ∈ ts, t.Over A) → putAll p ts = .ok (places,r) →
      putAll p' ts = .ok (places',r') → places = places' ∧ r.values = r'.values := by
  induction ts with
  | nil =>
    intro p p' r r' places places' _ _ values _ done done'
    cases done
    cases done'
    exact ⟨rfl,values⟩
  | cons t ts ih =>
    intro p p' r r' places places' stock stock' values overs done done'
    obtain ⟨i,isNew,q,later,first,rest,rfl⟩ := putAll_cons done
    obtain ⟨i',isNew',q',later',first',rest',rfl⟩ := putAll_cons done'
    obtain ⟨same,values⟩ := put_alike stock.complete stock'.complete values first first'
    have fits := overs t (.head _)
    obtain ⟨rfl,last⟩ := ih (stock.put fits first).stock (stock'.put fits first').stock values
      (fun u later => overs u (.tail _ later)) rest rest'
    exact ⟨by rw [same],last⟩

theorem expand_alike {new new' : List Nat} (chart : Chart A d) (chart' : Chart A d') (alike : Alike d d')
    (fits : t.Over A) (done : expand s A d t = .ok (new,e)) (done' : expand s' A d' t = .ok (new',e')) :
    Alike e e' := by
  obtain ⟨places,store,put,-,rfl⟩ := expand_ok fits done
  obtain ⟨places',store',put',-,rfl⟩ := expand_ok fits done'
  obtain ⟨rfl,values⟩ := putAll_alike _ chart.stock chart'.stock alike.values (symbols_over fits) put put'
  refine ⟨values,?_,alike.alphabet,alike.buchi⟩
  change d.rows.push (places.map (·.1)) = d'.rows.push (places.map (·.1))
  rw [alike.rows]

namespace Alike

theorem value_eq (alike : Alike d d') (i : Nat) : d.store.value i = d'.store.value i := by
  cases i with
  | zero => rfl
  | succ i => unfold Store.value; rw [alike.values]

theorem complete (alike : Alike d d') (complete : d.rows.size = d.store.count) :
    d'.rows.size = d'.store.count := by
  rw [←alike.rows,Store.count,←alike.values]
  exact complete

end Alike

theorem explore_of_complete (complete : d.rows.size = d.store.count) (turns : Nat)
    (done : explore s A turns d.waiting d = .ok e) : e = d := by
  rw [explore_complete complete] at done
  exact (Except.ok.inj done).symm

-- The two explorations go in step until both are done.
theorem explore_alike (turns : Nat) : ∀ {d d' turns'}, Chart A d → Chart A d' → Alike d d' →
    explore s A turns d.waiting d = .ok e → explore s' A turns' d'.waiting d' = .ok e' →
      e.rows.size = e.store.count → e'.rows.size = e'.store.count → Alike e e' := by
  induction turns with
  | zero =>
    intro d d' turns' _ _ alike done done' complete _
    cases done
    rw [explore_of_complete (alike.complete complete) turns' done']
    exact alike
  | succ turns ih =>
    intro d d' turns' chart chart' alike done done' complete complete'
    rcases chart.explore_cases done with ⟨all,rfl⟩ | ⟨t,new,f,held,first,rest⟩
    · rw [explore_of_complete (alike.complete all) turns' done']
      exact alike
    · have same := alike.value_eq (d.rows.size + 1)
      rw [held,alike.rows] at same
      cases turns' with
      | zero =>
        cases done'
        have inside := Store.value_ok_pos same.symm
        omega
      | succ turns' =>
        rw [chart'.explore_succ same.symm] at done'
        obtain ⟨⟨new',f'⟩,first',rest'⟩ := bind_eq_ok.mp done'
        have next := expand_alike chart chart' alike (chart.stock.fits _ t held) first first'
        exact ih (chart.expand held first).1 (chart'.expand same.symm first').1 next rest rest' complete complete'

-- The first tree has number 1, and the queue begins with it.
theorem putAll_start {b : StorageBits} {places : List (Nat × Bool)} {store : Store Tree}
    (put : putAll (.empty b) [.initial A] = .ok (places,store)) : places = [(1,true)] ∧ store.count = 1 := by
  obtain ⟨i,isNew,q,later,first,rest,rfl⟩ := putAll_cons put
  cases rest
  rcases Store.put_ok first with ⟨found,-,-⟩ | ⟨-,rfl,rfl,-,appends⟩
  · obtain ⟨u,held,-⟩ := (stock_empty A b).complete.find_some found
    exact absurd held Store.value_empty
  · exact ⟨rfl,appends.count_eq⟩

theorem stocks_start {store : Store Tree} {places : List (Nat × Bool)}
    (put : putAll (.empty s.storage) [.initial A] = .ok (places,store)) :
    Stocks A (.empty s.storage) [.initial A] places store :=
  Stock.putAll _ (stock_empty A s.storage) (initial_over A) put

theorem size_start {store : Store Tree} {places : List (Nat × Bool)}
    (put : putAll (.empty s.storage) [.initial A] = .ok (places,store)) : store.size = s.storage :=
  (stocks_start put).extend.size

-- An exploration begins with one tree, and none of its steps is lost for want of turns.
theorem chart_start {store : Store Tree} {places : List (Nat × Bool)}
    (put : putAll (.empty s.storage) [.initial A] = .ok (places,store)) :
    Chart A ⟨A.stateCount,A.alphabetSize,store,#[]⟩ := by
  have stocks := stocks_start put
  obtain ⟨rfl,single⟩ := putAll_start put
  refine ⟨stocks.stock,rfl,rfl,?_,Nat.zero_le _,fun i row found => by simp at found,?_⟩
  · cases stocks.held with
    | cons held _ => exact held
  · intro i positive small
    change i ≤ store.count at small
    obtain rfl : i = 1 := by omega
    exact ⟨[],nofun,rfl⟩

theorem exploreWithin_eq {store : Store Tree} {places : List (Nat × Bool)} (turns : Nat)
    (put : putAll (.empty s.storage) [.initial A] = .ok (places,store)) :
    exploreWithin turns A s = explore s A turns
      (waiting ⟨A.stateCount,A.alphabetSize,store,#[]⟩) ⟨A.stateCount,A.alphabetSize,store,#[]⟩ := by
  obtain ⟨rfl,single⟩ := putAll_start put
  have queue : waiting ⟨A.stateCount,A.alphabetSize,store,#[]⟩ = [1] := by simp [waiting,single]
  rw [queue,exploreWithin,within,put]
  rfl

-- With fewer than 2 ^ 31 states an exploration is the same in words.
theorem machine_exploreWithin_eq (small : A.stateCount < 2 ^ 31) (turns : Nat) (s : Settings) :
    Machine.exploreWithin turns A s = exploreWithin turns A s := by
  rw [Machine.exploreWithin,machine_checkedStep_eq small,exploreWithin]

theorem machine_determinize_eq (small : A.stateCount < 2 ^ 31) (s : Settings) :
    Machine.determinize A s = ofAutomaton A s := machine_exploreWithin_eq small _ s

theorem ofAutomaton_ok (made : ofAutomaton A s = .ok d) : ∃ places store,
    putAll (.empty s.storage) [.initial A] = .ok (places,store) ∧
      explore s A s.storage.capacity (waiting ⟨A.stateCount,A.alphabetSize,store,#[]⟩)
        ⟨A.stateCount,A.alphabetSize,store,#[]⟩ = .ok d ∧
      Chart A d ∧ d.rows.size = d.store.count := by
  obtain ⟨⟨places,store⟩,put,-⟩ := bind_eq_ok.mp made
  have explored := made
  rw [ofAutomaton,exploreWithin_eq _ put] at explored
  refine ⟨places,store,put,explored,(chart_start put).explore _ ?_ explored⟩
  rw [size_start put]
  exact Nat.le_add_left _ _

-- Whatever the settings, an exploration that comes to an end is exact, and there is one result.
theorem ofAutomaton_exact (A : Automaton) (s : Settings) (d : Determinization)
    (made : ofAutomaton A s = .ok d) : Exact A d ∧ ∀ s' d', ofAutomaton A s' = .ok d' → Alike d d' := by
  obtain ⟨row,store,put,explored,chart,complete⟩ := ofAutomaton_ok made
  refine ⟨chart.exact_of_complete complete,?_⟩
  intro s' d' made'
  obtain ⟨row',store',put',explored',_,complete'⟩ := ofAutomaton_ok made'
  obtain ⟨-,values⟩ := putAll_alike _ (stock_empty A s.storage) (stock_empty A s'.storage) rfl
    (initial_over A) put put'
  have alike : Alike ⟨A.stateCount,A.alphabetSize,store,#[]⟩ ⟨A.stateCount,A.alphabetSize,store',#[]⟩ :=
    ⟨values,rfl,rfl,rfl⟩
  exact explore_alike _ (chart_start put) (chart_start put') alike explored explored' complete complete'

-- Room for three trees.
def tight : Settings := {storage := ⟨2,by decide⟩,method := .byRule,crossCheck := true}

theorem ofAutomaton_exact_tight : ∃ d, ofAutomaton .guess tight = .ok d ∧ Exact .guess d ∧
    d.rows = #[[2,3],[2,3],[2,3]] := by
  have rows : (ofAutomaton .guess tight).toOption.map (·.rows) = some #[[2,3],[2,3],[2,3]] := by decide +kernel
  cases made : ofAutomaton .guess tight with
  | error failure => rw [made] at rows; cases rows
  | ok d =>
    rw [made] at rows
    exact ⟨d,rfl,(ofAutomaton_exact .guess tight d made).1,Option.some.inj rows⟩

end BuchiToRabin.Determinization
