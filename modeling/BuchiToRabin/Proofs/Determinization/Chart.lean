import BuchiToRabin.Proofs.Determinization.Stock
namespace BuchiToRabin

namespace Determinization

variable {A : Automaton} {s : Settings} {d e : Determinization} {t : Tree} {new : List Nat} {i j a : Nat}

-- The methods agree, so comparing them lets every step pass.
theorem checkedStep_eq (s : Settings) (fits : t.Over A) (a : Nat) :
    checkedStep s A t a = .ok (Step.next A t a) := by
  unfold checkedStep checkedWith stepBy
  simp only [Step.step_eq_next fits,ok_bind]
  split <;> simp

theorem machine_checkedStep_eq (small : A.stateCount < 2 ^ 31) (s : Settings) :
    Machine.checkedStep s A = checkedStep s A := by
  have same (m : Method) : Machine.stepBy m A = stepBy m A := by
    funext t a
    unfold Machine.stepBy stepBy
    rw [Machine.step_eq small]
    cases m.step A a t <;> rfl
  unfold Machine.checkedStep checkedStep
  simp only [same]

theorem successor_eq_ok : d.successor i a = .ok j ↔
    1 ≤ i ∧ (1 ≤ a ∧ a ≤ d.alphabetSize) ∧ ∃ row, d.rows[i - 1]? = some row ∧ row[a - 1]? = some j := by
  unfold successor
  by_cases zero : i = 0
  · rw [if_pos zero]
    exact ⟨nofun,fun found => absurd found.1 (by omega)⟩
  · rw [if_neg zero]
    by_cases symbol : 1 ≤ a ∧ a ≤ d.alphabetSize
    · rw [if_neg (not_not.mpr symbol)]
      cases d.rows[i - 1]? with
      | none => simp
      | some row =>
        cases entry : row[a - 1]? with
        | none => simp [entry]
        | some k => simp [entry,symbol,Nat.one_le_iff_ne_zero.mpr zero]
    · rw [if_pos symbol]
      exact ⟨nofun,fun found => absurd found.2.1 symbol⟩

theorem follow_append (w : List Nat) : ∀ (i : Nat) (u : List Nat),
    d.follow i (w ++ u) = (d.follow i w >>= fun j => d.follow j u) := by
  induction w with
  | nil => intro i u; rfl
  | cons a w ih =>
    intro i u
    simp only [List.cons_append,follow]
    cases d.successor i a with
    | error e => rfl
    | ok j => exact ih j u

theorem follow_single (i a : Nat) : d.follow i [a] = d.successor i a := by
  rw [follow]
  cases d.successor i a <;> rfl

theorem follow_mono (keeps : ∀ i a j, d.successor i a = .ok j → e.successor i a = .ok j) (w : List Nat) :
    ∀ {i}, d.follow i w = .ok j → e.follow i w = .ok j := by
  induction w with
  | nil => intro i done; exact done
  | cons a w ih =>
    intro i done
    rw [follow] at done
    obtain ⟨k,first,rest⟩ := bind_eq_ok.mp done
    rw [follow,keeps i a k first]
    exact ih rest

-- A part of the deterministic automaton: rows for the first of its trees, and every tree can be reached
-- by way of them.
structure Chart (A : Automaton) (d : Determinization) : Prop where
  stock : Stock A d.store
  buchi : d.buchiStates = A.stateCount
  alphabet : d.alphabetSize = A.alphabetSize
  first : d.store.value initial = .ok (.initial A)
  behind : d.rows.size ≤ d.store.count
  exact : ∀ i row, d.rows[i]? = some row → ∃ t, d.store.value (i + 1) = .ok t ∧
    List.Forall₂ (fun a j => d.store.value j = .ok (Step.next A t a)) A.symbols row
  reached : ∀ i, 1 ≤ i → i ≤ d.store.count → ∃ w, (∀ a ∈ w, a ∈ A.symbols) ∧ d.follow initial w = .ok i

theorem symbols_over (fits : t.Over A) : ∀ u ∈ A.symbols.map (Step.next A t), u.Over A := by
  intro u listed
  obtain ⟨a,-,rfl⟩ := List.mem_map.mp listed
  exact Step.next_over fits a

-- No step fails, so storing the successors is all that can where there is room to list them.
theorem expand_eq (s : Settings) (room : Machine.Fits 56 A.alphabetSize) (fits : t.Over A) : expand s A d t = (do
    let (places,store) ← putAll d.store (A.symbols.map (Step.next A t))
    return (discovered places,⟨d.buchiStates,d.alphabetSize,store,d.rows.push (places.map (·.1))⟩)) := by
  have steps : A.symbols.mapM (checkedStep s A t) = .ok (A.symbols.map (Step.next A t)) := by
    have total : checkedStep s A t = fun a => pure (Step.next A t a) := funext fun a => checkedStep_eq s fits a
    rw [total,List.mapM_pure]
    rfl
  rw [expand,expandWith,if_neg (not_not.mpr room)]
  show (A.symbols.mapM (checkedStep s A t) >>= _) = _
  rw [steps,ok_bind]

theorem expand_cramped (cramped : ¬ Machine.Fits 56 A.alphabetSize) : expand s A d t = .error (.panic .capacity) := by
  rw [expand,expandWith,if_pos cramped]
  rfl

theorem room_of_expand (done : expand s A d t = .ok (new,e)) : Machine.Fits 56 A.alphabetSize := by
  by_contra cramped
  cases (expand_cramped cramped).symm.trans done

theorem expand_ok (fits : t.Over A) (done : expand s A d t = .ok (new,e)) : ∃ places store,
    putAll d.store (A.symbols.map (Step.next A t)) = .ok (places,store) ∧ new = discovered places ∧
      e = ⟨d.buchiStates,d.alphabetSize,store,d.rows.push (places.map (·.1))⟩ := by
  rw [expand_eq s (room_of_expand done) fits] at done
  obtain ⟨⟨places,store⟩,put,done⟩ := bind_eq_ok.mp done
  cases done
  exact ⟨places,store,put,rfl,rfl⟩

theorem successor_push (store : Store Tree) (row : List Nat) (goes : d.successor i a = .ok j) :
    (⟨d.buchiStates,d.alphabetSize,store,d.rows.push row⟩ : Determinization).successor i a = .ok j := by
  obtain ⟨positive,symbol,old,found,entry⟩ := successor_eq_ok.mp goes
  refine successor_eq_ok.mpr ⟨positive,symbol,old,?_,entry⟩
  rw [Array.getElem?_push,if_neg]
  · exact found
  · intro last
    rw [last,Array.getElem?_eq_none (Nat.le_refl _)] at found
    cases found

namespace Chart

-- A tree that comes in with the last row is one symbol away from the tree of that row.
theorem reached_new (chart : Chart A d) (room : d.rows.size + 1 ≤ d.store.count) (store : Store Tree)
    {row : List Nat} (length : row.length = A.alphabetSize) (listed : i ∈ row) :
    ∃ w, (∀ a ∈ w, a ∈ A.symbols) ∧
      (⟨d.buchiStates,d.alphabetSize,store,d.rows.push row⟩ : Determinization).follow initial w = .ok i := by
  obtain ⟨w,symbols,path⟩ := chart.reached (d.rows.size + 1) (by omega) room
  obtain ⟨k,entry⟩ := List.mem_iff_getElem?.mp listed
  obtain ⟨short,-⟩ := List.getElem?_eq_some_iff.mp entry
  have symbol : 1 ≤ k + 1 ∧ k + 1 ≤ A.alphabetSize := by omega
  refine ⟨w ++ [k + 1],?_,?_⟩
  · intro a reads
    rcases List.mem_append.mp reads with old | last
    · exact symbols a old
    · rw [List.mem_singleton.mp last]
      exact Automaton.mem_symbols.mpr symbol
  · rw [follow_append,follow_mono (fun i a j => successor_push store row) w path,ok_bind,follow_single]
    exact successor_eq_ok.mpr ⟨by omega,chart.alphabet ▸ symbol,row,by simp,entry⟩

theorem expand (chart : Chart A d) (held : d.store.value (d.rows.size + 1) = .ok t)
    (done : expand s A d t = .ok (new,e)) :
    Chart A e ∧ Extends d.store e.store ∧ e.rows.size = d.rows.size + 1 ∧
      new = List.range' (d.store.count + 1) (e.store.count - d.store.count) := by
  have fits := chart.stock.fits _ t held
  obtain ⟨places,store,put,rfl,rfl⟩ := expand_ok fits done
  have stocks := Stock.putAll _ chart.stock (symbols_over fits) put
  have goes : List.Forall₂ (fun a j => store.value j = .ok (Step.next A t a)) A.symbols (places.map (·.1)) :=
    List.forall₂_map_right_iff.mpr (List.forall₂_map_left_iff.mp stocks.held)
  have inside := (Store.value_ok_pos held).2
  refine ⟨⟨stocks.stock,chart.buchi,chart.alphabet,stocks.extend.value _ _ chart.first,?_,?_,?_⟩,
    stocks.extend,Array.size_push _,stocks.fresh⟩
  · have more := stocks.extend.count_le
    change (d.rows.push (places.map (·.1))).size ≤ store.count
    rw [Array.size_push]
    omega
  · intro i row found
    rw [Array.getElem?_push] at found
    split at found
    · rename_i last
      cases found
      subst last
      exact ⟨t,stocks.extend.value _ _ held,goes⟩
    · obtain ⟨u,old,goes⟩ := chart.exact i row found
      exact ⟨u,stocks.extend.value _ _ old,goes.imp fun a j held => stocks.extend.value _ _ held⟩
  · intro i positive small
    by_cases old : i ≤ d.store.count
    · obtain ⟨w,symbols,path⟩ := chart.reached i positive old
      exact ⟨w,symbols,follow_mono (fun i a j => successor_push store _) w path⟩
    · have length := goes.length_eq.symm.trans A.symbols_length
      exact chart.reached_new inside store length (stocks.listed (by omega) small)

-- Every tree has its row, or there is a first one without.
theorem complete_or_held (chart : Chart A d) :
    d.rows.size = d.store.count ∨ ∃ t, d.store.value (d.rows.size + 1) = .ok t := by
  have behind := chart.behind
  by_cases complete : d.rows.size = d.store.count
  · exact .inl complete
  · exact .inr (Store.exists_value (by omega) (by omega))

end Chart

-- The trees without a row, in the order in which they came.
def waiting (d : Determinization) : List Nat :=
  List.range' (d.rows.size + 1) (d.store.count - d.rows.size)

theorem explore_complete (complete : d.rows.size = d.store.count) (turns : Nat) :
    explore s A turns d.waiting d = .ok d := by
  have none : d.waiting = [] := by simp [waiting,complete]
  rw [none]
  cases turns <;> rfl

namespace Chart

-- The queue holds the trees without a row, and in this order they are expanded.
theorem explore_succ (chart : Chart A d) (held : d.store.value (d.rows.size + 1) = .ok t) (turns : Nat) :
    Determinization.explore s A (turns + 1) d.waiting d =
      (Determinization.expand s A d t >>= fun (_,e) => Determinization.explore s A turns e.waiting e) := by
  have inside := (Store.value_ok_pos held).2
  have split : d.waiting = (d.rows.size + 1) :: List.range' (d.rows.size + 2) (d.store.count - d.rows.size - 1) := by
    obtain ⟨rest,length⟩ : ∃ rest, d.store.count - d.rows.size = rest + 1 := ⟨_,(Nat.sub_add_cancel (by omega)).symm⟩
    rw [waiting,length,List.range'_succ,Nat.add_sub_cancel]
  rw [split,Determinization.explore,exploreWith,if_neg (not_not.mpr rfl),held]
  show (Determinization.expand s A d t >>= _) = _
  cases ran : Determinization.expand s A d t with
  | error failure => rfl
  | ok found =>
    obtain ⟨new,e⟩ := found
    obtain ⟨-,extend,rows,rfl⟩ := chart.expand held ran
    have more := extend.count_le
    have queue : List.range' (d.rows.size + 2) (d.store.count - d.rows.size - 1) ++
        List.range' (d.store.count + 1) (e.store.count - d.store.count) = e.waiting := by
      rw [show d.store.count + 1 = d.rows.size + 2 + (d.store.count - d.rows.size - 1) by omega,
        List.range'_append_1,waiting,rows]
      congr 1
      omega
    simp only [ok_bind,queue]

-- A turn finds all done, or expands the first tree without a row.
theorem explore_cases {turns : Nat} (chart : Chart A d)
    (done : Determinization.explore s A (turns + 1) d.waiting d = .ok e) :
    d.rows.size = d.store.count ∧ e = d ∨ ∃ t new f, d.store.value (d.rows.size + 1) = .ok t ∧
      Determinization.expand s A d t = .ok (new,f) ∧ Determinization.explore s A turns f.waiting f = .ok e := by
  rcases chart.complete_or_held with complete | ⟨t,held⟩
  · rw [explore_complete complete] at done
    exact .inl ⟨complete,(Except.ok.inj done).symm⟩
  · rw [chart.explore_succ held] at done
    obtain ⟨⟨new,f⟩,first,rest⟩ := bind_eq_ok.mp done
    exact .inr ⟨t,new,f,held,first,rest⟩

-- What every expansion keeps, the exploration keeps.
theorem explore_keeps {P : Determinization → Prop}
    (keeps : ∀ {d e t new}, Chart A d → d.store.value (d.rows.size + 1) = .ok t →
      Determinization.expand s A d t = .ok (new,e) → P d → P e)
    (turns : Nat) : ∀ {d}, Chart A d → P d → Determinization.explore s A turns d.waiting d = .ok e → P e := by
  induction turns with
  | zero =>
    intro d _ holds done
    cases done
    exact holds
  | succ turns ih =>
    intro d chart holds done
    rcases chart.explore_cases done with ⟨-,rfl⟩ | ⟨t,new,f,held,first,rest⟩
    · exact holds
    · exact ih (chart.expand held first).1 (keeps chart held first holds) rest

-- Trees stay where they are stored.
theorem extends_of_explore (turns : Nat) (chart : Chart A d)
    (done : Determinization.explore s A turns d.waiting d = .ok e) : Extends d.store e.store := by
  refine explore_keeps (P := fun f => Extends d.store f.store) ?_ turns chart (extends_refl _) done
  intro f g t new charted held expanded extends'
  exact extends'.trans (charted.expand held expanded).2.1

-- Turns as many as the store has room for are enough.
theorem explore (turns : Nat) : ∀ {d}, Chart A d → d.store.size.capacity ≤ d.rows.size + turns →
    Determinization.explore s A turns d.waiting d = .ok e → Chart A e ∧ e.rows.size = e.store.count := by
  induction turns with
  | zero =>
    intro d chart enough done
    have room := chart.stock.room
    have behind := chart.behind
    omega
  | succ turns ih =>
    intro d chart enough done
    rcases chart.explore_cases done with ⟨complete,rfl⟩ | ⟨t,new,f,held,first,rest⟩
    · exact ⟨chart,complete⟩
    · obtain ⟨later,extend,more,-⟩ := chart.expand held first
      refine ih later ?_ rest
      rw [extend.size,more]
      omega

end Chart
end Determinization
end BuchiToRabin
