import Mathlib.Data.List.Induction
import Mathlib.Data.List.Shortlex
import BuchiToRabin.Proofs.Determinization.Path
namespace BuchiToRabin.Determinization

-- Shorter words come first, and words of one length in the order of their symbols.
abbrev Before (v w : List Nat) : Prop := List.Shortlex (· < ·) v w

theorem before_trans {u v w : List Nat} (first : Before u v) (second : Before v w) : Before u w := by
  rcases List.shortlex_def.mp first with short | ⟨same,less⟩
  · rcases List.shortlex_def.mp second with short' | ⟨same',-⟩
    · exact .of_length_lt (Nat.lt_trans short short')
    · exact .of_length_lt (same' ▸ short)
  · rcases List.shortlex_def.mp second with short' | ⟨same',less'⟩
    · exact .of_length_lt (same ▸ short')
    · exact .of_lex (same.trans same') (List.lt_trans less less')

theorem before_concat {v w : List Nat} (before : Before v w) (a b : Nat) : Before (v ++ [a]) (w ++ [b]) := by
  rcases List.shortlex_def.mp before with short | ⟨same,less⟩
  · apply List.Shortlex.of_length_lt
    rw [List.length_append,List.length_append]
    exact Nat.add_lt_add_right short 1
  · apply List.Shortlex.of_lex
    · rw [List.length_append,List.length_append,same]
      rfl
    · clear before
      induction less with
      | nil => cases same
      | cons _ ih => exact .cons (ih (Nat.succ.inj same))
      | rel less => exact .rel less

theorem before_concat_symbol (w : List Nat) {a b : Nat} (less : a < b) : Before (w ++ [a]) (w ++ [b]) :=
  .append_left ((List.shortlex_singleton_iff a b).mpr less) w

-- State `j` comes in with entry `a` of row `p`: all entries read earlier lead to smaller numbers.
structure Discovers (d : Determinization) (p a j : Nat) : Prop where
  leads : d.successor p a = .ok j
  earlier : p < j
  first : ∀ k b i, k < p ∨ k = p ∧ b < a → d.successor k b = .ok i → i < j

def Ordered (d : Determinization) : Prop :=
  ∀ j, initial < j → j ≤ d.store.count → ∃ p a, d.Discovers p a j

-- The word by which a state comes in.
inductive Named (d : Determinization) : Nat → List Nat → Prop where
  | initial : Named d initial []
  | step : d.Discovers p a j → Named d p w → Named d j (w ++ [a])

variable {A : Automaton} {s : Settings} {d e : Determinization} {t : Tree} {i j p q a b : Nat}
  {v w new : List Nat}

-- A tree that comes in stands behind all places before its first one.
theorem putAll_first (ts : List Tree) : ∀ {r q places}, Stock A r → (∀ t ∈ ts, t.Over A) →
    putAll r ts = .ok (places,q) → ∀ j, r.count < j → j ≤ q.count →
      ∃ l : Nat, (places.map (·.1))[l]? = some j ∧
        ∀ m i, m < l → (places.map (·.1))[m]? = some i → i < j := by
  induction ts with
  | nil =>
    intro r q places _ _ done j above small
    cases done
    omega
  | cons t ts ih =>
    intro r q places stock overs done j above small
    obtain ⟨i,isNew,o,later,one,rest,rfl⟩ := putAll_cons done
    have stocks := stock.put (overs t (.head _)) one
    have inside : i ≤ o.count := by
      cases stocks.held with
      | cons held _ => exact (Store.value_ok_pos held).2
    by_cases now : j ≤ o.count
    · refine ⟨0,?_,fun m i less => absurd less (Nat.not_lt_zero m)⟩
      rcases Store.put_ok one with ⟨-,-,rfl⟩ | ⟨-,-,rfl,-,appends⟩
      · omega
      · rw [appends.count_eq] at now
        have latest : r.count + 1 = j := by omega
        exact congrArg some latest
    · obtain ⟨l,entry,least⟩ := ih stocks.stock (fun u listed => overs u (.tail _ listed)) rest j (by omega) small
      refine ⟨l + 1,entry,?_⟩
      intro m k less found
      cases m with
      | zero =>
        obtain rfl : i = k := Option.some.inj found
        omega
      | succ m => exact least m k (Nat.lt_of_succ_lt_succ less) found

theorem successor_push_iff {store : Store Tree} {row : List Nat} :
    (⟨d.buchiStates,d.alphabetSize,store,d.rows.push row⟩ : Determinization).successor i a = .ok j ↔
      d.successor i a = .ok j ∨
        i = d.rows.size + 1 ∧ (1 ≤ a ∧ a ≤ d.alphabetSize) ∧ row[a - 1]? = some j := by
  constructor
  · intro goes
    obtain ⟨positive,symbol,found,at',entry⟩ := successor_eq_ok.mp goes
    rw [Array.getElem?_push] at at'
    split at at'
    · cases at'
      exact .inr ⟨by omega,symbol,entry⟩
    · exact .inl (successor_eq_ok.mpr ⟨positive,symbol,found,at',entry⟩)
  · intro goes
    rcases goes with old | ⟨rfl,symbol,entry⟩
    · exact successor_push store row old
    · exact successor_eq_ok.mpr ⟨by omega,symbol,row,by simp,entry⟩

-- Rows belong to states and lead to states.
theorem Chart.successor_inside (chart : Chart A d) (goes : d.successor i a = .ok j) :
    i ≤ d.rows.size ∧ 1 ≤ j ∧ j ≤ d.store.count := by
  obtain ⟨positive,-,row,found,entry⟩ := successor_eq_ok.mp goes
  obtain ⟨inside,-⟩ := Array.getElem?_eq_some_iff.mp found
  obtain ⟨t,-,leads⟩ := chart.exact _ row found
  obtain ⟨short,rfl⟩ := List.getElem?_eq_some_iff.mp entry
  have held := leads.get (leads.length_eq ▸ short) short
  exact ⟨by omega,Store.value_ok_pos held⟩

theorem Ordered.expand (ordered : d.Ordered) (chart : Chart A d)
    (held : d.store.value (d.rows.size + 1) = .ok t) (done : expand s A d t = .ok (new,e)) : e.Ordered := by
  have fits := chart.stock.fits _ t held
  have room := (Store.value_ok_pos held).2
  obtain ⟨places,store,put,rfl,rfl⟩ := expand_ok fits done
  have overs := symbols_over fits
  have stocks := Stock.putAll _ chart.stock overs put
  intro j above small
  by_cases old : j ≤ d.store.count
  · obtain ⟨p,a,discovers⟩ := ordered j above old
    have inside := chart.successor_inside discovers.leads
    refine ⟨p,a,successor_push store _ discovers.leads,discovers.earlier,?_⟩
    intro k b i less goes
    rcases successor_push_iff.mp goes with goes | ⟨rfl,-⟩
    · exact discovers.first k b i less goes
    · omega
  · obtain ⟨l,entry,least⟩ := putAll_first _ chart.stock overs put j (by omega) small
    obtain ⟨short,-⟩ := List.getElem?_eq_some_iff.mp entry
    have length : (places.map (·.1)).length = d.alphabetSize := by
      rw [List.length_map,←stocks.held.length_eq,List.length_map,A.symbols_length,chart.alphabet]
    refine ⟨d.rows.size + 1,l + 1,successor_push_iff.mpr (.inr ⟨rfl,by omega,entry⟩),by omega,?_⟩
    intro k b i less goes
    rcases successor_push_iff.mp goes with goes | ⟨rfl,symbol,entry⟩
    · have inside := chart.successor_inside goes
      omega
    · exact least (b - 1) i (by omega) entry

namespace Discovers

theorem initial_lt (discovers : d.Discovers p a j) : initial < j :=
  Nat.lt_of_le_of_lt (successor_eq_ok.mp discovers.leads).1 discovers.earlier

theorem unique (discovers : d.Discovers p a j) (other : d.Discovers q b j) : p = q ∧ a = b := by
  rcases Nat.lt_trichotomy p q with below | rfl | above
  · exact absurd (other.first p a j (.inl below) discovers.leads) (Nat.lt_irrefl j)
  · refine ⟨rfl,?_⟩
    rcases Nat.lt_trichotomy a b with below | same | above
    · exact absurd (other.first p a j (.inr ⟨rfl,below⟩) discovers.leads) (Nat.lt_irrefl j)
    · exact same
    · exact absurd (discovers.first p b j (.inr ⟨rfl,above⟩) other.leads) (Nat.lt_irrefl j)
  · exact absurd (discovers.first q b j (.inl above) other.leads) (Nat.lt_irrefl j)

-- Entries that discover states and those that lead to them stand in the order of the states.
theorem place_le (discovers : d.Discovers p a i) (leads : d.successor q b = .ok j) (le : i ≤ j) :
    p < q ∨ p = q ∧ a ≤ b := by
  rcases Nat.lt_trichotomy p q with below | rfl | above
  · exact .inl below
  · refine .inr ⟨rfl,Nat.le_of_not_lt ?_⟩
    intro less
    exact Nat.not_lt_of_le le (discovers.first p b j (.inr ⟨rfl,less⟩) leads)
  · exact absurd (discovers.first q b j (.inl above) leads) (Nat.not_lt_of_le le)

end Discovers

namespace Named

theorem follow (named : d.Named j w) : d.follow Determinization.initial w = .ok j := by
  induction named with
  | initial => rfl
  | step discovers _ ih => rw [follow_append,ih,ok_bind,follow_single,discovers.leads]

theorem unique (named : d.Named j v) : ∀ {w}, d.Named j w → v = w := by
  induction named with
  | initial =>
    intro w other
    cases other with
    | initial => rfl
    | step discovers _ => exact absurd discovers.initial_lt (Nat.lt_irrefl _)
  | step discovers _ ih =>
    intro w other
    cases other with
    | initial => exact absurd discovers.initial_lt (Nat.lt_irrefl _)
    | step again named =>
      obtain ⟨rfl,rfl⟩ := discovers.unique again
      rw [ih named]

theorem before (named : d.Named j w) : ∀ {i v}, i < j → d.Named i v → Before v w := by
  induction named with
  | initial =>
    intro i v less other
    cases other with
    | initial => exact absurd less (Nat.lt_irrefl _)
    | step discovers _ => exact absurd (Nat.lt_trans discovers.initial_lt less) (Nat.lt_irrefl _)
  | step discovers named ih =>
    intro i v less other
    cases other with
    | initial => exact .of_length_lt (by simp)
    | step again other =>
      rcases again.place_le discovers.leads (Nat.le_of_lt less) with below | ⟨rfl,le⟩
      · exact before_concat (ih below other) _ _
      · rw [other.unique named]
        apply before_concat_symbol
        apply Nat.lt_of_le_of_ne le
        rintro rfl
        exact Nat.ne_of_lt less (Except.ok.inj (again.leads.symm.trans discovers.leads))

end Named

theorem Ordered.named (ordered : d.Ordered) (j : Nat) : 1 ≤ j → j ≤ d.store.count → ∃ w, d.Named j w := by
  induction j using Nat.strongRecOn with
  | ind j ih =>
    intro positive small
    rcases Nat.eq_or_lt_of_le positive with rfl | above
    · exact ⟨[],.initial⟩
    · obtain ⟨p,a,discovers⟩ := ordered j above small
      have leads := (successor_eq_ok.mp discovers.leads).1
      obtain ⟨w,named⟩ := ih p discovers.earlier leads (Nat.le_trans (Nat.le_of_lt discovers.earlier) small)
      exact ⟨w ++ [a],.step discovers named⟩

-- The word `w` leads to state `i`, and no word before it does.
structure Least (d : Determinization) (i : Nat) (w : List Nat) : Prop where
  leads : d.follow initial w = .ok i
  least : ∀ u, d.follow initial u = .ok i → u = w ∨ Before w u

theorem Least.unique (least : d.Least i v) (other : d.Least i w) : v = w := by
  rcases least.least w other.leads with same | before
  · exact same.symm
  · rcases other.least v least.leads with same | before'
    · exact same
    · exact absurd before' (Std.Asymm.asymm _ _ before)

-- By induction on the word read: its last step stands behind the entry that discovers the state.
theorem Named.le (ordered : d.Ordered) (chart : Chart A d) (u : List Nat) : ∀ {j w},
    d.follow Determinization.initial u = .ok j → d.Named j w → u = w ∨ Before w u := by
  induction u using List.reverseRecOn with
  | nil =>
    intro j w path named
    cases path
    exact .inl (Named.initial.unique named)
  | append_singleton u b ih =>
    intro j w path named
    rw [follow_append] at path
    obtain ⟨k,path,last⟩ := bind_eq_ok.mp path
    rw [follow_single] at last
    have behind := chart.behind
    have inside := (chart.successor_inside last).1
    obtain ⟨v,known⟩ := ordered.named k (successor_eq_ok.mp last).1 (by omega)
    cases named with
    | initial => exact .inr (.of_length_lt (by simp))
    | step discovers named =>
      rcases discovers.place_le last (Nat.le_refl _) with below | ⟨rfl,le⟩
      · have less := known.before below named
        rcases ih path known with rfl | more
        · exact .inr (before_concat less _ _)
        · exact .inr (before_concat (before_trans less more) _ _)
      · rcases ih path named with rfl | more
        · rcases Nat.eq_or_lt_of_le le with rfl | less
          · exact .inl rfl
          · exact .inr (before_concat_symbol _ less)
        · exact .inr (before_concat more _ _)

theorem Named.least (named : d.Named j w) (ordered : d.Ordered) (chart : Chart A d) : d.Least j w :=
  ⟨named.follow,fun u path => named.le ordered chart u path⟩

-- States are numbered as their least words are ordered.
structure Numbered (d : Determinization) : Prop where
  word : ∀ i, 1 ≤ i → i ≤ d.size → ∃ w, d.Least i w
  unique : ∀ i v w, d.Least i v → d.Least i w → v = w
  initial : d.Least initial []
  before : ∀ i j v w, i < j → d.Least i v → d.Least j w → Before v w

theorem Chart.follow_inside (chart : Chart A d) (path : d.follow initial w = .ok i) :
    1 ≤ i ∧ i ≤ d.store.count := by
  rcases List.eq_nil_or_concat' w with rfl | ⟨u,b,rfl⟩
  · cases path
    exact Store.value_ok_pos chart.first
  · rw [follow_append] at path
    obtain ⟨k,-,last⟩ := bind_eq_ok.mp path
    rw [follow_single] at last
    exact (chart.successor_inside last).2

theorem Least.named (least : d.Least i w) (ordered : d.Ordered) (chart : Chart A d) : d.Named i w := by
  obtain ⟨positive,small⟩ := chart.follow_inside least.leads
  obtain ⟨v,named⟩ := ordered.named i positive small
  rw [least.unique (named.least ordered chart)]
  exact named

theorem numbered_of_ordered (ordered : d.Ordered) (chart : Chart A d) : d.Numbered where
  word i positive small := by
    obtain ⟨w,named⟩ := ordered.named i positive small
    exact ⟨w,named.least ordered chart⟩
  unique i v w := Least.unique
  initial := Named.initial.least ordered chart
  before i j v w less left right := (right.named ordered chart).before less (left.named ordered chart)

-- Whatever the settings: states come in by breadth first, and symbol by symbol.
theorem ofAutomaton_numbered (A : Automaton) (s : Settings) (d : Determinization)
    (made : ofAutomaton A s = .ok d) : d.Numbered := by
  obtain ⟨places,store,put,explored,chart,-⟩ := ofAutomaton_ok made
  have start := chart_start put
  refine numbered_of_ordered ?_ chart
  refine start.explore_keeps (fun charted held done ordered => ordered.expand charted held done) _ ?_ explored
  intro j above small
  change j ≤ store.count at small
  rw [(putAll_start put).2] at small
  exact absurd small (Nat.not_le_of_lt above)

theorem ofAutomaton_numbered_tight : ∃ d, ofAutomaton .guess tight = .ok d ∧ d.Numbered := by
  obtain ⟨d,made⟩ := exists_tight
  exact ⟨d,made,ofAutomaton_numbered .guess tight d made⟩

end BuchiToRabin.Determinization
