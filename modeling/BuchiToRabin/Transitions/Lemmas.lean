import BuchiToRabin.NatSet.Lemmas
import BuchiToRabin.Transitions.Basic
namespace BuchiToRabin

namespace Relation

@[simp] theorem targets_empty (q : Nat) : (∅ : Relation).targets q = ∅ := by
  show (#[] : Array NatSet).getD q ∅ = ∅
  simp

theorem mem_targets_add {r : Relation} : i ∈ (r.add p t).targets q ↔ q = p ∧ i = t ∨ i ∈ r.targets q := by
  simp only [targets,add,Row.getD_adjust]
  split <;> simp_all

theorem mem_foldl_targets (r : Relation) : ∀ (qs : List Nat) (found : NatSet),
    i ∈ qs.foldl (fun found q => found ∪ r.targets q) found ↔ i ∈ found ∨ ∃ q ∈ qs, i ∈ r.targets q
  | [],found => by simp
  | q :: qs,found => by simp [mem_foldl_targets r qs,or_assoc]

@[simp] theorem mem_post {r : Relation} {s : NatSet} : i ∈ r.post s ↔ ∃ q ∈ s, i ∈ r.targets q := by
  simp [post,mem_foldl_targets]

end Relation

namespace Transitions

@[simp] theorem under_empty (a : Nat) : (∅ : Transitions).under a = ∅ := by
  cases a with
  | zero => rfl
  | succ a => show (#[] : Array Relation).getD a ∅ = ∅; simp

theorem under_add (ts : Transitions) {e : Edge} (positive : 0 < e.symbol) (a : Nat) :
    (ts.add e).under a = if a = e.symbol then (ts.under a).add e.source e.target else ts.under a := by
  obtain ⟨p,b,t⟩ := e
  obtain ⟨b,rfl⟩ : ∃ c, b = c + 1 := ⟨b - 1,by have : 0 < b := positive; omega⟩
  cases a with
  | zero => rfl
  | succ a => simp only [under,add,Row.getD_adjust,Nat.add_sub_cancel,Nat.add_right_cancel_iff]

theorem mem_targets_add {ts : Transitions} {e : Edge} (positive : 0 < e.symbol) :
    i ∈ ((ts.add e).under a).targets q ↔ ⟨q,a,i⟩ = e ∨ i ∈ (ts.under a).targets q := by
  obtain ⟨p,b,t⟩ := e
  simp only [under_add ts positive,Edge.mk.injEq]
  split
  · simp only [Relation.mem_targets_add]; grind
  · grind

-- What an edge adds is there as soon as one of the edges listed adds it.
theorem gather_iff {P : Transitions → Prop} {Q : Edge → Prop} (start : ¬ P ∅)
    (step : ∀ ts e, 0 < e.symbol → (P (ts.add e) ↔ Q e ∨ P ts)) {es : List Edge} (positive : ∀ e ∈ es, 0 < e.symbol) :
    P (gather es) ↔ ∃ e ∈ es, Q e := by
  have run (ts : Transitions) : P (es.foldl add ts) ↔ (∃ e ∈ es, Q e) ∨ P ts := by
    induction es generalizing ts with
    | nil => simp
    | cons e es ih =>
      rw [List.foldl_cons,ih fun f later => positive f (List.mem_cons_of_mem e later),
        step ts e (positive e List.mem_cons_self)]
      simp [or_assoc,or_left_comm]
  rw [gather,run]
  simp [start]

-- The targets are those of the listed edges, whatever their order and repetition.
theorem mem_gather {es : List Edge} (positive : ∀ e ∈ es, 0 < e.symbol) :
    i ∈ ((gather es).under a).targets q ↔ ⟨q,a,i⟩ ∈ es := by
  rw [gather_iff (P := fun ts => i ∈ (ts.under a).targets q) (by simp) (fun ts e => mem_targets_add) positive]
  simp

-- There can be relations as many as its symbol says, and rows up to its source.
def Roomy (e : Edge) : Prop := Machine.Fits 24 e.symbol ∧ Machine.Fits 32 (e.source + 1)

instance : DecidablePred Roomy := fun _ => inferInstanceAs (Decidable (_ ∧ _))

theorem edgeFault?_eq_none_iff {e : Edge} : edgeFault? e = none ↔ 0 < e.symbol ∧ Roomy e := by
  unfold edgeFault? Roomy Machine.wrap Machine.Fits UInt64.size
  split
  · exact iff_of_false nofun (by omega)
  · split
    · exact iff_of_false nofun (by omega)
    · split
      · exact iff_of_false nofun (by omega)
      · split
        · exact iff_of_false nofun (by omega)
        · exact iff_of_true rfl (by omega)

theorem edgeFault?_panic {e : Edge} {fault : Error} (positive : 0 < e.symbol) (faulty : edgeFault? e = some fault) :
    ∃ p, fault = .panic p := by
  unfold edgeFault? at faulty
  rw [if_neg (Nat.ne_of_gt positive)] at faulty
  split at faulty
  · exact ⟨_,(Option.some.inj faulty).symm⟩
  · split at faulty
    · exact ⟨_,(Option.some.inj faulty).symm⟩
    · split at faulty
      · exact ⟨_,(Option.some.inj faulty).symm⟩
      · cases faulty

-- The first faulty edge is one of those listed, and there is one as soon as one of them is faulty.
theorem firstFaulty_cases (es : List Edge) :
    firstFaulty es = none ∧ (∀ e ∈ es, edgeFault? e = none) ∨
      ∃ e ∈ es, firstFaulty es = some e ∧ edgeFault? e ≠ none := by
  induction es with
  | nil => exact .inl ⟨rfl,nofun⟩
  | cons e es ih =>
    have first : firstFaulty (e :: es) = if edgeFault? e = none then firstFaulty es
        else some ((firstFaulty es).elim e fun f => if sooner e f then e else f) := rfl
    rw [first]
    by_cases sound : edgeFault? e = none
    · rw [if_pos sound]
      rcases ih with ⟨none,all⟩ | ⟨f,listed,found,faulty⟩
      · exact .inl ⟨none,List.forall_mem_cons.mpr ⟨sound,all⟩⟩
      · exact .inr ⟨f,.tail e listed,found,faulty⟩
    · rw [if_neg sound]
      rcases ih with ⟨none,-⟩ | ⟨f,listed,found,faulty⟩
      · exact .inr ⟨e,.head es,by rw [none]; rfl,sound⟩
      · rw [found,Option.elim_some]
        split
        · exact .inr ⟨e,.head es,rfl,sound⟩
        · exact .inr ⟨f,.tail e listed,rfl,faulty⟩

theorem ofEdges_eq_ok {es : List Edge} {ts : Transitions} :
    ofEdges es = .ok ts ↔ (∀ e ∈ es, edgeFault? e = none) ∧ gather es = ts := by
  unfold ofEdges
  rcases firstFaulty_cases es with ⟨none,all⟩ | ⟨e,listed,found,faulty⟩
  · rw [none,Option.bind_none,Except.ok.injEq]
    exact ⟨fun same => ⟨all,same⟩,And.right⟩
  · obtain ⟨fault,faulty'⟩ := Option.ne_none_iff_exists'.mp faulty
    rw [found,Option.bind_some,faulty']
    exact iff_of_false nofun fun both => faulty (both.1 e listed)

theorem ofEdges_panics {es : List Edge} (positive : ∀ e ∈ es, 0 < e.symbol) (cramped : ∃ e ∈ es, ¬ Roomy e) :
    ∃ p, ofEdges es = .error (.panic p) := by
  obtain ⟨e,listed,cramped⟩ := cramped
  rcases firstFaulty_cases es with ⟨-,sound⟩ | ⟨f,first,found,faulty⟩
  · exact absurd ((edgeFault?_eq_none_iff.mp (sound e listed)).2) cramped
  · obtain ⟨fault,faulty⟩ := Option.ne_none_iff_exists'.mp faulty
    obtain ⟨p,rfl⟩ := edgeFault?_panic (positive f first) faulty
    exact ⟨p,by rw [ofEdges,found,Option.bind_some,faulty]⟩

theorem mem_ofEdges {es : List Edge} {ts : Transitions} (grouped : ofEdges es = .ok ts) :
    i ∈ (ts.under a).targets q ↔ ⟨q,a,i⟩ ∈ es := by
  obtain ⟨sound,rfl⟩ := ofEdges_eq_ok.mp grouped
  exact mem_gather fun e listed => (edgeFault?_eq_none_iff.mp (sound e listed)).1

end Transitions
end BuchiToRabin
