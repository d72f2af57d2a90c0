import BuchiToRabin.Proofs.Step.Preservation
import BuchiToRabin.Proofs.Tree.Nodes
namespace BuchiToRabin

namespace Step

variable {A : Automaton} {a : Nat}

-- What a step makes of a node that stays. Its kids grow and get a fresh one beside them; then it keeps
-- its unseen states, and its kids either hold all of these and go, or keep what they can.
inductive Descends (A : Automaton) (a : Nat) (v : Vertex) (kids : Forest Vertex) :
    Vertex → Forest Vertex → Prop where
  | covered (buds : Buds A (A.post a v.label) used fresh named)
      (grows : Grows A (advance A a kids) named kids' after)
      (covered : (kids' ++ kid fresh).cover ∩ unseen = A.post a v.label ∩ unseen) :
      Descends A a v kids ⟨v.name,A.post a v.label ∩ unseen,true⟩ .nil
  | opened (buds : Buds A (A.post a v.label) used fresh named)
      (grows : Grows A (advance A a kids) named kids' after) :
      Descends A a v kids ⟨v.name,A.post a v.label ∩ unseen,false⟩ (kept (kids' ++ kid fresh) unseen)

theorem has_kept (f : Forest Vertex) : ∀ {used g after unseen w deeper},
    Grows A (advance A a f) used g after → (kept g unseen).Has w deeper →
      w.name ∉ used ∨ ∃ v kids, f.Has v kids ∧ Descends A a v kids w deeper := by
  induction f with
  | nil =>
    intro used g after unseen w deeper grows has
    cases grows
    cases has
  | cons v kids right below ih =>
    intro used g after unseen w deeper grows has
    cases grows with
    | cons first second third =>
      rename_i fresh named kids' between right'
      have later : ∀ {unseen}, (kept right' unseen).Has w deeper →
          w.name ∉ used ∨ ∃ u deep, (Forest.cons v kids right).Has u deep ∧ Descends A a u deep w deeper := by
        intro unseen has
        rcases ih third has with new | ⟨u,deep,has,descends⟩
        · exact .inl fun old => new (second.used_subset _ (first.used_subset _ old))
        · exact .inr ⟨u,deep,.beside has,descends⟩
      by_cases gone : A.post a v.label ∩ unseen = ∅
      · rw [kept_gone gone] at has
        exact later has
      · by_cases covered : (kids' ++ kid fresh).cover ∩ unseen = A.post a v.label ∩ unseen
        · rw [kept_covered gone covered] at has
          cases has with
          | root => exact .inr ⟨v,kids,.root,.covered first second covered⟩
          | under has => cases has
          | beside has => exact later has
        · rw [kept_open gone covered] at has
          cases has with
          | root => exact .inr ⟨v,kids,.root,.opened first second⟩
          | beside has => exact later has
          | under has =>
            rw [kept_append,Forest.has_append] at has
            rcases has with has | has
            · rcases below second has with new | ⟨u,deep,has,descends⟩
              · exact .inl fun old => new (first.used_subset _ old)
              · exact .inr ⟨u,deep,.under has,descends⟩
            · left
              have named := names_kept_subset _ _ _ has.name_mem
              rw [first.names_kid,NatSet.mem_sdiff] at named
              exact named.2

namespace Descends

variable {v w : Vertex} {kids deeper : Forest Vertex}

theorem name_eq (descends : Descends A a v kids w deeper) : w.name = v.name := by
  cases descends <;> rfl

theorem label_subset (descends : Descends A a v kids w deeper) : w.label ⊆ A.post a v.label := by
  cases descends <;> grind

-- Below a node stand, after a step, successors of states below it and successors that are final.
theorem cover_eq {used named after : NatSet} {fresh : Option Vertex} {kids' : Forest Vertex}
    (buds : Buds A (A.post a v.label) used fresh named)
    (grows : Grows A (advance A a kids) named kids' after) :
    (kids' ++ kid fresh).cover = A.post a kids.cover ∪ (A.post a v.label ∩ A.finals) := by
  rw [Forest.cover_append,grows.cover_eq,cover_advance,buds.cover_kid]

theorem cover_subset (descends : Descends A a v kids w deeper) :
    deeper.cover ⊆ A.post a kids.cover ∪ (A.post a v.label ∩ A.finals) := by
  cases descends with
  | covered buds grows covered => exact fun _ none => absurd none NatSet.not_mem_empty
  | opened buds grows => rw [cover_kept,cover_eq buds grows]; grind

-- A mark says that all states of the node were held below it. Then nothing is below it any more.
theorem of_marked (descends : Descends A a v kids w deeper) (marked : w.marked = true) :
    deeper = .nil ∧ w.label ⊆ A.post a kids.cover ∪ (A.post a v.label ∩ A.finals) := by
  cases descends with
  | covered buds grows covered =>
    rw [cover_eq buds grows] at covered
    exact ⟨rfl,by grind⟩
  | opened buds grows => cases marked

theorem mem_cover (descends : Descends A a v kids w deeper) (unmarked : w.marked = false) {q : Nat}
    (held : q ∈ w.label) (source : q ∈ A.post a kids.cover ∪ (A.post a v.label ∩ A.finals)) :
    q ∈ deeper.cover := by
  cases descends with
  | covered buds grows covered => cases unmarked
  | opened buds grows =>
    rw [cover_kept,cover_eq buds grows]
    exact NatSet.mem_inter.mpr ⟨source,(NatSet.mem_inter.mp held).2⟩

end Descends
-- A forest and what a step makes of it, where a given state is not claimed further left.
inductive Carries (A : Automaton) (a : Nat) (q : Nat) (f : Forest Vertex) : Forest Vertex → Prop where
  | intro (grows : Grows A (advance A a f) used g after) (unclaimed : q ∈ unseen) :
      Carries A a q f (kept (g ++ extra) unseen)

theorem Descends.carries {v w : Vertex} {kids deeper : Forest Vertex} {q : Nat}
    (descends : Descends A a v kids w deeper) (unmarked : w.marked = false) (held : q ∈ w.label) :
    Carries A a q kids deeper := by
  cases descends with
  | covered buds grows covered => cases unmarked
  | opened buds grows => exact .intro grows (NatSet.mem_inter.mp held).2

end Step

namespace Forest.Finds
open Step

variable {A : Automaton} {a q p place : Nat} {f g kids : Forest Vertex} {v : Vertex}

-- A successor may be held further left too.
theorem advance (finds : f.Finds q place v kids) (moves : A.Moves q a p) :
    ∃ place' v' kids', (Step.advance A a f).Finds p place' v' kids' ∧ place' ≤ place ∧
      (place' = place → v'.name = v.name) := by
  induction finds with
  | here held =>
    exact ⟨0,_,_,.here (Automaton.mem_post.mpr ⟨q,held,moves⟩),Nat.le_refl 0,fun _ => rfl⟩
  | later missed _ ih =>
    rename_i u below _
    obtain ⟨place',v',kids',finds,le,same⟩ := ih
    by_cases first : p ∈ A.post a u.label
    · exact ⟨0,_,_,.here first,by omega,nofun⟩
    · exact ⟨place' + 1,v',kids',.later first finds,by omega,fun eq => same (by omega)⟩

theorem grows (finds : f.Finds q place v kids) :
    ∀ {used g after}, Grows A f used g after → ∃ kids', g.Finds q place v kids' := by
  induction finds with
  | here held =>
    intro used g after grows
    cases grows
    exact ⟨_,.here held⟩
  | later missed _ ih =>
    intro used g after grows
    cases grows with
    | cons first second third =>
      obtain ⟨kids',finds⟩ := ih third
      exact ⟨kids',.later missed finds⟩

theorem append (finds : f.Finds q place v kids) (g : Forest Vertex) : (f ++ g).Finds q place v kids := by
  induction finds with
  | here held => exact .here held
  | later missed _ ih => exact .later missed ih

theorem kept (finds : f.Finds q place v kids) :
    ∀ {unseen}, q ∈ unseen → ∃ place' v' kids', (Step.kept f unseen).Finds q place' v' kids' ∧
      place' ≤ place ∧ v'.name = v.name := by
  induction finds with
  | here held =>
    rename_i v kids right
    intro unseen unclaimed
    have stays : v.label ∩ unseen ≠ ∅ :=
      NatSet.ne_empty_iff.mpr ⟨q,NatSet.mem_inter.mpr ⟨held,unclaimed⟩⟩
    have keeps : q ∈ v.label ∩ unseen := NatSet.mem_inter.mpr ⟨held,unclaimed⟩
    by_cases covered : kids.cover ∩ unseen = v.label ∩ unseen
    · rw [kept_covered stays covered]
      exact ⟨0,_,_,.here keeps,Nat.le_refl 0,rfl⟩
    · rw [kept_open stays covered]
      exact ⟨0,_,_,.here keeps,Nat.le_refl 0,rfl⟩
  | later missed _ ih =>
    rename_i u below _
    intro unseen unclaimed
    obtain ⟨place',v',kids',finds,le,same⟩ := ih (NatSet.mem_sdiff.mpr ⟨unclaimed,missed⟩)
    have misses : q ∉ u.label ∩ unseen := fun held => missed (NatSet.mem_inter.mp held).1
    by_cases gone : u.label ∩ unseen = ∅
    · rw [kept_gone gone]
      exact ⟨place',v',kids',finds,by omega,same⟩
    · by_cases covered : below.cover ∩ unseen = u.label ∩ unseen
      · rw [kept_covered gone covered]
        exact ⟨place' + 1,v',kids',.later misses finds,by omega,same⟩
      · rw [kept_open gone covered]
        exact ⟨place' + 1,v',kids',.later misses finds,by omega,same⟩

-- The tree that holds a state is followed by one no further right that holds its successor. If it is not
-- further left either, it is the same tree.
theorem carries (finds : f.Finds q place v kids) (moves : A.Moves q a p) (carries : Carries A a p f g) :
    ∃ place' v' kids', g.Finds p place' v' kids' ∧ place' ≤ place ∧ (place' = place → v'.name = v.name) := by
  obtain ⟨grows,unclaimed⟩ := carries
  rename_i extra
  obtain ⟨first,v₁,_,finds,firstLe,firstSame⟩ := finds.advance moves
  obtain ⟨_,finds⟩ := finds.grows grows
  obtain ⟨second,v₂,kids₂,finds,secondLe,secondSame⟩ := (finds.append extra).kept unclaimed
  refine ⟨second,v₂,kids₂,finds,by omega,fun eq => ?_⟩
  rw [secondSame,firstSame (by omega)]

end Forest.Finds

namespace Tree.Over
open Step

variable {A : Automaton} {a : Nat} {t u : Tree} {m : Method} {v w : Vertex} {kids deeper : Forest Vertex}

theorem cover_step (fits : t.Over A) (ran : m.step A a t = .ok u) :
    u.forest.cover = A.post a t.forest.cover := by
  obtain ⟨g,reserved,grows,rfl⟩ := (fits.step_exact m).mp ran
  rw [forest_outcome grows,cover_kept,grows.cover_eq,cover_advance]
  have := A.post_subset_full a t.forest.cover
  grind

theorem carries_step (fits : t.Over A) (ran : m.step A a t = .ok u) {q : Nat} (state : q < A.stateCount) :
    Carries A a q t.forest u.forest := by
  obtain ⟨g,reserved,grows,rfl⟩ := (fits.step_exact m).mp ran
  have carries : Carries A a q t.forest (kept (g ++ .nil) (.full A.stateCount)) :=
    .intro grows (NatSet.mem_full.mpr state)
  rw [Forest.append_nil] at carries
  rw [forest_outcome grows]
  exact carries

theorem descends (fits : t.Over A) (ran : m.step A a t = .ok u) (has : u.forest.Has w deeper) :
    w.name ∉ t.names ∨ ∃ v kids, t.forest.Has v kids ∧ Descends A a v kids w deeper := by
  obtain ⟨g,reserved,grows,rfl⟩ := (fits.step_exact m).mp ran
  rw [forest_outcome grows] at has
  rw [←fits.used]
  exact has_kept t.forest grows has

-- A name that is there before and after a step stands for the same node.
theorem descends_of_name (fits : t.Over A) (ran : m.step A a t = .ok u) (old : t.forest.Has v kids)
    (new : u.forest.Has w deeper) (same : w.name = v.name) : Descends A a v kids w deeper := by
  rcases fits.descends ran new with fresh | ⟨v',kids',has,descends⟩
  · rw [same] at fresh
    exact absurd old.name_mem fresh
  · obtain ⟨rfl,rfl⟩ := has.unique fits.distinct old (descends.name_eq.symm.trans same)
    exact descends

end Tree.Over
end BuchiToRabin
