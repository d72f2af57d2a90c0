import BuchiToRabin.Proofs.Step.Agreement
namespace BuchiToRabin.Step

variable {A : Automaton} {a : Nat}

theorem apart_kept (f : Forest Vertex) (unseen : NatSet) : (kept f unseen).Apart := by
  fun_induction kept f unseen with
  | case1 unseen => trivial
  | case2 v kids right unseen rest gone ih => exact ih
  | case3 v kids right unseen rest stays covered ih =>
    refine ⟨?_,ih⟩
    rw [cover_kept]
    grind
  | case4 v kids right unseen rest stays uncovered ih below =>
    refine ⟨?_,ih⟩
    rw [cover_kept]
    grind

theorem lawful_kept (f : Forest Vertex) (nested : f.Nested) (unseen : NatSet) : (kept f unseen).Lawful := by
  fun_induction kept f unseen with
  | case1 unseen => trivial
  | case2 v kids right unseen rest gone ih => exact ih nested.2.2
  | case3 v kids right unseen rest stays covered ih =>
    exact ⟨Vertex.heads_nil stays,trivial,ih nested.2.2⟩
  | case4 v kids right unseen rest stays uncovered ih below =>
    obtain ⟨inside,kidsNested,rightNested⟩ := nested
    have cover := cover_kept kids unseen
    have heads : Vertex.Heads {v with label := v.label ∩ unseen} (kept kids unseen) := by
      refine ⟨stays,?_,cover ▸ uncovered,apart_kept kids unseen⟩
      rw [cover]
      show kids.cover ∩ unseen ⊆ v.label ∩ unseen
      grind
    exact ⟨heads,below kidsNested,ih rightNested⟩

@[simp] theorem size_advance (A : Automaton) (a : Nat) (f : Forest Vertex) : (advance A a f).size = f.size := by
  induction f with
  | nil => rfl
  | cons v kids right below ih => rw [advance_cons,Forest.size,Forest.size,below,ih]

@[simp] theorem nameList_advance (A : Automaton) (a : Nat) (f : Forest Vertex) :
    (advance A a f).nameList = f.nameList := by
  induction f with
  | nil => rfl
  | cons v kids right below ih => rw [advance_cons,Forest.nameList_cons,Forest.nameList_cons,below,ih]

theorem buds_of_card_lt {used : NatSet} (label : NatSet) (room : used.card < A.nameCount) :
    ∃ fresh named, Buds A label used fresh named ∧ named.card ≤ used.card + 1 := by
  by_cases apart : label ∩ A.finals = ∅
  · exact ⟨none,used,.rest apart,Nat.le_succ _⟩
  · have free : used.firstAbsent < A.nameCount := Nat.lt_of_le_of_lt used.firstAbsent_le_card room
    exact ⟨_,_,.grow apart free,Nat.le_of_eq (NatSet.card_insert used.firstAbsent_not_mem)⟩

-- A node puts out one fresh kid at most, so a name for each node is enough.
theorem grows_of_card_le (f : Forest Vertex) : ∀ {used : NatSet}, used.card + f.size ≤ A.nameCount →
    ∃ g after, Grows A f used g after ∧ after.card ≤ used.card + f.size := by
  induction f with
  | nil => intro used _; exact ⟨.nil,used,.nil,Nat.le_refl _⟩
  | cons v kids right below ih =>
    intro used room
    rw [Forest.size] at room
    have free : used.card < A.nameCount := by omega
    obtain ⟨fresh,named,first,firstSize⟩ := buds_of_card_lt v.label free
    obtain ⟨kids',between,second,secondSize⟩ := below (show named.card + kids.size ≤ A.nameCount by omega)
    obtain ⟨right',after,third,thirdSize⟩ := ih (show between.card + right.size ≤ A.nameCount by omega)
    refine ⟨_,after,.cons first second third,?_⟩
    rw [Forest.size]
    omega

theorem distinct_kid (fresh : Option Vertex) : (kid fresh).nameList.Nodup := by
  cases fresh with
  | none => exact .nil
  | some v => simp [kid]

namespace Grows

variable {f g : Forest Vertex} {used after : NatSet}

theorem distinct (grows : Grows A f used g after) (named : f.names ⊆ used) (distinct : f.nameList.Nodup) :
    g.nameList.Nodup := by
  induction grows with
  | nil => exact .nil
  | cons first second third below beside =>
    rw [Forest.distinct_cons] at distinct
    obtain ⟨new,kidsDistinct,rightDistinct,apart⟩ := distinct
    rw [Forest.names_cons] at named
    have grow₁ := first.used_subset
    have grow₂ := second.used_subset
    have kidsDone := below (fun x present => grow₁ x (named x (by grind))) kidsDistinct
    have rightDone := beside (fun x present => grow₂ x (grow₁ x (named x (by grind)))) rightDistinct
    -- Old names are in use throughout; each fresh one comes into use at its own turn.
    rw [Forest.distinct_cons,Forest.distinct_append,Forest.names_append,second.names_eq,third.names_eq,
      first.names_kid]
    refine ⟨?_,⟨kidsDone,distinct_kid _,?_⟩,rightDone,?_⟩ <;> grind

theorem after_subset (grows : Grows A f used g after) (inside : used ⊆ .full A.nameCount) :
    after ⊆ .full A.nameCount := by
  induction grows with
  | nil => exact inside
  | cons first _ _ below beside =>
    apply beside
    apply below
    cases first with
    | rest apart => exact inside
    | grow meets free => grind

end Grows

-- One tree grows to one tree, so what is left of it fits in a tree.
theorem forest_ofForest {r : Node} {g built : Forest Vertex} {used after lost : NatSet}
    (grows : Grows A (advance A a r.forest) used g after) (trims : Trims g built lost) (names : NatSet) :
    (Tree.ofForest built names).forest = built := by
  cases grows with
  | cons _ _ beside =>
    cases beside
    exact trims.forest_ofForest names

theorem forest_outcome {t : Tree} {g : Forest Vertex} {reserved : NatSet}
    (grows : Grows A (advance A a t.forest) t.used g reserved) :
    (outcome A g reserved).forest = kept g (.full A.stateCount) := by
  unfold Tree.forest at grows
  cases root : t.root with
  | none =>
    rw [root] at grows
    cases grows
    rfl
  | some r =>
    rw [root] at grows
    exact forest_ofForest grows (trims_kept _ _) _

theorem used_outcome (A : Automaton) (g : Forest Vertex) (reserved : NatSet) :
    (outcome A g reserved).used = reserved \ dropped g (.full A.stateCount) := Tree.used_ofForest _ _

theorem grown_exact {t u : Tree} (valid : t.Valid) :
    grown A a t = .ok u ↔
      ∃ g reserved, Grows A (advance A a t.forest) t.used g reserved ∧ u = outcome A g reserved := by
  cases root : t.root with
  | none =>
    have empty : t.used = ∅ := by rw [valid.used,Tree.names,Tree.forest,root]; rfl
    have nothing : outcome A .nil ∅ = .dead := by simp [outcome,Tree.ofForest,Tree.dead]
    simp only [grown,Tree.forest,root,empty,advance_nil,Except.ok.injEq]
    constructor
    · intro dead
      exact ⟨.nil,∅,.nil,dead ▸ nothing.symm⟩
    · intro grows
      obtain ⟨g,reserved,grows,rfl⟩ := grows
      cases grows
      exact nothing.symm
  | some r =>
    simp only [grown,Tree.forest,root]
    constructor
    · intro done
      obtain ⟨⟨g,reserved⟩,created,done⟩ := bind_eq_ok.mp done
      cases done
      exact ⟨g,reserved,(create_exact _).mp created,rfl⟩
    · intro grows
      obtain ⟨g,reserved,grows,rfl⟩ := grows
      rw [(create_exact _).mpr grows]
      rfl

end Step

-- A valid tree that holds states of the automaton only.
structure Tree.Over (A : Automaton) (t : Tree) : Prop extends t.Valid where
  within : t.forest.states ⊆ .full A.stateCount

namespace Tree.Over
open Step

variable {A : Automaton} {a : Nat} {t u : Tree}

theorem nested (fits : t.Over A) : t.forest.Nested := fits.lawful.nested

theorem size_le (fits : t.Over A) : t.size ≤ A.stateCount := by
  have states := fits.within
  rw [fits.nested.states_eq_cover] at states
  have small := NatSet.card_le_of_subset states
  rw [NatSet.card_full] at small
  exact Nat.le_trans (fits.lawful.size_le t.forest_apart) small

theorem step_eq_grown (fits : t.Over A) (m : Method) : m.step A a t = grown A a t :=
  Step.step_eq_grown fits.nested (fits.used ▸ fun _ present => present) m

-- Each node takes one name and its fresh kid another, so all names find room.
theorem grows (fits : t.Over A) (a : Nat) :
    ∃ g reserved, Grows A (advance A a t.forest) t.used g reserved := by
  have taken : t.used.card = t.forest.size := by rw [fits.used,Tree.names,Forest.card_names fits.distinct]
  have small := fits.size_le
  have room : t.used.card + (advance A a t.forest).size ≤ A.nameCount := by
    rw [size_advance,taken,Automaton.nameCount]
    unfold Tree.size at small
    omega
  obtain ⟨g,reserved,grows,-⟩ := grows_of_card_le _ room
  exact ⟨g,reserved,grows⟩

theorem outcome {g : Forest Vertex} {reserved : NatSet} (fits : t.Over A)
    (grows : Grows A (advance A a t.forest) t.used g reserved) : (Step.outcome A g reserved).Over A := by
  have forest := forest_outcome grows
  have nestedAfter := grows.nested (nested_advance fits.nested)
  have named : (advance A a t.forest).names ⊆ t.used := by
    rw [names_advance,fits.used]
    exact fun _ present => present
  have distinctAfter := grows.distinct named (by rw [nameList_advance]; exact fits.distinct)
  have reservedEq : g.names = reserved := by
    have := grows.used_subset
    rw [grows.names_eq,names_advance]
    change t.names ∪ _ = _
    rw [←fits.used]
    grind
  refine ⟨⟨?_,?_,?_⟩,?_⟩
  · rw [forest]
    exact lawful_kept g nestedAfter _
  · rw [forest]
    exact distinctAfter.sublist (trims_kept g _).nameList
  · rw [used_outcome,Tree.names,forest,←reservedEq,(trims_kept g _).names_eq distinctAfter]
  · rw [forest,(lawful_kept g nestedAfter _).nested.states_eq_cover,cover_kept]
    grind

theorem step (fits : t.Over A) (m : Method) (a : Nat) : ∃ u, m.step A a t = .ok u ∧ u.Over A := by
  obtain ⟨g,reserved,grows⟩ := fits.grows a
  refine ⟨Step.outcome A g reserved,?_,fits.outcome grows⟩
  rw [fits.step_eq_grown,grown_exact fits.toValid]
  exact ⟨g,reserved,grows,rfl⟩

theorem step_exact (fits : t.Over A) (m : Method) :
    m.step A a t = .ok u ↔
      ∃ g reserved, Grows A (advance A a t.forest) t.used g reserved ∧ u = Step.outcome A g reserved := by
  rw [fits.step_eq_grown,grown_exact fits.toValid]

theorem of_step (fits : t.Over A) {m : Method} (ran : m.step A a t = .ok u) : u.Over A := by
  obtain ⟨g,reserved,grows,rfl⟩ := (fits.step_exact m).mp ran
  exact fits.outcome grows

end Tree.Over
end BuchiToRabin
