import BuchiToRabin.Proofs.Step.Kept
import BuchiToRabin.Step.ByRule
namespace BuchiToRabin.Step

-- The last two rules thread the names in use. Each takes names away and looks at none, so each is a
-- forest together with the names it frees.
def pruned : Forest Vertex → Forest Vertex
  | .nil => .nil
  | .cons v kids right => if v.label = ∅ then pruned right else .cons v (pruned kids) (pruned right)

def prunedNames : Forest Vertex → NatSet
  | .nil => ∅
  | .cons v kids right =>
    if v.label = ∅ then kids.names.insert v.name ∪ prunedNames right
    else prunedNames kids ∪ prunedNames right

def merged : Forest Vertex → Forest Vertex
  | .nil => .nil
  | .cons v kids right =>
    if kids.states = v.label then .cons {v with marked := true} .nil (merged right)
    else .cons v (merged kids) (merged right)

def mergedNames : Forest Vertex → NatSet
  | .nil => ∅
  | .cons v kids right =>
    if kids.states = v.label then kids.names ∪ mergedNames right
    else mergedNames kids ∪ mergedNames right

theorem names_single (v : Vertex) (kids : Forest Vertex) :
    (Node.mk v kids).names = kids.names.insert v.name := by
  unfold Node.names Node.forest
  simp only [Forest.names_cons,Forest.names_nil]
  grind

theorem prune_eq (f : Forest Vertex) : ∀ used, prune f used = (pruned f,used \ prunedNames f) := by
  induction f with
  | nil => intro used; simp [prune,pruned,prunedNames]
  | cons v kids right below ih =>
    intro used
    unfold prune pruned prunedNames
    split
    · have names : (used \ (kids.names.insert v.name)) \ prunedNames right =
          used \ (kids.names.insert v.name ∪ prunedNames right) := by grind
      rw [ih,names_single,names]
    · have names : (used \ prunedNames kids) \ prunedNames right =
          used \ (prunedNames kids ∪ prunedNames right) := by grind
      simp only [below,ih,names]

theorem mergeUp_eq (f : Forest Vertex) : ∀ used, mergeUp f used = (merged f,used \ mergedNames f) := by
  induction f with
  | nil => intro used; simp [mergeUp,merged,mergedNames]
  | cons v kids right below ih =>
    intro used
    unfold mergeUp merged mergedNames
    split
    · have names : (used \ kids.names) \ mergedNames right = used \ (kids.names ∪ mergedNames right) := by
        grind
      simp only [ih,names]
    · have names : (used \ mergedNames kids) \ mergedNames right =
          used \ (mergedNames kids ∪ mergedNames right) := by grind
      simp only [below,ih,names]

theorem trims_pruned (f : Forest Vertex) : Trims f (pruned f) (prunedNames f) := by
  induction f with
  | nil => exact .nil
  | cons v kids right below ih =>
    unfold pruned prunedNames
    split
    · exact .drop ih
    · exact .keep rfl (fun _ held => held) below ih

theorem trims_merged (f : Forest Vertex) : Trims f (merged f) (mergedNames f) := by
  induction f with
  | nil => exact .nil
  | cons v kids right below ih =>
    unfold merged mergedNames
    split
    · exact .keep rfl (fun _ held => held) (.all kids) ih
    · exact .keep rfl (fun _ held => held) below ih

theorem trims_mergeAcross (f : Forest Vertex) : ∀ seen, Trims f (mergeAcross f seen).1 ∅ := by
  induction f with
  | nil => intro seen; exact .nil
  | cons v kids right below ih =>
    intro seen
    have smaller : v.label \ seen ⊆ v.label := fun q held => (NatSet.mem_sdiff.mp held).1
    have all : Trims (.cons v kids right) (mergeAcross (.cons v kids right) seen).1 (∅ ∪ ∅) :=
      .keep rfl smaller (below seen) (ih _)
    rwa [NatSet.union_empty] at all

theorem names_pruned (f : Forest Vertex) : (pruned f).names ∪ prunedNames f = f.names := (trims_pruned f).names

theorem cover_pruned (f : Forest Vertex) : (pruned f).cover = f.cover := by
  induction f with
  | nil => rfl
  | cons v kids right _ ih =>
    unfold pruned
    split
    · rename_i empty
      rw [ih,Forest.cover_cons,empty]; grind
    · rw [Forest.cover_cons,Forest.cover_cons,ih]

theorem nested_pruned (f : Forest Vertex) (nested : f.Nested) : (pruned f).Nested := by
  induction f with
  | nil => trivial
  | cons v kids right below ih =>
    obtain ⟨inside,kidsNested,rightNested⟩ := nested
    unfold pruned
    split
    · exact ih rightNested
    · exact ⟨by rw [cover_pruned]; exact inside,below kidsNested,ih rightNested⟩

theorem mergeAcross_seen (f : Forest Vertex) : ∀ seen, (mergeAcross f seen).2 = seen ∪ f.states := by
  induction f with
  | nil => intro seen; simp [mergeAcross]
  | cons v kids right below ih =>
    intro seen
    simp only [mergeAcross,Forest.states_cons,below,ih]
    grind

theorem names_mergeAcross (f : Forest Vertex) (seen : NatSet) : (mergeAcross f seen).1.names = f.names := by
  have names := (trims_mergeAcross f seen).names
  rwa [NatSet.union_empty] at names

theorem cover_mergeAcross (f : Forest Vertex) :
    f.Nested → ∀ seen, (mergeAcross f seen).1.cover = f.cover \ seen := by
  induction f with
  | nil => intro _ seen; simp [mergeAcross]
  | cons v kids right _ ih =>
    intro nested seen
    obtain ⟨inside,kidsNested,rightNested⟩ := nested
    simp only [mergeAcross,Forest.cover_cons,ih rightNested,mergeAcross_seen,kidsNested.states_eq_cover]
    grind

theorem nested_mergeAcross (f : Forest Vertex) : f.Nested → ∀ seen, (mergeAcross f seen).1.Nested := by
  induction f with
  | nil => intro _ _; trivial
  | cons v kids right below ih =>
    intro nested seen
    obtain ⟨inside,kidsNested,rightNested⟩ := nested
    refine ⟨?_,below kidsNested seen,ih rightNested _⟩
    rw [cover_mergeAcross kids kidsNested]
    show kids.cover \ seen ⊆ v.label \ seen
    grind

theorem states_pruned_mergeAcross {f : Forest Vertex} (nested : f.Nested) (seen : NatSet) :
    (pruned (mergeAcross f seen).1).states = f.cover \ seen := by
  have after := nested_pruned _ (nested_mergeAcross f nested seen)
  rw [after.states_eq_cover,cover_pruned,cover_mergeAcross f nested]

-- The three rules after each other do what one recursion does that knows the unseen states.
theorem merged_pruned_mergeAcross (f : Forest Vertex) : f.Nested →
    ∀ seen unseen, (∀ i ∈ f.cover, i ∈ unseen ↔ i ∉ seen) →
      merged (pruned (mergeAcross f seen).1) = kept f unseen ∧
      prunedNames (mergeAcross f seen).1 ∪ mergedNames (pruned (mergeAcross f seen).1) =
        dropped f unseen := by
  induction f with
  | nil =>
    intro _ seen unseen _
    simp [mergeAcross,pruned,prunedNames,merged,mergedNames]
  | cons v kids right below ih =>
    intro nested seen unseen complement
    obtain ⟨inside,kidsNested,rightNested⟩ := nested
    rw [Forest.cover_cons] at complement
    have label : v.label \ seen = v.label ∩ unseen := by grind
    have kidsCover : kids.cover \ seen = kids.cover ∩ unseen := by grind
    have later : ∀ i ∈ right.cover, i ∈ unseen \ v.label ↔ i ∉ (mergeAcross kids seen).2 ∪ v.label := by
      rw [mergeAcross_seen,kidsNested.states_eq_cover]
      grind
    obtain ⟨keepKids,dropKids⟩ := below kidsNested seen unseen (by grind)
    obtain ⟨keepRight,dropRight⟩ := ih rightNested _ _ later
    by_cases gone : v.label ∩ unseen = ∅
    · rw [kept_gone gone,dropped_gone gone,←keepRight,←dropRight]
      simp only [mergeAcross,label,gone,pruned,prunedNames,if_true,names_mergeAcross,true_and]
      grind
    · by_cases covered : kids.cover ∩ unseen = v.label ∩ unseen
      · rw [kept_covered gone covered,dropped_covered gone covered,←keepRight,←dropRight]
        have names := names_pruned (mergeAcross kids seen).1
        rw [names_mergeAcross] at names
        simp only [mergeAcross,label,gone,pruned,prunedNames,merged,mergedNames,if_false,
          states_pruned_mergeAcross kidsNested,kidsCover,covered,if_true,true_and,←names]
        grind
      · rw [kept_open gone covered,dropped_open gone covered,←keepRight,←dropRight,←keepKids,←dropKids]
        simp only [mergeAcross,label,gone,pruned,prunedNames,merged,mergedNames,if_false,
          states_pruned_mergeAcross kidsNested,kidsCover,covered,true_and]
        grind

end BuchiToRabin.Step
