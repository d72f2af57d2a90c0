import BuchiToRabin.Proofs.Step.Identity
import BuchiToRabin.Proofs.Tree.Nodes
namespace BuchiToRabin

namespace Forest

-- No node holds just what its kids hold together.
def Uncovered (f : Forest Vertex) : Prop := ∀ v kids, f.Has v kids → kids.cover ≠ v.label

variable {v : Vertex} {kids right : Forest Vertex}

theorem uncovered_nil : (Forest.nil : Forest Vertex).Uncovered := nofun

theorem uncovered_cons :
    (Forest.cons v kids right).Uncovered ↔ kids.cover ≠ v.label ∧ kids.Uncovered ∧ right.Uncovered := by
  constructor
  · intro uncovered
    exact ⟨uncovered v kids .root,fun w deeper has => uncovered w deeper (.under has),
      fun w deeper has => uncovered w deeper (.beside has)⟩
  · intro parts w deeper has
    obtain ⟨here,below,beside⟩ := parts
    cases has with
    | root => exact here
    | under has => exact below w deeper has
    | beside has => exact beside w deeper has

end Forest

namespace Step

-- The last rule from the leaves up: a node is looked at once its kids are done, and compared with the kids
-- that it still has. What was below them has been let go of before.
def mergeLate : Forest Vertex → NatSet → Forest Vertex × NatSet
  | .nil,used => (.nil,used)
  | .cons v kids right,used =>
    let below := mergeLate kids used
    if below.1.cover = v.label then
      let rest := mergeLate right (below.2 \ below.1.names)
      (.cons {v with marked := true} .nil rest.1,rest.2)
    else
      let rest := mergeLate right below.2
      (.cons v below.1 rest.1,rest.2)

variable {f : Forest Vertex}

-- A node that drops its kids keeps its label, so nothing changes for the node above it.
theorem cover_merged (f : Forest Vertex) : (merged f).cover = f.cover := by
  induction f with
  | nil => rfl
  | cons v kids right _ ih =>
    unfold merged
    split
    · rw [Forest.cover_cons,Forest.cover_cons,ih]
    · rw [Forest.cover_cons,Forest.cover_cons,ih]

theorem nested_merged (nested : f.Nested) : (merged f).Nested := by
  induction f with
  | nil => trivial
  | cons v kids right below ih =>
    obtain ⟨inside,kidsNested,rightNested⟩ := nested
    unfold merged
    split
    · exact ⟨fun _ none => absurd none NatSet.not_mem_empty,trivial,ih rightNested⟩
    · refine ⟨?_,below kidsNested,ih rightNested⟩
      rw [cover_merged]
      exact inside

theorem uncovered_merged (nested : f.Nested) (filled : Filled f) : (merged f).Uncovered := by
  induction f with
  | nil => exact Forest.uncovered_nil
  | cons v kids right below ih =>
    obtain ⟨_,kidsNested,rightNested⟩ := nested
    obtain ⟨holds,kidsFilled,rightFilled⟩ := Filled.cons_iff.mp filled
    unfold merged
    split
    · exact Forest.uncovered_cons.mpr ⟨fun none => holds none.symm,Forest.uncovered_nil,ih rightNested rightFilled⟩
    · rename_i open'
      refine Forest.uncovered_cons.mpr ⟨?_,below kidsNested kidsFilled,ih rightNested rightFilled⟩
      rw [cover_merged,←kidsNested.states_eq_cover]
      exact open'

theorem mergeUp_uncovered (nested : f.Nested) (uncovered : f.Uncovered) (used : NatSet) :
    mergeUp f used = (f,used) := by
  induction f generalizing used with
  | nil => rfl
  | cons v kids right below ih =>
    obtain ⟨_,kidsNested,rightNested⟩ := nested
    obtain ⟨here,kidsUncovered,rightUncovered⟩ := Forest.uncovered_cons.mp uncovered
    have stays : kids.states ≠ v.label := by
      rw [kidsNested.states_eq_cover]
      exact here
    rw [mergeUp,if_neg stays,below kidsNested kidsUncovered]
    dsimp only
    rw [ih rightNested rightUncovered]

theorem places_merged (f : Forest Vertex) : ∀ i, ∀ n ∈ (merged f).places i,
    ∃ v, (n.1,v) ∈ f.places i ∧ n.2.name = v.name ∧ n.2.label = v.label := by
  induction f with
  | nil => intro i n node; cases node
  | cons v kids right below ih =>
    intro i n node
    have later : n ∈ (merged right).places (i + 1) →
        ∃ v', (n.1,v') ∈ (Forest.cons v kids right).places i ∧ n.2.name = v'.name ∧ n.2.label = v'.label := by
      intro beside
      obtain ⟨v',before,same⟩ := ih (i + 1) n beside
      exact ⟨v',Forest.mem_places_cons.mpr (.inr (.inr before)),same⟩
    unfold merged at node
    split at node
    · rcases Forest.mem_places_cons.mp node with rfl | ⟨m,none,_⟩ | beside
      · exact ⟨v,Forest.mem_places_cons.mpr (.inl rfl),rfl,rfl⟩
      · cases none
      · exact later beside
    · rcases Forest.mem_places_cons.mp node with rfl | ⟨m,deeper,rfl⟩ | beside
      · exact ⟨v,Forest.mem_places_cons.mpr (.inl rfl),rfl,rfl⟩
      · obtain ⟨v',before,same⟩ := below 0 m deeper
        exact ⟨v',Forest.mem_places_cons.mpr (.inr (.inl ⟨_,before,rfl⟩)),same⟩
      · exact later beside

-- A node is covered by all that is below it when it is covered by the kids left to it. Of the names below it
-- those of the kids left are freed with them, and the others before.
theorem mergeLate_eq (nested : f.Nested) (used : NatSet) : mergeLate f used = (merged f,used \ mergedNames f) := by
  induction f generalizing used with
  | nil => exact Prod.ext rfl (NatSet.sdiff_empty used).symm
  | cons v kids right below ih =>
    obtain ⟨_,kidsNested,rightNested⟩ := nested
    rw [mergeLate,merged,mergedNames,below kidsNested]
    dsimp only
    rw [cover_merged,←kidsNested.states_eq_cover]
    split
    · have freed : (used \ mergedNames kids) \ (merged kids).names = used \ kids.names := by
        rw [NatSet.sdiff_sdiff,←(trims_merged kids).names]
        grind
      rw [ih rightNested,freed,NatSet.sdiff_sdiff]
    · rw [ih rightNested,NatSet.sdiff_sdiff]

-- From the root down or from the leaves up, the same kids are dropped and the same names are freed. No node is
-- covered after it, those that are kept hold what they held, and a second time there is nothing to do.
theorem mergeUp_direction (f : Forest Vertex) (used : NatSet) (nested : f.Nested) (filled : Filled f) :
    mergeUp f used = mergeLate f used ∧ (mergeUp f used).1.Uncovered ∧
    (∀ i, ∀ n ∈ (mergeUp f used).1.places i,
      ∃ v, (n.1,v) ∈ f.places i ∧ n.2.name = v.name ∧ n.2.label = v.label) ∧
    ∀ names, mergeUp (mergeUp f used).1 names = ((mergeUp f used).1,names) := by
  have uncovered := uncovered_merged nested filled
  rw [mergeUp_eq]
  exact ⟨(mergeLate_eq nested used).symm,uncovered,places_merged f,mergeUp_uncovered (nested_merged nested) uncovered⟩

-- From the leaves up the node 3 gives way to its kids' states first, and then to its parent's. Siblings overlap,
-- one name stands twice and one is stale.
def stacked : Forest Vertex :=
  .cons ⟨0,.ofList [0,1,2,3],false⟩
    (.cons ⟨1,.ofList [0,1],false⟩
      (.cons ⟨2,.ofList [0,1],false⟩ .nil
        (.cons ⟨3,.ofList [1],false⟩ (.cons ⟨4,.ofList [1],true⟩ .nil .nil) .nil))
      (.cons ⟨4,.ofList [1,2],false⟩ .nil .nil)) .nil

theorem mergeUp_direction_stacked : stacked.Nested ∧ Filled stacked ∧
    mergeUp stacked (.ofList [0,1,2,3,4,9]) = mergeLate stacked (.ofList [0,1,2,3,4,9]) ∧
    mergeLate stacked (.ofList [0,1,2,3,4,9]) =
      (.cons ⟨0,.ofList [0,1,2,3],false⟩
        (.cons ⟨1,.ofList [0,1],true⟩ .nil (.cons ⟨4,.ofList [1,2],false⟩ .nil .nil)) .nil,.ofList [0,1,9]) ∧
    (mergeUp stacked (.ofList [0,1,2,3,4,9])).1.Uncovered :=
  have nested : stacked.Nested := by decide +kernel
  have filled : Filled stacked := by unfold Filled; decide +kernel
  have whole := mergeUp_direction stacked (.ofList [0,1,2,3,4,9]) nested filled
  ⟨nested,filled,whole.1,by decide +kernel,whole.2.1⟩

end Step
end BuchiToRabin
