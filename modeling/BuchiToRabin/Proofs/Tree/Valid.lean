import BuchiToRabin.Proofs.Attempt
import BuchiToRabin.Proofs.Tree.Nested
import BuchiToRabin.Tree.Check
namespace BuchiToRabin

namespace Forest

def nameList (f : Forest Vertex) : List Name := f.preorder.map Vertex.name

@[simp] theorem nameList_nil : (Forest.nil : Forest Vertex).nameList = [] := rfl
@[simp] theorem nameList_cons (v : Vertex) (kids right : Forest Vertex) :
    (Forest.cons v kids right).nameList = v.name :: (kids.nameList ++ right.nameList) := by
  simp [nameList,preorder]

@[simp] theorem nameList_append (f g : Forest Vertex) : (f ++ g).nameList = f.nameList ++ g.nameList := by
  simp [nameList]

@[simp] theorem mem_nameList {x : Name} {f : Forest Vertex} : x ∈ f.nameList ↔ x ∈ f.names := by
  induction f with
  | nil => simp
  | cons v kids right below ih => simp [below,ih]

theorem distinct_append {f g : Forest Vertex} : (f ++ g).nameList.Nodup ↔
    f.nameList.Nodup ∧ g.nameList.Nodup ∧ ∀ x ∈ f.names, x ∉ g.names := by
  rw [nameList_append,List.nodup_append]
  simp only [mem_nameList]
  constructor
  · intro distinct
    obtain ⟨left,right,apart⟩ := distinct
    exact ⟨left,right,fun x here there => apart x here x there rfl⟩
  · intro distinct
    obtain ⟨left,right,apart⟩ := distinct
    exact ⟨left,right,fun x here y there same => apart x here (same ▸ there)⟩

theorem distinct_cons {v : Vertex} {kids right : Forest Vertex} : (Forest.cons v kids right).nameList.Nodup ↔
    v.name ∉ kids.names ∪ right.names ∧ kids.nameList.Nodup ∧ right.nameList.Nodup ∧
      ∀ x ∈ kids.names, x ∉ right.names := by
  rw [nameList_cons,←nameList_append,List.nodup_cons,distinct_append,mem_nameList,names_append]

theorem card_names {f : Forest Vertex} (distinct : f.nameList.Nodup) : f.names.card = f.size := by
  induction f with
  | nil => simp [size]
  | cons v kids right below ih =>
    obtain ⟨new,kidsDistinct,rightDistinct,apart⟩ := distinct_cons.mp distinct
    rw [names_cons,NatSet.card_insert new,NatSet.card_union apart,below kidsDistinct,ih rightDistinct,size]
    omega

-- Roots hold no state in common.
def Apart : Forest Vertex → Prop
  | .nil => True
  | .cons v _ right => (∀ q ∈ v.label, q ∉ right.cover) ∧ right.Apart

end Forest

-- What a node holds, given what its kids hold: something, everything that they hold, and more than
-- that; and the kids share nothing.
structure Vertex.Heads (v : Vertex) (kids : Forest Vertex) : Prop where
  filled : v.label ≠ ∅
  inside : kids.cover ⊆ v.label
  uncovered : kids.cover ≠ v.label
  apart : kids.Apart

theorem Vertex.heads_nil {v : Vertex} (filled : v.label ≠ ∅) : v.Heads .nil :=
  ⟨filled,fun _ none => absurd none NatSet.not_mem_empty,fun none => filled none.symm,trivial⟩

namespace Forest

def Lawful : Forest Vertex → Prop
  | .nil => True
  | .cons v kids right => v.Heads kids ∧ kids.Lawful ∧ right.Lawful

theorem Lawful.nested {f : Forest Vertex} (lawful : f.Lawful) : f.Nested := by
  induction f with
  | nil => trivial
  | cons v kids right below ih =>
    obtain ⟨heads,kidsLawful,rightLawful⟩ := lawful
    exact ⟨heads.inside,below kidsLawful,ih rightLawful⟩

-- Every node has a state of its own, so there are no more nodes than states.
theorem Lawful.size_le {f : Forest Vertex} (lawful : f.Lawful) (apart : f.Apart) :
    f.size ≤ f.cover.card := by
  induction f with
  | nil => exact Nat.zero_le _
  | cons v kids right below ih =>
    obtain ⟨heads,kidsLawful,rightLawful⟩ := lawful
    have kidsSize := below kidsLawful heads.apart
    have rightSize := ih rightLawful apart.2
    have strict := NatSet.card_lt_of_subset heads.inside heads.uncovered
    rw [size,cover_cons,NatSet.card_union apart.1]
    omega

end Forest

namespace Tree

structure Valid (t : Tree) : Prop where
  lawful : t.forest.Lawful
  distinct : t.forest.nameList.Nodup
  used : t.used = t.names

theorem forest_apart (t : Tree) : t.forest.Apart := by
  unfold forest
  cases t.root with
  | none => trivial
  | some r => exact ⟨fun q _ => NatSet.not_mem_empty,trivial⟩

theorem checkKids_exact (parent : Vertex) (f : Forest Vertex) : ∀ {below all},
    checkKids parent below f = .ok all ↔
      f.cover ⊆ parent.label ∧ f.Apart ∧ (∀ q ∈ f.cover, q ∉ below) ∧ all = below ∪ f.cover := by
  induction f with
  | nil =>
    intro below all
    constructor
    · intro checked
      cases checked
      exact ⟨by simp [NatSet.subset_iff],trivial,by simp,by simp⟩
    · intro fits
      obtain ⟨-,-,-,rfl⟩ := fits
      simp [checkKids]
  | cons v kids right _ ih =>
    intro below all
    unfold checkKids
    by_cases inside : v.label ⊆ parent.label
    · rw [if_neg (not_not.mpr inside)]
      by_cases meets : v.label.intersects below = true
      · rw [if_pos meets]
        constructor
        · intro checked
          cases checked
        · intro fits
          obtain ⟨-,-,fresh,-⟩ := fits
          obtain ⟨q,own,seen⟩ := NatSet.intersects_iff.mp meets
          exact absurd seen (fresh q (by simp [own]))
      · rw [if_neg meets,ih,Forest.cover_cons]
        rw [Bool.not_eq_true,NatSet.intersects_eq_false_iff] at meets
        constructor
        · intro fits
          obtain ⟨rightInside,rightApart,fresh,rfl⟩ := fits
          refine ⟨?_,⟨?_,rightApart⟩,?_,?_⟩ <;> grind
        · intro fits
          obtain ⟨allInside,⟨apart,rightApart⟩,fresh,rfl⟩ := fits
          refine ⟨?_,rightApart,?_,?_⟩ <;> grind
    · rw [if_pos inside]
      constructor
      · intro checked
        cases checked
      · intro fits
        exact absurd (fun q own => fits.1 q (by simp [own])) inside

theorem checkVertex_eq (v : Vertex) (kids : Forest Vertex) (names : NatSet) :
    checkVertex v kids names =
      if v.label = ∅ then .error (.emptyLabel v.name)
      else if v.name ∈ names then .error (.repeated v.name)
      else match checkKids v ∅ kids with
        | .error flaw => .error flaw
        | .ok below => if ¬ kids.isEmpty ∧ below = v.label then .error (.covered v.name)
          else .ok (names.insert v.name) := by
  unfold checkVertex
  by_cases empty : v.label = ∅
  · rw [if_pos empty,if_pos empty]; rfl
  · by_cases old : v.name ∈ names
    · rw [if_neg empty,if_neg empty,if_pos old]
      simp only [old,if_true]; rfl
    · rw [if_neg empty,if_neg empty,if_neg old]
      simp only [old,if_false]
      cases checkKids v ∅ kids with
      | error flaw => rfl
      | ok below => simp only [ok_bind]; split <;> rfl

theorem checkVertex_exact {v : Vertex} {kids : Forest Vertex} {names all : NatSet} :
    checkVertex v kids names = .ok all ↔ v.Heads kids ∧ v.name ∉ names ∧ all = names.insert v.name := by
  rw [checkVertex_eq]
  constructor
  · intro checked
    split at checked
    · cases checked
    · rename_i filled
      split at checked
      · cases checked
      · rename_i new
        split at checked
        · cases checked
        · rename_i below kidsChecked
          obtain ⟨inside,apart,-,rfl⟩ := (checkKids_exact v kids).mp kidsChecked
          rw [NatSet.empty_union] at checked
          split at checked
          · cases checked
          · rename_i uncovered
            cases checked
            refine ⟨⟨filled,inside,?_,apart⟩,new,rfl⟩
            intro covered
            cases kids with
            | nil => exact filled covered.symm
            | cons w deeper right => exact uncovered ⟨by simp [Forest.isEmpty],covered⟩
  · intro fits
    obtain ⟨heads,new,rfl⟩ := fits
    have kidsFit : checkKids v ∅ kids = .ok kids.cover := (checkKids_exact v kids).mpr
      ⟨heads.inside,heads.apart,by simp,(NatSet.empty_union _).symm⟩
    simp [heads.filled,new,kidsFit,heads.uncovered]

theorem checkForest_exact (f : Forest Vertex) : ∀ {names all},
    checkForest f names = .ok all ↔
      f.Lawful ∧ f.nameList.Nodup ∧ (∀ x ∈ f.names, x ∉ names) ∧ all = names ∪ f.names := by
  induction f with
  | nil =>
    intro names all
    constructor
    · intro checked
      cases checked
      exact ⟨trivial,.nil,by simp,by simp⟩
    · intro fits
      obtain ⟨-,-,-,rfl⟩ := fits
      simp [checkForest]
  | cons v kids right below ih =>
    intro names all
    rw [checkForest,Forest.distinct_cons,Forest.names_cons]
    constructor
    · intro checked
      obtain ⟨first,vertexChecked,checked⟩ := bind_eq_ok.mp checked
      obtain ⟨second,kidsChecked,rightChecked⟩ := bind_eq_ok.mp checked
      obtain ⟨heads,new,rfl⟩ := checkVertex_exact.mp vertexChecked
      obtain ⟨kidsLawful,kidsDistinct,kidsNew,rfl⟩ := below.mp kidsChecked
      obtain ⟨rightLawful,rightDistinct,rightNew,rfl⟩ := ih.mp rightChecked
      refine ⟨⟨heads,kidsLawful,rightLawful⟩,⟨?_,kidsDistinct,rightDistinct,?_⟩,?_,?_⟩ <;> grind
    · intro passes
      obtain ⟨⟨heads,kidsLawful,rightLawful⟩,⟨own,kidsDistinct,rightDistinct,apart⟩,new,rfl⟩ := passes
      refine bind_eq_ok.mpr ⟨_,checkVertex_exact.mpr ⟨heads,new _ (by simp),rfl⟩,?_⟩
      refine bind_eq_ok.mpr ⟨_,below.mpr ⟨kidsLawful,kidsDistinct,?_,rfl⟩,?_⟩
      · grind
      · refine ih.mpr ⟨rightLawful,rightDistinct,?_,?_⟩ <;> grind

-- The local checks are all there is to validity.
theorem check_exact {t : Tree} : t.check = .ok () ↔ t.Valid := by
  constructor
  · intro checked
    obtain ⟨names,forestChecked,rest⟩ := bind_eq_ok.mp checked
    obtain ⟨lawful,distinct,-,rfl⟩ := (checkForest_exact _).mp forestChecked
    rw [NatSet.empty_union] at rest
    refine ⟨lawful,distinct,?_⟩
    by_contra stale
    have differ : t.forest.names ≠ t.used := fun same => stale same.symm
    simp only [differ,ne_eq,not_false_eq_true,if_true] at rest
    cases rest
  · intro valid
    have forestChecked : checkForest t.forest ∅ = .ok t.forest.names := (checkForest_exact t.forest).mpr
      ⟨valid.lawful,valid.distinct,by simp,(NatSet.empty_union _).symm⟩
    have same : t.forest.names = t.used := valid.used.symm
    unfold check
    simp [forestChecked,same]

end Tree
end BuchiToRabin
