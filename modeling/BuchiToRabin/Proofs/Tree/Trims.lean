import BuchiToRabin.Proofs.Tree.Valid
namespace BuchiToRabin

@[simp] theorem Tree.used_ofForest (f : Forest Vertex) (used : NatSet) : (Tree.ofForest f used).used = used := by
  cases f <;> rfl

-- What is left of a forest when trees are dropped here and there, and the names lost. The nodes that stay
-- keep their names and their order; their labels get smaller and their marks may change.
inductive Trims : Forest Vertex → Forest Vertex → NatSet → Prop where
  | nil : Trims .nil .nil ∅
  | drop (beside : Trims right rest lost) : Trims (.cons v kids right) rest (kids.names.insert v.name ∪ lost)
  | keep (name : w.name = v.name) (label : w.label ⊆ v.label) (below : Trims kids deeper gone)
      (beside : Trims right rest lost) : Trims (.cons v kids right) (.cons w deeper rest) (gone ∪ lost)

namespace Trims

variable {f g h kids : Forest Vertex} {v : Vertex} {lost more : NatSet}

theorem cast (trims : Trims f g lost) (same : lost = more) : Trims f g more := same ▸ trims

theorem all (f : Forest Vertex) : Trims f .nil f.names := by
  induction f with
  | nil => exact .nil
  | cons v kids right _ ih => exact (drop ih).cast (by rw [Forest.names_cons]; grind)

theorem names (trims : Trims f g lost) : g.names ∪ lost = f.names := by
  induction trims with
  | nil => exact NatSet.union_empty _
  | drop _ ih => rw [Forest.names_cons,←ih]; grind
  | keep name _ _ _ below beside => rw [Forest.names_cons,Forest.names_cons,name,←below,←beside]; grind

theorem lost_subset (trims : Trims f g lost) : lost ⊆ f.names := by
  rw [←trims.names]
  grind

theorem trans (first : Trims f g lost) (second : Trims g h more) : Trims f h (lost ∪ more) := by
  induction first generalizing h more with
  | nil => exact second.cast (NatSet.empty_union more).symm
  | drop _ ih => exact (drop (ih second)).cast (by grind)
  | keep name label below _ belowIh besideIh =>
    cases second with
    | drop beside => exact (drop (besideIh beside)).cast (by rw [←below.names,name]; grind)
    | keep name' label' below' beside' =>
      have smaller := fun q held => label q (label' q held)
      exact (keep (name'.trans name) smaller (belowIh below') (besideIh beside')).cast (by grind)

theorem nameList (trims : Trims f g lost) : g.nameList.Sublist f.nameList := by
  induction trims with
  | nil => exact .slnil
  | drop _ ih =>
    rw [Forest.nameList_cons]
    exact .cons _ (ih.trans (List.sublist_append_right _ _))
  | keep name _ _ _ below beside =>
    rw [Forest.nameList_cons,Forest.nameList_cons,name]
    exact .cons_cons _ (below.append beside)

-- Where no name stands twice, a name that stays is not lost elsewhere.
theorem names_eq (trims : Trims f g lost) (distinct : f.nameList.Nodup) : g.names = f.names \ lost := by
  induction trims with
  | nil => exact (NatSet.sdiff_empty _).symm
  | drop beside ih =>
    obtain ⟨new,-,rightDistinct,apart⟩ := Forest.distinct_cons.mp distinct
    have within := beside.names
    rw [ih rightDistinct,Forest.names_cons]
    rw [←within] at new apart ⊢
    grind
  | keep name _ below beside belowIh besideIh =>
    obtain ⟨new,kidsDistinct,rightDistinct,apart⟩ := Forest.distinct_cons.mp distinct
    have within := below.names
    have within' := beside.names
    rw [Forest.names_cons,Forest.names_cons,name,belowIh kidsDistinct,besideIh rightDistinct]
    rw [←within,←within'] at new apart ⊢
    grind

-- Of one tree there is one left, or none.
theorem forest_ofForest (trims : Trims (.cons v kids .nil) g lost) (used : NatSet) :
    (Tree.ofForest g used).forest = g := by
  cases trims with
  | drop beside => cases beside; rfl
  | keep _ _ _ beside => cases beside; rfl

end Trims
end BuchiToRabin
