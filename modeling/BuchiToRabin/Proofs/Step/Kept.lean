import BuchiToRabin.Proofs.Tree.Trims
namespace BuchiToRabin.Step

-- What merging and pruning leave of a forest whose labels are already the new ones, given the states
-- that no node further left has claimed. A node keeps its unseen states. Without any it goes, with
-- all below it; if its kids hold all of them it becomes a marked leaf.
def kept : Forest Vertex → NatSet → Forest Vertex
  | .nil,_ => .nil
  | .cons v kids right,unseen =>
    let rest := kept right (unseen \ v.label)
    if v.label ∩ unseen = ∅ then rest
    else if kids.cover ∩ unseen = v.label ∩ unseen then
      .cons {v with label := v.label ∩ unseen,marked := true} .nil rest
    else .cons {v with label := v.label ∩ unseen} (kept kids unseen) rest

def dropped : Forest Vertex → NatSet → NatSet
  | .nil,_ => ∅
  | .cons v kids right,unseen =>
    let rest := dropped right (unseen \ v.label)
    if v.label ∩ unseen = ∅ then kids.names.insert v.name ∪ rest
    else if kids.cover ∩ unseen = v.label ∩ unseen then kids.names ∪ rest
    else dropped kids unseen ∪ rest

@[simp] theorem kept_nil (unseen : NatSet) : kept .nil unseen = .nil := rfl
@[simp] theorem dropped_nil (unseen : NatSet) : dropped .nil unseen = ∅ := rfl

section
variable {v : Vertex} {kids right : Forest Vertex} {unseen : NatSet}

theorem kept_gone (gone : v.label ∩ unseen = ∅) :
    kept (.cons v kids right) unseen = kept right (unseen \ v.label) := by
  rw [kept,if_pos gone]

theorem kept_covered (stays : v.label ∩ unseen ≠ ∅) (covered : kids.cover ∩ unseen = v.label ∩ unseen) :
    kept (.cons v kids right) unseen =
      .cons {v with label := v.label ∩ unseen,marked := true} .nil (kept right (unseen \ v.label)) := by
  rw [kept,if_neg stays,if_pos covered]

theorem kept_open (stays : v.label ∩ unseen ≠ ∅) (uncovered : kids.cover ∩ unseen ≠ v.label ∩ unseen) :
    kept (.cons v kids right) unseen =
      .cons {v with label := v.label ∩ unseen} (kept kids unseen) (kept right (unseen \ v.label)) := by
  rw [kept,if_neg stays,if_neg uncovered]

theorem dropped_gone (gone : v.label ∩ unseen = ∅) :
    dropped (.cons v kids right) unseen = kids.names.insert v.name ∪ dropped right (unseen \ v.label) := by
  rw [dropped,if_pos gone]

theorem dropped_covered (stays : v.label ∩ unseen ≠ ∅) (covered : kids.cover ∩ unseen = v.label ∩ unseen) :
    dropped (.cons v kids right) unseen = kids.names ∪ dropped right (unseen \ v.label) := by
  rw [dropped,if_neg stays,if_pos covered]

theorem dropped_open (stays : v.label ∩ unseen ≠ ∅) (uncovered : kids.cover ∩ unseen ≠ v.label ∩ unseen) :
    dropped (.cons v kids right) unseen = dropped kids unseen ∪ dropped right (unseen \ v.label) := by
  rw [dropped,if_neg stays,if_neg uncovered]

end

-- Nothing unseen is lost: what the roots held before and nobody claimed, they hold after.
theorem cover_kept (f : Forest Vertex) (unseen : NatSet) : (kept f unseen).cover = f.cover ∩ unseen := by
  fun_induction kept f unseen with
  | case1 unseen => simp
  | case2 v kids right unseen rest gone ih =>
    rw [NatSet.inter_eq_empty_iff] at gone
    rw [ih,Forest.cover_cons]
    grind
  | case3 v kids right unseen rest stays covered ih =>
    rw [Forest.cover_cons,Forest.cover_cons,ih]
    grind
  | case4 v kids right unseen rest stays uncovered ih below =>
    rw [Forest.cover_cons,Forest.cover_cons,ih]
    grind

theorem kept_append (g f : Forest Vertex) :
    ∀ unseen, kept (f ++ g) unseen = kept f unseen ++ kept g (unseen \ f.cover) := by
  induction f with
  | nil => intro unseen; simp
  | cons v kids right _ ih =>
    intro unseen
    simp only [Forest.cons_append,Forest.cover_cons,kept,ih,NatSet.sdiff_sdiff]
    split
    · rfl
    · split <;> rfl

theorem trims_kept (f : Forest Vertex) (unseen : NatSet) : Trims f (kept f unseen) (dropped f unseen) := by
  have smaller (label seen : NatSet) : label ∩ seen ⊆ label := fun q held => (NatSet.mem_inter.mp held).1
  fun_induction kept f unseen with
  | case1 unseen => exact .nil
  | case2 v kids right unseen rest gone ih =>
    rw [dropped_gone gone]
    exact .drop ih
  | case3 v kids right unseen rest stays covered ih =>
    rw [dropped_covered stays covered]
    exact .keep rfl (smaller _ _) (.all kids) ih
  | case4 v kids right unseen rest stays uncovered ih below =>
    rw [dropped_open stays uncovered]
    exact .keep rfl (smaller _ _) below ih

-- Every name is kept or dropped, or both where it stands more than once.
theorem names_kept (f : Forest Vertex) (unseen : NatSet) : (kept f unseen).names ∪ dropped f unseen = f.names :=
  (trims_kept f unseen).names

theorem names_kept_subset (f : Forest Vertex) (unseen : NatSet) : (kept f unseen).names ⊆ f.names := by
  rw [←names_kept f unseen]
  grind

end BuchiToRabin.Step
