import BuchiToRabin.Proofs.Step.Kept
namespace BuchiToRabin.Step

-- What a traversal makes of a forest with all fresh nodes put in, and the states still unseen after it.
-- Names play no part.
def claim : Forest Vertex → NatSet → Forest Vertex × NatSet
  | .nil,unseen => (.nil,unseen)
  | .cons v kids right,unseen =>
    let label := v.label ∩ unseen
    if label = ∅ then claim right unseen
    else
      let below := claim kids unseen
      let rest := claim right (below.2 \ label)
      if unseen.card - below.2.card = label.card then (.cons ⟨v.name,label,true⟩ .nil rest.1,rest.2)
      else (.cons ⟨v.name,label,v.marked⟩ below.1 rest.1,rest.2)

-- The names it takes away.
def waived : Forest Vertex → NatSet → NatSet
  | .nil,_ => ∅
  | .cons v kids right,unseen =>
    let label := v.label ∩ unseen
    if label = ∅ then kids.names.insert v.name ∪ waived right unseen
    else
      let left := (claim kids unseen).2
      let rest := waived right (left \ label)
      if unseen.card - left.card = label.card then kids.names ∪ rest else waived kids unseen ∪ rest

section
variable {v : Vertex} {kids right : Forest Vertex} {unseen : NatSet}

theorem claim_gone (gone : v.label ∩ unseen = ∅) : claim (.cons v kids right) unseen = claim right unseen := by
  rw [claim]
  exact if_pos gone

theorem claim_covered (stays : v.label ∩ unseen ≠ ∅)
    (all : unseen.card - (claim kids unseen).2.card = (v.label ∩ unseen).card) :
    claim (.cons v kids right) unseen =
      (.cons ⟨v.name,v.label ∩ unseen,true⟩ .nil (claim right ((claim kids unseen).2 \ (v.label ∩ unseen))).1,
        (claim right ((claim kids unseen).2 \ (v.label ∩ unseen))).2) := by
  rw [claim]
  exact (if_neg stays).trans (if_pos all)

theorem claim_open (stays : v.label ∩ unseen ≠ ∅)
    (more : unseen.card - (claim kids unseen).2.card ≠ (v.label ∩ unseen).card) :
    claim (.cons v kids right) unseen =
      (.cons ⟨v.name,v.label ∩ unseen,v.marked⟩ (claim kids unseen).1
          (claim right ((claim kids unseen).2 \ (v.label ∩ unseen))).1,
        (claim right ((claim kids unseen).2 \ (v.label ∩ unseen))).2) := by
  rw [claim]
  exact (if_neg stays).trans (if_neg more)

theorem waived_gone (gone : v.label ∩ unseen = ∅) :
    waived (.cons v kids right) unseen = kids.names.insert v.name ∪ waived right unseen := by
  rw [waived]
  exact if_pos gone

theorem waived_covered (stays : v.label ∩ unseen ≠ ∅)
    (all : unseen.card - (claim kids unseen).2.card = (v.label ∩ unseen).card) :
    waived (.cons v kids right) unseen =
      kids.names ∪ waived right ((claim kids unseen).2 \ (v.label ∩ unseen)) := by
  rw [waived]
  exact (if_neg stays).trans (if_pos all)

theorem waived_open (stays : v.label ∩ unseen ≠ ∅)
    (more : unseen.card - (claim kids unseen).2.card ≠ (v.label ∩ unseen).card) :
    waived (.cons v kids right) unseen =
      waived kids unseen ∪ waived right ((claim kids unseen).2 \ (v.label ∩ unseen)) := by
  rw [waived]
  exact (if_neg stays).trans (if_neg more)

end

theorem claim_append (g f : Forest Vertex) : ∀ unseen, claim (f ++ g) unseen =
    ((claim f unseen).1 ++ (claim g (claim f unseen).2).1,(claim g (claim f unseen).2).2) := by
  induction f with
  | nil => intro unseen; rfl
  | cons v kids right _ ih =>
    intro unseen
    simp only [Forest.cons_append,claim,ih]
    split
    · rfl
    · split <;> rfl

theorem waived_append (g f : Forest Vertex) :
    ∀ unseen, waived (f ++ g) unseen = waived f unseen ∪ waived g (claim f unseen).2 := by
  induction f with
  | nil => intro unseen; simp [waived,claim]
  | cons v kids right _ ih =>
    intro unseen
    simp only [Forest.cons_append,waived,claim,ih]
    split
    · grind
    · split <;> grind

-- Counting is as good as comparing: the kids hold part of the label.
theorem claimed_iff {below label unseen : NatSet} (inside : below ⊆ label) :
    unseen.card - (unseen \ below).card = (label ∩ unseen).card ↔ below ∩ unseen = label ∩ unseen := by
  rw [NatSet.card_sub_card_sdiff]
  constructor
  · intro same
    exact NatSet.eq_of_subset_of_card_le (by grind) (Nat.le_of_eq same.symm)
  · intro same
    rw [same]

-- Where labels lie in the labels above them, a traversal keeps what the rules keep.
theorem claim_nested (f : Forest Vertex) : f.Nested → ∀ unseen,
    claim f unseen = (kept f unseen,unseen \ f.cover) ∧ waived f unseen = dropped f unseen := by
  induction f with
  | nil => intro _ unseen; simp [claim,waived]
  | cons v kids right below ih =>
    intro nested unseen
    obtain ⟨inside,kidsNested,rightNested⟩ := nested
    obtain ⟨rest,restNames⟩ := ih rightNested (unseen \ v.label)
    obtain ⟨deeper,deeperNames⟩ := below kidsNested unseen
    have left : (unseen \ v.label) \ right.cover = unseen \ (v.label ∪ right.cover) := by grind
    by_cases gone : v.label ∩ unseen = ∅
    · have same : unseen \ v.label = unseen := by
        rw [NatSet.inter_eq_empty_iff] at gone
        grind
      rw [same] at rest restNames left
      rw [claim_gone gone,waived_gone gone,kept_gone gone,dropped_gone gone,Forest.cover_cons,same,rest,restNames,
        left]
      exact ⟨rfl,rfl⟩
    · have here : (unseen \ kids.cover) \ (v.label ∩ unseen) = unseen \ v.label := by grind
      by_cases covered : kids.cover ∩ unseen = v.label ∩ unseen
      · have all : unseen.card - (claim kids unseen).2.card = (v.label ∩ unseen).card := by
          rw [deeper]
          exact (claimed_iff inside).mpr covered
        rw [claim_covered gone all,waived_covered gone all,deeper,here,rest,restNames,kept_covered gone covered,
          dropped_covered gone covered,Forest.cover_cons,left]
        exact ⟨rfl,rfl⟩
      · have more : unseen.card - (claim kids unseen).2.card ≠ (v.label ∩ unseen).card := by
          rw [deeper]
          exact mt (claimed_iff inside).mp covered
        rw [claim_open gone more,waived_open gone more,deeper,deeperNames,here,rest,restNames,
          kept_open gone covered,dropped_open gone covered,Forest.cover_cons,left]
        exact ⟨rfl,rfl⟩

theorem trims_claim (f : Forest Vertex) : ∀ unseen, Trims f (claim f unseen).1 (waived f unseen) := by
  induction f with
  | nil => intro unseen; exact .nil
  | cons v kids right below ih =>
    intro unseen
    have smaller : v.label ∩ unseen ⊆ v.label := fun q held => (NatSet.mem_inter.mp held).1
    by_cases gone : v.label ∩ unseen = ∅
    · rw [claim_gone gone,waived_gone gone]
      exact .drop (ih unseen)
    · by_cases all : unseen.card - (claim kids unseen).2.card = (v.label ∩ unseen).card
      · rw [claim_covered gone all,waived_covered gone all]
        exact .keep rfl smaller (.all kids) (ih _)
      · rw [claim_open gone all,waived_open gone all]
        exact .keep rfl smaller (below unseen) (ih _)

end BuchiToRabin.Step
