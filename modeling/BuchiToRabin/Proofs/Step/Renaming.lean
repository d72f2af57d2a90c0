import BuchiToRabin.Acceptance
import BuchiToRabin.Proofs.NatSet.Image
import BuchiToRabin.Proofs.Step.Run
namespace BuchiToRabin

-- `A'` is `A` with its states under new names, no two under one name, and perhaps more states. What the others
-- are, and where they lead, is left open.
structure Automaton.Embeds (f : Nat → Nat) (A A' : Automaton) : Prop where
  lt : ∀ q, q < A.stateCount → f q < A'.stateCount
  one : Set.InjOn f (Set.Iio A.stateCount)
  alphabet : A'.alphabetSize = A.alphabetSize
  initial : A'.initial = A.initial.image f
  finals : A'.finals ∩ (NatSet.full A.stateCount).image f = A.finals.image f
  edges : ∀ q, q < A.stateCount → ∀ a ∈ A.symbols,
    (A'.under a).targets (f q) = ((A.under a).targets q).image f

def Vertex.rename (f : Nat → Nat) (v : Vertex) : Vertex := {v with label := v.label.image f}

-- Every label `S` becomes `f(S)`. Names, marks and shape stay.
def Forest.rename (f : Nat → Nat) (g : Forest Vertex) : Forest Vertex := g.map (.rename f)

def Node.rename (f : Nat → Nat) (r : Node) : Node := ⟨r.top.rename f,r.kids.rename f⟩

def Tree.rename (f : Nat → Nat) (t : Tree) : Tree := ⟨t.root.map (.rename f),t.used⟩

namespace Automaton.Embeds

variable {f : Nat → Nat} {A A' : Automaton} {s : NatSet} {a : Nat}

theorem finals_agree (embeds : Embeds f A A') : NatSet.Agree f A.stateCount A.finals A'.finals := by
  intro q small
  have inside : A.finals ⊆ .full A.stateCount := fun q last => NatSet.mem_full.mpr (A.finals_lt q last)
  have image := NatSet.agree_image embeds.one inside q small
  rw [←embeds.finals,NatSet.mem_inter,NatSet.mem_image] at image
  rw [←image]
  exact (and_iff_left ⟨q,NatSet.mem_full.mpr small,rfl⟩).symm

theorem full_agree (embeds : Embeds f A A') :
    NatSet.Agree f A.stateCount (.full A.stateCount) (.full A'.stateCount) := by
  intro q small
  exact iff_of_true (NatSet.mem_full.mpr (embeds.lt q small)) (NatSet.mem_full.mpr small)

theorem stateCount_le (embeds : Embeds f A A') : A.stateCount ≤ A'.stateCount := by
  have into : Set.MapsTo f (Finset.range A.stateCount) (Finset.range A'.stateCount) := by
    intro q listed
    rw [Finset.coe_range] at *
    exact embeds.lt q listed
  have one : Set.InjOn f (Finset.range A.stateCount) := by
    rw [Finset.coe_range]
    exact embeds.one
  have le := Finset.card_le_card_of_injOn f into one
  rwa [Finset.card_range,Finset.card_range] at le

theorem moves_iff (embeds : Embeds f A A') {q t : Nat} (small : q < A.stateCount) :
    A'.Moves (f q) a t ↔ ∃ p, A.Moves q a p ∧ f p = t := by
  by_cases symbol : a ∈ A.symbols
  · unfold Moves
    rw [embeds.edges q small a symbol,NatSet.mem_image]
  · constructor
    · intro moves
      have reads := (A'.edge_lt a _ t moves).2
      rw [embeds.alphabet] at reads
      exact absurd (mem_symbols.mpr reads) symbol
    · intro moves
      obtain ⟨p,moves,-⟩ := moves
      exact absurd (mem_symbols.mpr (A.edge_lt a q p moves).2) symbol

theorem post_image (embeds : Embeds f A A') (within : s ⊆ .full A.stateCount) :
    A'.post a (s.image f) = (A.post a s).image f := by
  ext t
  simp only [mem_post,NatSet.mem_image]
  constructor
  · intro reached
    obtain ⟨_,⟨q,present,rfl⟩,moves⟩ := reached
    obtain ⟨p,before,rfl⟩ := (embeds.moves_iff (NatSet.mem_full.mp (within q present))).mp moves
    exact ⟨p,⟨q,present,before⟩,rfl⟩
  · intro reached
    obtain ⟨p,⟨q,present,moves⟩,rfl⟩ := reached
    exact ⟨f q,⟨q,present,rfl⟩,(embeds.moves_iff (NatSet.mem_full.mp (within q present))).mpr ⟨p,moves,rfl⟩⟩

end Automaton.Embeds

namespace Forest

variable {f : Nat → Nat} {g : Forest Vertex}

@[simp] theorem rename_cons (f : Nat → Nat) (v : Vertex) (kids right : Forest Vertex) :
    (Forest.cons v kids right).rename f = .cons (v.rename f) (kids.rename f) (right.rename f) := rfl

@[simp] theorem rename_append (f : Nat → Nat) (h g : Forest Vertex) :
    (g ++ h).rename f = g.rename f ++ h.rename f := by
  induction g with
  | nil => rfl
  | cons v kids right _ ih => simp only [cons_append,rename_cons,ih]

@[simp] theorem names_rename (f : Nat → Nat) (g : Forest Vertex) : (g.rename f).names = g.names := by
  induction g with
  | nil => rfl
  | cons v kids right below ih => rw [rename_cons,names_cons,names_cons,below,ih]; rfl

@[simp] theorem cover_rename (f : Nat → Nat) (g : Forest Vertex) : (g.rename f).cover = g.cover.image f := by
  induction g with
  | nil => rfl
  | cons v kids right _ ih => rw [rename_cons,cover_cons,cover_cons,NatSet.image_union,ih]; rfl

theorem states_subset_cons {v : Vertex} {kids right : Forest Vertex} {s : NatSet} :
    (Forest.cons v kids right).states ⊆ s ↔ v.label ⊆ s ∧ kids.states ⊆ s ∧ right.states ⊆ s := by
  simp only [states_cons,NatSet.subset_iff,NatSet.mem_union,or_imp,forall_and]

theorem cover_subset_states (g : Forest Vertex) : g.cover ⊆ g.states := by
  induction g with
  | nil => exact fun _ present => present
  | cons v kids right _ ih =>
    intro q held
    rw [cover_cons,NatSet.mem_union] at held
    rw [states_cons,NatSet.mem_union,NatSet.mem_union]
    exact held.imp id fun right => .inr (ih q right)

theorem rename_inj {n : Nat} (one : Set.InjOn f (Set.Iio n)) (g : Forest Vertex) :
    ∀ {h}, g.states ⊆ .full n → h.states ⊆ .full n → g.rename f = h.rename f → g = h := by
  induction g with
  | nil =>
    intro h _ _ same
    cases h with
    | nil => rfl
    | cons => cases same
  | cons v kids right below ih =>
    intro h within within' same
    cases h with
    | nil => cases same
    | cons w kids' right' =>
      obtain ⟨own,kidsWithin,rightWithin⟩ := states_subset_cons.mp within
      obtain ⟨own',kidsWithin',rightWithin'⟩ := states_subset_cons.mp within'
      injection same with top kids right
      injection top with name label marked
      rw [NatSet.image_inj one own own'] at label
      have equal : v = w := by
        cases v
        cases w
        cases name
        cases label
        cases marked
        rfl
      rw [equal,below kidsWithin kidsWithin' kids,ih rightWithin rightWithin' right]

end Forest

namespace Step

variable {f : Nat → Nat} {A A' : Automaton} {a n : Nat} {label used named after unseen unseen' : NatSet}
  {fresh : Option Vertex} {g h : Forest Vertex} {t : Tree}

theorem advance_rename (embeds : A.Embeds f A') (a : Nat) (g : Forest Vertex) :
    g.states ⊆ .full A.stateCount → advance A' a (g.rename f) = (advance A a g).rename f := by
  induction g with
  | nil => intro _; rfl
  | cons v kids right below ih =>
    intro within
    obtain ⟨own,kidsWithin,rightWithin⟩ := Forest.states_subset_cons.mp within
    rw [Forest.rename_cons,advance_cons,advance_cons,Forest.rename_cons,below kidsWithin,ih rightWithin]
    unfold Vertex.rename
    rw [embeds.post_image own]

theorem states_advance (A : Automaton) (a : Nat) (g : Forest Vertex) :
    (advance A a g).states ⊆ .full A.stateCount := by
  induction g with
  | nil => exact fun q none => absurd none NatSet.not_mem_empty
  | cons v kids right below ih =>
    rw [advance_cons,Forest.states_subset_cons]
    exact ⟨A.post_subset_full a v.label,below,ih⟩

-- More states leave room for more names, and those taken are the same.
theorem Buds.rename (embeds : A.Embeds f A') (within : label ⊆ .full A.stateCount)
    (buds : Buds A label used fresh named) :
    Buds A' (label.image f) used (fresh.map (Vertex.rename f)) named := by
  have finals := embeds.finals_agree.inter_image within
  cases buds with
  | rest apart =>
    apply Buds.rest
    rw [finals,apart,NatSet.image_empty]
  | grow meets free =>
    have more : A.nameCount ≤ A'.nameCount := Nat.mul_le_mul_left 2 embeds.stateCount_le
    have meets' : label.image f ∩ A'.finals ≠ ∅ := by
      rw [finals]
      exact fun none => meets (NatSet.image_eq_empty_iff.mp none)
    have grown : Buds A' (label.image f) used (some ⟨used.firstAbsent,label.image f ∩ A'.finals,true⟩)
        (used.insert used.firstAbsent) := .grow meets' (Nat.lt_of_lt_of_le free more)
    rw [finals] at grown
    exact grown

theorem kid_rename (fresh : Option Vertex) : kid (fresh.map (Vertex.rename f)) = (kid fresh).rename f := by
  cases fresh <;> rfl

theorem Grows.rename (embeds : A.Embeds f A') (grows : Grows A g used h after) :
    g.states ⊆ .full A.stateCount → Grows A' (g.rename f) used (h.rename f) after := by
  induction grows with
  | nil => intro _; exact .nil
  | cons bud _ _ below beside =>
    intro within
    obtain ⟨own,kidsWithin,rightWithin⟩ := Forest.states_subset_cons.mp within
    rw [Forest.rename_cons,Forest.rename_cons,Forest.rename_append,←kid_rename]
    exact .cons (bud.rename embeds own) (below kidsWithin) (beside rightWithin)

-- What is kept or dropped of a renamed forest is told from what no node has claimed, by either name.
theorem kept_rename (one : Set.InjOn f (Set.Iio n)) (g : Forest Vertex) : g.states ⊆ .full n →
    ∀ {unseen unseen'}, NatSet.Agree f n unseen unseen' →
      kept (g.rename f) unseen' = (kept g unseen).rename f ∧ dropped (g.rename f) unseen' = dropped g unseen := by
  induction g with
  | nil => intro _ unseen unseen' _; exact ⟨rfl,rfl⟩
  | cons v kids right below ih =>
    intro within unseen unseen' agree
    obtain ⟨own,kidsWithin,rightWithin⟩ := Forest.states_subset_cons.mp within
    obtain ⟨keepRight,dropRight⟩ := ih rightWithin (agree.sdiff_image one own)
    obtain ⟨keepKids,dropKids⟩ := below kidsWithin agree
    have label : (v.rename f).label ∩ unseen' = (v.label ∩ unseen).image f := agree.inter_image own
    have kidsCover : kids.cover ⊆ .full n := fun q held => kidsWithin q (kids.cover_subset_states q held)
    have cover : (kids.rename f).cover ∩ unseen' = (kids.cover ∩ unseen).image f := by
      rw [Forest.cover_rename]
      exact agree.inter_image kidsCover
    have inter {s : NatSet} (inside : s ⊆ .full n) : s ∩ unseen ⊆ .full n :=
      fun q both => inside q (NatSet.mem_inter.mp both).1
    rw [Forest.rename_cons]
    by_cases gone : v.label ∩ unseen = ∅
    · have gone' : (v.rename f).label ∩ unseen' = ∅ := by rw [label,gone,NatSet.image_empty]
      rw [kept_gone gone,dropped_gone gone,kept_gone gone',dropped_gone gone',Forest.names_rename]
      exact ⟨keepRight,congrArg _ dropRight⟩
    · have stays' : (v.rename f).label ∩ unseen' ≠ ∅ := by
        rw [label]
        exact fun none => gone (NatSet.image_eq_empty_iff.mp none)
      by_cases covered : kids.cover ∩ unseen = v.label ∩ unseen
      · have covered' : (kids.rename f).cover ∩ unseen' = (v.rename f).label ∩ unseen' := by
          rw [cover,label,covered]
        rw [kept_covered gone covered,dropped_covered gone covered,kept_covered stays' covered',
          dropped_covered stays' covered',Forest.names_rename,label]
        exact ⟨congrArg _ keepRight,congrArg _ dropRight⟩
      · have uncovered' : (kids.rename f).cover ∩ unseen' ≠ (v.rename f).label ∩ unseen' := by
          rw [cover,label]
          exact fun same => covered ((NatSet.image_inj one (inter kidsCover) (inter own)).mp same)
        rw [kept_open gone covered,dropped_open gone covered,kept_open stays' uncovered',
          dropped_open stays' uncovered',keepKids,dropKids,label]
        exact ⟨congrArg _ keepRight,congrArg _ dropRight⟩

end Step

namespace Tree

variable {f : Nat → Nat} {A A' : Automaton} {a q : Nat} {t u : Tree}

@[simp] theorem forest_rename (f : Nat → Nat) (t : Tree) : (t.rename f).forest = t.forest.rename f := by
  unfold rename forest
  cases t.root <;> rfl

theorem ofForest_rename (f : Nat → Nat) (g : Forest Vertex) (used : NatSet) :
    ofForest (g.rename f) used = (ofForest g used).rename f := by
  cases g <;> rfl

theorem initial_rename (embeds : A.Embeds f A') : initial A' = (initial A).rename f := by
  have within : A.initial ⊆ .full A.stateCount := fun q start => NatSet.mem_full.mpr (A.initial_lt q start)
  have overlap := embeds.finals_agree.inter_image within
  have inside : A.initial ∩ A.finals ⊆ .full A.stateCount := fun q both => within q (NatSet.mem_inter.mp both).1
  unfold initial
  simp only [embeds.initial,overlap,NatSet.image_eq_empty_iff,NatSet.image_inj embeds.one inside within]
  split
  · rfl
  · split
    · rfl
    · split <;> rfl

theorem next_rename (embeds : A.Embeds f A') (fits : t.Over A) (fits' : (t.rename f).Over A') (a : Nat) :
    Step.next A' (t.rename f) a = (Step.next A t a).rename f := by
  obtain ⟨g,reserved,grows⟩ := fits.grows a
  have within := Step.states_advance A a t.forest
  have grows' := grows.rename embeds within
  have labels : g.states ⊆ .full A.stateCount := by
    rw [(grows.nested (Step.nested_advance fits.nested)).states_eq_cover,grows.cover_eq]
    exact fun q held => within q (Forest.cover_subset_states _ q held)
  rw [←Step.advance_rename embeds a t.forest fits.within,←forest_rename] at grows'
  have ran := (fits.step_exact .fused).mpr ⟨g,reserved,grows,rfl⟩
  have ran' := (fits'.step_exact .fused).mpr ⟨g.rename f,reserved,grows',rfl⟩
  rw [Step.step_eq_next fits,Except.ok.injEq] at ran
  rw [Step.step_eq_next fits',Except.ok.injEq] at ran'
  obtain ⟨keep,drop⟩ := Step.kept_rename embeds.one g labels embeds.full_agree
  rw [ran,ran',Step.outcome,Step.outcome,keep,drop,ofForest_rename]

section
variable (one : Set.InjOn f (Set.Iio A.stateCount)) (fits : t.Over A) (small : q < A.stateCount)
include one fits small

theorem contains_rename : ∀ v ∈ t.vertices, (v.rename f).label.contains (f q) = v.label.contains q := by
  intro v node
  have within := labels_within_iff.mp fits.within v node
  apply Bool.eq_iff_iff.mpr
  exact NatSet.agree_image one within q small

theorem inLeft_rename : (t.rename f).inLeft (f q) = t.inLeft q := by
  have same := contains_rename one fits small
  unfold inLeft
  rw [vertices,forest_rename,Forest.rename,Forest.preorder_map,List.all_map,Bool.eq_iff_iff,List.all_eq_true,
    List.all_eq_true]
  apply forall₂_congr
  intro v node
  rw [Function.comp_apply,same v node]

theorem inRight_rename : (t.rename f).inRight (f q) = t.inRight q := by
  have same := contains_rename one fits small
  unfold inRight
  rw [vertices,forest_rename,Forest.rename,Forest.preorder_map,List.any_map,Bool.eq_iff_iff,List.any_eq_true,
    List.any_eq_true]
  apply exists_congr
  intro v
  apply and_congr_right
  intro node
  rw [Function.comp_apply,same v node]
  rfl

end
end Tree
end BuchiToRabin
