import BuchiToRabin.Proofs.Step.Naming
namespace BuchiToRabin.Step

-- The nodes of a forest by their places.
abbrev Sites := List (Place × Vertex)

namespace Sites

def held (N : Sites) : NatSet := N.foldr (fun n states => n.2.label ∪ states) ∅

def before (N : Sites) (p : Place) : NatSet := held (N.filter fun u => Place.Precedes u.1 p)

-- Every node with what none of the nodes before it holds.
def own (N : Sites) : Sites := N.map fun n => (n.1,{n.2 with label := n.2.label \ N.before n.1})

-- A filled node whose kids together hold just what it holds.
def Covered (N : Sites) (n : Place × Vertex) : Prop :=
  n.2.label ≠ ∅ ∧ n.2.label = held (N.filter fun u => Place.Parent n.1 u.1)

instance (N : Sites) (n : Place × Vertex) : Decidable (N.Covered n) := inferInstanceAs (Decidable (_ ∧ _))

def Stays (N : Sites) (n : Place × Vertex) : Prop :=
  n.2.label ≠ ∅ ∧ ∀ u ∈ N, u.1 <+: n.1 → u.1 ≠ n.1 → ¬ N.Covered u

instance (N : Sites) (n : Place × Vertex) : Decidable (N.Stays n) := inferInstanceAs (Decidable (_ ∧ _))

def shown (N : Sites) (n : Place × Vertex) : Vertex := {n.2 with marked := n.2.marked || N.Covered n}

-- The nodes from the root down to a node.
def line (N : Sites) (n : Place × Vertex) : List Vertex := (N.filter fun u => u.1 <+: n.1).map N.shown

def remaining (N : Sites) : List (List Vertex) := (N.filter N.Stays).map N.line

theorem mem_held {N : Sites} {q : Nat} : q ∈ N.held ↔ ∃ n ∈ N, q ∈ n.2.label := by
  unfold held
  induction N with
  | nil => simp
  | cons n N ih => simp [ih]

theorem mem_held_filter {N : Sites} {P : Place × Vertex → Prop} [DecidablePred P] {q : Nat} :
    q ∈ held (N.filter P) ↔ ∃ n ∈ N, P n ∧ q ∈ n.2.label := by
  rw [mem_held]
  simp only [List.mem_filter,decide_eq_true_eq,and_assoc]

end Sites

section
variable {v : Vertex} {kids right : Forest Vertex} {i : Nat} {n u : Place × Vertex}

open Forest

theorem beside_of_touching (node : n ∈ right.places (i + 1)) (other : u ∈ (Forest.cons v kids right).places i)
    (touch : u.1 <+: n.1 ∨ n.1 <+: u.1) : u ∈ right.places (i + 1) := by
  rcases mem_places_cons.mp other with rfl | ⟨m,_,rfl⟩ | beside
  · have apart := beside_apart node []
    exact absurd touch (not_or.mpr apart)
  · have apart := beside_apart node m.1
    exact absurd touch (not_or.mpr apart)
  · exact beside

theorem covered_beside (node : n ∈ right.places (i + 1)) :
    Sites.Covered ((Forest.cons v kids right).places i) n ↔ Sites.Covered (right.places (i + 1)) n := by
  have kidsHeld : Sites.held (((Forest.cons v kids right).places i).filter fun u => Place.Parent n.1 u.1) =
      Sites.held ((right.places (i + 1)).filter fun u => Place.Parent n.1 u.1) := by
    ext q
    rw [Sites.mem_held_filter,Sites.mem_held_filter]
    constructor
    · rintro ⟨u,other,kid,held⟩
      exact ⟨u,beside_of_touching node other (.inr kid.1),kid,held⟩
    · rintro ⟨u,other,kid,held⟩
      exact ⟨u,mem_places_cons.mpr (.inr (.inr other)),kid,held⟩
  rw [Sites.Covered,Sites.Covered,kidsHeld]

theorem stays_beside (node : n ∈ right.places (i + 1)) :
    Sites.Stays ((Forest.cons v kids right).places i) n ↔ Sites.Stays (right.places (i + 1)) n := by
  refine and_congr_right fun _ => ?_
  constructor
  · intro free u other above apart
    rw [←covered_beside other]
    exact free u (mem_places_cons.mpr (.inr (.inr other))) above apart
  · intro free u other above apart
    have beside := beside_of_touching node other (.inl above)
    rw [covered_beside beside]
    exact free u beside above apart

theorem line_beside (node : n ∈ right.places (i + 1)) :
    Sites.line ((Forest.cons v kids right).places i) n = Sites.line (right.places (i + 1)) n := by
  have above : ((Forest.cons v kids right).places i).filter (fun u => u.1 <+: n.1) =
      (right.places (i + 1)).filter fun u => u.1 <+: n.1 := by
    rw [places,List.filter_cons_of_neg,List.filter_append,List.filter_eq_nil_iff.mpr,List.nil_append]
    · intro u deeper
      obtain ⟨m,_,rfl⟩ := List.mem_map.mp deeper
      exact fun above => (beside_apart node m.1).1 (of_decide_eq_true above)
    · exact fun above => (beside_apart node []).1 (of_decide_eq_true above)
  rw [Sites.line,above]
  refine List.map_congr_left fun u other => ?_
  have same : Sites.Covered ((Forest.cons v kids right).places i) u ↔ _ :=
    covered_beside (List.mem_of_mem_filter other)
  simp only [Sites.shown,same]

-- Below a root only the root is new: its kids are covered by the same nodes as before.
theorem covered_under (below : n ∈ kids.places 0) :
    Sites.Covered ((Forest.cons v kids right).places i) (under i n) ↔ Sites.Covered (kids.places 0) n := by
  obtain ⟨j,p,_,place⟩ := place_cons below
  have kidsHeld : Sites.held (((Forest.cons v kids right).places i).filter fun u =>
      Place.Parent (under i n).1 u.1) = Sites.held ((kids.places 0).filter fun u => Place.Parent n.1 u.1) := by
    ext q
    rw [Sites.mem_held_filter,Sites.mem_held_filter]
    constructor
    · rintro ⟨u,other,kid,held⟩
      rcases mem_places_cons.mp other with rfl | ⟨m,deeper,rfl⟩ | beside
      · have short := (Place.parent_cons.mp kid).2.2
        simp [place] at short
      · exact ⟨m,deeper,(Place.parent_cons.mp kid).2,held⟩
      · exact absurd kid.1 (beside_apart beside n.1).1
    · rintro ⟨m,deeper,kid,held⟩
      exact ⟨under i m,mem_places_cons.mpr (.inr (.inl ⟨m,deeper,rfl⟩)),Place.parent_cons.mpr ⟨rfl,kid⟩,held⟩
  rw [Sites.Covered,Sites.Covered,kidsHeld]
  rfl

theorem covered_root : Sites.Covered ((Forest.cons v kids right).places i) ([i],v) ↔
    v.label ≠ ∅ ∧ v.label = kids.cover := by
  have kidsHeld : Sites.held (((Forest.cons v kids right).places i).filter fun u => Place.Parent [i] u.1) =
      kids.cover := by
    ext q
    rw [Sites.mem_held_filter,mem_cover_places kids 0]
    constructor
    · rintro ⟨u,other,kid,held⟩
      rcases mem_places_cons.mp other with rfl | ⟨m,deeper,rfl⟩ | beside
      · exact absurd (Place.parent_cons.mp kid).2.2 (by simp)
      · exact ⟨m,deeper,(Place.parent_cons.mp kid).2.2,held⟩
      · exact absurd kid.1 (beside_apart beside []).1
    · rintro ⟨m,deeper,root,held⟩
      exact ⟨under i m,mem_places_cons.mpr (.inr (.inl ⟨m,deeper,rfl⟩)),
        Place.parent_cons.mpr ⟨rfl,List.nil_prefix,root⟩,held⟩
  rw [Sites.Covered,kidsHeld]

theorem stays_root : Sites.Stays ((Forest.cons v kids right).places i) ([i],v) ↔ v.label ≠ ∅ := by
  refine and_iff_left fun u other above apart => ?_
  obtain ⟨j,p,_,place⟩ := place_cons other
  rw [place,List.cons_prefix_cons,List.prefix_nil] at above
  rw [place,above.1,above.2] at apart
  exact absurd rfl apart

theorem stays_under (below : n ∈ kids.places 0) :
    Sites.Stays ((Forest.cons v kids right).places i) (under i n) ↔
      ¬ Sites.Covered ((Forest.cons v kids right).places i) ([i],v) ∧ Sites.Stays (kids.places 0) n := by
  obtain ⟨j,p,_,place⟩ := place_cons below
  constructor
  · rintro ⟨filled,free⟩
    refine ⟨free _ (mem_places_cons.mpr (.inl rfl)) ?_ ?_,filled,?_⟩
    · exact List.cons_prefix_cons.mpr ⟨rfl,List.nil_prefix⟩
    · simp [under,place]
    · intro m deeper above apart
      have same : Sites.Covered ((Forest.cons v kids right).places i) (under i m) ↔ _ := covered_under deeper
      rw [←same]
      exact free _ (mem_places_cons.mpr (.inr (.inl ⟨m,deeper,rfl⟩))) (List.cons_prefix_cons.mpr ⟨rfl,above⟩)
        fun same => apart (List.cons.inj same).2
  · rintro ⟨open',filled,free⟩
    refine ⟨filled,fun u other above apart => ?_⟩
    rcases mem_places_cons.mp other with rfl | ⟨m,deeper,rfl⟩ | beside
    · exact open'
    · rw [covered_under deeper]
      exact free m deeper (List.cons_prefix_cons.mp above).2 fun same => apart (congrArg (i :: ·) same)
    · exact absurd above (beside_apart beside n.1).2

theorem line_root : Sites.line ((Forest.cons v kids right).places i) ([i],v) =
    [Sites.shown ((Forest.cons v kids right).places i) ([i],v)] := by
  have above : ((Forest.cons v kids right).places i).filter (fun u => u.1 <+: [i]) = [([i],v)] := by
    rw [places,List.filter_cons_of_pos (by simp),List.filter_append,List.filter_eq_nil_iff.mpr,
      List.filter_eq_nil_iff.mpr,List.append_nil]
    · intro u beside
      exact fun above => (beside_apart beside []).2 (of_decide_eq_true above)
    · intro u deeper
      obtain ⟨m,below,rfl⟩ := List.mem_map.mp deeper
      obtain ⟨j,p,_,place⟩ := place_cons below
      simp [under,place]
  rw [Sites.line,above]
  rfl

theorem line_under : Sites.line ((Forest.cons v kids right).places i) (under i n) =
    Sites.shown ((Forest.cons v kids right).places i) ([i],v) :: Sites.line (kids.places 0) n := by
  have above : ((Forest.cons v kids right).places i).filter (fun u => u.1 <+: (under i n).1) =
      ([i],v) :: ((kids.places 0).filter fun u => u.1 <+: n.1).map (under i) := by
    have none : (right.places (i + 1)).filter (fun u => u.1 <+: (under i n).1) = [] := by
      rw [List.filter_eq_nil_iff]
      intro u beside
      exact fun above => (beside_apart beside n.1).2 (of_decide_eq_true above)
    rw [places,List.filter_cons_of_pos (by simp [under]),List.filter_append,none,List.append_nil,List.filter_map]
    congr 3
    funext u
    simp [under]
  rw [Sites.line,above,List.map_cons,List.map_map,Sites.line]
  congr 1
  refine List.map_congr_left fun u other => ?_
  have same : Sites.Covered ((Forest.cons v kids right).places i) (under i u) ↔ _ :=
    covered_under (List.mem_of_mem_filter other)
  simp only [Function.comp,Sites.shown,same]
  rfl

-- What remains at a root: the root itself if it holds something, what remains below unless the root is covered,
-- and what remains beside it.
theorem remaining_cons {root : Vertex} (shows : Sites.shown ((Forest.cons v kids right).places i) ([i],v) = root) :
    Sites.remaining ((Forest.cons v kids right).places i) =
      (if v.label = ∅ then [] else [[root]]) ++
        ((if Sites.Covered ((Forest.cons v kids right).places i) ([i],v) then []
          else (Sites.remaining (kids.places 0)).map (root :: ·)) ++
        Sites.remaining (right.places (i + 1))) := by
  have rootPart : ([([i],v)].filter (Sites.Stays ((Forest.cons v kids right).places i))).map
      (Sites.line ((Forest.cons v kids right).places i)) = if v.label = ∅ then [] else [[root]] := by
    simp only [List.filter_cons,List.filter_nil,stays_root,decide_not,Bool.not_eq_true',decide_eq_false_iff_not]
    by_cases empty : v.label = ∅
    · simp [empty]
    · simp [empty,line_root,shows]
  have kidsPart : (((kids.places 0).map (under i)).filter (Sites.Stays ((Forest.cons v kids right).places i))).map
      (Sites.line ((Forest.cons v kids right).places i)) =
        if Sites.Covered ((Forest.cons v kids right).places i) ([i],v) then []
        else (Sites.remaining (kids.places 0)).map (root :: ·) := by
    rw [List.filter_map,List.map_map]
    by_cases covered : Sites.Covered ((Forest.cons v kids right).places i) ([i],v)
    · rw [if_pos covered,List.filter_eq_nil_iff.mpr,List.map_nil]
      intro n below stays
      exact ((stays_under below).mp (of_decide_eq_true stays)).1 covered
    · have chosen : (kids.places 0).filter
          ((fun n => decide (Sites.Stays ((Forest.cons v kids right).places i) n)) ∘ under i) =
            (kids.places 0).filter (Sites.Stays (kids.places 0)) :=
        List.filter_congr fun n below => decide_eq_decide.mpr ((stays_under below).trans (and_iff_right covered))
      rw [if_neg covered,Sites.remaining,List.map_map,chosen]
      refine List.map_congr_left fun n _ => ?_
      rw [Function.comp,line_under,shows]
      rfl
  have besidePart : ((right.places (i + 1)).filter (Sites.Stays ((Forest.cons v kids right).places i))).map
      (Sites.line ((Forest.cons v kids right).places i)) = Sites.remaining (right.places (i + 1)) := by
    rw [Sites.remaining,List.filter_congr fun n node => decide_eq_decide.mpr (stays_beside node)]
    exact List.map_congr_left fun n node => line_beside (List.mem_of_mem_filter node)
  rw [←rootPart,←kidsPart,←besidePart,←List.map_append,←List.filter_append,←List.map_append,←List.filter_append]
  rfl

theorem before_root : Sites.before ((Forest.cons v kids right).places i) [i] = ∅ := by
  refine NatSet.eq_empty_iff.mpr fun q held => ?_
  obtain ⟨u,other,first,_⟩ := Sites.mem_held_filter.mp held
  obtain ⟨j,p,later,place⟩ := place_cons other
  rw [place,Place.precedes_cons] at first
  rcases first with lt | ⟨_,deeper⟩
  · omega
  · exact absurd deeper Place.not_precedes_nil

theorem before_under (p : Place) : Sites.before ((Forest.cons v kids right).places i) (i :: p) =
    Sites.before (kids.places 0) p := by
  ext q
  rw [Sites.before,Sites.before,Sites.mem_held_filter,Sites.mem_held_filter]
  constructor
  · rintro ⟨u,other,first,held⟩
    rcases mem_places_cons.mp other with rfl | ⟨m,deeper,rfl⟩ | beside
    · exact absurd ((Place.precedes_cons.mp first).resolve_left (Nat.lt_irrefl i)).2 Place.not_nil_precedes
    · exact ⟨m,deeper,((Place.precedes_cons.mp first).resolve_left (Nat.lt_irrefl i)).2,held⟩
    · obtain ⟨j,r,later,place⟩ := place_cons beside
      rw [place,Place.precedes_cons] at first
      omega
  · rintro ⟨m,deeper,first,held⟩
    exact ⟨under i m,mem_places_cons.mpr (.inr (.inl ⟨m,deeper,rfl⟩)),Place.precedes_cons.mpr (.inr ⟨rfl,first⟩),held⟩

theorem before_beside (node : n ∈ right.places (i + 1)) :
    Sites.before ((Forest.cons v kids right).places i) n.1 =
      v.label ∪ kids.states ∪ Sites.before (right.places (i + 1)) n.1 := by
  obtain ⟨j,r,later,place⟩ := place_cons node
  ext q
  rw [NatSet.mem_union,NatSet.mem_union,mem_states_places kids 0,Sites.before,Sites.before,Sites.mem_held_filter,
    Sites.mem_held_filter]
  constructor
  · rintro ⟨u,other,first,held⟩
    rcases mem_places_cons.mp other with rfl | ⟨m,deeper,rfl⟩ | beside
    · exact .inl (.inl held)
    · exact .inl (.inr ⟨m,deeper,held⟩)
    · exact .inr ⟨u,beside,first,held⟩
  · have earlier (p : Place) : Place.Precedes (i :: p) n.1 := by
      rw [place,Place.precedes_cons]
      exact .inl later
    rintro ((held | ⟨m,deeper,held⟩) | ⟨u,beside,first,held⟩)
    · exact ⟨_,mem_places_cons.mpr (.inl rfl),earlier [],held⟩
    · exact ⟨under i m,mem_places_cons.mpr (.inr (.inl ⟨m,deeper,rfl⟩)),earlier m.1,held⟩
    · exact ⟨u,mem_places_cons.mpr (.inr (.inr beside)),first,held⟩

end

-- The set handed from left to right is what the nodes before a node hold.
theorem places_mergeAcross (f : Forest Vertex) : ∀ seen i, (mergeAcross f seen).1.places i =
    (f.places i).map fun n => (n.1,{n.2 with label := n.2.label \ (seen ∪ Sites.before (f.places i) n.1)}) := by
  induction f with
  | nil => intro seen i; rfl
  | cons v kids right below ih =>
    intro seen i
    have deeper := below seen 0
    have beside := ih (seen ∪ kids.states ∪ v.label) (i + 1)
    rw [mergeAcross,mergeAcross_seen,Forest.places,deeper,beside,List.map_map]
    conv_rhs => enter [2]; rw [Forest.places]
    rw [List.map_cons,List.map_append,List.map_map]
    refine congrArg₂ List.cons ?_ (congrArg₂ (· ++ ·) (List.map_congr_left ?_) (List.map_congr_left ?_))
    · rw [before_root,NatSet.union_empty]
    · intro n _
      simp only [Function.comp,Forest.under,before_under]
    · intro n node
      have states : seen ∪ kids.states ∪ v.label ∪ Sites.before (right.places (i + 1)) n.1 =
          seen ∪ (v.label ∪ kids.states ∪ Sites.before (right.places (i + 1)) n.1) := by grind
      rw [before_beside node,states]

theorem own_places (f : Forest Vertex) : Sites.own (f.places 0) = (mergeAcross f ∅).1.places 0 := by
  rw [places_mergeAcross]
  simp only [NatSet.empty_union]
  rfl

theorem remaining_empty {f : Forest Vertex} (empty : f.states = ∅) (i : Nat) :
    Sites.remaining (f.places i) = [] := by
  rw [Sites.remaining,List.filter_eq_nil_iff.mpr,List.map_nil]
  intro n node stays
  refine (of_decide_eq_true stays).1 (NatSet.eq_empty_iff.mpr fun q held => ?_)
  exact NatSet.eq_empty_iff.mp empty q ((Forest.mem_states_places f i).mpr ⟨n,node,held⟩)

-- Pruning and merging up, read off the places: the recursion on the way down finds the filled nodes with no
-- covered node above them.
theorem branches_merged_pruned (f : Forest Vertex) : f.Nested →
    ∀ i, (merged (pruned f)).branches = Sites.remaining (f.places i) := by
  induction f with
  | nil => intro _ i; rfl
  | cons v kids right below ih =>
    intro nested i
    obtain ⟨inside,kidsNested,rightNested⟩ := nested
    have states : (pruned kids).states = kids.cover := by
      rw [(nested_pruned kids kidsNested).states_eq_cover,cover_pruned]
    by_cases empty : v.label = ∅
    · have kidsEmpty : kids.states = ∅ := by
        rw [kidsNested.states_eq_cover]
        rw [empty] at inside
        grind
      rw [pruned,if_pos empty,ih rightNested (i + 1),remaining_cons rfl,if_pos empty,remaining_empty kidsEmpty]
      split <;> rfl
    · by_cases covered : kids.cover = v.label
      · have whole : Sites.Covered ((Forest.cons v kids right).places i) ([i],v) :=
          covered_root.mpr ⟨empty,covered.symm⟩
        have shows : Sites.shown ((Forest.cons v kids right).places i) ([i],v) = {v with marked := true} := by
          simp [Sites.shown,whole]
        rw [remaining_cons shows,if_neg empty,if_pos whole,pruned,if_neg empty,merged,states,if_pos covered,
          Forest.branches,ih rightNested (i + 1)]
        rfl
      · have part : ¬ Sites.Covered ((Forest.cons v kids right).places i) ([i],v) :=
          fun whole => covered (covered_root.mp whole).2.symm
        have shows : Sites.shown ((Forest.cons v kids right).places i) ([i],v) = v := by
          simp [Sites.shown,part]
        rw [remaining_cons shows,if_neg empty,if_neg part,pruned,if_neg empty,merged,states,if_neg covered,
          Forest.branches,below kidsNested 0,ih rightNested (i + 1)]
        rfl

-- The tree after a step is the only one whose nodes, in order and each with the nodes above it, are these. In
-- the tree grown by all fresh nodes a node owns the states of its new label that no node before it holds; a node
-- stays if it owns a state and no node above it is covered, that is, owns just what its kids own together. It
-- shows what it owns, with a mark if it is fresh or covered.
theorem step_closedForm {A : Automaton} {a : Nat} {m : Method} {t u : Tree} (nested : t.forest.Nested)
    (named : t.names ⊆ t.used) (ran : m.step A a t = .ok u) (f : Forest Vertex) :
    u.forest = f ↔ f.branches =
      Sites.remaining (Sites.own ((sprouted A a (Nat.nth (· ∉ t.used)) t.forest 0).places 0)) := by
  obtain ⟨root,used⟩ := t
  have free : Nat.nth (· ∉ used) = used.absent := funext fun k => (used.absent_eq_nth k).symm
  have same : m.step A a ⟨root,used⟩ = Method.byRule.step A a ⟨root,used⟩ :=
    (step_eq_grown nested named m).trans (step_eq_grown nested named .byRule).symm
  have branches : u.forest.branches =
      Sites.remaining (Sites.own ((sprouted A a used.absent (Tree.mk root used).forest 0).places 0)) := by
    cases root with
    | none =>
      cases same.symm.trans ran
      rfl
    | some r =>
      rcases step_turns A a .byRule r used with ⟨_,_,_,_,failed⟩ | ⟨-,grows⟩
      · cases (same.trans failed).symm.trans ran
      · obtain ⟨u',_,done,forest,-⟩ := step_ok .byRule grows
        cases done.symm.trans (same.symm.trans ran)
        have nestedAfter := nested_mergeAcross _ (grows.nested (nested_advance nested)) ∅
        rw [forest,Method.reduce,branches_merged_pruned _ nestedAfter 0,own_places]
        rfl
  rw [free,←branches]
  exact ⟨fun eq => eq ▸ rfl,fun eq => (Forest.branches_inj eq).symm⟩

example : Sites.remaining (Sites.own ((sprouted .guess 1 tangled.used.absent tangled.forest 0).places 0)) =
    [[⟨0,.ofList [0,1],false⟩],[⟨0,.ofList [0,1],false⟩,⟨1,.ofList [1],true⟩]] := by
  decide +kernel

theorem step_closedForm_tangled :
    tangled.forest.Nested ∧ tangled.names ⊆ tangled.used ∧
      ∃ u, Method.fused.step .guess 1 tangled = .ok u ∧ u.size = 2 ∧ ∀ f, u.forest = f ↔ f.branches =
        Sites.remaining
          (Sites.own ((sprouted .guess 1 (Nat.nth (· ∉ tangled.used)) tangled.forest 0).places 0)) :=
  ⟨by decide +kernel,by decide +kernel,
    ⟨some ⟨⟨0,.ofList [0,1],false⟩,.cons ⟨1,.ofList [1],true⟩ .nil .nil⟩,.ofList [0,9]⟩,
    by decide +kernel,rfl,
    step_closedForm (m := .fused) (a := 1) (by decide +kernel) (by decide +kernel) (by decide +kernel)⟩

end BuchiToRabin.Step
