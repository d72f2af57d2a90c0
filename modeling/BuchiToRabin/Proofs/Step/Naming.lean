import BuchiToRabin.Proofs.NatSet.Absent
import BuchiToRabin.Proofs.Tree.Places
namespace BuchiToRabin

namespace Method

-- What each method makes of a tree with all fresh nodes put in. Names play no part.
def reduce (A : Automaton) (g : Forest Vertex) : Method → Forest Vertex
  | .fused => (Step.claim g (.full A.stateCount)).1
  | .byRule => Step.merged (Step.pruned (Step.mergeAcross g ∅).1)

end Method

namespace Step

variable {A : Automaton} {a : Nat} {used : NatSet} {r : Node}

-- Where there are names for all fresh nodes, a step succeeds, whatever the tree. It drops nodes of the tree
-- with the fresh ones put in, and which ones does not depend on names.
theorem step_ok (m : Method) {g : Forest Vertex} {after : NatSet}
    (grows : Grows A (advance A a r.forest) used g after) :
    ∃ u lost, m.step A a ⟨some r,used⟩ = .ok u ∧ u.forest = m.reduce A g ∧ Trims g u.forest lost ∧
      (r.names ⊆ used → u.used = after \ lost) := by
  cases m with
  | fused =>
    obtain ⟨q,ran,-,-,freed⟩ := visit_exact (p := ⟨used,used,.full A.stateCount⟩) grows
    have trims := trims_claim g (.full A.stateCount)
    have forest := forest_ofForest grows trims q.used
    have done : fused A a ⟨some r,used⟩ = .ok (.ofForest (claim g (.full A.stateCount)).1 q.used) := by
      show (visit A a r.forest _ >>= _) = _
      rw [ran]
      rfl
    refine ⟨_,_,done,forest,by rwa [forest],?_⟩
    intro named
    have all : used ∪ (after \ used) = after := by
      have := grows.used_subset
      grind
    rw [Tree.used_ofForest,freed named (fun _ present => present),all]
  | byRule =>
    have trims := ((trims_mergeAcross g ∅).trans (trims_pruned _)).trans (trims_merged _)
    have forest := forest_ofForest grows trims
    have ran : byRule A a ⟨some r,used⟩ = .ok (.ofForest (merged (pruned (mergeAcross g ∅).1))
        ((after \ prunedNames (mergeAcross g ∅).1) \ mergedNames (pruned (mergeAcross g ∅).1))) := by
      show (create A (advance A a r.forest) used >>= _) = _
      rw [(create_exact _).mpr grows,ok_bind]
      simp only [prune_eq,mergeUp_eq]
      rfl
    refine ⟨_,_,ran,forest _,by rwa [forest],?_⟩
    intro _
    rw [Tree.used_ofForest]
    grind

theorem step_error (m : Method) {e : Exhausted} (failed : create A (advance A a r.forest) used = .error e) :
    m.step A a ⟨some r,used⟩ = .error e := by
  cases m with
  | fused =>
    show (visit A a r.forest _ >>= _) = _
    rw [visit_error (p := ⟨used,used,.full A.stateCount⟩) r.forest failed]
    rfl
  | byRule =>
    show (create A (advance A a r.forest) used >>= _) = _
    rw [failed]
    rfl

def fertile (A : Automaton) (a : Nat) (v : Vertex) : Bool := A.post a v.label ∩ A.finals ≠ ∅

def births (A : Automaton) (a : Nat) (f : Forest Vertex) : Nat := f.preorder.countP (fertile A a)

-- All labels moved on and every fresh kid in its place, last below its parent. Parents take their turns in
-- pre-order: the kid of the parent at turn `k` gets `name k`, whatever comes of either.
def sprouted (A : Automaton) (a : Nat) (name : Nat → Name) : Forest Vertex → Nat → Forest Vertex
  | .nil,_ => .nil
  | .cons v kids right,k =>
    let target := A.post a v.label
    let fresh := if fertile A a v then some ⟨name k,target ∩ A.finals,true⟩ else none
    let next := k + (fertile A a v).toNat
    .cons ⟨v.name,target,false⟩ (sprouted A a name kids next ++ kid fresh)
      (sprouted A a name right (next + births A a kids))

theorem count_cons (v : Vertex) (vs : List Vertex) :
    (v :: vs).countP (fertile A a) = (fertile A a v).toNat + vs.countP (fertile A a) := by
  rw [List.countP_cons,Nat.add_comm]
  cases fertile A a v <;> rfl

theorem births_cons (v : Vertex) (kids right : Forest Vertex) : births A a (.cons v kids right) =
    (fertile A a v).toNat + births A a kids + births A a right := by
  rw [births,Forest.preorder,count_cons,List.countP_append,Nat.add_assoc]
  rfl

-- The turns are those in pre-order: a node comes after as many as there are fertile nodes before it.
theorem sprouted_gives (name : Nat → Name) (f : Forest Vertex) :
    ∀ {k i} {before after : List (Place × Vertex)} {n : Place × Vertex},
      f.places i = before ++ n :: after → fertile A a n.2 = true → ∃ j,
        (n.1 ++ [j],Vertex.mk (name (k + (before.map Prod.snd).countP (fertile A a)))
          (A.post a n.2.label ∩ A.finals) true) ∈ (sprouted A a name f k).places i := by
  induction f with
  | nil => intro k i before after n split; simp [Forest.places] at split
  | cons v kids right below ih =>
    intro k i before after n split turn
    rw [sprouted]
    rcases Forest.places_cons_split split with ⟨rfl,rfl⟩ | ⟨first,m,rest,whole,rfl,rfl⟩ | ⟨first,whole,rfl⟩
    · rw [if_pos turn]
      obtain ⟨j,last⟩ := Forest.mem_places_last (sprouted A a name kids (k + (fertile A a v).toNat))
        ⟨name k,A.post a v.label ∩ A.finals,true⟩ 0
      exact ⟨j,Forest.mem_places_cons.mpr (.inr (.inl ⟨_,last,rfl⟩))⟩
    · obtain ⟨j,given⟩ := below (k := k + (fertile A a v).toNat) whole turn
      have vertices : (first.map (Forest.under i)).map Prod.snd = first.map Prod.snd := List.map_map
      rw [List.map_cons,vertices,count_cons,←Nat.add_assoc]
      exact ⟨j,Forest.mem_places_cons.mpr (.inr (.inl ⟨_,Forest.mem_places_append given _,rfl⟩))⟩
    · obtain ⟨j,given⟩ := ih (k := k + (fertile A a v).toNat + births A a kids) whole turn
      have vertices : ((kids.places 0).map (Forest.under i)).map Prod.snd = kids.preorder := by
        rw [←Forest.places_preorder kids 0]
        exact List.map_map
      rw [List.map_cons,List.map_append,vertices,count_cons,List.countP_append,←Nat.add_assoc,←Nat.add_assoc]
      exact ⟨j,Forest.mem_places_cons.mpr (.inr (.inr given))⟩

theorem bud_fertile {v : Vertex} (turn : fertile A a v = true) (k : Nat) :
    bud A (A.post a v.label) (used.takeAbsent k) =
      if used.absent k < A.nameCount then
        .ok (some ⟨used.absent k,A.post a v.label ∩ A.finals,true⟩,used.takeAbsent (k + 1))
      else .error ⟨A.nameCount,used.takeAbsent k⟩ := by
  have meets : A.post a v.label ∩ A.finals ≠ ∅ := by simpa [fertile] using turn
  rw [bud,if_neg meets,Name.allocate,NatSet.firstAbsent_takeAbsent,NatSet.takeAbsent_succ]
  split <;> rfl

theorem bud_turn {v : Vertex} {k : Nat} (room : fertile A a v = true → used.absent k < A.nameCount) :
    bud A (A.post a v.label) (used.takeAbsent k) =
      .ok (if fertile A a v then some ⟨used.absent k,A.post a v.label ∩ A.finals,true⟩ else none,
        used.takeAbsent (k + (fertile A a v).toNat)) := by
  cases turn : fertile A a v with
  | false => exact if_pos (by simpa [fertile] using turn)
  | true =>
    rw [bud_fertile turn]
    exact if_pos (room turn)

-- The names given so far are the first absent ones, all along the way.
theorem create_sprouted (f : Forest Vertex) : ∀ {k},
    (∀ j, k ≤ j → j < k + births A a f → used.absent j < A.nameCount) →
      create A (advance A a f) (used.takeAbsent k) =
        .ok (sprouted A a used.absent f k,used.takeAbsent (k + births A a f)) := by
  induction f with
  | nil => intro k _; rfl
  | cons v kids right below ih =>
    intro k room
    rw [births_cons] at room
    have first := bud_turn (v := v) fun turn => room k (Nat.le_refl k) (by rw [turn,Bool.toNat_true]; omega)
    have second := below (k := k + (fertile A a v).toNat) fun j low high => room j (by omega) (by omega)
    have third := ih (k := k + (fertile A a v).toNat + births A a kids)
      fun j low high => room j (by omega) (by omega)
    rw [births_cons,←Nat.add_assoc,←Nat.add_assoc]
    simp only [advance_cons,create_cons,first,second,third,ok_bind,pure_eq_ok,sprouted]

-- Free are 3, 5, 6 and 7. The root takes the first for its kid, which stands last.
example : (sprouted .guess 1 tangled.used.absent tangled.forest 0).nameList = [0,1,2,6,5,1,7,4,3] := by
  decide +kernel

-- Names run out at the first turn whose name is out of range.
theorem create_exhausted (f : Forest Vertex) : ∀ {k j}, k ≤ j → j < k + births A a f →
    (∀ i, k ≤ i → i < j → used.absent i < A.nameCount) → A.nameCount ≤ used.absent j →
      create A (advance A a f) (used.takeAbsent k) = .error ⟨A.nameCount,used.takeAbsent j⟩ := by
  induction f with
  | nil => intro k j low high; exact absurd high (Nat.not_lt_of_le low)
  | cons v kids right below ih =>
    intro k j low high room out
    rw [births_cons] at high
    rw [advance_cons,create_cons]
    by_cases own : fertile A a v = true ∧ k = j
    · obtain ⟨turn,rfl⟩ := own
      rw [bud_fertile turn,if_neg (Nat.not_lt_of_le out)]
      rfl
    · have next : k + (fertile A a v).toNat ≤ j := by
        cases turn : fertile A a v with
        | false => exact low
        | true => exact Nat.lt_of_le_of_ne low fun same => own ⟨turn,same⟩
      have first := bud_turn (v := v) fun turn => room k (Nat.le_refl k) (by rw [turn] at next; exact next)
      rw [first,ok_bind]
      by_cases here : j < k + (fertile A a v).toNat + births A a kids
      · have second := below next here (fun i from' before => room i (by omega) before) out
        simp only [second,error_bind]
      · have second := create_sprouted (a := a) kids (k := k + (fertile A a v).toNat)
          fun i from' before => room i (by omega) (by omega)
        have third := ih (Nat.le_of_not_lt here) (by omega) (fun i from' before => room i (by omega) before) out
        simp only [second,third,ok_bind,error_bind]

-- A step fails at the first turn whose name is out of range, whatever the tree and the method; without such a
-- turn all fresh nodes get their names.
theorem step_turns (A : Automaton) (a : Nat) (m : Method) (r : Node) (used : NatSet) :
    (∃ k < births A a r.forest, A.nameCount ≤ used.absent k ∧ (∀ j < k, used.absent j < A.nameCount) ∧
      m.step A a ⟨some r,used⟩ = .error ⟨A.nameCount,used.takeAbsent k⟩) ∨
    (∀ k < births A a r.forest, used.absent k < A.nameCount) ∧
      Grows A (advance A a r.forest) used (sprouted A a used.absent r.forest 0)
        (used.takeAbsent (births A a r.forest)) := by
  have start := used.takeAbsent_zero
  by_cases fits : ∀ k < births A a r.forest, used.absent k < A.nameCount
  · have created : create A (advance A a r.forest) (used.takeAbsent 0) = _ :=
      create_sprouted r.forest fun j _ before => fits j (by omega)
    rw [start,Nat.zero_add] at created
    exact .inr ⟨fits,(create_exact _).mp created⟩
  · push Not at fits
    obtain ⟨below,out⟩ := Nat.find_spec fits
    have earlier : ∀ j < Nat.find fits, used.absent j < A.nameCount := by
      intro j early
      by_contra late
      exact Nat.find_min fits early ⟨Nat.lt_trans early below,Nat.le_of_not_lt late⟩
    have created : create A (advance A a r.forest) (used.takeAbsent 0) = _ :=
      create_exhausted r.forest (Nat.zero_le (Nat.find fits)) (by omega) (fun i _ before => earlier i before) out
    rw [start] at created
    exact .inl ⟨_,below,out,earlier,step_error m created⟩

-- Fresh kids get the free names in ascending order, their parents in pre-order, and a step fails at the first
-- turn whose name is out of range. What is left in the end comes from the tree with all fresh kids put in:
-- whatever is dropped, also a parent or the kid itself, no other kid's name depends on it.
structure Names (A : Automaton) (a : Nat) (m : Method) (r : Node) (used : NatSet) : Prop where
  gives : ∀ before n after, r.forest.places 0 = before ++ n :: after → fertile A a n.2 = true → ∃ j,
    (n.1 ++ [j],Vertex.mk (Nat.nth (· ∉ used) ((before.map Prod.snd).countP (fertile A a)))
      (A.post a n.2.label ∩ A.finals) true) ∈ (sprouted A a (Nat.nth (· ∉ used)) r.forest 0).places 0
  leaves : ∀ u, Machine.step m A a ⟨some r,used⟩ = .ok u →
    u.forest = m.reduce A (sprouted A a (Nat.nth (· ∉ used)) r.forest 0) ∧
    ∃ lost, Trims (sprouted A a (Nat.nth (· ∉ used)) r.forest 0) u.forest lost
  fails : (∃ f, Machine.step m A a ⟨some r,used⟩ = .error f) ↔
    ∃ k < births A a r.forest, 2 * A.stateCount ≤ Nat.nth (· ∉ used) k
  reports : ∀ f, Machine.step m A a ⟨some r,used⟩ = .error f → ∃ k < births A a r.forest,
    2 * A.stateCount ≤ Nat.nth (· ∉ used) k ∧ (∀ j < k, Nat.nth (· ∉ used) j < 2 * A.stateCount) ∧
    f = .exhausted ⟨2 * A.stateCount,used ∪ .ofList ((List.range k).map (Nat.nth (· ∉ used)))⟩ ∧
    f.message = "Name universe of size " ++ (2 * A.stateCount).repr ++ " is exhausted: " ++
      (used ∪ .ofList ((List.range k).map (Nat.nth (· ∉ used)))).render

theorem step_names (A : Automaton) (small : A.stateCount < 2 ^ 31) (a : Nat) (m : Method) (r : Node)
    (used : NatSet) : Names A a m r used := by
  have free : Nat.nth (· ∉ used) = used.absent := funext fun k => (used.absent_eq_nth k).symm
  have gives : ∀ before n after, r.forest.places 0 = before ++ n :: after → fertile A a n.2 = true → ∃ j,
      (n.1 ++ [j],Vertex.mk (Nat.nth (· ∉ used) ((before.map Prod.snd).countP (fertile A a)))
        (A.post a n.2.label ∩ A.finals) true) ∈ (sprouted A a (Nat.nth (· ∉ used)) r.forest 0).places 0 := by
    intro before n after split turn
    obtain ⟨j,given⟩ := sprouted_gives (Nat.nth (· ∉ used)) r.forest (k := 0) split turn
    rw [Nat.zero_add] at given
    exact ⟨j,given⟩
  have plain := Machine.step_eq small m a ⟨some r,used⟩
  rcases step_turns A a m r used with ⟨k,below,out,earlier,failed⟩ | ⟨fits,grows⟩
  · have taken : used.takeAbsent k = used ∪ .ofList ((List.range k).map (Nat.nth (· ∉ used))) := by rw [free]; rfl
    rw [←free] at out earlier
    rw [failed,taken] at plain
    refine ⟨gives,?_,⟨fun _ => ⟨k,below,out⟩,fun _ => ⟨_,plain⟩⟩,?_⟩
    · intro u ran
      cases plain.symm.trans ran
    · intro f ran
      cases plain.symm.trans ran
      exact ⟨k,below,out,earlier,rfl,rfl⟩
  · obtain ⟨u,lost,ran,forest,trims,-⟩ := step_ok m grows
    rw [←free] at fits forest trims
    rw [ran] at plain
    refine ⟨gives,?_,⟨?_,?_⟩,?_⟩
    · intro u' same
      cases plain.symm.trans same
      exact ⟨forest,lost,trims⟩
    · rintro ⟨f,failed⟩
      cases plain.symm.trans failed
    · rintro ⟨k,below,out⟩
      exact absurd (fits k below) (Nat.not_lt_of_le out)
    · intro f failed
      cases plain.symm.trans failed

theorem step_names_guess : Automaton.guess.stateCount < 2 ^ 31 ∧
    Names .guess 1 .byRule ⟨⟨0,.ofList [0,1,2],true⟩,.cons ⟨3,.ofList [1],false⟩ .nil .nil⟩ (.ofList [0,1,3]) :=
  ⟨by decide,step_names .guess (by decide) 1 .byRule _ _⟩

-- The name 1 is free and small enough, and yet the step fails.
theorem step_names_crammed : ¬ ∀ (A : Automaton) (a : Nat) (m : Method) (r : Node) (used : NatSet),
    Names A a m r used := by
  intro all
  have failed : Machine.step .byRule crammed 1 ⟨some (.leaf ⟨0,.ofList [0],false⟩),.ofList [0]⟩ =
      .error (.exhausted ⟨0,.ofList [0]⟩) := by decide +kernel
  obtain ⟨k,below,out⟩ := (all crammed 1 .byRule (.leaf ⟨0,.ofList [0],false⟩) (.ofList [0])).fails.mp ⟨_,failed⟩
  have turns : births crammed 1 (Node.leaf ⟨0,.ofList [0],false⟩).forest = 1 := by decide +kernel
  obtain rfl : k = 0 := by omega
  rw [←NatSet.absent_eq_nth] at out
  exact absurd out (by decide +kernel)

end Step
end BuchiToRabin
