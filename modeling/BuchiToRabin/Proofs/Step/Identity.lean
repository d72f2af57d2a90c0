import BuchiToRabin.Proofs.Step.Accounting
import BuchiToRabin.Proofs.Tree.Kin
namespace BuchiToRabin

-- Nodes go, and marks are put on but not taken off.
def Brightens (f g : Forest Vertex) : Prop :=
  ∀ w ∈ g.preorder, ∃ v ∈ f.preorder, v.name = w.name ∧ (v.marked = true → w.marked = true)

namespace Brightens

variable {f g h kids right deeper rest : Forest Vertex} {v w : Vertex}

theorem all (f : Forest Vertex) : Brightens f .nil := fun _ node => absurd node List.not_mem_nil

theorem drop (beside : Brightens right rest) : Brightens (.cons v kids right) rest := by
  intro w node
  obtain ⟨u,before,kept⟩ := beside w node
  exact ⟨u,by simp [Forest.preorder,before],kept⟩

theorem keep (name : w.name = v.name) (mark : v.marked = true → w.marked = true) (below : Brightens kids deeper)
    (beside : Brightens right rest) : Brightens (.cons v kids right) (.cons w deeper rest) := by
  intro u node
  simp only [Forest.preorder,List.mem_cons,List.mem_append] at node
  rcases node with rfl | node | node
  · exact ⟨v,by simp [Forest.preorder],name.symm,mark⟩
  · obtain ⟨x,before,kept⟩ := below u node
    exact ⟨x,by simp [Forest.preorder,before],kept⟩
  · exact drop beside u node

theorem trans (first : Brightens f g) (second : Brightens g h) : Brightens f h := by
  intro w node
  obtain ⟨v,between,sameName,mark⟩ := second w node
  obtain ⟨u,before,name,earlier⟩ := first v between
  exact ⟨u,before,name.trans sameName,fun marked => mark (earlier marked)⟩

end Brightens

def Filled (f : Forest Vertex) : Prop := ∀ v ∈ f.preorder, v.label ≠ ∅

namespace Filled

variable {kids right : Forest Vertex} {v : Vertex}

theorem nil : Filled .nil := fun _ node => absurd node List.not_mem_nil

theorem cons_iff : Filled (.cons v kids right) ↔ v.label ≠ ∅ ∧ Filled kids ∧ Filled right := by
  unfold Filled
  simp only [Forest.preorder,List.mem_cons,List.mem_append,or_imp,forall_and,forall_eq]

end Filled

namespace Step

variable {A : Automaton} {a : Nat}

theorem brightens_claim (f : Forest Vertex) : ∀ unseen, Brightens f (claim f unseen).1 := by
  induction f with
  | nil => intro unseen; exact .all _
  | cons v kids right below ih =>
    intro unseen
    by_cases gone : v.label ∩ unseen = ∅
    · rw [claim_gone gone]
      exact .drop (ih unseen)
    · by_cases all : unseen.card - (claim kids unseen).2.card = (v.label ∩ unseen).card
      · rw [claim_covered gone all]
        exact .keep rfl (fun _ => rfl) (.all kids) (ih _)
      · rw [claim_open gone all]
        exact .keep rfl id (below unseen) (ih _)

theorem brightens_mergeAcross (f : Forest Vertex) : ∀ seen, Brightens f (mergeAcross f seen).1 := by
  induction f with
  | nil => intro seen; exact .all _
  | cons v kids right below ih => intro seen; exact .keep rfl id (below seen) (ih _)

theorem brightens_pruned (f : Forest Vertex) : Brightens f (pruned f) := by
  induction f with
  | nil => exact .all _
  | cons v kids right below ih =>
    unfold pruned
    split
    · exact .drop ih
    · exact .keep rfl id below ih

theorem brightens_merged (f : Forest Vertex) : Brightens f (merged f) := by
  induction f with
  | nil => exact .all _
  | cons v kids right below ih =>
    unfold merged
    split
    · exact .keep rfl (fun _ => rfl) (.all kids) ih
    · exact .keep rfl id below ih

theorem filled_claim (f : Forest Vertex) : ∀ unseen, Filled (claim f unseen).1 := by
  induction f with
  | nil => intro unseen; exact .nil
  | cons v kids right below ih =>
    intro unseen
    by_cases gone : v.label ∩ unseen = ∅
    · rw [claim_gone gone]
      exact ih unseen
    · by_cases all : unseen.card - (claim kids unseen).2.card = (v.label ∩ unseen).card
      · rw [claim_covered gone all]
        exact Filled.cons_iff.mpr ⟨gone,.nil,ih _⟩
      · rw [claim_open gone all]
        exact Filled.cons_iff.mpr ⟨gone,below unseen,ih _⟩

theorem filled_pruned (f : Forest Vertex) : Filled (pruned f) := by
  induction f with
  | nil => exact .nil
  | cons v kids right below ih =>
    unfold pruned
    split
    · exact ih
    · rename_i holds
      exact Filled.cons_iff.mpr ⟨holds,below,ih⟩

theorem filled_merged {f : Forest Vertex} (filled : Filled f) : Filled (merged f) := by
  induction f with
  | nil => exact .nil
  | cons v kids right below ih =>
    obtain ⟨holds,kidsFilled,rightFilled⟩ := Filled.cons_iff.mp filled
    unfold merged
    split
    · exact Filled.cons_iff.mpr ⟨holds,.nil,ih rightFilled⟩
    · exact Filled.cons_iff.mpr ⟨holds,below kidsFilled,ih rightFilled⟩

theorem brightens_reduce (m : Method) (A : Automaton) (g : Forest Vertex) : Brightens g (m.reduce A g) := by
  cases m with
  | fused => exact brightens_claim g _
  | byRule => exact ((brightens_mergeAcross g ∅).trans (brightens_pruned _)).trans (brightens_merged _)

theorem filled_reduce (m : Method) (A : Automaton) (g : Forest Vertex) : Filled (m.reduce A g) := by
  cases m with
  | fused => exact filled_claim g _
  | byRule => exact filled_merged (filled_pruned _)

theorem kin_advance (f : Forest Vertex) : ∀ {p k}, k ∈ (advance A a f).kin p → ∃ l ∈ f.kin p,
    k.node.name = l.node.name ∧ k.parent = l.parent ∧ k.node.label = A.post a l.node.label ∧ k.kids = l.kids := by
  have roots (f : Forest Vertex) : (advance A a f).rootNames = f.rootNames := by
    induction f with
    | nil => rfl
    | cons v kids right _ ih => rw [advance_cons,Forest.rootNames,Forest.rootNames,ih]
  induction f with
  | nil => intro p k node; cases node
  | cons v kids right below ih =>
    intro p k node
    rw [advance_cons] at node
    rcases Forest.mem_kin_cons.mp node with rfl | node | node
    · exact ⟨_,Forest.mem_kin_cons.mpr (.inl rfl),rfl,rfl,rfl,roots kids⟩
    · obtain ⟨l,deeper,moved⟩ := below node
      exact ⟨l,Forest.mem_kin_cons.mpr (.inr (.inl deeper)),moved⟩
    · obtain ⟨l,beside,moved⟩ := ih node
      exact ⟨l,Forest.mem_kin_cons.mpr (.inr (.inr beside)),moved⟩

theorem Buds.kin_kid {label used named : NatSet} {fresh : Option Vertex} {p : Option Name} {k : Kin}
    (buds : Buds A label used fresh named) (node : k ∈ (kid fresh).kin p) : k.parent = p ∧ k.node.name ∉ used ∧
      k.node.marked = true ∧ k.kids = [] ∧ k.node.label = label ∩ A.finals := by
  cases buds with
  | rest apart => cases node
  | grow meets free =>
    rcases Forest.mem_kin_cons.mp node with rfl | node | node
    · exact ⟨rfl,used.firstAbsent_not_mem,rfl,rfl,rfl⟩
    · cases node
    · cases node

theorem Buds.rootNames_kid {label used named : NatSet} {fresh : Option Vertex}
    (buds : Buds A label used fresh named) : (kid fresh).rootNames.length ≤ 1 ∧ ∀ x ∈ (kid fresh).rootNames, x ∉ used := by
  cases buds with
  | rest apart => exact ⟨Nat.zero_le 1,nofun⟩
  | grow meets free =>
    refine ⟨Nat.le_refl 1,fun x root => ?_⟩
    obtain rfl := List.mem_singleton.mp root
    exact used.firstAbsent_not_mem

-- Growing leaves every node where it is and puts new ones last.
theorem Grows.kin {f g : Forest Vertex} {used after : NatSet} (grows : Grows A f used g after) :
    ∀ {p k}, k ∈ g.kin p →
      (∃ l ∈ f.kin p, k.node = l.node ∧ k.parent = l.parent ∧
        ∃ new, k.kids = l.kids ++ new ∧ new.length ≤ 1 ∧ ∀ x ∈ new, x ∉ used) ∨
      k.node.name ∉ used ∧ k.node.marked = true ∧ k.kids = [] ∧
        ∃ l ∈ f.kin p, k.parent = some l.node.name ∧ k.node.label = l.node.label ∩ A.finals := by
  have roots {f g : Forest Vertex} {used after : NatSet} (grows : Grows A f used g after) :
      g.rootNames = f.rootNames := by
    induction grows with
    | nil => rfl
    | cons _ _ _ _ ih => rw [Forest.rootNames,Forest.rootNames,ih]
  induction grows with
  | nil => intro p k node; cases node
  | cons first second third below beside =>
    rename_i v _ _ _ kids _ _ right _ _
    intro p k node
    rcases Forest.mem_kin_cons.mp node with rfl | node | node
    · obtain ⟨few,new⟩ := first.rootNames_kid
      refine .inl ⟨_,Forest.mem_kin_cons.mpr (.inl rfl),rfl,rfl,_,?_,few,new⟩
      rw [Forest.rootNames_append,roots second]
    · rw [Forest.kin_append,List.mem_append] at node
      rcases node with node | node
      · rcases below node with ⟨l,deeper,same,parent,new,kids,few,fresh⟩ | ⟨fresh,marked,leaf,l,deeper,given⟩
        · exact .inl ⟨l,Forest.mem_kin_cons.mpr (.inr (.inl deeper)),same,parent,new,kids,few,
            fun x listed present => fresh x listed (first.used_subset x present)⟩
        · exact .inr ⟨fun present => fresh (first.used_subset _ present),marked,leaf,l,
            Forest.mem_kin_cons.mpr (.inr (.inl deeper)),given⟩
      · obtain ⟨parent,fresh,marked,leaf,label⟩ := first.kin_kid node
        exact .inr ⟨fresh,marked,leaf,_,Forest.mem_kin_cons.mpr (.inl rfl),parent,label⟩
    · have grow := fun x present => second.used_subset x (first.used_subset x present)
      rcases beside node with ⟨l,further,same,parent,new,kids,few,fresh⟩ | ⟨fresh,marked,leaf,l,further,given⟩
      · exact .inl ⟨l,Forest.mem_kin_cons.mpr (.inr (.inr further)),same,parent,new,kids,few,
          fun x listed present => fresh x listed (grow x present)⟩
      · exact .inr ⟨fun present => fresh (grow _ present),marked,leaf,l,
          Forest.mem_kin_cons.mpr (.inr (.inr further)),given⟩

-- What a step makes of nodes, told by their names. A node of before keeps its parent or stays a root, and those
-- of its kids that stay keep their order; one new kid at most stands behind them, a marked leaf.
structure Identifies (A : Automaton) (a : Nat) (f g : Forest Vertex) : Prop where
  distinct : g.nameList.Nodup
  stays : ∀ k ∈ g.kin none, k.node.name ∈ f.names → ∃ l ∈ f.kin none, l.node.name = k.node.name ∧
    l.parent = k.parent ∧ k.node.label ≠ ∅ ∧ k.node.label ⊆ A.post a l.node.label ∧
    ∃ old new, k.kids = old ++ new ∧ old.Sublist l.kids ∧ new.length ≤ 1 ∧ ∀ x ∈ new, x ∉ f.names
  comes : ∀ k ∈ g.kin none, k.node.name ∉ f.names → k.node.marked = true ∧ k.kids = [] ∧
    ∃ l ∈ f.kin none, k.parent = some l.node.name ∧ k.node.label ≠ ∅ ∧
      k.node.label ⊆ A.finals ∩ A.post a l.node.label ∧
      ∃ j ∈ g.kin none, j.node.name = l.node.name ∧ ∃ old, j.kids = old ++ [k.node.name] ∧ ∀ x ∈ old, x ∈ f.names

theorem identifies_dead (A : Automaton) (a : Nat) (f : Forest Vertex) : Identifies A a f .nil :=
  ⟨.nil,nofun,nofun⟩

section
variable {r : Node} {used after lost : NatSet} {g h : Forest Vertex}

-- Where a node of the tree that is left stands in the tree with all fresh nodes, and how much of it is left.
structure Remains (g h : Forest Vertex) (k l : Kin) : Prop where
  name : k.node.name = l.node.name
  parent : k.parent = l.parent
  label : k.node.label ⊆ l.node.label
  kids : k.kids.Sublist l.kids
  mark : l.node.marked = true → k.node.marked = true
  filled : k.node.label ≠ ∅

theorem exists_remains (trims : Trims g h lost) (brightens : Brightens g h) (filled : Filled h)
    (distinct : g.nameList.Nodup) {k : Kin} (node : k ∈ h.kin none) : ∃ l ∈ g.kin none, Remains g h k l := by
  have listed : k.node ∈ h.preorder := Forest.kin_node_mem node
  obtain ⟨l,before,name,parent,label,kids⟩ := trims.kin node
  obtain ⟨v,source,same,mark⟩ := brightens k.node listed
  -- Names tell nodes apart, so the two ways back lead to the same one.
  have one : v = l.node := List.inj_on_of_nodup_map distinct source (Forest.kin_node_mem before) (same.trans name)
  exact ⟨l,before,name,parent,label,kids,one ▸ mark,filled k.node listed⟩

theorem Remains.stays (grows : Grows A (advance A a r.forest) used g after) (named : r.names ⊆ used) {k l : Kin}
    (node : l ∈ g.kin none) (left : Remains g h k l) (old : k.node.name ∈ r.names) :
    ∃ l ∈ r.forest.kin none, l.node.name = k.node.name ∧ l.parent = k.parent ∧ k.node.label ≠ ∅ ∧
      k.node.label ⊆ A.post a l.node.label ∧
      ∃ old new, k.kids = old ++ new ∧ old.Sublist l.kids ∧ new.length ≤ 1 ∧ ∀ x ∈ new, x ∉ r.names := by
  rcases grows.kin node with ⟨m,advanced,same,parent,new,kids,few,fresh⟩ | ⟨fresh,-⟩
  · obtain ⟨o,before,name,parent',label,kids'⟩ := kin_advance r.forest advanced
    have sub := left.kids
    rw [kids,kids'] at sub
    obtain ⟨stay,come,whole,stays,comes⟩ := List.sublist_append_iff.mp sub
    have within := left.label
    rw [same,label] at within
    refine ⟨o,before,?_,?_,left.filled,within,stay,come,whole,stays,?_,?_⟩
    · rw [left.name,same,name]
    · rw [left.parent,parent,parent']
    · exact Nat.le_trans comes.length_le few
    · exact fun x listed present => fresh x (comes.subset listed) (named x present)
  · rw [left.name] at old
    exact absurd (named _ old) fresh

theorem Remains.comes (grows : Grows A (advance A a r.forest) used g after) {k l : Kin} (node : l ∈ g.kin none)
    (left : Remains g h k l) (new : k.node.name ∉ r.names) : k.node.marked = true ∧ k.kids = [] ∧
      ∃ l ∈ r.forest.kin none, k.parent = some l.node.name ∧ k.node.label ≠ ∅ ∧
        k.node.label ⊆ A.finals ∩ A.post a l.node.label := by
  rcases grows.kin node with ⟨m,advanced,same,-⟩ | ⟨-,marked,leaf,m,advanced,parent,label⟩
  · obtain ⟨o,before,name,-⟩ := kin_advance r.forest advanced
    rw [left.name,same,name] at new
    exact absurd (Forest.kin_name_mem before) new
  · obtain ⟨o,before,name,-,moved,-⟩ := kin_advance r.forest advanced
    have none := left.kids
    rw [leaf,List.sublist_nil] at none
    have within := left.label
    rw [label,moved] at within
    refine ⟨left.mark marked,none,o,before,?_,left.filled,by grind⟩
    rw [left.parent,parent,name]

-- A kid with a new name is the one kid behind those of before.
theorem new_last {x : Name} {names : NatSet} {old new : List Name} (listed : x ∈ old ++ new) (few : new.length ≤ 1)
    (olds : ∀ y ∈ old, y ∈ names) (fresh : x ∉ names) : new = [x] := by
  rcases List.mem_append.mp listed with early | late
  · exact absurd (olds x early) fresh
  · have one : new.length = 1 := Nat.le_antisymm few (List.length_pos_of_mem late)
    obtain ⟨y,rfl⟩ := List.length_eq_one_iff.mp one
    rw [List.mem_singleton.mp late]

-- Whatever goes, a name stands for the same node before and after a step. Labels are any, and names in use
-- may belong to no node.
theorem step_identifies (A : Automaton) (small : A.stateCount < 2 ^ 31) (a : Nat) (m : Method) (t : Tree)
    (distinct : t.forest.nameList.Nodup) (named : t.names ⊆ t.used) {u : Tree}
    (ran : Machine.step m A a t = .ok u) : Identifies A a t.forest u.forest := by
  rw [Machine.step_eq_ok small] at ran
  obtain ⟨root,used⟩ := t
  cases root with
  | none =>
    have dead : u = .dead := by cases m <;> cases ran <;> rfl
    rw [dead]
    exact identifies_dead A a _
  | some r =>
    change r.names ⊆ used at named
    cases created : create A (advance A a r.forest) used with
    | error e =>
      rw [step_error m created] at ran
      cases ran
    | ok pair =>
      obtain ⟨g,after⟩ := pair
      have grows := (create_exact _).mp created
      obtain ⟨u',lost,done,reduced,trims,-⟩ := step_ok m grows
      cases done.symm.trans ran
      have distinctAfter : g.nameList.Nodup :=
        grows.distinct (by rw [names_advance]; exact named) (by rw [nameList_advance]; exact distinct)
      have remains {k : Kin} (node : k ∈ u.forest.kin none) : ∃ l ∈ g.kin none, Remains g u.forest k l :=
        exists_remains trims (by rw [reduced]; exact brightens_reduce m A g)
          (by rw [reduced]; exact filled_reduce m A g) distinctAfter node
      refine ⟨distinctAfter.sublist trims.nameList,?_,?_⟩
      · intro k node old
        obtain ⟨l,before,left⟩ := remains node
        exact left.stays grows named before old
      · intro k node new
        obtain ⟨l,before,left⟩ := remains node
        obtain ⟨marked,leaf,o,source,parent,holds⟩ := left.comes grows before new
        refine ⟨marked,leaf,o,source,parent,holds.1,holds.2,?_⟩
        rcases Forest.kin_parent node with ⟨root,-⟩ | ⟨j,above,parent',listed⟩
        · cases root.symm.trans parent
        · have name : j.node.name = o.node.name := Option.some.inj (parent'.symm.trans parent)
          obtain ⟨l',before',left'⟩ := remains above
          obtain ⟨q,origin,-,-,-,-,stay,come,whole,stays,few,-⟩ :=
            left'.stays grows named before' (name ▸ Forest.kin_name_mem source)
          have olds : ∀ x ∈ stay, x ∈ r.names := fun x member => Forest.kids_subset origin x (stays.subset member)
          rw [whole] at listed
          exact ⟨j,above,name,stay,by rw [whole,new_last listed few olds new],olds⟩

end

-- From 0 the final state 1 is reached, and 2 stays by itself.
def apart : Automaton := .ofEdges 6 (.ofList [0,2]) (.ofList [1]) 1 [⟨0,1,0⟩,⟨0,1,1⟩,⟨2,1,2⟩] (by decide +kernel)

-- Two kids of the root hold the same state, a third one comes to hold none, and the name 4 is stale.
def crowded : Tree :=
  ⟨some ⟨⟨2,.ofList [0,1,2],true⟩,.cons ⟨5,.ofList [1],true⟩ (.cons ⟨6,.ofList [1],false⟩ .nil .nil)
    (.cons ⟨1,.ofList [2],false⟩ .nil (.cons ⟨0,.ofList [2],false⟩ .nil .nil))⟩,.ofList [0,1,2,4,5,6]⟩

-- Of the kids 5, 1 and 0 the second stays, and the new one stands behind it.
theorem step_identifies_crowded : apart.stateCount < 2 ^ 31 ∧
    crowded.forest.nameList.Nodup ∧ crowded.names ⊆ crowded.used ∧
      ∃ u, Machine.step .byRule apart 1 crowded = .ok u ∧
        u.forest.kin none = [⟨none,⟨2,.ofList [0,1,2],false⟩,[1,3]⟩,⟨some 2,⟨1,.ofList [2],false⟩,[]⟩,
          ⟨some 2,⟨3,.ofList [1],true⟩,[]⟩] ∧ Identifies apart 1 crowded.forest u.forest :=
  ⟨by decide +kernel,by decide +kernel,by decide +kernel,
    ⟨some ⟨⟨2,.ofList [0,1,2],false⟩,.cons ⟨1,.ofList [2],false⟩ .nil (.cons ⟨3,.ofList [1],true⟩ .nil .nil)⟩,
      .ofList [1,2,3,4]⟩,by decide +kernel,by decide +kernel,
    step_identifies apart (by decide +kernel) 1 .byRule crowded (by decide +kernel) (by decide +kernel)
      (by decide +kernel)⟩

-- The fresh kid has the name of the root, which had no parent.
theorem step_identifies_teeming :
    ¬ ∀ (A : Automaton) (a : Nat) (m : Method) (t : Tree), t.forest.nameList.Nodup → t.names ⊆ t.used →
      ∀ u, Machine.step m A a t = .ok u → Identifies A a t.forest u.forest := by
  intro all
  have told := all teeming 1 .byRule ⟨some soleRoot,.full (2 ^ 32)⟩ (by decide +kernel) soleRoot_named _
    (step_teeming (NatSet.firstAbsent_full (2 ^ 32)))
  have kid : ⟨some 0,⟨0,.ofList [1],true⟩,[]⟩ ∈ namesake.forest.kin none := by decide +kernel
  obtain ⟨l,before,-,parent,-⟩ := told.stays _ kid (by decide +kernel)
  have root : soleRoot.forest.kin none = [⟨none,⟨0,.ofList [0],false⟩,[]⟩] := by decide +kernel
  change l ∈ soleRoot.forest.kin none at before
  rw [root,List.mem_singleton] at before
  rw [before] at parent
  cases parent

end Step
end BuchiToRabin
