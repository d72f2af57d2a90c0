import BuchiToRabin.Proofs.Step.Naming
namespace BuchiToRabin.Step

variable {A : Automaton} {a : Nat} {r : Node} {used after lost : NatSet} {g : Forest Vertex}

theorem Grows.after_eq (grows : Grows A (advance A a r.forest) used g after) (named : r.names ⊆ used) :
    after = g.names ∪ (used \ r.names) ∧ ∀ x ∈ used \ r.names, x ∉ g.names := by
  have grow := grows.used_subset
  have names : g.names = r.names ∪ (after \ used) := by rw [grows.names_eq,names_advance]; rfl
  rw [names]
  constructor <;> grind

-- The names of dropped nodes are free again, those of nodes that stay are kept, and the ones in use for no
-- node are neither freed nor given to a fresh node. Labels are any.
theorem step_accounts (A : Automaton) (small : A.stateCount < 2 ^ 31) (a : Nat) (m : Method) (r : Node)
    (used : NatSet) (distinct : r.forest.nameList.Nodup) (named : r.names ⊆ used) {u : Tree}
    (ran : Machine.step m A a ⟨some r,used⟩ = .ok u) :
    u.forest.nameList.Nodup ∧ u.used = u.names ∪ (used \ r.names) ∧ ∀ x ∈ used \ r.names, x ∉ u.names := by
  rw [Machine.step_eq_ok small] at ran
  cases created : create A (advance A a r.forest) used with
  | error e =>
    rw [step_error m created] at ran
    cases ran
  | ok pair =>
    obtain ⟨g,after⟩ := pair
    have grows := (create_exact _).mp created
    obtain ⟨u',lost,done,-,trims,freed⟩ := step_ok m grows
    cases done.symm.trans ran
    have distinctAfter : g.nameList.Nodup := by
      apply grows.distinct
      · rw [names_advance]
        exact named
      · rw [nameList_advance]
        exact distinct
    obtain ⟨all,stale⟩ := grows.after_eq named
    have names := trims.names_eq distinctAfter
    have going := trims.lost_subset
    refine ⟨distinctAfter.sublist trims.nameList,?_,?_⟩
    · rw [freed named,Tree.names,names,all]
      grind
    · intro x old
      rw [Tree.names,names]
      grind

-- Kids hold states that their parents do not, and the name 12 is stale. The methods part here: under the first
-- symbol the traversal keeps the root's fresh kid and the rules do not.
def loose : Node :=
  ⟨⟨2,.ofList [0],false⟩,.cons ⟨0,.ofList [2],true⟩ (.cons ⟨9,.ofList [0,3],false⟩ .nil .nil)
    (.cons ⟨3,.ofList [2],false⟩ .nil .nil)⟩

theorem step_accounts_loose : Automaton.guess.stateCount < 2 ^ 31 ∧
    loose.forest.nameList.Nodup ∧ loose.names ⊆ .ofList [0,2,3,9,12] ∧
      ∃ u, Machine.step .fused .guess 1 ⟨some loose,.ofList [0,2,3,9,12]⟩ = .ok u ∧ u.names = .ofList [1,2] ∧
        u.forest.nameList.Nodup ∧ u.used = u.names ∪ (.ofList [0,2,3,9,12] \ loose.names) ∧
        ∀ x ∈ .ofList [0,2,3,9,12] \ loose.names, x ∉ u.names :=
  ⟨by decide,by decide +kernel,by decide +kernel,
    ⟨some ⟨⟨2,.ofList [0,1],false⟩,.cons ⟨1,.ofList [1],true⟩ .nil .nil⟩,.ofList [1,2,12]⟩,
    by decide +kernel,by decide +kernel,
    step_accounts .guess (by decide) 1 .fused loose _ (by decide +kernel) (by decide +kernel) (by decide +kernel)⟩

def teeming : Automaton := .ofEdges (2 ^ 31 + 1) (.ofList [0]) (.ofList [1]) 1 [⟨0,1,0⟩,⟨0,1,1⟩] (by decide +kernel)

def soleRoot : Node := .leaf ⟨0,.ofList [0],false⟩

def namesake : Node := ⟨⟨0,.ofList [0,1],false⟩,.cons ⟨0,.ofList [1],true⟩ .nil .nil⟩

theorem create_teeming {used : NatSet} (taken : used.firstAbsent = 2 ^ 32) :
    createWith (Machine.naming (Machine.nameCount teeming)) teeming (.cons ⟨0,.ofList [0,1],false⟩ .nil .nil) used =
      .ok (namesake.forest,used.insert (2 ^ 32)) := by
  have room : used.firstAbsent < Machine.nameCount teeming := by rw [taken]; decide +kernel
  have drawn : (Machine.naming (Machine.nameCount teeming)).draw used = .ok (0,used.insert (2 ^ 32)) := by
    show (if used.firstAbsent < Machine.nameCount teeming then _ else _) = _
    have cut : 2 ^ 32 % UInt32.size = 0 := Nat.mod_self UInt32.size
    rw [if_pos room,taken,cut]
  have meets : NatSet.ofList [0,1] ∩ teeming.finals = .ofList [1] := by decide +kernel
  have filled : ¬ NatSet.ofList [1] = ∅ := by decide +kernel
  simp only [createWith,meets,if_neg filled,drawn]
  rfl

-- Where all names of 32 bits are in use, the next one is cut down to the first.
theorem step_teeming {used : NatSet} (taken : used.firstAbsent = 2 ^ 32) :
    Machine.step .byRule teeming 1 ⟨some soleRoot,used⟩ = .ok ⟨some namesake,used.insert (2 ^ 32)⟩ := by
  have moved : update teeming 1 (unmark soleRoot.forest) = .cons ⟨0,.ofList [0,1],false⟩ .nil .nil := by
    decide +kernel
  have apart : (mergeAcross namesake.forest ∅).1 = namesake.forest := by decide +kernel
  have all : pruned namesake.forest = namesake.forest := by decide +kernel
  have uncovered : merged namesake.forest = namesake.forest := by decide +kernel
  have kept : prunedNames namesake.forest = ∅ ∧ mergedNames namesake.forest = ∅ := by decide +kernel
  have none : Machine.unnamed ∉ used.insert (2 ^ 32) \ (used ∪ used.insert (2 ^ 32)) := by grind
  show (createWith _ teeming (update teeming 1 (unmark soleRoot.forest)) used >>= _) = _
  rw [moved,create_teeming taken,ok_bind]
  simp only [prune_eq,mergeUp_eq,apart,all,uncovered,kept,NatSet.sdiff_empty,if_neg none]
  rfl

-- All names of 32 bits: the first one is that of the root, the others are stale.
theorem soleRoot_named : soleRoot.names ⊆ .full (2 ^ 32) := by
  intro x own
  have first : x ∈ NatSet.ofList [0] := own
  rw [NatSet.mem_ofList,List.mem_singleton] at first
  exact NatSet.mem_full.mpr (by omega)

theorem step_accounts_teeming :
    ¬ ∀ (A : Automaton) (a : Nat) (m : Method) (r : Node) (used : NatSet), r.forest.nameList.Nodup →
      r.names ⊆ used → ∀ u, Machine.step m A a ⟨some r,used⟩ = .ok u → u.forest.nameList.Nodup := by
  intro all
  have distinct := all teeming 1 .byRule soleRoot _ (by decide +kernel) soleRoot_named _
    (step_teeming (NatSet.firstAbsent_full (2 ^ 32)))
  exact absurd distinct (by decide +kernel)

end BuchiToRabin.Step
