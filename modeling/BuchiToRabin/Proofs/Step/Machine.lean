import BuchiToRabin.Proofs.NatSet.Block
import BuchiToRabin.Proofs.Step.Traversal
import BuchiToRabin.Step.Machine
namespace BuchiToRabin

-- Two ways to name that give the same names. The second has errors of its own for where the first fails.
structure Naming.Alike (N : Naming ε) (M : Naming δ) (g : ε → δ) : Prop where
  draw : ∀ taken, M.draw taken = (N.draw taken).mapError g
  enter : ∀ {taken name rest} used, N.draw taken = .ok (name,rest) →
    M.enter name used = (N.enter name used).mapError g

namespace Step
variable {ε δ : Type} {N : Naming ε} {M : Naming δ} {g : ε → δ} {A : Automaton} {a : Nat}

theorem createWith_alike (alike : N.Alike M g) (f : Forest Vertex) : ∀ used,
    createWith M A f used = (createWith N A f used).mapError g := by
  induction f with
  | nil => intro used; rfl
  | cons v kids right below ih =>
    intro used
    simp only [createWith,alike.draw,below,ih]
    by_cases apart : v.label ∩ A.finals = ∅
    · simp only [apart,if_true,pure_eq_ok,ok_bind,mapError_bind,mapError_ok]
    · simp only [apart,if_false]
      cases N.draw used with
      | error e => rfl
      | ok pair => simp only [pure_eq_ok,ok_bind,mapError_bind,mapError_ok]

theorem sproutWith_alike (alike : N.Alike M g) (target : NatSet) (p : Pass) :
    sproutWith M A target p = (sproutWith N A target p).mapError g := by
  unfold sproutWith
  split
  · rfl
  · rw [alike.draw,mapError_bind]
    cases drawn : N.draw p.reserved with
    | error e => rfl
    | ok pair =>
      simp only [mapError_ok,ok_bind,alike.enter p.used drawn,mapError_bind]
      cases N.enter pair.1 p.used <;> rfl

theorem discardWith_alike (alike : N.Alike M g) (f : Forest Vertex) : ∀ p,
    discardWith M A a f p = (discardWith N A a f p).mapError g := by
  induction f with
  | nil => intro p; rfl
  | cons v kids right below ih =>
    intro p
    simp only [discardWith,alike.draw,below,ih]
    split
    · cases N.draw p.reserved with
      | error e => rfl
      | ok pair => simp only [mapError_ok,Except.map_ok,ok_bind,mapError_bind]
    · simp only [pure_eq_ok,ok_bind,mapError_bind]

theorem visitWith_alike (alike : N.Alike M g) (f : Forest Vertex) : ∀ p,
    visitWith M A a f p = (visitWith N A a f p).mapError g := by
  induction f with
  | nil => intro p; rfl
  | cons v kids right below ih =>
    intro p
    simp only [visitWith,sproutWith_alike alike,discardWith_alike alike,below,ih,mapError_bind]
    cases sproutWith N A (A.post a v.label) p with
    | error e => rfl
    | ok pair =>
      simp only [mapError_ok,ok_bind]
      split
      · rw [mapError_bind]
      · rw [mapError_bind]
        cases visitWith N A a kids pair.2 with
        | error e => rfl
        | ok old =>
          simp only [mapError_ok,ok_bind]
          split <;> rw [mapError_bind] <;> rfl

theorem fusedWith_alike (alike : N.Alike M g) (t : Tree) :
    fusedWith M A a t = (fusedWith N A a t).mapError g := by
  unfold fusedWith
  cases t.root with
  | none => rfl
  | some r =>
    simp only [visitWith_alike alike,mapError_bind]
    rfl

end Step

namespace Machine
open Step

variable {A : Automaton}

-- No place below the last one is cut off.
theorem naming_alike {limit : Nat} (small : limit ≤ unnamed) :
    (Naming.plain limit).Alike (naming limit) .exhausted where
  draw taken := by
    show _ = (Name.allocate limit taken).mapError _
    unfold naming Name.allocate
    dsimp only
    split
    · rename_i free
      rw [Nat.mod_eq_of_lt (by unfold unnamed at small; omega)]
      rfl
    · rfl
  enter := by
    intro taken name rest used drawn
    change Name.allocate limit taken = _ at drawn
    unfold Name.allocate at drawn
    split at drawn
    · rename_i free
      cases drawn
      exact if_neg (Nat.ne_of_lt (Nat.lt_of_lt_of_le free small))
    · cases drawn

theorem nameCount_eq (small : A.stateCount < 2 ^ 31) : nameCount A = A.nameCount :=
  wrap_of_lt (by unfold UInt64.size; omega)

theorem nameCount_le_unnamed (small : A.stateCount < 2 ^ 31) : A.nameCount ≤ unnamed := by
  unfold Automaton.nameCount unnamed UInt32.size
  omega

theorem naming_small (small : A.stateCount < 2 ^ 31) :
    (Naming.plain A.nameCount).Alike (naming (nameCount A)) .exhausted := by
  rw [nameCount_eq small]
  exact naming_alike (nameCount_le_unnamed small)

theorem fused_eq (small : A.stateCount < 2 ^ 31) (a : Nat) (t : Tree) :
    fused A a t = (Step.fused A a t).mapError .exhausted := by
  have reserved : Block.Reserved A.stateCount := Block.reserved_iff.mpr (by omega)
  rw [fused,if_neg fun short => short.2 reserved]
  exact fusedWith_alike (naming_small small) t

theorem byRule_eq (small : A.stateCount < 2 ^ 31) (a : Nat) (t : Tree) :
    byRule A a t = (Step.byRule A a t).mapError .exhausted := by
  unfold byRule Step.byRule
  cases t.root with
  | none => rfl
  | some r =>
    have plain (f : Forest Vertex) (used : NatSet) : createWith (naming (nameCount A)) A f used =
        (create A f used).mapError .exhausted := createWith_alike (naming_small small) f used
    simp only [plain]
    cases created : create A (update A a (unmark r.forest)) t.used with
    | error e => rfl
    | ok pair =>
      obtain ⟨g,named⟩ := pair
      have all {used : NatSet} : unnamed ∉ named \ (t.used ∪ used) := by
        intro stray
        obtain ⟨given,new⟩ := NatSet.mem_sdiff.mp stray
        rcases ((create_exact _).mp created).given unnamed given with old | low
        · exact new (NatSet.mem_union.mpr (.inl old))
        · exact absurd (nameCount_le_unnamed small) (Nat.not_le_of_lt low)
      rw [mapError_ok,ok_bind,ok_bind]
      exact if_neg all

-- With fewer than 2 ^ 31 states no word runs over in a step, whatever names are in use before it.
theorem step_eq (small : A.stateCount < 2 ^ 31) (m : Method) (a : Nat) (t : Tree) :
    step m A a t = (m.step A a t).mapError .exhausted := by
  cases m with
  | fused => exact fused_eq small a t
  | byRule => exact byRule_eq small a t

theorem step_eq_ok (small : A.stateCount < 2 ^ 31) {m : Method} {a : Nat} {t u : Tree} :
    step m A a t = .ok u ↔ m.step A a t = .ok u := by
  rw [step_eq small,mapError_eq_ok]

end Machine
end BuchiToRabin
