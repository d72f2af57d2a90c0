import Mathlib.Algebra.BigOperators.Group.Finset.Basic
import BuchiToRabin.NatSet.Block
import BuchiToRabin.NatSet.Lemmas
namespace BuchiToRabin.Word

def holds (w : UInt64) (i : Nat) : Bool := w.toNat.testBit i

variable {v w : UInt64} {i j n : Nat}

theorem holds_lt (held : holds w i = true) : i < 64 := by
  by_contra far
  have small : w.toNat < 2 ^ i :=
    Nat.lt_of_lt_of_le w.toNat_lt (Nat.pow_le_pow_right (by decide) (Nat.le_of_not_lt far))
  rw [holds,Nat.testBit_lt_two_pow small] at held
  cases held

theorem holds_past (past : 64 ≤ i) : holds w i = false :=
  Bool.eq_false_iff.mpr fun held => Nat.not_lt.mpr past (holds_lt held)

theorem ext (same : ∀ i, holds v i = holds w i) : v = w :=
  UInt64.toNat_inj.mp (Nat.eq_of_testBit_eq same)

@[simp] theorem holds_zero (i : Nat) : holds 0 i = false := Nat.zero_testBit i

theorem eq_zero_iff : w = 0 ↔ ∀ i, holds w i = false := by
  constructor
  · intro empty i
    rw [empty,holds_zero]
  · intro none
    exact ext fun i => (none i).trans (holds_zero i).symm

@[simp] theorem holds_and (v w : UInt64) (i : Nat) : holds (v &&& w) i = (holds v i && holds w i) := by
  rw [holds,UInt64.toNat_and,Nat.testBit_and]; rfl

@[simp] theorem holds_or (v w : UInt64) (i : Nat) : holds (v ||| w) i = (holds v i || holds w i) := by
  rw [holds,UInt64.toNat_or,Nat.testBit_or]; rfl

@[simp] theorem holds_not (w : UInt64) (i : Nat) : holds (~~~w) i = (decide (i < 64) && !holds w i) :=
  BitVec.getLsbD_not

theorem holds_shiftLeft (w k : UInt64) (i : Nat) :
    holds (w <<< k) i = (decide (i < 64) && (decide (k.toNat % 64 ≤ i) && holds w (i - k.toNat % 64))) := by
  rw [holds,UInt64.toNat_shiftLeft,Nat.testBit_mod_two_pow,Nat.testBit_shiftLeft]; rfl

theorem holds_shiftRight (w k : UInt64) (i : Nat) : holds (w >>> k) i = holds w (k.toNat % 64 + i) := by
  rw [holds,UInt64.toNat_shiftRight,Nat.testBit_shiftRight]; rfl

theorem holds_toUInt64 (n i : Nat) : holds n.toUInt64 i = (decide (i < 64) && n.testBit i) := by
  rw [holds,Nat.toUInt64_eq,UInt64.toNat_ofNat',Nat.testBit_mod_two_pow]

theorem holds_single (small : j < 64) : holds (single j) i = decide (i = j) := by
  rw [single,holds_toUInt64,NatSet.testBit_one_shift]
  by_cases same : i = j
  · simp [same,small]
  · simp [same]

theorem holds_below (small : n ≤ 64) : holds (below n) i = decide (i < n) := by
  rw [below,holds_toUInt64,Nat.one_shiftLeft,Nat.testBit_two_pow_sub_one,←Bool.decide_and]
  exact decide_eq_decide.mpr (by omega)

theorem holds_all : holds all i = decide (i < 64) := holds_below (Nat.le_refl 64)

theorem and_single_ne_zero (small : j < 64) : (w &&& single j != 0) = holds w j := by
  rw [Bool.eq_iff_iff,bne_iff_ne,Ne,eq_zero_iff]
  simp only [holds_and,holds_single small]
  constructor
  · intro meets
    by_contra absent
    exact meets fun i => by grind
  · intro held none
    simpa [held] using none j

-- Counting up by one sets the first clear bit and clears those below it.
theorem testBit_succ_turn (b i : Nat) : (b + 1).testBit i =
    if i < (b ^^^ (b + 1)).log2 then false else if i = (b ^^^ (b + 1)).log2 then true else b.testBit i := by
  obtain ⟨clear,set⟩ := NatSet.turn_log2 b
  generalize (b ^^^ (b + 1)).log2 = k at clear set
  have low : b % 2 ^ (k + 1) = 2 ^ k - 1 := by
    apply Nat.eq_of_testBit_eq
    intro i
    rw [Nat.testBit_mod_two_pow,Nat.testBit_two_pow_sub_one]
    by_cases below : i < k
    · simp [below,set i below,Nat.lt_succ_of_lt below]
    · by_cases same : i = k
      · subst same; simp [clear]
      · have : ¬ i < k + 1 := by omega
        simp [below,this]
  have split := Nat.div_add_mod b (2 ^ (k + 1))
  have positive := Nat.two_pow_pos k
  have smaller : 2 ^ k < 2 ^ (k + 1) := Nat.pow_lt_pow_right (by decide) (Nat.lt_succ_self k)
  have after : b + 1 = 2 ^ (k + 1) * (b / 2 ^ (k + 1)) + 2 ^ k := by omega
  rw [after,Nat.testBit_two_pow_mul_add _ smaller,Nat.testBit_two_pow]
  by_cases below : i < k
  · have : ¬ k = i := by omega
    simp [below,this,Nat.lt_succ_of_lt below]
  · by_cases same : i = k
    · subst same; simp
    · have above : ¬ i < k + 1 := by omega
      rw [if_neg above,if_neg below,if_neg same,←Nat.shiftRight_eq_div_pow,Nat.testBit_shiftRight]
      congr 1
      omega

theorem toNat_pred (nonempty : w ≠ 0) : (w - 1).toNat + 1 = w.toNat := by
  have positive : w.toNat ≠ 0 := fun zero => nonempty (UInt64.toNat_inj.mp zero)
  have low : (w - 1).toNat = w.toNat - 1 :=
    UInt64.toNat_sub_of_le w 1 (UInt64.le_iff_toNat_le.mpr (Nat.one_le_iff_ne_zero.mpr positive))
  omega

theorem lowest_eq (nonempty : w ≠ 0) : lowest w = ((w - 1).toNat ^^^ ((w - 1).toNat + 1)).log2 := by
  rw [lowest,UInt64.toNat_xor,toNat_pred nonempty,Nat.xor_comm]

theorem holds_eq_turn (nonempty : w ≠ 0) (i : Nat) : holds w i =
    if i < lowest w then false else if i = lowest w then true else holds (w - 1) i := by
  have turned := testBit_succ_turn (w - 1).toNat i
  rw [toNat_pred nonempty,Nat.xor_comm,←UInt64.toNat_xor] at turned
  exact turned

theorem holds_lowest (nonempty : w ≠ 0) : holds w (lowest w) = true := by
  rw [holds_eq_turn nonempty]; simp

theorem lowest_le (held : holds w i = true) : lowest w ≤ i := by
  have nonempty : w ≠ 0 := fun empty => by rw [empty,holds_zero] at held; cases held
  rw [holds_eq_turn nonempty] at held
  by_contra above
  rw [if_pos (Nat.lt_of_not_le above)] at held
  cases held

theorem holds_dropLowest (nonempty : w ≠ 0) (i : Nat) :
    holds (dropLowest w) i = (holds w i && decide (i ≠ lowest w)) := by
  have clear : holds (w - 1) (lowest w) = false := by
    rw [lowest_eq nonempty]
    exact (NatSet.turn_log2 _).1
  have turned := holds_eq_turn nonempty i
  rw [dropLowest,holds_and]
  grind

-- The first gap of a word that has one.
theorem lowest_not (gap : w ≠ all) : lowest (~~~w) < 64 ∧ holds w (lowest (~~~w)) = false ∧
    ∀ i < lowest (~~~w), holds w i = true := by
  have nonempty : ~~~w ≠ 0 := by
    intro none
    apply gap
    apply ext
    intro i
    have clear := congrArg (holds · i) none
    simp only [holds_not,holds_zero] at clear
    rw [holds_all]
    by_cases small : i < 64
    · simpa [small] using clear
    · rw [decide_eq_false small,Bool.eq_false_iff]
      exact fun held => small (holds_lt held)
  have clear := holds_lowest nonempty
  have small := holds_lt clear
  rw [holds_not,decide_eq_true small,Bool.true_and,Bool.not_eq_true'] at clear
  refine ⟨small,clear,?_⟩
  intro i below
  by_contra absent
  rw [Bool.not_eq_true] at absent
  have turned : holds (~~~w) i = true := by
    rw [holds_not,decide_eq_true (Nat.lt_trans below small),absent]; rfl
  exact Nat.not_lt_of_le (lowest_le turned) below

theorem weight_eq_card (w : UInt64) : weight w = {i ∈ Finset.range 64 | holds w i = true}.card := by
  have counted (n : Nat) : w.toBitVec.cpopNatRec n 0 = {i ∈ Finset.range n | holds w i = true}.card := by
    induction n with
    | zero => rfl
    | succ n ih =>
      rw [BitVec.cpopNatRec_succ,BitVec.cpopNatRec_add,ih,Finset.range_add_one,Finset.filter_insert]
      have bit : w.toBitVec.getLsbD n = holds w n := rfl
      rw [bit]
      cases holds w n <;> simp
  unfold weight
  split
  · rename_i empty
    simp [empty]
  · rw [BitVec.toNat_cpop,counted]

end BuchiToRabin.Word
