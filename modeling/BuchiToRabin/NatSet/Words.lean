import BuchiToRabin.Fingerprint
import BuchiToRabin.NatSet.Lemmas
namespace BuchiToRabin.NatSet

-- The lowest `1 <<< d` digits of `b`, lowest first, in front of `rest`. Halving keeps the numbers that
-- are shifted short.
def digits : Nat → Nat → List UInt64 → List UInt64
  | 0,b,rest => b.toUInt64 :: rest
  | d+1,b,rest =>
    if b = 0 then List.replicate (1 <<< (d + 1)) 0 ++ rest
    else digits d (lower d b) (digits d (upper d b) rest)

-- The set as 64-bit digits, lowest first and without leading zeros.
def words (s : NatSet) : List UInt64 := (digits s.depth s.bits []).take s.wordCount

theorem lower_toUInt64 (small : w < 1 <<< d) :
    (lower d b >>> (64 * w)).toUInt64 = (b >>> (64 * w)).toUInt64 := by
  apply UInt64.toNat_inj.mp
  rw [Nat.toUInt64_eq,Nat.toUInt64_eq,UInt64.toNat_ofNat',UInt64.toNat_ofNat']
  apply Nat.eq_of_testBit_eq
  intro i
  rw [Nat.one_shiftLeft] at small
  rw [Nat.testBit_mod_two_pow,Nat.testBit_mod_two_pow,Nat.testBit_shiftRight,Nat.testBit_shiftRight,
    testBit_lower,Nat.shiftLeft_eq]
  by_cases inside : i < 64
  · rw [decide_eq_true (show 64 * w + i < 64 * 2 ^ d by omega),Bool.true_and]
  · rw [decide_eq_false inside,Bool.false_and,Bool.false_and]

theorem digits_eq : ∀ d b rest,
    digits d b rest = (List.range (1 <<< d)).map (fun w => (b >>> (64 * w)).toUInt64) ++ rest
  | 0,_,_ => rfl
  | d+1,b,rest => by
    have twice : 1 <<< (d + 1) = 1 <<< d + 1 <<< d := by
      rw [Nat.shiftLeft_succ]; omega
    rw [digits]
    split
    · rename_i zero
      subst zero
      congr 1
      apply List.ext_getElem
      · simp
      · intro w _ _
        simp
    · rw [digits_eq d,digits_eq d,twice,List.range_add,List.map_append,List.map_map,List.append_assoc]
      congr 1
      · exact List.map_congr_left fun w small => lower_toUInt64 (List.mem_range.mp small)
      · congr 1
        apply List.map_congr_left
        intro w _
        show (upper d b >>> (64 * w)).toUInt64 = (b >>> (64 * (1 <<< d + w))).toUInt64
        rw [upper,←Nat.shiftRight_add,Nat.mul_add,Nat.shiftLeft_eq,Nat.one_shiftLeft]

theorem words_eq (s : NatSet) :
    s.words = (List.range s.wordCount).map fun w => (s.bits >>> (64 * w)).toUInt64 := by
  rw [words,digits_eq,List.append_nil,←List.map_take,List.take_range,Nat.min_eq_left s.wordCount_le]

instance : Fingerprint NatSet := ⟨fun s => Fingerprint.mixAll s.card.toUInt64 s.words⟩

end BuchiToRabin.NatSet
