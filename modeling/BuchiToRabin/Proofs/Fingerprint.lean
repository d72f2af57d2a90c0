import Mathlib.Data.FinEnum
import BuchiToRabin.Proofs.NatSet.Word
namespace BuchiToRabin.Fingerprint

variable {k seed : UInt64}

theorem eq_zero_of_shifted {x : UInt64} (moves : k.toNat % 64 ≠ 0) (same : x = x >>> k) : x = 0 := by
  have quotient := congrArg UInt64.toNat same
  rw [UInt64.toNat_shiftRight,Nat.shiftRight_eq_div_pow] at quotient
  by_contra other
  have positive : 0 < x.toNat := Nat.pos_of_ne_zero fun zero => other (UInt64.toNat_inj.mp zero)
  have less : x.toNat / 2 ^ (k.toNat % 64) < x.toNat := Nat.div_lt_self positive (Nat.one_lt_two_pow moves)
  omega

-- High bits folded onto low ones. If two words give the same, what they differ in is its own shift.
theorem fold_injective (moves : k.toNat % 64 ≠ 0) : Function.Injective fun x => x ^^^ (x >>> k) := by
  intro x y same
  dsimp only at same
  refine UInt64.xor_eq_zero_iff.mp (eq_zero_of_shifted moves ?_)
  calc x ^^^ y = (x ^^^ y) ^^^ (x >>> k ^^^ x >>> k) := by rw [UInt64.xor_self,UInt64.xor_zero]
    _ = (x ^^^ x >>> k) ^^^ (y ^^^ x >>> k) := by ac_rfl
    _ = (y ^^^ y >>> k) ^^^ (y ^^^ x >>> k) := by rw [same]
    _ = (y ^^^ y) ^^^ (x >>> k ^^^ y >>> k) := by ac_rfl
    _ = (x ^^^ y) >>> k := by rw [UInt64.xor_self,UInt64.zero_xor,UInt64.shiftRight_xor]

theorem mul_injective {c inverse : UInt64} (unit : c * inverse = 1) : Function.Injective fun x => x * c := by
  intro x y same
  calc x = x * c * inverse := by rw [UInt64.mul_assoc,unit,UInt64.mul_one]
    _ = y * c * inverse := congrArg (· * inverse) same
    _ = y := by rw [UInt64.mul_assoc,unit,UInt64.mul_one]

-- Every bit goes five places up, the last five to the front.
theorem holds_rotate5 (x : UInt64) {i : Nat} (inside : i < 64) :
    Word.holds (rotate5 x) ((i + 5) % 64) = Word.holds x i := by
  have amounts : (5 : UInt64).toNat % 64 = 5 ∧ (59 : UInt64).toNat % 64 = 59 := by decide
  rw [rotate5,Word.holds_or,Word.holds_shiftLeft,Word.holds_shiftRight,amounts.1,amounts.2]
  rcases Nat.lt_or_ge i 59 with low | high
  · have place : (i + 5) % 64 = i + 5 := by omega
    rw [place,Word.holds_past (show 64 ≤ 59 + (i + 5) by omega)]
    simp
    omega
  · have place : (i + 5) % 64 = i - 59 := by omega
    have back : 59 + (i - 59) = i := by omega
    rw [place,back,decide_eq_false (show ¬ 5 ≤ i - 59 by omega),Bool.false_and,Bool.and_false,Bool.false_or]

theorem rotate5_injective : Function.Injective rotate5 := by
  intro x y same
  apply Word.ext
  intro i
  by_cases inside : i < 64
  · rw [←holds_rotate5 x inside,same,holds_rotate5 y inside]
  · rw [Word.holds_past (Nat.le_of_not_lt inside),Word.holds_past (Nat.le_of_not_lt inside)]

theorem scramble_injective : Function.Injective scramble := by
  have first : Function.Injective fun x : UInt64 => x * 0xBF58476D1CE4E5B9 :=
    mul_injective (show _ * 0x96DE1B173F119089 = 1 by decide)
  have second : Function.Injective fun x : UInt64 => x * 0x94D049BB133111EB :=
    mul_injective (show _ * 0x319642B2D24D8EC3 = 1 by decide)
  have early := first.comp (fold_injective (show (30 : UInt64).toNat % 64 ≠ 0 by decide))
  have late := second.comp (fold_injective (show (27 : UInt64).toNat % 64 ≠ 0 by decide))
  exact (fold_injective (show (31 : UInt64).toNat % 64 ≠ 0 by decide)).comp (late.comp early)

theorem scramble_bijective : Function.Bijective scramble := Finite.injective_iff_bijective.mp scramble_injective

theorem mix_injective_seed (word : UInt64) : Function.Injective (mix · word) := by
  intro x y same
  exact rotate5_injective ((UInt64.xor_left_inj _).mp (scramble_injective same))

theorem mix_injective_word (seed : UInt64) : Function.Injective (mix seed) := by
  intro x y same
  have scaled : Function.Injective fun x : UInt64 => x * 0x9E3779B97F4A7C15 :=
    mul_injective (show _ * 0xF1DE83E19937733D = 1 by decide)
  exact scaled ((UInt64.xor_right_inj _).mp (scramble_injective same))

theorem toUInt64_inj {m n : Nat} (left : m < UInt64.size) (right : n < UInt64.size)
    (same : m.toUInt64 = n.toUInt64) : m = n := by
  have values := congrArg UInt64.toNat same
  rwa [Nat.toUInt64_eq,Nat.toUInt64_eq,UInt64.toNat_ofNat_of_lt' left,UInt64.toNat_ofNat_of_lt' right] at values

theorem flag_injective : Function.Injective Bool.toUInt64 := by decide

section
variable (a b c : UInt64)

theorem first_injective : Function.Injective fun a : UInt64 => fingerprint (a,b,c) :=
  (mix_injective_seed c).comp ((mix_injective_seed b).comp scramble_injective)

theorem second_injective : Function.Injective fun b : UInt64 => fingerprint (a,b,c) :=
  (mix_injective_seed c).comp (mix_injective_word (scramble a))

theorem third_injective : Function.Injective fun c : UInt64 => fingerprint (a,b,c) :=
  mix_injective_word (mix (scramble a) b)

end

theorem mixAll_injective_seed (words : List UInt64) : Function.Injective (mixAll · words) := by
  induction words with
  | nil => exact Function.injective_id
  | cons w words ih => exact ih.comp (mix_injective_seed w)

theorem mixAll_injective_word (seed : UInt64) (before after : List UInt64) :
    Function.Injective fun w => mixAll seed (before ++ w :: after) := by
  intro v w same
  dsimp only at same
  rw [mixAll_append,mixAll_append,mixAll_cons,mixAll_cons] at same
  exact mix_injective_word _ (mixAll_injective_seed after same)

-- Nothing is lost of one word while the others are held fixed.
structure Lossless : Prop where
  scramble : Function.Bijective scramble
  seed : ∀ word, Function.Injective (mix · word)
  word : ∀ seed, Function.Injective (mix seed)
  single : ∀ seed before after v w, v ≠ w → mixAll seed (before ++ v :: after) ≠ mixAll seed (before ++ w :: after)

theorem lossless : Lossless :=
  ⟨scramble_bijective,mix_injective_seed,mix_injective_word,fun seed before after _ _ other =>
    (mixAll_injective_word seed before after).ne other⟩

end BuchiToRabin.Fingerprint
