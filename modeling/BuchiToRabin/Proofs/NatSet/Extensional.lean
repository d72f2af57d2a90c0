import Mathlib.Data.List.DropRight
import Mathlib.Data.List.GetD
import BuchiToRabin.NatSet.Words
import BuchiToRabin.Proofs.NatSet.Registers
namespace BuchiToRabin

-- Digits are in canonical form when the last of them is not zero. Read past the end they are zero, so such a
-- form is told by its digits alone.
def Trimmed (ws : List UInt64) : Prop := ws.getLast? ≠ some 0

namespace Trimmed

variable {us ws : List UInt64}

theorem length_le (trimmed : Trimmed us) (same : ∀ k, us.getD k 0 = ws.getD k 0) : us.length ≤ ws.length := by
  by_contra longer
  have last : us.getD (us.length - 1) 0 = 0 := by
    rw [same,List.getD_eq_default _ _ (by omega)]
  have inside : us.length - 1 < us.length := by omega
  rw [List.getD_eq_getElem _ _ inside] at last
  exact trimmed (by rw [List.getLast?_eq_getElem?,List.getElem?_eq_getElem inside,last])

theorem ext (left : Trimmed us) (right : Trimmed ws) (same : ∀ k, us.getD k 0 = ws.getD k 0) : us = ws := by
  have length : us.length = ws.length :=
    Nat.le_antisymm (left.length_le same) (right.length_le fun k => (same k).symm)
  refine List.ext_getElem length fun k inLeft inRight => ?_
  have digit := same k
  rwa [List.getD_eq_getElem _ _ inLeft,List.getD_eq_getElem _ _ inRight] at digit

end Trimmed

namespace NatSet

variable {s : NatSet} {k : Nat}

-- Past the last element there are no ones.
theorem digit_past (past : s.wordCount ≤ k) : (s.bits >>> (64 * k)).toUInt64 = 0 := by
  apply Word.eq_zero_iff.mpr
  intro i
  rw [Word.holds_toUInt64,Nat.testBit_shiftRight,Bool.and_eq_false_iff]
  right
  rw [Bool.eq_false_iff]
  intro present
  have below : 64 * k + i < s.bound := lt_bound present
  rw [wordCount] at past
  omega

theorem getD_words (s : NatSet) (k : Nat) : s.words.getD k 0 = (s.bits >>> (64 * k)).toUInt64 := by
  rw [words_eq]
  by_cases inside : k < s.wordCount
  · rw [List.getD_eq_getElem _ _ (by simpa using inside)]
    simp
  · rw [List.getD_eq_default _ _ (by simpa using inside),digit_past (Nat.le_of_not_lt inside)]

theorem trimmed_words (s : NatSet) : Trimmed s.words := by
  intro zero
  have listed : s.words.length = s.wordCount := by rw [words_eq,List.length_map,List.length_range]
  rw [List.getLast?_eq_getElem?,listed] at zero
  obtain ⟨inside,last⟩ := List.getElem?_eq_some_iff.mp zero
  rw [←List.getD_eq_getElem _ 0 inside,getD_words] at last
  -- The greatest element is in the last digit.
  have some : s.bound ≠ 0 := by
    intro none
    rw [listed,wordCount,none] at inside
    omega
  have greatest : s.bits.testBit (s.bound - 1) = true := by
    rw [bound] at some ⊢
    split at some
    · exact absurd rfl some
    · rename_i nonzero
      rw [if_neg nonzero,Nat.add_sub_cancel]
      exact Nat.testBit_log2 nonzero
  have clear := Word.eq_zero_iff.mp last ((s.bound - 1) % 64)
  have place : 64 * (s.wordCount - 1) + (s.bound - 1) % 64 = s.bound - 1 := by
    rw [wordCount]
    omega
  rw [Word.holds_toUInt64,Nat.testBit_shiftRight,place,greatest,decide_eq_true (Nat.mod_lt _ (by decide))] at clear
  cases clear

end NatSet

namespace Block

variable {a b : Block} {i k : Nat}

-- The set that a block stands for.
def set (b : Block) : NatSet := .ofList b.elements

theorem mem_set : i ∈ b.set ↔ b.contains i = true := by
  rw [set,NatSet.mem_ofList,b.elements_exact.2]

theorem set_eq_iff : a.set = b.set ↔ ∀ i, a.contains i = b.contains i := by
  constructor
  · intro same i
    rw [Bool.eq_iff_iff,←mem_set,←mem_set,same]
  · intro same
    ext i
    rw [mem_set,mem_set,same]

theorem elements_set (b : Block) : b.set.elements = b.elements := by
  refine b.set.elements_ascending.eq_of_mem_iff b.elements_exact.1 fun i => ?_
  rw [NatSet.mem_elements,mem_set,b.elements_exact.2]

theorem render_set (b : Block) : b.set.render = b.render := by
  rw [NatSet.render,render,elements_set]

theorem digits_eq (b : Block) : b.digits = b.words.toList.rdropWhile (· == 0) := by
  obtain ⟨⟨ws⟩,count⟩ := b
  rw [digits,List.popWhile_toArray]
  rfl

theorem trimmed_digits (b : Block) : Trimmed b.digits := by
  intro zero
  rw [digits_eq] at zero
  have filled : b.words.toList.rdropWhile (· == 0) ≠ [] := by
    intro none
    rw [none] at zero
    cases zero
  rw [List.getLast?_eq_some_getLast filled,Option.some.injEq] at zero
  exact List.rdropWhile_last_not (· == 0) b.words.toList filled (beq_iff_eq.mpr zero)

-- What is cut off are empty words.
theorem getD_digits (b : Block) (k : Nat) : b.digits.getD k 0 = b.word k := by
  have whole : b.word k = (b.digits ++ b.words.toList.rtakeWhile (· == 0)).getD k 0 := by
    rw [digits_eq,List.rdropWhile_append_rtakeWhile,word]
    simp [Array.getD_eq_getD_getElem?]
  rw [whole]
  by_cases inside : k < b.digits.length
  · rw [List.getD_append _ _ _ _ inside]
  · rw [List.getD_append_right _ _ _ _ (Nat.le_of_not_lt inside),List.getD_eq_default _ _ (Nat.le_of_not_lt inside)]
    by_cases cut : k - b.digits.length < (b.words.toList.rtakeWhile (· == 0)).length
    · have empty := List.mem_rtakeWhile_imp (p := (· == 0)) (List.getElem_mem cut)
      rw [List.getD_eq_getElem _ _ cut,beq_iff_eq.mp empty]
    · rw [List.getD_eq_default _ _ (Nat.le_of_not_lt cut)]

theorem word_set (b : Block) (k : Nat) : (b.set.bits >>> (64 * k)).toUInt64 = b.word k := by
  apply Word.ext
  intro i
  rw [Word.holds_toUInt64,Nat.testBit_shiftRight]
  by_cases small : i < 64
  · have place : (64 * k + i) / 64 = k ∧ (64 * k + i) % 64 = i := by omega
    have member := mem_set (b := b) (i := 64 * k + i)
    rw [contains_eq,place.1,place.2] at member
    rw [decide_eq_true small,Bool.true_and,Bool.eq_iff_iff]
    exact member
  · rw [decide_eq_false small,Bool.false_and]
    exact (Bool.eq_false_iff.mpr fun held => small (Word.holds_lt held)).symm

-- However many words there are: the digits are those of the set.
theorem words_set (b : Block) : b.set.words = b.digits :=
  b.set.trimmed_words.ext b.trimmed_digits fun k => by rw [NatSet.getD_words,word_set,getD_digits]

theorem contains_of_digits (same : a.digits = b.digits) (i : Nat) : a.contains i = b.contains i := by
  rw [contains_eq,contains_eq,←getD_digits,←getD_digits,same]

namespace Packs

variable {s t : Finset Nat}

theorem card_set (packs : b.Packs s) : b.set.card = b.count := by
  rw [←NatSet.elements_length,elements_set,packs.elements_eq,Finset.length_sort,packs.count]

-- The count is kept beside the words; where it is right, a block has the fingerprint of its set.
theorem fingerprint_set (packs : b.Packs s) : fingerprint b.set = fingerprint b := by
  show Fingerprint.mixAll _ _ = Fingerprint.mixAll _ _
  rw [packs.card_set,words_set]

theorem beq_iff (left : a.Packs s) (right : b.Packs t) : (a == b) = true ↔ a.set = b.set := by
  have compared : (a == b) = (a.count == b.count && a.digits == b.digits) := rfl
  rw [compared,Bool.and_eq_true,beq_iff_eq,beq_iff_eq]
  constructor
  · intro same
    exact set_eq_iff.mpr (contains_of_digits same.2)
  · intro same
    rw [←left.card_set,←right.card_set,←words_set,←words_set,same]
    exact ⟨rfl,rfl⟩

theorem of_beq (left : a.Packs s) (right : b.Packs t) (equal : (a == b) = true) : b.Packs s := by
  have same := set_eq_iff.mp ((left.beq_iff right).mp equal)
  have members : t = s := by
    ext i
    rw [←left.mem,←right.mem,same]
  exact members ▸ right

theorem beq (left : a.Packs s) (right : b.Packs s) : (a == b) = true := by
  rw [left.beq_iff right,set_eq_iff]
  intro i
  rw [left.contains_eq,right.contains_eq]

end Packs
end Block

namespace Registers

variable {rs qs : Registers} {S : Nat → Finset Nat}

-- Registers told by other numbers, and maybe by several.
def via (rs : Registers) (f : Nat → Nat) : Registers := ⟨fun r => rs.block (f r)⟩

theorem Packed.via (packed : Packed rs S) (f : Nat → Nat) : Packed (rs.via f) fun r => S (f r) :=
  fun r => packed (f r)

theorem Packed.digits_beq (left : Packed rs S) (right : Packed qs S) (r a : Nat) :
    ((rs.block r).digits == (rs.block a).digits) = ((qs.block r).digits == (qs.block a).digits) := by
  have same (k : Nat) : (rs.block k).digits = (qs.block k).digits := by
    rw [←Block.words_set,←Block.words_set,((left k).beq_iff (right k)).mp ((left k).beq (right k))]
  rw [same,same]

theorem Packed.beq (left : Packed rs S) (right : Packed qs S) (r a : Nat) :
    (rs.block r == rs.block a) = (qs.block r == qs.block a) := by
  have same (k : Nat) : (rs.block k).set = (qs.block k).set := ((left k).beq_iff (right k)).mp ((left k).beq (right k))
  rw [Bool.eq_iff_iff,(left r).beq_iff (left a),(right r).beq_iff (right a),same,same]

-- What a command reports hangs on the sets alone.
theorem Packed.answer_eq (left : Packed rs S) (right : Packed qs S) (c : Command) : rs.answer c = qs.answer c := by
  have listed (r : Nat) : (rs.block r).elements = (qs.block r).elements := by
    rw [(left r).elements_eq,(right r).elements_eq]
  cases c with
  | empty | reserve | full | collect | extend | clear | copy | union | inter | diff | meet => rfl
  | insert r i => exact congrArg Answer.flag (((left r).insert_fst i).trans ((right r).insert_fst i).symm)
  | erase r i => exact congrArg Answer.flag (((left r).erase_fst i).trans ((right r).erase_fst i).symm)
  | contains r i => exact congrArg Answer.flag (((left r).contains_eq i).trans ((right r).contains_eq i).symm)
  | isEmpty r => exact congrArg Answer.flag ((left r).isEmpty_eq.trans (right r).isEmpty_eq.symm)
  | min r =>
    refine congrArg Answer.least ?_
    rw [Block.min?_eq,Block.min?_eq,listed]
  | firstAbsent r => exact congrArg Answer.index ((left r).firstAbsent_least.unique (right r).firstAbsent_least)
  | render r =>
    refine congrArg Answer.text ?_
    rw [Block.render,Block.render,listed]
  | intersects r a =>
    exact congrArg Answer.flag (((left r).intersects_eq (left a)).trans ((right r).intersects_eq (right a)).symm)
  | subset r a => exact congrArg Answer.flag (((left r).subset_eq (left a)).trans ((right r).subset_eq (right a)).symm)
  | same r a => exact congrArg₂ Answer.same (left.beq right r a) (left.digits_beq right r a)

-- Blocks of two lots of registers, compared: nothing but the elements shows, neither now nor later. Before
-- both lots go on alike, registers of the one are matched with registers of the other.
structure Extensional (rs qs : Registers) : Prop where
  equal : ∀ r s, (rs.block r == qs.block s) = true ↔ ∀ i, (rs.block r).contains i = (qs.block s).contains i
  fingerprint : ∀ r s, (rs.block r == qs.block s) = true → fingerprint (rs.block r) = fingerprint (qs.block s)
  fed : ∀ r s, (rs.block r == qs.block s) = true → (rs.block r).fed = (qs.block s).fed
  render : ∀ r s, (rs.block r == qs.block s) = true → (rs.block r).render = (qs.block s).render
  elements : ∀ r s, (rs.block r == qs.block s) = true → (rs.block r).elements = (qs.block s).elements
  further : ∀ f g : Nat → Nat, (∀ r, (rs.block (f r) == qs.block (g r)) = true) → ∀ cs : List Command,
    (∀ r, (((rs.via f).run cs).block r == ((qs.via g).run cs).block r) = true) ∧
    ∀ c, ((rs.via f).run cs).answer c = ((qs.via g).run cs).answer c

-- Whatever was done to either, with any number of words left over.
theorem run_extensional (cs ds : List Command) : Extensional (start.run cs) (start.run ds) := by
  have left : Packed (start.run cs) (cs.foldl Command.keep fun _ => ∅) := packed_start.run cs
  have right : Packed (start.run ds) (ds.foldl Command.keep fun _ => ∅) := packed_start.run ds
  have set {r s : Nat} (equal : ((start.run cs).block r == (start.run ds).block s) = true) :
      ((start.run cs).block r).set = ((start.run ds).block s).set := ((left r).beq_iff (right s)).mp equal
  refine ⟨?_,?_,?_,?_,?_,?_⟩
  · intro r s
    rw [(left r).beq_iff (right s),Block.set_eq_iff]
  · intro r s equal
    rw [←(left r).fingerprint_set,←(right s).fingerprint_set,set equal]
  · intro r s equal
    rw [Block.fed,Block.fed,←Block.words_set,←Block.words_set,set equal]
  · intro r s equal
    rw [←Block.render_set,←Block.render_set,set equal]
  · intro r s equal
    rw [←Block.elements_set,←Block.elements_set,set equal]
  · intro f g equal es
    have matched : Packed ((start.run ds).via g) fun r => cs.foldl Command.keep (fun _ => ∅) (f r) :=
      fun r => (left (f r)).of_beq (right (g r)) (equal r)
    have ahead := (left.via f).run es
    have behind := matched.run es
    exact ⟨fun r => (ahead r).beq (behind r),ahead.answer_eq behind⟩

end Registers
end BuchiToRabin
