import Mathlib.Algebra.Order.BigOperators.Group.Finset
import Mathlib.Data.Finset.Sort
import Mathlib.Data.List.Induction
import BuchiToRabin.Proofs.NatSet.Word
namespace BuchiToRabin.Block

variable {a b : Block} {i j k n : Nat}

theorem contains_eq (b : Block) (i : Nat) : b.contains i = Word.holds (b.word (i / 64)) (i % 64) :=
  Word.and_single_ne_zero (Nat.mod_lt i (by decide))

theorem word_past (past : b.words.size ≤ k) : b.word k = 0 := by
  simp [word,past]

theorem lt_capacity (present : b.contains i = true) : i < b.capacity := by
  rw [capacity]
  by_contra far
  have past : b.words.size ≤ i / 64 := by omega
  rw [contains_eq,word_past past,Word.holds_zero] at present
  cases present

theorem size_grow (b : Block) (n : Nat) : (b.grow n).words.size = max b.words.size n := by
  simp only [grow,Array.size_append,Array.size_replicate]
  omega

-- Empty words make no difference.
theorem word_grow (b : Block) (n k : Nat) : (b.grow n).word k = b.word k := by
  simp only [word,grow,Array.getD_eq_getD_getElem?,Array.getElem?_append,Array.getElem?_replicate]
  split
  · rfl
  · rename_i past
    rw [Array.getElem?_eq_none (Nat.le_of_not_lt past)]
    split <;> rfl

@[simp] theorem contains_grow (b : Block) (n i : Nat) : (b.grow n).contains i = b.contains i := by
  rw [contains_eq,contains_eq,word_grow]

theorem contains_modify {f : UInt64 → UInt64} {count : Nat} (inside : i / 64 < b.words.size) :
    (Block.mk (b.words.modify (i / 64) f) count).contains j =
      if j / 64 = i / 64 then Word.holds (f (b.word (i / 64))) (j % 64) else b.contains j := by
  have present : b.words[i / 64]? = some (b.words[i / 64]) := Array.getElem?_eq_getElem inside
  simp only [contains_eq,word,Array.getD_eq_getD_getElem?,Array.getElem?_modify]
  by_cases same : j / 64 = i / 64
  · simp [same,present]
  · have other : ¬ i / 64 = j / 64 := fun eq => same eq.symm
    simp [same,other]

theorem contains_empty (i : Nat) : empty.contains i = false := by
  rw [contains_eq,word_past (Nat.zero_le _),Word.holds_zero]

theorem contains_reserve (n i : Nat) : (reserve n).contains i = false := by
  have nothing : (reserve n).word (i / 64) = 0 := by
    simp only [reserve,word,Array.getD_eq_getD_getElem?,Array.getElem?_replicate]
    split <;> rfl
  rw [contains_eq,nothing,Word.holds_zero]

theorem contains_clear (b : Block) (i : Nat) : b.clear.contains i = false := by
  have nothing : b.clear.word (i / 64) = 0 := by
    simp only [clear,word,Array.getD_eq_getD_getElem?,Array.getElem?_map]
    cases b.words[i / 64]? <;> rfl
  rw [contains_eq,nothing,Word.holds_zero]

theorem reserved_iff : Reserved n ↔ n + 63 < 2 ^ 64 := by
  unfold Reserved wordsFor Machine.wrap UInt64.size
  omega

theorem full_eq_ok : full n = .ok b ↔ Reserved n ∧
    ⟨.replicate (n / 64) Word.all ++ (if n % 64 = 0 then #[] else #[Word.below (n % 64)]),n⟩ = b := by
  unfold full
  split
  · rename_i room
    rw [Except.ok.injEq]
    exact (and_iff_right room).symm
  · rename_i short
    exact iff_of_false nofun fun both => short both.1

theorem contains_full (filled : full n = .ok b) (i : Nat) : b.contains i = decide (i < n) := by
  have boundary : n % 64 < 64 := Nat.mod_lt n (by decide)
  obtain ⟨-,rfl⟩ := full_eq_ok.mp filled
  rw [contains_eq]
  simp only [word,Array.getD_eq_getD_getElem?,Array.getElem?_append,Array.size_replicate,
    Array.getElem?_replicate]
  by_cases inner : i / 64 < n / 64
  · simp only [inner,if_true,Option.getD_some,Word.holds_all]
    exact decide_eq_decide.mpr (by omega)
  · rw [if_neg inner]
    by_cases whole : n % 64 = 0
    · simp only [whole,if_true,Array.getElem?_empty,Option.getD_none,Word.holds_zero]
      exact (decide_eq_false (by omega)).symm
    · rw [if_neg whole]
      by_cases last : i / 64 = n / 64
      · simp only [last,Nat.sub_self,List.getElem?_toArray,List.getElem?_cons_zero,Option.getD_some,
          Word.holds_below (Nat.le_of_lt boundary)]
        exact decide_eq_decide.mpr (by omega)
      · obtain ⟨more,apart⟩ : ∃ d, i / 64 - n / 64 = d + 1 := ⟨i / 64 - n / 64 - 1,by omega⟩
        simp only [apart,List.getElem?_toArray,List.getElem?_cons_succ,List.getElem?_nil,Option.getD_none,
          Word.holds_zero]
        exact (decide_eq_false (by omega)).symm

theorem contains_combine {f : UInt64 → UInt64 → UInt64} {g : Bool → Bool → Bool}
    (bits : ∀ v w i, i < 64 → Word.holds (f v w) i = g (Word.holds v i) (Word.holds w i)) (a b : Block)
    (i : Nat) : (combine f a b).contains i =
      (decide (i / 64 < a.words.size) && g (a.contains i) (b.contains i)) := by
  simp only [contains_eq,combine,word,Array.getD_eq_getD_getElem?,Array.getElem?_mapIdx]
  by_cases inside : i / 64 < a.words.size
  · simp [inside,bits _ _ _ (Nat.mod_lt i (by decide))]
  · simp [inside]

theorem room_grow (b : Block) (i : Nat) : i / 64 < (b.grow (i / 64 + 1)).words.size := by
  rw [size_grow]; omega

theorem contains_insert (b : Block) (i j : Nat) :
    (b.insert i).2.contains j = (decide (j = i) || b.contains j) := by
  unfold insert
  dsimp only
  rw [contains_grow]
  by_cases present : b.contains i = true
  · rw [if_pos present,contains_grow]
    by_cases same : j = i
    · simp [same,present]
    · simp [same]
  · rw [if_neg present]
    dsimp only
    rw [contains_modify (b.room_grow i),contains_grow,word_grow,Word.holds_or,
      Word.holds_single (Nat.mod_lt i (by decide))]
    by_cases near : j / 64 = i / 64
    · rw [if_pos near,←near,←contains_eq,Bool.or_comm]
      congr 1
      exact decide_eq_decide.mpr (by omega)
    · have other : j ≠ i := fun eq => near (eq ▸ rfl)
      simp [near,other]

theorem contains_erase (b : Block) (i j : Nat) :
    (b.erase i).2.contains j = (decide (j ≠ i) && b.contains j) := by
  unfold erase
  by_cases present : b.contains i = true
  · have inside : i / 64 < b.words.size := by
      have := lt_capacity present
      rw [capacity] at this
      omega
    have small : j % 64 < 64 := Nat.mod_lt j (by decide)
    rw [if_pos present]
    dsimp only
    rw [contains_modify inside,Word.holds_and,Word.holds_not,Word.holds_single (Nat.mod_lt i (by decide))]
    by_cases near : j / 64 = i / 64
    · rw [if_pos near,←near,←contains_eq,decide_eq_true small,Bool.true_and,Bool.and_comm,←decide_not]
      congr 1
      exact decide_eq_decide.mpr (by omega)
    · have other : j ≠ i := fun eq => near (eq ▸ rfl)
      simp [near,other]
  · rw [if_neg present]
    by_cases same : j = i
    · simp [same,present]
    · simp [same]

theorem contains_union (a b : Block) (i : Nat) : (a.union b).contains i = (a.contains i || b.contains i) := by
  rw [union,contains_combine (g := (· || ·)) (fun v w i _ => Word.holds_or v w i),contains_grow]
  by_cases inside : i / 64 < (a.grow b.words.size).words.size
  · simp [inside]
  · rw [size_grow] at inside
    have here : a.contains i = false := by
      rw [contains_eq,word_past (by omega),Word.holds_zero]
    have there : b.contains i = false := by
      rw [contains_eq,word_past (by omega),Word.holds_zero]
    rw [here,there,Bool.or_self,Bool.and_false]

-- Past the last word there is nothing to keep.
theorem contains_and_room (b : Block) (i : Nat) (keep : Bool) :
    (decide (i / 64 < b.words.size) && (b.contains i && keep)) = (b.contains i && keep) := by
  by_cases inside : i / 64 < b.words.size
  · simp [inside]
  · rw [contains_eq,word_past (Nat.le_of_not_lt inside),Word.holds_zero]
    simp

theorem contains_inter (a b : Block) (i : Nat) : (a.inter b).contains i = (a.contains i && b.contains i) := by
  rw [inter,contains_combine (g := (· && ·)) (fun v w i _ => Word.holds_and v w i),contains_and_room]

theorem contains_diff (a b : Block) (i : Nat) : (a.diff b).contains i = (a.contains i && !b.contains i) := by
  rw [diff,contains_combine (g := fun v w => v && !w)
    (fun v w i small => by rw [Word.holds_and,Word.holds_not,decide_eq_true small,Bool.true_and]),
    contains_and_room]

-- The elements with one word in common are as many as that word weighs.
theorem card_word {s : Finset Nat} (mem : ∀ i, b.contains i = true ↔ i ∈ s) (k : Nat) :
    {i ∈ s | i / 64 = k}.card = Word.weight (b.word k) := by
  rw [Word.weight_eq_card]
  apply Finset.card_bij (fun i _ => i % 64)
  · intro i member
    rw [Finset.mem_filter] at member
    obtain ⟨present,rfl⟩ := member
    rw [Finset.mem_filter,Finset.mem_range,←contains_eq,mem]
    exact ⟨Nat.mod_lt i (by decide),present⟩
  · intro i one j other same
    rw [Finset.mem_filter] at one other
    omega
  · intro i member
    rw [Finset.mem_filter,Finset.mem_range] at member
    obtain ⟨small,held⟩ := member
    have place : (64 * k + i) / 64 = k ∧ (64 * k + i) % 64 = i := by omega
    refine ⟨64 * k + i,?_,place.2⟩
    rw [Finset.mem_filter,←mem,contains_eq,place.1,place.2]
    exact ⟨held,rfl⟩

theorem weigh_eq_sum (words : Array UInt64) :
    weigh words = ∑ k ∈ Finset.range words.size, Word.weight (words.getD k 0) := by
  obtain ⟨ws⟩ := words
  unfold weigh
  rw [←Array.foldl_toList]
  induction ws using List.reverseRecOn with
  | nil => rfl
  | append_singleton ws w ih =>
    rw [List.foldl_append,ih,List.size_toArray,List.size_toArray,List.length_append,List.length_singleton,
      Finset.sum_range_succ]
    have last : (ws ++ [w]).toArray.getD ws.length 0 = w := by simp [Array.getD_eq_getD_getElem?]
    rw [last,List.foldl_cons,List.foldl_nil]
    congr 1
    apply Finset.sum_congr rfl
    intro k before
    rw [Finset.mem_range] at before
    simp [Array.getD_eq_getD_getElem?,List.getElem?_append_left before]

theorem weigh_eq_card {s : Finset Nat} (mem : ∀ i, b.contains i = true ↔ i ∈ s) : weigh b.words = s.card := by
  have placed : ∀ i ∈ s, i / 64 ∈ Finset.range b.words.size := by
    intro i present
    have := lt_capacity ((mem i).mpr present)
    rw [capacity] at this
    rw [Finset.mem_range]
    omega
  rw [weigh_eq_sum,Finset.card_eq_sum_card_fiberwise placed]
  exact Finset.sum_congr rfl fun k _ => (card_word mem k).symm

-- What a walk has still to meet.
def Ahead (b : Block) (c : Cursor) (i : Nat) : Prop :=
  (i / 64 = c.place ∧ Word.holds c.rest (i % 64) = true) ∨ (c.place < i / 64 ∧ b.contains i = true)

theorem ahead_start : b.Ahead b.start i ↔ b.contains i = true := by
  rw [Ahead,start,contains_eq]
  dsimp only
  constructor
  · intro ahead
    rcases ahead with ⟨first,held⟩ | ⟨-,held⟩
    · rw [first]; exact held
    · exact held
  · intro held
    by_cases first : i / 64 = 0
    · rw [first] at held; exact .inl ⟨first,held⟩
    · exact .inr ⟨Nat.pos_of_ne_zero first,held⟩

-- With nothing left of a word, a walk is before the next one.
theorem ahead_word {place : Nat} : b.Ahead ⟨place,0⟩ i ↔ b.Ahead ⟨place + 1,b.word (place + 1)⟩ i := by
  unfold Ahead
  dsimp only
  rw [Word.holds_zero,contains_eq]
  constructor
  · intro ahead
    rcases ahead with ⟨-,held⟩ | ⟨later,held⟩
    · cases held
    · by_cases next : i / 64 = place + 1
      · rw [next] at held; exact .inl ⟨next,held⟩
      · exact .inr ⟨by omega,held⟩
  · intro ahead
    rcases ahead with ⟨next,held⟩ | ⟨later,held⟩
    · rw [←next] at held; exact .inr ⟨by omega,held⟩
    · exact .inr ⟨by omega,held⟩

theorem ahead_lowest {c : Cursor} (holds : c.rest ≠ 0) :
    b.Ahead c i ↔ i = 64 * c.place + Word.lowest c.rest ∨ b.Ahead ⟨c.place,Word.dropLowest c.rest⟩ i := by
  have held := Word.holds_lowest holds
  have small := Word.holds_lt held
  unfold Ahead
  rw [Word.holds_dropLowest holds,Bool.and_eq_true,decide_eq_true_eq]
  constructor
  · intro ahead
    rcases ahead with ⟨here,own⟩ | later
    · by_cases lowest : i % 64 = Word.lowest c.rest
      · exact .inl (by omega)
      · exact .inr (.inl ⟨here,own,lowest⟩)
    · exact .inr (.inr later)
  · intro ahead
    rcases ahead with rfl | ⟨here,own,-⟩ | later
    · have place : (64 * c.place + Word.lowest c.rest) / 64 = c.place ∧
          (64 * c.place + Word.lowest c.rest) % 64 = Word.lowest c.rest := by omega
      exact .inl ⟨place.1,by rw [place.2]; exact held⟩
    · exact .inl ⟨here,own⟩
    · exact .inr later

theorem lt_of_ahead {c : Cursor} (holds : c.rest ≠ 0) (ahead : b.Ahead ⟨c.place,Word.dropLowest c.rest⟩ i) :
    64 * c.place + Word.lowest c.rest < i := by
  have small := Word.holds_lt (Word.holds_lowest holds)
  rcases ahead with ⟨here,own⟩ | ⟨later,-⟩
  · dsimp only at here own
    rw [Word.holds_dropLowest holds,Bool.and_eq_true,decide_eq_true_eq] at own
    have le := Word.lowest_le own.1
    have ne := own.2
    omega
  · dsimp only at later
    omega

theorem next_none {c : Cursor} (done : b.next c = none) : ¬ b.Ahead c i := by
  fun_induction next b c with
  | case1 c holds => cases done
  | case2 c nothing more ih =>
    obtain ⟨place,rest⟩ := c
    obtain rfl : rest = 0 := not_not.mp nothing
    rw [ahead_word]
    exact ih done
  | case3 c nothing last =>
    obtain ⟨place,rest⟩ := c
    obtain rfl : rest = 0 := not_not.mp nothing
    rintro (⟨-,held⟩ | ⟨later,present⟩)
    · dsimp only at held
      rw [Word.holds_zero] at held
      cases held
    · dsimp only at later last
      rw [contains_eq,word_past (by omega),Word.holds_zero] at present
      cases present

-- A step gives the least of what is ahead, and leaves the rest of it.
theorem next_some {c d : Cursor} (step : b.next c = some (i,d)) (j : Nat) :
    (b.Ahead c j ↔ j = i ∨ b.Ahead d j) ∧ (b.Ahead d j → i < j) := by
  fun_induction next b c with
  | case1 c holds =>
    cases step
    exact ⟨ahead_lowest holds,lt_of_ahead holds⟩
  | case2 c nothing more ih =>
    obtain ⟨place,rest⟩ := c
    obtain rfl : rest = 0 := not_not.mp nothing
    rw [ahead_word]
    exact ih step
  | case3 c nothing last => cases step

theorem walk_exact (b : Block) (c : Cursor) (met : Array Nat) : ∃ l, (b.walk c met).toList = met.toList ++ l ∧
    l.Pairwise (· < ·) ∧ ∀ i, i ∈ l ↔ b.Ahead c i := by
  fun_induction walk b c met with
  | case1 c met done =>
    exact ⟨[],(List.append_nil _).symm,.nil,fun i => iff_of_false List.not_mem_nil (next_none done)⟩
  | case2 c met i d step ih =>
    obtain ⟨l,collected,ascending,mem⟩ := ih
    refine ⟨i :: l,?_,?_,?_⟩
    · rw [collected,Array.toList_push,List.append_assoc,List.singleton_append]
    · exact .cons (fun j later => (next_some step j).2 ((mem j).mp later)) ascending
    · intro j
      rw [List.mem_cons,mem,(next_some step j).1]

theorem elements_exact (b : Block) : b.elements.Pairwise (· < ·) ∧ ∀ i, i ∈ b.elements ↔ b.contains i = true := by
  obtain ⟨l,collected,ascending,mem⟩ := b.walk_exact b.start #[]
  rw [List.nil_append] at collected
  rw [elements,collected]
  exact ⟨ascending,fun i => (mem i).trans ahead_start⟩

theorem min?_eq (b : Block) : b.min? = b.elements.head? := by
  rw [min?,elements,walk]
  split
  · rename_i done
    rw [done]
    rfl
  · rename_i i d step
    obtain ⟨l,collected,-⟩ := b.walk_exact d (#[].push i)
    rw [step,collected]
    rfl

theorem firstAbsent_exact (b : Block) : b.contains b.firstAbsent = false ∧
    ∀ i < b.firstAbsent, b.contains i = true := by
  have full {k : Nat} (inside : k < b.words.size) (whole : ¬ (b.words[k] != Word.all) = true) :
      b.word k = Word.all := by
    rw [word,Array.getD_eq_getD_getElem?,Array.getElem?_eq_getElem inside]
    simpa using whole
  have small (i : Nat) : i % 64 < 64 := Nat.mod_lt i (by decide)
  unfold firstAbsent
  split
  · rename_i k found
    obtain ⟨inside,gap,before⟩ := Array.findIdx?_eq_some_iff_getElem.mp found
    have open' : b.word k ≠ Word.all := by
      rw [word,Array.getD_eq_getD_getElem?,Array.getElem?_eq_getElem inside]
      simpa using gap
    obtain ⟨bound,clear,set⟩ := Word.lowest_not open'
    have place : (64 * k + Word.lowest (~~~b.word k)) / 64 = k ∧
        (64 * k + Word.lowest (~~~b.word k)) % 64 = Word.lowest (~~~b.word k) := by omega
    rw [contains_eq,place.1,place.2]
    refine ⟨clear,?_⟩
    intro i below
    rw [contains_eq]
    by_cases last : i / 64 = k
    · rw [last]
      exact set _ (by omega)
    · have earlier : i / 64 < k := by omega
      rw [full (Nat.lt_trans earlier inside) (before _ earlier),Word.holds_all,decide_eq_true (small i)]
  · rename_i none
    refine ⟨?_,?_⟩
    · rw [Bool.eq_false_iff]
      exact fun present => Nat.lt_irrefl _ (lt_capacity present)
    · intro i below
      rw [capacity] at below
      have inside : i / 64 < b.words.size := by omega
      have whole := Array.findIdx?_eq_none_iff.mp none _ (Array.getElem_mem inside)
      rw [contains_eq,full inside (whole ▸ Bool.false_ne_true),Word.holds_all,decide_eq_true (small i)]

theorem intersects_iff : a.intersects b = true ↔ ∃ i, a.contains i = true ∧ b.contains i = true := by
  unfold intersects
  rw [Array.any_eq_true]
  simp only [Array.size_zipWith,Array.getElem_zipWith,bne_iff_ne]
  constructor
  · intro meets
    obtain ⟨k,inside,shared⟩ := meets
    rw [Ne,Word.eq_zero_iff,not_forall] at shared
    obtain ⟨i,held⟩ := shared
    rw [Bool.not_eq_false,Word.holds_and,Bool.and_eq_true] at held
    have bound := Word.holds_lt held.1
    have place : (64 * k + i) / 64 = k ∧ (64 * k + i) % 64 = i := by omega
    refine ⟨64 * k + i,?_⟩
    have left : k < a.words.size := by omega
    have right : k < b.words.size := by omega
    simp only [contains_eq,place.1,place.2,word,Array.getD_eq_getD_getElem?,Array.getElem?_eq_getElem left,
      Array.getElem?_eq_getElem right,Option.getD_some]
    exact held
  · intro shared
    obtain ⟨i,left,right⟩ := shared
    have inLeft := lt_capacity left
    have inRight := lt_capacity right
    rw [capacity] at inLeft inRight
    have first : i / 64 < a.words.size := by omega
    have second : i / 64 < b.words.size := by omega
    refine ⟨i / 64,by omega,?_⟩
    rw [Ne,Word.eq_zero_iff,not_forall]
    refine ⟨i % 64,?_⟩
    simp only [contains_eq,word,Array.getD_eq_getD_getElem?,Array.getElem?_eq_getElem first,
      Array.getElem?_eq_getElem second,Option.getD_some] at left right
    rw [Word.holds_and,left,right]
    decide

theorem subset_iff : a.subset b = true ↔ ∀ i, a.contains i = true → b.contains i = true := by
  unfold subset
  rw [Array.all_eq_true]
  simp only [Array.size_mapIdx,Array.getElem_mapIdx,beq_iff_eq]
  constructor
  · intro within i present
    have inside := lt_capacity present
    rw [capacity] at inside
    have room : i / 64 < a.words.size := by omega
    have none := Word.eq_zero_iff.mp (within (i / 64) room) (i % 64)
    rw [contains_eq] at present ⊢
    have small : i % 64 < 64 := Nat.mod_lt i (by decide)
    simp only [word,Array.getD_eq_getD_getElem?,Array.getElem?_eq_getElem room,Option.getD_some] at present
    rw [Word.holds_and,Word.holds_not,present,decide_eq_true small] at none
    simpa using none
  · intro within k room
    apply Word.eq_zero_iff.mpr
    intro i
    rw [Word.holds_and,Word.holds_not,Bool.eq_false_iff]
    intro stray
    rw [Bool.and_eq_true,Bool.and_eq_true,decide_eq_true_eq,Bool.not_eq_true'] at stray
    obtain ⟨held,small,absent⟩ := stray
    have place : (64 * k + i) / 64 = k ∧ (64 * k + i) % 64 = i := by omega
    have present := within (64 * k + i)
    simp only [contains_eq,place.1,place.2,word,Array.getD_eq_getD_getElem?,Array.getElem?_eq_getElem room,
      Option.getD_some] at present
    have := present held
    rw [word,Array.getD_eq_getD_getElem?] at absent
    rw [this] at absent
    cases absent

end BuchiToRabin.Block
