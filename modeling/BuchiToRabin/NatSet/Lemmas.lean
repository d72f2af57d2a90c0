import BuchiToRabin.NatSet.Basic
namespace BuchiToRabin.NatSet

variable {s t : NatSet} {i j n : Nat}

theorem mem_iff : i ∈ s ↔ s.bits.testBit i = true := Iff.rfl

@[ext] theorem ext (same : ∀ i, i ∈ s ↔ i ∈ t) : s = t := by
  obtain ⟨a⟩ := s
  obtain ⟨b⟩ := t
  exact congrArg NatSet.mk (Nat.eq_of_testBit_eq fun i => Bool.eq_iff_iff.mpr (same i))

@[simp] theorem contains_eq_true : s.contains i = true ↔ i ∈ s := Iff.rfl
@[simp] theorem contains_eq_false : s.contains i = false ↔ i ∉ s := by
  rw [←contains_eq_true]; cases s.contains i <;> simp

@[simp] theorem not_mem_empty : i ∉ (∅ : NatSet) := by
  show ¬ Nat.testBit 0 i = true
  simp

@[simp] theorem mem_union : i ∈ s ∪ t ↔ i ∈ s ∨ i ∈ t := by
  show (s.bits ||| t.bits).testBit i = true ↔ _
  simp [mem_iff]

@[simp] theorem mem_inter : i ∈ s ∩ t ↔ i ∈ s ∧ i ∈ t := by
  show (s.bits &&& t.bits).testBit i = true ↔ _
  simp [mem_iff]

@[simp] theorem mem_sdiff : i ∈ s \ t ↔ i ∈ s ∧ i ∉ t := by
  show (s.bits ^^^ (s.bits &&& t.bits)).testBit i = true ↔ _
  simp only [mem_iff,Nat.testBit_xor,Nat.testBit_and]
  cases s.bits.testBit i <;> cases t.bits.testBit i <;> simp

theorem testBit_one_shift : (1 <<< j).testBit i = decide (i = j) := by
  rw [Nat.one_shiftLeft,Nat.testBit_two_pow]
  exact decide_eq_decide.mpr eq_comm

@[simp] theorem mem_insert : i ∈ s.insert j ↔ i = j ∨ i ∈ s := by
  show (s.bits ||| 1 <<< j).testBit i = true ↔ _
  rw [Nat.testBit_or,testBit_one_shift,Bool.or_eq_true,decide_eq_true_eq]
  exact or_comm

@[simp] theorem mem_erase : i ∈ s.erase j ↔ i ≠ j ∧ i ∈ s := by
  unfold erase
  split
  · rename_i present
    show (s.bits ^^^ 1 <<< j).testBit i = true ↔ _
    rw [Nat.testBit_xor,testBit_one_shift]
    by_cases same : i = j
    · subst same; simp [mem_iff.mp present]
    · simp [same,mem_iff]
  · rename_i absent
    exact ⟨fun present => ⟨fun same => absent (same ▸ present),present⟩,And.right⟩

@[simp] theorem mem_full : i ∈ full n ↔ i < n := by
  show (1 <<< n - 1).testBit i = true ↔ _
  rw [Nat.one_shiftLeft,Nat.testBit_two_pow_sub_one,decide_eq_true_eq]

@[simp] theorem isEmpty_iff : s.isEmpty = true ↔ s = ∅ := by
  cases s with
  | mk b => show (b == 0) = true ↔ NatSet.mk b = NatSet.mk 0; simp

theorem eq_empty_iff : s = ∅ ↔ ∀ i, i ∉ s :=
  ⟨fun e i => e ▸ not_mem_empty,fun none => ext fun i => by simp [none i]⟩

theorem isEmpty_eq_false : s.isEmpty = false ↔ ∃ i, i ∈ s := by
  rw [←Bool.not_eq_true,isEmpty_iff,eq_empty_iff]; simp

theorem intersects_iff : s.intersects t = true ↔ ∃ i, i ∈ s ∧ i ∈ t := by
  simp [intersects,isEmpty_eq_false]

theorem subset_iff_inter : s ⊆ t ↔ s ∩ t = s :=
  ⟨fun sub => ext fun i => by simpa using sub i,fun same i present => (mem_inter.mp (same ▸ present)).2⟩

instance (s t : NatSet) : Decidable (s ⊆ t) := decidable_of_iff _ subset_iff_inter.symm

theorem lt_bound (present : i ∈ s) : i < s.bound := by
  have set : s.bits.testBit i = true := present
  have nonzero : s.bits ≠ 0 := by intro zero; simp [zero] at set
  rw [bound,if_neg nonzero]
  have large := Nat.ge_two_pow_of_testBit set
  have := (Nat.le_log2 nonzero).mpr large
  omega

theorem bound_mem (nonempty : s ≠ ∅) : s.bound - 1 ∈ s := by
  have nonzero : s.bits ≠ 0 := fun zero => nonempty (by cases s; cases zero; rfl)
  show s.bits.testBit _ = true
  rw [bound,if_neg nonzero,Nat.add_sub_cancel]
  exact Nat.testBit_log2 nonzero

theorem bound_le_iff : s.bound ≤ n ↔ ∀ i ∈ s, i < n := by
  constructor
  · exact fun le i present => Nat.lt_of_lt_of_le (lt_bound present) le
  · intro below
    by_cases empty : s = ∅
    · subst empty; exact Nat.zero_le _
    · have := below _ (bound_mem empty); omega

@[simp] theorem bound_not_mem : s.bound ∉ s := fun present => Nat.lt_irrefl _ (lt_bound present)

theorem width_succ (d : Nat) : 64 <<< (d + 1) = 64 <<< d + 64 <<< d := by
  rw [Nat.shiftLeft_succ]; omega

theorem wordCount_le (s : NatSet) : s.wordCount ≤ 1 <<< s.depth := by
  have := Nat.lt_log2_self (n := 2 * s.wordCount - 1)
  rw [Nat.pow_succ] at this
  rw [Nat.one_shiftLeft,depth]
  omega

theorem bound_le_width (s : NatSet) : s.bound ≤ 64 <<< s.depth := by
  have enough := s.wordCount_le
  rw [Nat.one_shiftLeft,wordCount] at enough
  rw [Nat.shiftLeft_eq]
  omega

@[simp] theorem testBit_lower (d b : Nat) : (lower d b).testBit i = (decide (i < 64 <<< d) && b.testBit i) := by
  rw [lower,Nat.one_shiftLeft,Nat.testBit_and,Nat.testBit_two_pow_sub_one,Bool.and_comm]

@[simp] theorem testBit_upper (d b : Nat) : (upper d b).testBit i = b.testBit (64 <<< d + i) := by
  rw [upper,Nat.testBit_shiftRight]

theorem mem_places : ∀ {n start b : Nat}, i ∈ places n start b ↔
    start ≤ i ∧ i < start + n ∧ b.testBit (i - start) = true
  | 0,start,b => by
    rw [places]
    constructor
    · nofun
    · intro ⟨low,high,_⟩
      omega
  | n+1,start,b => by
    have lowest : b.testBit 0 = decide (b % 2 = 1) := Nat.testBit_zero b
    have later : start < i → b.testBit (i - start) = (b / 2).testBit (i - (start + 1)) := fun lt => by
      have : i - start = i - (start + 1) + 1 := by omega
      rw [this,Nat.testBit_succ]
    rw [places]
    split
    · rename_i zero
      constructor
      · nofun
      · rintro ⟨_,_,set⟩
        rw [zero,Nat.zero_testBit] at set
        cases set
    · split
      · rename_i odd
        rw [List.mem_cons,mem_places]
        constructor
        · rintro (rfl | ⟨low,high,set⟩)
          · exact ⟨Nat.le_refl _,by omega,by rw [Nat.sub_self,lowest]; exact decide_eq_true odd⟩
          · exact ⟨by omega,by omega,later low ▸ set⟩
        · rintro ⟨low,high,set⟩
          rcases Nat.eq_or_lt_of_le low with same | lt
          · exact .inl same.symm
          · exact .inr ⟨lt,by omega,later lt ▸ set⟩
      · rename_i even
        rw [mem_places]
        constructor
        · rintro ⟨low,high,set⟩
          exact ⟨by omega,by omega,later low ▸ set⟩
        · rintro ⟨low,high,set⟩
          rcases Nat.eq_or_lt_of_le low with rfl | lt
          · rw [Nat.sub_self,lowest] at set
            exact absurd (of_decide_eq_true set) even
          · exact ⟨lt,by omega,later lt ▸ set⟩

theorem mem_ones : ∀ {d start b : Nat}, i ∈ ones d start b ↔
    start ≤ i ∧ i < start + 64 <<< d ∧ b.testBit (i - start) = true
  | 0,_,_ => mem_places
  | d+1,start,b => by
    rw [ones]
    split
    · rename_i zero
      constructor
      · nofun
      · rintro ⟨_,_,set⟩
        rw [zero,Nat.zero_testBit] at set
        cases set
    · rw [List.mem_append,mem_ones,mem_ones,testBit_lower,testBit_upper,Bool.and_eq_true,decide_eq_true_eq,
        width_succ]
      constructor
      · rintro (⟨low,high,_,set⟩ | ⟨low,high,set⟩)
        · exact ⟨low,by omega,set⟩
        · have : 64 <<< d + (i - (start + 64 <<< d)) = i - start := by omega
          exact ⟨by omega,by omega,this ▸ set⟩
      · rintro ⟨low,high,set⟩
        by_cases first : i < start + 64 <<< d
        · exact .inl ⟨low,first,by omega,set⟩
        · have : 64 <<< d + (i - (start + 64 <<< d)) = i - start := by omega
          exact .inr ⟨by omega,by omega,this.symm ▸ set⟩

@[simp] theorem mem_elements : i ∈ s.elements ↔ i ∈ s := by
  rw [elements,mem_ones,Nat.zero_add,Nat.sub_zero]
  exact ⟨fun found => found.2.2,fun present =>
    ⟨Nat.zero_le _,Nat.lt_of_lt_of_le (lt_bound present) s.bound_le_width,present⟩⟩

theorem places_ascending : ∀ n start b, (places n start b).Pairwise (· < ·)
  | 0,_,_ => .nil
  | n+1,start,b => by
    rw [places]
    split
    · exact .nil
    · split
      · exact .cons (fun i later => (mem_places.mp later).1) (places_ascending n _ _)
      · exact places_ascending n _ _

theorem ones_ascending : ∀ d start b, (ones d start b).Pairwise (· < ·)
  | 0,_,_ => places_ascending _ _ _
  | d+1,start,b => by
    rw [ones]
    split
    · exact .nil
    · refine List.pairwise_append.mpr ⟨ones_ascending d _ _,ones_ascending d _ _,?_⟩
      intro i left j right
      exact Nat.lt_of_lt_of_le (mem_ones.mp left).2.1 (mem_ones.mp right).1

theorem elements_ascending (s : NatSet) : s.elements.Pairwise (· < ·) := ones_ascending _ _ _

theorem elements_nodup (s : NatSet) : s.elements.Nodup :=
  (elements_ascending s).imp fun lt => Nat.ne_of_lt lt

theorem lower_allOnes (d : Nat) : lower d (1 <<< (64 <<< (d + 1)) - 1) = 1 <<< (64 <<< d) - 1 := by
  apply Nat.eq_of_testBit_eq
  intro i
  rw [testBit_lower,Nat.one_shiftLeft,Nat.one_shiftLeft,Nat.testBit_two_pow_sub_one,
    Nat.testBit_two_pow_sub_one,width_succ,←Bool.decide_and]
  exact decide_eq_decide.mpr (by omega)

theorem upper_allOnes (d : Nat) : upper d (1 <<< (64 <<< (d + 1)) - 1) = 1 <<< (64 <<< d) - 1 := by
  apply Nat.eq_of_testBit_eq
  intro i
  rw [testBit_upper,Nat.one_shiftLeft,Nat.one_shiftLeft,Nat.testBit_two_pow_sub_one,
    Nat.testBit_two_pow_sub_one,width_succ]
  exact decide_eq_decide.mpr (by omega)

theorem places_length : ∀ n start b, (places n start b).length = count n b
  | 0,_,_ => rfl
  | n+1,start,b => by
    rw [places,count]
    split
    · rfl
    · split
      · rename_i odd
        rw [List.length_cons,places_length n,odd,Nat.add_comm]
      · rename_i even
        rw [places_length n,Nat.mod_two_ne_one.mp even,Nat.zero_add]

theorem allOnes_ne_zero (d : Nat) : 1 <<< (64 <<< d) - 1 ≠ 0 := fun zero => by
  have lowest : (1 <<< (64 <<< d) - 1).testBit 0 = false := by rw [zero,Nat.zero_testBit]
  rw [Nat.one_shiftLeft,Nat.testBit_two_pow_sub_one,Nat.shiftLeft_eq] at lowest
  exact of_decide_eq_false lowest (Nat.mul_pos (by decide) (Nat.two_pow_pos d))

theorem ones_allOnes_length : ∀ d start, (ones d start (1 <<< (64 <<< d) - 1)).length = 64 <<< d
  | 0,start => by rw [ones,places_length]; decide
  | d+1,start => by
    rw [ones,if_neg (allOnes_ne_zero _),lower_allOnes,upper_allOnes,List.length_append,
      ones_allOnes_length d,ones_allOnes_length d,width_succ]

theorem ones_length : ∀ d start b, (ones d start b).length = countOnes d b
  | 0,_,_ => places_length _ _ _
  | d+1,start,b => by
    rw [countOnes]
    split
    · rename_i zero
      rw [ones,if_pos zero]; rfl
    · rename_i nonzero
      split
      · rename_i all
        rw [all,ones_allOnes_length]
      · rw [ones,if_neg nonzero,List.length_append,ones_length d,ones_length d]

theorem elements_length (s : NatSet) : s.elements.length = s.card := ones_length _ _ _

@[simp] theorem elements_empty : (∅ : NatSet).elements = [] := rfl

theorem mem_foldl_insert : ∀ (is : List Nat) (s : NatSet), i ∈ is.foldl insert s ↔ i ∈ is ∨ i ∈ s
  | [],s => by simp
  | j :: is,s => by rw [List.foldl_cons,mem_foldl_insert is]; simp only [mem_insert,List.mem_cons]; grind

@[simp] theorem mem_ofList {is : List Nat} : i ∈ ofList is ↔ i ∈ is := by
  simp [ofList,mem_foldl_insert]

@[simp] theorem ofList_elements (s : NatSet) : ofList s.elements = s := ext fun i => by simp

theorem turn_even (b : Nat) : (2 * b) ^^^ (2 * b + 1) = 1 := by
  apply Nat.eq_of_testBit_eq
  intro i
  have halves : 2 * b / 2 = b ∧ (2 * b + 1) / 2 = b := by omega
  cases i with
  | zero =>
    have parity : 2 * b % 2 = 0 ∧ (2 * b + 1) % 2 = 1 := by omega
    rw [Nat.testBit_xor,Nat.testBit_zero,Nat.testBit_zero,parity.1,parity.2]
    rfl
  | succ i =>
    rw [Nat.testBit_xor,Nat.testBit_succ,Nat.testBit_succ,halves.1,halves.2,Nat.testBit_succ,Bool.xor_self]
    exact (Nat.zero_testBit i).symm

theorem turn_odd (b : Nat) : (2 * b + 1) ^^^ (2 * b + 1 + 1) = 2 * (b ^^^ (b + 1)) + 1 := by
  apply Nat.eq_of_testBit_eq
  intro i
  have halves : (2 * b + 1) / 2 = b ∧ (2 * b + 1 + 1) / 2 = b + 1 := by omega
  have half : (2 * (b ^^^ (b + 1)) + 1) / 2 = b ^^^ (b + 1) := by omega
  cases i with
  | zero =>
    have parity : (2 * b + 1) % 2 = 1 ∧ (2 * b + 1 + 1) % 2 = 0 ∧ (2 * (b ^^^ (b + 1)) + 1) % 2 = 1 := by omega
    rw [Nat.testBit_xor,Nat.testBit_zero,Nat.testBit_zero,Nat.testBit_zero,parity.1,parity.2.1,parity.2.2]
    rfl
  | succ i =>
    rw [Nat.testBit_xor,Nat.testBit_succ,Nat.testBit_succ,Nat.testBit_succ,halves.1,halves.2,half,
      Nat.testBit_xor]

theorem turn_ne_zero (b : Nat) : b ^^^ (b + 1) ≠ 0 := by
  intro zero
  have same : b = b + 1 := Nat.eq_of_testBit_eq fun i => by
    have bit : (b ^^^ (b + 1)).testBit i = false := by rw [zero]; exact Nat.zero_testBit i
    rw [Nat.testBit_xor] at bit
    simpa using bit
  omega

theorem turn_log2 (b : Nat) : b.testBit (b ^^^ (b + 1)).log2 = false ∧
    ∀ i < (b ^^^ (b + 1)).log2, b.testBit i = true := by
  induction b using Nat.strongRecOn with
  | ind b ih =>
    by_cases even : b % 2 = 0
    · obtain ⟨c,rfl⟩ : ∃ c, b = 2 * c := ⟨b / 2,by omega⟩
      rw [turn_even]
      refine ⟨?_,nofun⟩
      show (2 * c).testBit 0 = false
      rw [Nat.testBit_zero]
      exact decide_eq_false (by omega)
    · obtain ⟨c,rfl⟩ : ∃ c, b = 2 * c + 1 := ⟨b / 2,by omega⟩
      have half : (2 * c + 1) / 2 = c := by omega
      have up : ((2 * c + 1) ^^^ (2 * c + 1 + 1)).log2 = (c ^^^ (c + 1)).log2 + 1 := by
        have positive := turn_ne_zero c
        have back : (2 * (c ^^^ (c + 1)) + 1) / 2 = c ^^^ (c + 1) := by omega
        rw [turn_odd,Nat.log2_def,if_pos (by omega),back]
      obtain ⟨clear,set⟩ := ih c (by omega)
      rw [up]
      refine ⟨?_,?_⟩
      · rw [Nat.testBit_succ,half]; exact clear
      · intro i below
        cases i with
        | zero => simp [Nat.testBit_zero]
        | succ i => rw [Nat.testBit_succ,half]; exact set i (by omega)

theorem firstAbsent_not_mem (s : NatSet) : s.firstAbsent ∉ s :=
  contains_eq_false.mp (turn_log2 s.bits).1

theorem mem_of_lt_firstAbsent (below : i < s.firstAbsent) : i ∈ s := (turn_log2 s.bits).2 i below

end BuchiToRabin.NatSet
