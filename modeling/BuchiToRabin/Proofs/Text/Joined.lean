import BuchiToRabin.Text.Lines
namespace BuchiToRabin.Text

-- A numeral ends before such characters.
def Stops (r : List Char) : Prop := ∀ c ∈ r.head?, c.isDigit = false

theorem stops_cons {c : Char} {r : List Char} (other : c.isDigit = false) : Stops (c :: r) := by
  intro d first
  cases first
  exact other

theorem isDigit_of_mem_repr {n : Nat} {c : Char} (digit : c ∈ n.repr.toList) : c.isDigit = true := by
  rw [Nat.toList_repr] at digit
  exact Nat.isDigit_of_mem_toDigits (by decide) (by decide) digit

theorem not_mem_repr {c : Char} (other : c.isDigit = false) (n : Nat) : c ∉ n.repr.toList := by
  intro digit
  rw [isDigit_of_mem_repr digit] at other
  cases other

theorem takeWhile_repr (n : Nat) {r : List Char} (stop : Stops r) :
    (n.repr.toList ++ r).takeWhile Char.isDigit = n.repr.toList := by
  have rest : r.takeWhile Char.isDigit = [] := by
    cases r with
    | nil => rfl
    | cons c r => exact List.takeWhile_cons_of_neg (by simp [stop c rfl])
  rw [List.takeWhile_append_of_pos fun c digit => isDigit_of_mem_repr digit,rest,List.append_nil]

theorem repr_toList_inj {m n : Nat} (same : m.repr.toList = n.repr.toList) : m = n := by
  rw [Nat.toList_repr,Nat.toList_repr] at same
  have value := congrArg (Nat.ofDigitChars 10 · 0) same
  simpa [Nat.ofDigitChars_toDigits] using value

-- A numeral in front of something else can be told from it.
theorem repr_append_inj {m n : Nat} {r s : List Char} (stop : Stops r) (stop' : Stops s)
    (same : m.repr.toList ++ r = n.repr.toList ++ s) : m = n ∧ r = s := by
  have digits : m.repr.toList = n.repr.toList := by
    rw [←takeWhile_repr m stop,same,takeWhile_repr n stop']
  rw [digits] at same
  exact ⟨repr_toList_inj digits,List.append_cancel_left same⟩

theorem repr_ne_other {n : Nat} {c : Char} {r s : List Char} (other : c.isDigit = false) :
    c :: r ≠ n.repr.toList ++ s := by
  intro same
  cases shown : n.repr.toList with
  | nil => exact Nat.repr_ne_empty (String.toList_inj.mp shown)
  | cons d ds =>
    rw [shown] at same
    have digit : d.isDigit = true := isDigit_of_mem_repr (shown ▸ List.mem_cons_self)
    rw [←(List.cons.inj same).1,other] at digit
    cases digit

-- The items after a first one, each behind its separator.
def trail (sep : List Char) (items : List (List Char)) : List Char := items.flatMap (sep ++ ·)

theorem intercalate_cons (sep first : List Char) (items : List (List Char)) :
    sep.intercalate (first :: items) = first ++ trail sep items := by
  induction items generalizing first with
  | nil => simp [trail]
  | cons second items ih =>
    rw [List.intercalate_cons_cons,ih second]
    simp [trail]

theorem not_mem_intercalate {c : Char} {sep : List Char} {items : List (List Char)} (outside : c ∉ sep)
    (clean : ∀ item ∈ items, c ∉ item) : c ∉ sep.intercalate items := by
  cases items with
  | nil => exact List.not_mem_nil
  | cons first items =>
    rw [intercalate_cons,trail,List.mem_append,List.mem_flatMap]
    rintro (inside | ⟨item,listed,inside⟩)
    · exact clean first (.head _) inside
    · rcases List.mem_append.mp inside with inside | inside
      · exact outside inside
      · exact clean item (.tail _ listed) inside

theorem not_mem_joined_numerals {c : Char} {sep : List Char} (other : c.isDigit = false) (outside : c ∉ sep)
    (ns : List Nat) : c ∉ sep.intercalate (ns.map (·.repr.toList)) := by
  refine not_mem_intercalate outside fun item listed => ?_
  obtain ⟨n,-,rfl⟩ := List.mem_map.mp listed
  exact not_mem_repr other n

section
variable {c close : Char} {sep : List Char}

theorem stops_trail (other : c.isDigit = false) (closes : close.isDigit = false) (items : List (List Char))
    (r : List Char) : Stops (trail (c :: sep) items ++ close :: r) := by
  cases items with
  | nil => exact stops_cons closes
  | cons item items => exact stops_cons other

theorem trail_numerals_inj (other : c.isDigit = false) (closes : close.isDigit = false) (apart : c ≠ close)
    (xs : List Nat) : ∀ {ys : List Nat} {r s : List Char},
      trail (c :: sep) (xs.map (·.repr.toList)) ++ close :: r =
        trail (c :: sep) (ys.map (·.repr.toList)) ++ close :: s → xs = ys ∧ r = s := by
  induction xs with
  | nil =>
    intro ys r s same
    cases ys with
    | nil => exact ⟨rfl,(List.cons.inj same).2⟩
    | cons y ys => exact absurd (List.cons.inj same).1.symm apart
  | cons x xs ih =>
    intro ys r s same
    cases ys with
    | nil => exact absurd (List.cons.inj same).1 apart
    | cons y ys =>
      simp only [trail,List.map_cons,List.flatMap_cons,List.append_assoc,List.append_cancel_left_eq] at same
      obtain ⟨rfl,rest⟩ := repr_append_inj (stops_trail other closes _ r) (stops_trail other closes _ s) same
      obtain ⟨rfl,last⟩ := ih rest
      exact ⟨rfl,last⟩

-- Numerals in a row can be told from the text, when what separates them and what closes the row are no digits.
-- Behind a separator the first of them is like the others.
theorem joined_numerals_inj (other : c.isDigit = false) (closes : close.isDigit = false) (apart : c ≠ close)
    {xs ys : List Nat} {r s : List Char}
    (same : (c :: sep).intercalate (xs.map (·.repr.toList)) ++ close :: r =
      (c :: sep).intercalate (ys.map (·.repr.toList)) ++ close :: s) : xs = ys ∧ r = s := by
  cases xs with
  | nil =>
    cases ys with
    | nil => exact ⟨rfl,(List.cons.inj same).2⟩
    | cons y ys =>
      rw [List.map_cons,intercalate_cons,List.append_assoc] at same
      exact absurd same (repr_ne_other closes)
  | cons x xs =>
    rw [List.map_cons,intercalate_cons,List.append_assoc] at same
    cases ys with
    | nil => exact absurd same.symm (repr_ne_other closes)
    | cons y ys =>
      rw [List.map_cons,intercalate_cons,List.append_assoc] at same
      apply trail_numerals_inj other closes apart (x :: xs)
      simpa only [trail,List.map_cons,List.flatMap_cons,List.append_assoc,List.append_cancel_left_eq] using same

end

-- What follows the last of the ends stands in one piece.
theorem splitOnP_append {p : α → Bool} {ys : List α} (plain : ∀ y ∈ ys, p y = false) (xs : List α) :
    ∃ pieces last, (xs ++ ys).splitOnP p = pieces ++ [last ++ ys] := by
  induction xs with
  | nil => exact ⟨[],[],List.splitOnP_eq_singleton plain⟩
  | cons x xs ih =>
    obtain ⟨pieces,last,split⟩ := ih
    rw [List.cons_append,List.splitOnP_cons_eq_if_modifyHead,split]
    split
    · exact ⟨[] :: pieces,last,rfl⟩
    · cases pieces with
      | nil => exact ⟨[],x :: last,rfl⟩
      | cons first pieces => exact ⟨(x :: first) :: pieces,last,rfl⟩

section
variable [BEq α] [LawfulBEq α] {lineEnd : α}

-- Behind a line end the lines are those of the rest, whatever stands in front.
theorem lines_append (xs ys : List α) :
    lines lineEnd (xs ++ lineEnd :: ys) = xs.splitOnP (· == lineEnd) ++ lines lineEnd ys := by
  have none : ∀ y ∈ ([] : List α), (y == lineEnd) = false := nofun
  obtain ⟨pieces,last,split⟩ := splitOnP_append none ys
  rw [List.append_nil,List.append_nil] at split
  have whole : (xs ++ lineEnd :: ys).splitOnP (· == lineEnd) = xs.splitOnP (· == lineEnd) ++ (pieces ++ [last]) := by
    rw [←split]
    exact List.splitOnP_append_cons xs ys (beq_self_eq_true lineEnd)
  unfold lines
  rw [whole,split,←List.append_assoc]
  simp only [List.getLast?_concat,List.dropLast_concat]
  split
  · rfl
  · exact List.append_assoc ..

theorem lines_flatMap {ls : List (List α)} (within : ∀ line ∈ ls, lineEnd ∉ line) :
    lines lineEnd (ls.flatMap (· ++ [lineEnd])) = ls := by
  induction ls with
  | nil => rfl
  | cons line ls ih =>
    rw [List.flatMap_cons,List.append_assoc,List.singleton_append,lines_cons (within line (.head _)),
      ih fun l later => within l (.tail _ later)]

end
end BuchiToRabin.Text
