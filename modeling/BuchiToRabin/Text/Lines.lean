namespace BuchiToRabin.Text

-- The characters with the Unicode property White_Space.
def isBlank (c : Char) : Bool :=
  let n := c.val
  (0x09 ≤ n && n ≤ 0x0D) || n == 0x20 || n == 0x85 || n == 0xA0 || n == 0x1680 ||
    (0x2000 ≤ n && n ≤ 0x200A) || n == 0x2028 || n == 0x2029 || n == 0x202F || n == 0x205F || n == 0x3000

def trim (cs : List Char) : List Char :=
  ((cs.dropWhile isBlank).reverse.dropWhile isBlank).reverse

def fields (cs : List Char) : List (List Char) := (cs.splitOnP isBlank).filter (!·.isEmpty)

def digitValue (c : Char) : Nat := c.toNat - '0'.toNat

def decimalValue (ds : List Char) : Nat := ds.foldl (fun n d => 10 * n + digitValue d) 0

-- One or more ASCII digits, with an optional plus sign before them, whose value fits in 64 bits.
-- Leading zeros are allowed.
def numeral? (cs : List Char) : Option Nat :=
  let ds := if cs.head? = some '+' then cs.tail else cs
  if ds.isEmpty || !ds.all Char.isDigit then none
  else
    let n := decimalValue ds
    if n < 1 <<< 64 then some n else none

-- The pieces between line ends. A line end closes its line, so nothing follows a final one.
def lines [BEq α] (lineEnd : α) (xs : List α) : List (List α) :=
  let pieces := xs.splitOnP (· == lineEnd)
  if pieces.getLast?.any (·.isEmpty) then pieces.dropLast else pieces

-- A line of bytes as characters, where it is valid UTF-8. No multibyte character holds the byte of a
-- line end, so bytes may be cut into lines before they are decoded.
def decode (bytes : List UInt8) : Option (List Char) :=
  (String.fromUTF8? ⟨bytes.toArray⟩).map (·.toList)

theorem not_of_mem_splitOnP {p : α → Bool} : ∀ {xs piece : List α}, piece ∈ xs.splitOnP p → ∀ x ∈ piece, p x = false
  | [],piece,listed => by
    rw [List.splitOnP_nil,List.mem_singleton] at listed
    rw [listed]
    exact fun x none => absurd none List.not_mem_nil
  | x :: xs,piece,listed => by
    rw [List.splitOnP_cons_eq_if_modifyHead] at listed
    split at listed
    · rcases List.mem_cons.mp listed with rfl | later
      · exact fun x none => absurd none List.not_mem_nil
      · exact not_of_mem_splitOnP later
    · rename_i other
      obtain ⟨first,pieces,rest⟩ := List.exists_cons_of_ne_nil (List.splitOnP_ne_nil p xs)
      rw [rest,List.modifyHead_cons] at listed
      rcases List.mem_cons.mp listed with rfl | later
      · intro y inside
        rcases List.mem_cons.mp inside with rfl | inside
        · exact Bool.eq_false_iff.mpr other
        · exact not_of_mem_splitOnP (rest ▸ List.mem_cons_self) y inside
      · exact not_of_mem_splitOnP (rest ▸ List.mem_cons_of_mem first later)

variable [BEq α] [LawfulBEq α] {lineEnd : α} {line xs : List α}

theorem lines_cons (within : lineEnd ∉ line) (xs : List α) :
    lines lineEnd (line ++ lineEnd :: xs) = line :: lines lineEnd xs := by
  have plain : ∀ x ∈ line, (x == lineEnd) = false := fun x inside => beq_false_of_ne fun same => within (same ▸ inside)
  have split : (line ++ lineEnd :: xs).splitOnP (· == lineEnd) = line :: xs.splitOnP (· == lineEnd) :=
    List.splitOnP_append_cons_of_forall_mem plain lineEnd (beq_self_eq_true lineEnd) xs
  obtain ⟨piece,pieces,rest⟩ := List.exists_cons_of_ne_nil (List.splitOnP_ne_nil (· == lineEnd) xs)
  unfold lines
  rw [split,rest]
  simp only [List.getLast?_cons_cons,List.dropLast_cons_cons]
  split <;> rfl

theorem not_mem_of_mem_lines (listed : line ∈ lines lineEnd xs) : lineEnd ∉ line := by
  have piece : line ∈ xs.splitOnP (· == lineEnd) := by
    unfold lines at listed
    dsimp only at listed
    split at listed
    · exact List.dropLast_subset _ listed
    · exact listed
  exact fun inside => ne_of_beq_false (not_of_mem_splitOnP piece lineEnd inside) rfl

end BuchiToRabin.Text
