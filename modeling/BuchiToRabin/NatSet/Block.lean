import BuchiToRabin.Fingerprint
import BuchiToRabin.Machine
namespace BuchiToRabin

namespace Word

def single (i : Nat) : UInt64 := (1 <<< i).toUInt64

def below (n : Nat) : UInt64 := (1 <<< n - 1).toUInt64

def all : UInt64 := below 64

def lowest (w : UInt64) : Nat := (w ^^^ (w - 1)).toNat.log2

def dropLowest (w : UInt64) : UInt64 := w &&& (w - 1)

def weight (w : UInt64) : Nat := if w = 0 then 0 else w.toBitVec.cpop.toNat

theorem dropLowest_lt {w : UInt64} (nonempty : w ≠ 0) : (dropLowest w).toNat < w.toNat := by
  have positive : w.toNat ≠ 0 := fun zero => nonempty (UInt64.toNat_inj.mp zero)
  have low : (w - 1).toNat = w.toNat - 1 :=
    UInt64.toNat_sub_of_le w 1 (UInt64.le_iff_toNat_le.mpr (Nat.one_le_iff_ne_zero.mpr positive))
  have le : (dropLowest w).toNat ≤ w.toNat - 1 := by
    rw [dropLowest,UInt64.toNat_and,low]
    exact Nat.and_le_right
  omega

end Word

-- A set in words, lowest first, with the number of its elements kept beside them. Words only get more:
-- those at the end may be empty, and the set does not tell how many there are.
structure Block where
  words : Array UInt64
  count : Nat

structure Cursor where
  place : Nat
  rest : UInt64

namespace Block

def capacity (b : Block) : Nat := 64 * b.words.size

def isEmpty (b : Block) : Bool := b.count == 0

def word (b : Block) (k : Nat) : UInt64 := b.words.getD k 0

def contains (b : Block) (i : Nat) : Bool := b.word (i / 64) &&& Word.single (i % 64) != 0

def empty : Block := ⟨#[],0⟩
instance : Inhabited Block := ⟨empty⟩

def wordsFor (capacity : Nat) : Nat := Machine.wrap (capacity + 63) / 64

def reserve (capacity : Nat) : Block := ⟨.replicate (wordsFor capacity) 0,0⟩

-- Rounding up wraps around for the greatest sizes. Then there are no words to fill.
def Reserved (n : Nat) : Prop := (n + 63) / 64 ≤ wordsFor n

instance (n : Nat) : Decidable (Reserved n) := inferInstanceAs (Decidable (_ ≤ _))

def full (n : Nat) : Except Machine.Panic Block :=
  if Reserved n then
    .ok ⟨.replicate (n / 64) Word.all ++ (if n % 64 = 0 then #[] else #[Word.below (n % 64)]),n⟩
  else .error .index

def grow (b : Block) (size : Nat) : Block := {b with words := b.words ++ .replicate (size - b.words.size) 0}

def insert (b : Block) (i : Nat) : Bool × Block :=
  let b := b.grow (i / 64 + 1)
  if b.contains i then (false,b)
  else (true,⟨b.words.modify (i / 64) (· ||| Word.single (i % 64)),b.count + 1⟩)

def insertAll (b : Block) (is : List Nat) : Block := is.foldl (fun b i => (b.insert i).2) b

def erase (b : Block) (i : Nat) : Bool × Block :=
  if b.contains i then (true,⟨b.words.modify (i / 64) (· &&& ~~~Word.single (i % 64)),b.count - 1⟩)
  else (false,b)

def clear (b : Block) : Block := ⟨b.words.map fun _ => 0,0⟩

def weigh (words : Array UInt64) : Nat := words.foldl (fun total w => total + Word.weight w) 0

def combine (f : UInt64 → UInt64 → UInt64) (a b : Block) : Block :=
  let words := a.words.mapIdx fun k w => f w (b.word k)
  ⟨words,weigh words⟩

def union (a b : Block) : Block := combine (· ||| ·) (a.grow b.words.size) b
def inter (a b : Block) : Block := combine (· &&& ·) a b
def diff (a b : Block) : Block := combine (fun v w => v &&& ~~~w) a b

def intersects (a b : Block) : Bool := (Array.zipWith (· &&& ·) a.words b.words).any (· != 0)
def subset (a b : Block) : Bool := (a.words.mapIdx fun k w => w &&& ~~~b.word k).all (· == 0)

def firstAbsent (b : Block) : Nat := match b.words.findIdx? (· != Word.all) with
  | some k => 64 * k + Word.lowest (~~~b.word k)
  | none => b.capacity

def start (b : Block) : Cursor := ⟨0,b.word 0⟩

def next (b : Block) (c : Cursor) : Option (Nat × Cursor) :=
  if c.rest ≠ 0 then some (64 * c.place + Word.lowest c.rest,⟨c.place,Word.dropLowest c.rest⟩)
  else if c.place + 1 < b.words.size then b.next ⟨c.place + 1,b.word (c.place + 1)⟩
  else none
termination_by b.words.size - c.place

-- A walk goes on in the same word with less of it, or in a later word.
theorem next_moves {b : Block} {c d : Cursor} {i : Nat} (step : b.next c = some (i,d)) :
    (c.place < d.place ∧ d.place < b.words.size) ∨ (d.place = c.place ∧ d.rest.toNat < c.rest.toNat) := by
  fun_induction next b c with
  | case1 c holds =>
    cases step
    exact .inr ⟨rfl,Word.dropLowest_lt holds⟩
  | case2 c nothing more ih =>
    rcases ih step with ⟨lt,inside⟩ | ⟨same,-⟩
    · exact .inl ⟨Nat.lt_of_succ_lt lt,inside⟩
    · exact .inl ⟨same ▸ Nat.lt_succ_self _,same ▸ more⟩
  | case3 c nothing last => cases step

def walk (b : Block) (c : Cursor) (met : Array Nat) : Array Nat :=
  match _ : b.next c with
  | none => met
  | some (i,d) => b.walk d (met.push i)
termination_by (b.words.size - c.place,c.rest.toNat)
decreasing_by
  rcases next_moves ‹_› with ⟨lt,inside⟩ | ⟨same,less⟩
  · exact .left _ _ (by omega)
  · rw [same]; exact .right _ less

def elements (b : Block) : List Nat := (b.walk b.start #[]).toList

def min? (b : Block) : Option Nat := (b.next b.start).map Prod.fst

def render (b : Block) : String :=
  "\x7b" ++ ", ".intercalate (b.elements.map Nat.repr) ++ "\x7d"

def digits (b : Block) : List UInt64 := (b.words.popWhile (· == 0)).toList

def fed (b : Block) : List UInt64 := b.digits.length.toUInt64 :: b.digits

instance : BEq Block := ⟨fun a b => a.count == b.count && a.digits == b.digits⟩

instance : Fingerprint Block := ⟨fun b => Fingerprint.mixAll b.count.toUInt64 b.digits⟩

end Block
end BuchiToRabin
