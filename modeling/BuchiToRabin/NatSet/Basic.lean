namespace BuchiToRabin

-- A finite set of naturals as one number: bit `i` tells whether `i` is in. There is one number per
-- set, so equality of the numbers is equality of the sets.
structure NatSet where
  bits : Nat
deriving DecidableEq

namespace NatSet

def contains (s : NatSet) (i : Nat) : Bool := s.bits.testBit i

instance : Membership Nat NatSet := ⟨fun s i => s.contains i = true⟩
instance (i : Nat) (s : NatSet) : Decidable (i ∈ s) :=
  inferInstanceAs (Decidable (s.contains i = true))

instance : EmptyCollection NatSet := ⟨⟨0⟩⟩
instance : Inhabited NatSet := ⟨∅⟩
instance : Union NatSet := ⟨fun s t => ⟨s.bits ||| t.bits⟩⟩
instance : Inter NatSet := ⟨fun s t => ⟨s.bits &&& t.bits⟩⟩
instance : SDiff NatSet := ⟨fun s t => ⟨s.bits ^^^ (s.bits &&& t.bits)⟩⟩
instance : HasSubset NatSet := ⟨fun s t => ∀ i, i ∈ s → i ∈ t⟩

def isEmpty (s : NatSet) : Bool := s.bits == 0
def intersects (s t : NatSet) : Bool := !(s ∩ t).isEmpty

def insert (s : NatSet) (i : Nat) : NatSet := ⟨s.bits ||| 1 <<< i⟩

-- Tests first: no shift is made for an absent element, however large.
def erase (s : NatSet) (i : Nat) : NatSet := if i ∈ s then ⟨s.bits ^^^ 1 <<< i⟩ else s

def full (n : Nat) : NatSet := ⟨1 <<< n - 1⟩

def ofList (is : List Nat) : NatSet := is.foldl insert ∅

def bound (s : NatSet) : Nat := if s.bits = 0 then 0 else s.bits.log2 + 1

def wordCount (s : NatSet) : Nat := (s.bound + 63) / 64

def depth (s : NatSet) : Nat := (2 * s.wordCount - 1).log2

def lower (d b : Nat) : Nat := b &&& (1 <<< (64 <<< d) - 1)
def upper (d b : Nat) : Nat := b >>> (64 <<< d)

def places : Nat → Nat → Nat → List Nat
  | 0,_,_ => []
  | n+1,start,b =>
    if b = 0 then []
    else if b % 2 = 1 then start :: places n (start + 1) (b / 2)
    else places n (start + 1) (b / 2)

def ones : Nat → Nat → Nat → List Nat
  | 0,start,b => places 64 start b
  | d+1,start,b =>
    if b = 0 then [] else ones d start (lower d b) ++ ones d (start + 64 <<< d) (upper d b)

def elements (s : NatSet) : List Nat := ones s.depth 0 s.bits

def count : Nat → Nat → Nat
  | 0,_ => 0
  | n+1,b => if b = 0 then 0 else b % 2 + count n (b / 2)

def countOnes : Nat → Nat → Nat
  | 0,b => count 64 b
  | d+1,b =>
    if b = 0 then 0
    else if b = 1 <<< (64 <<< (d + 1)) - 1 then 64 <<< (d + 1)
    else countOnes d (lower d b) + countOnes d (upper d b)

def card (s : NatSet) : Nat := countOnes s.depth s.bits

def min? (s : NatSet) : Option Nat := s.elements.head?

def firstAbsent (s : NatSet) : Nat := (s.bits ^^^ (s.bits + 1)).log2

def render (s : NatSet) : String :=
  "\x7b" ++ ", ".intercalate (s.elements.map Nat.repr) ++ "\x7d"

end NatSet
end BuchiToRabin
