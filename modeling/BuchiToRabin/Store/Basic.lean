import BuchiToRabin.Fingerprint
namespace BuchiToRabin

-- A store of `bits` bits has room for `1 <<< bits - 1` values.
structure StorageBits where
  bits : Nat
  le : bits ≤ 31
deriving DecidableEq

namespace StorageBits

inductive Error where
  | tooMany
deriving DecidableEq

def Error.message : Error → String
  | .tooMany => "Storage bits should be in the range 0..=31"

def ofNat (bits : Nat) : Except Error StorageBits :=
  if le : bits ≤ 31 then .ok ⟨bits,le⟩ else .error .tooMany

instance : Inhabited StorageBits := ⟨⟨20,by decide⟩⟩

def capacity (b : StorageBits) : Nat := 1 <<< b.bits

-- As many chains as values have room, but no more than 65536.
def chainCount (b : StorageBits) : Nat := 1 <<< min b.bits 16

end StorageBits

-- Values under indices from 1 on, in the order in which they came. `heads` gives the first index of each
-- chain and `nexts` the index after each value in its chain; 0 ends a chain, and follows a value outside all
-- chains. A chain links values whose fingerprints agree modulo the number of chains, so a value is looked
-- for in one chain only. Links lead on to later values, so every chain comes to an end.
structure Store (α : Type u) where
  size : StorageBits
  values : Array α
  nexts : Array Nat
  heads : Array Nat
  nexts_size : nexts.size = values.size
  heads_size : heads.size = size.chainCount
  nexts_le : ∀ i j : Nat, nexts[i]? = some j → j = 0 ∨ i + 1 < j ∧ j ≤ values.size
  heads_le : ∀ c i : Nat, heads[c]? = some i → i ≤ values.size

namespace Store

inductive Error where
  | full
  | indexZero
  | noValue
deriving DecidableEq

def Error.message : Error → String
  | .full => "Storage is full"
  | .indexZero => "Index is 0"
  | .noValue => "No value has this index"

def empty (b : StorageBits) : Store α where
  size := b
  values := #[]
  nexts := #[]
  heads := Array.replicate b.chainCount 0
  nexts_size := rfl
  heads_size := Array.size_replicate
  nexts_le _ _ found := nomatch found
  heads_le c i found := by
    rw [Array.getElem?_replicate] at found
    split at found <;> cases found
    exact Nat.le_refl 0

def count (s : Store α) : Nat := s.values.size

def isEmpty (s : Store α) : Bool := s.count == 0

def value (s : Store α) : Nat → Except Error α
  | 0 => .error .indexZero
  | i+1 => match s.values[i]? with
    | some v => .ok v
    | none => .error .noValue

def entries (s : Store α) : List (Nat × α) := s.values.toList.zipIdx.map fun (v,i) => (i + 1,v)

-- The link of the value at a place; its index is one more.
def link (s : Store α) (place : Nat) : Nat := s.nexts.getD place 0

theorem link_le (s : Store α) (place : Nat) :
    s.link place = 0 ∨ place + 1 < s.link place ∧ s.link place ≤ s.values.size := by
  unfold link
  rw [Array.getD_eq_getD_getElem?]
  cases found : s.nexts[place]? with
  | none => exact .inl rfl
  | some j => exact s.nexts_le place j found

theorem link_le_size (s : Store α) (place : Nat) : s.link place ≤ s.values.size := by
  rcases s.link_le place with none | ⟨-,inside⟩
  · rw [none]
    exact Nat.zero_le _
  · exact inside

-- The index after `i` in its chain; 0 after the last, and for a value outside all chains.
def next (s : Store α) (i : Nat) : Except Error Nat :=
  match s.value i with
  | .error e => .error e
  | .ok _ => .ok (s.link (i - 1))

def head (s : Store α) (c : Nat) : Nat := s.heads.getD c 0

theorem head_le (s : Store α) (c : Nat) : s.head c ≤ s.values.size := by
  unfold head
  rw [Array.getD_eq_getD_getElem?]
  cases found : s.heads[c]? with
  | none => exact Nat.zero_le _
  | some i => exact s.heads_le c i found

def push (s : Store α) (v : α) : Store α where
  size := s.size
  values := s.values.push v
  nexts := s.nexts.push 0
  heads := s.heads
  nexts_size := by rw [Array.size_push,Array.size_push,s.nexts_size]
  heads_size := s.heads_size
  nexts_le i j found := by
    rw [Array.getElem?_push] at found
    split at found
    · exact .inl (Option.some.inj found).symm
    · rw [Array.size_push]
      have old := s.nexts_le i j found
      omega
  heads_le c i found := by
    rw [Array.size_push]
    exact Nat.le_succ_of_le (s.heads_le c i found)

theorem lt_size_push (s : Store α) (v : α) {last : Nat} (le : last ≤ s.values.size) :
    last < (s.push v).values.size := by
  rw [push,Array.size_push]
  exact Nat.lt_succ_of_le le

-- Links the latest value to the end of chain `c`, whose last index is given: 0 if it has none.
def attach (s : Store α) (c last : Nat) (earlier : last < s.values.size) : Store α :=
  match last with
  | 0 => {s with
      heads := s.heads.setIfInBounds c s.values.size
      heads_size := Array.size_setIfInBounds.trans s.heads_size
      heads_le := by
        intro d i found
        rw [Array.getElem?_setIfInBounds] at found
        split at found
        · split at found <;> cases found
          exact Nat.le_refl _
        · exact s.heads_le d i found}
  | last+1 => {s with
      nexts := s.nexts.setIfInBounds last s.values.size
      nexts_size := Array.size_setIfInBounds.trans s.nexts_size
      nexts_le := by
        intro i j found
        rw [Array.getElem?_setIfInBounds] at found
        split at found
        · rename_i same
          split at found <;> cases found
          exact .inr ⟨same ▸ earlier,Nat.le_refl _⟩
        · exact s.nexts_le i j found}

-- Stores a value outside all chains, where it is not found again. What stands beside the answer is the store
-- left behind, also when there is no room.
def add (s : Store α) (v : α) : Except Error Nat × Store α :=
  if s.count + 1 < s.size.capacity then (.ok (s.count + 1),s.push v) else (.error .full,s)

def chainOf [Fingerprint α] (s : Store α) (v : α) : Nat := (fingerprint v).toNat % s.size.chainCount

-- Where a search along a chain ends: at an equal value, or after the last index (0 in an empty chain).
inductive Spot (count : Nat) where
  | found (i : Nat)
  | ending (last : Nat) (le : last ≤ count)

variable [BEq α]

-- Follows a chain from the index `i`, the one after `last`.
def seek (s : Store α) (v : α) (last : Nat) (le : last ≤ s.values.size) :
    (i : Nat) → i ≤ s.values.size → Spot s.values.size
  | 0,_ => .ending last le
  | i+1,inside =>
    if v == s.values[i] then .found (i + 1)
    else s.seek v (i + 1) inside (s.link i) (s.link_le_size i)
termination_by i => if i = 0 then 0 else s.values.size + 1 - i
decreasing_by
  have later := s.link_le i
  rw [if_false]
  split <;> omega

def locate (s : Store α) (v : α) (c : Nat) : Spot s.values.size :=
  s.seek v 0 (Nat.zero_le _) (s.head c) (s.head_le c)

variable [Fingerprint α]

def find (s : Store α) (v : α) : Option Nat := match s.locate v (s.chainOf v) with
  | .found i => some i
  | .ending .. => none

-- The index of an equal value, or else of `v` itself, newly stored at the end of its chain.
def put (s : Store α) (v : α) : Except Error (Nat × Bool) × Store α :=
  let c := s.chainOf v
  match s.locate v c with
  | .found i => (.ok (i,false),s)
  | .ending last le =>
    if s.count + 1 < s.size.capacity then
      (.ok (s.count + 1,true),(s.push v).attach c last (s.lt_size_push v le))
    else (.error .full,s)

inductive Command (α : Type u) where
  | put (v : α) | add (v : α) | find (v : α) | value (i : Nat) | next (i : Nat) | entries

inductive Answer (α : Type u) where
  | put (i : Nat) (isNew : Bool)
  | index (i : Nat)
  | found (i : Option Nat)
  | value (v : α)
  | entries (es : List (Nat × α))
  | failed (e : Error)
deriving DecidableEq

-- A command may fail; the next one goes on from the store it leaves behind.
def step (s : Store α) : Command α → Answer α × Store α
  | .put v => match s.put v with
    | (.ok (i,isNew),t) => (.put i isNew,t)
    | (.error e,t) => (.failed e,t)
  | .add v => match s.add v with
    | (.ok i,t) => (.index i,t)
    | (.error e,t) => (.failed e,t)
  | .find v => (.found (s.find v),s)
  | .value i => match s.value i with
    | .ok v => (.value v,s)
    | .error e => (.failed e,s)
  | .next i => match s.next i with
    | .ok j => (.index j,s)
    | .error e => (.failed e,s)
  | .entries => (.entries s.entries,s)

def run (s : Store α) (cs : List (Command α)) : Store α := cs.foldl (fun s c => (s.step c).2) s

end Store
end BuchiToRabin
