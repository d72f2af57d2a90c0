import BuchiToRabin.NatSet.Block
namespace BuchiToRabin

structure Registers where
  block : Nat → Block

namespace Registers

def start : Registers := ⟨fun _ => .empty⟩

def set (rs : Registers) (r : Nat) (b : Block) : Registers := ⟨fun q => if q = r then b else rs.block q⟩

inductive Command where
  | empty (r : Nat) | reserve (r capacity : Nat) | full (r n : Nat)
  | collect (r : Nat) (is : List Nat) | extend (r : Nat) (is : List Nat)
  | clear (r : Nat) | copy (r a : Nat) | insert (r i : Nat) | erase (r i : Nat)
  | union (r a : Nat) | inter (r a : Nat) | diff (r a : Nat) | meet (r a b : Nat)
  | contains (r i : Nat) | isEmpty (r : Nat) | min (r : Nat) | firstAbsent (r : Nat) | render (r : Nat)
  | intersects (r a : Nat) | subset (r a : Nat) | same (r a : Nat)

namespace Command

-- The register that a command writes, or reads first.
def register : Command → Nat
  | .empty r | .reserve r _ | .full r _ | .collect r _ | .extend r _ | .clear r | .copy r _ | .insert r _
  | .erase r _ | .union r _ | .inter r _ | .diff r _ | .meet r _ _ | .contains r _ | .isEmpty r | .min r
  | .firstAbsent r | .render r | .intersects r _ | .subset r _ | .same r _ => r

end Command

def result (rs : Registers) : Command → Except Machine.Panic Block
  | .empty _ => .ok .empty
  | .reserve _ capacity => .ok (.reserve capacity)
  | .full _ n => Block.full n
  | .collect _ is => .ok (Block.empty.insertAll is)
  | .extend r is => .ok ((rs.block r).insertAll is)
  | .clear r => .ok (rs.block r).clear
  | .copy _ a => .ok (rs.block a)
  | .insert r i => .ok ((rs.block r).insert i).2
  | .erase r i => .ok ((rs.block r).erase i).2
  | .union r a => .ok ((rs.block r).union (rs.block a))
  | .inter r a => .ok ((rs.block r).inter (rs.block a))
  | .diff r a => .ok ((rs.block r).diff (rs.block a))
  | .meet _ a b => .ok ((rs.block a).inter (rs.block b))
  | .contains r _ | .isEmpty r | .min r | .firstAbsent r | .render r | .intersects r _ | .subset r _
  | .same r _ => .ok (rs.block r)

inductive Answer where
  | done
  | flag (b : Bool)
  | index (i : Nat)
  | least (i : Option Nat)
  | text (t : String)
  | same (sets digits : Bool)
  | failed (p : Machine.Panic)

-- What a command reports, read off the registers before it. Writing an element reports whether
-- membership changes.
def answer (rs : Registers) : Command → Answer
  | .insert r i => .flag ((rs.block r).insert i).1
  | .erase r i => .flag ((rs.block r).erase i).1
  | .contains r i => .flag ((rs.block r).contains i)
  | .isEmpty r => .flag (rs.block r).isEmpty
  | .min r => .least (rs.block r).min?
  | .firstAbsent r => .index (rs.block r).firstAbsent
  | .render r => .text (rs.block r).render
  | .intersects r a => .flag ((rs.block r).intersects (rs.block a))
  | .subset r a => .flag ((rs.block r).subset (rs.block a))
  | .same r a => .same (rs.block r == rs.block a) ((rs.block r).digits == (rs.block a).digits)
  | .full _ n => match Block.full n with
    | .ok _ => .done
    | .error p => .failed p
  | _ => .done

-- A command that fails leaves the registers as they are.
def step (rs : Registers) (c : Command) : Registers := match rs.result c with
  | .ok b => rs.set c.register b
  | .error _ => rs

def run (rs : Registers) (cs : List Command) : Registers := cs.foldl step rs

end Registers
end BuchiToRabin
