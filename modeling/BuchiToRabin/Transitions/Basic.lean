import BuchiToRabin.Machine
import BuchiToRabin.NatSet.Basic
namespace BuchiToRabin

namespace Row

-- A row is an array read as a function on all naturals, with `d` past its end. Writing at `i`
-- lengthens the row just enough.
def adjust (xs : Array α) (d : α) (i : Nat) (f : α → α) : Array α :=
  (xs ++ Array.replicate (i + 1 - xs.size) d).modify i f

@[simp] theorem size_adjust (xs : Array α) (d : α) (i : Nat) (f : α → α) :
    (adjust xs d i f).size = max xs.size (i + 1) := by
  simp only [adjust,Array.size_modify,Array.size_append,Array.size_replicate]
  omega

theorem getD_adjust (xs : Array α) (d : α) (i j : Nat) (f : α → α) :
    (adjust xs d i f).getD j d = if j = i then f (xs.getD j d) else xs.getD j d := by
  simp only [adjust,Array.getD_eq_getD_getElem?,Array.getElem?_modify,Array.getElem?_append,
    Array.getElem?_replicate]
  grind

end Row

-- States count from 0, symbols from 1.
structure Edge where
  source : Nat
  symbol : Nat
  target : Nat
deriving DecidableEq

structure Relation where
  rows : Array NatSet
deriving DecidableEq

namespace Relation

instance : EmptyCollection Relation := ⟨⟨#[]⟩⟩
instance : Inhabited Relation := ⟨∅⟩

def targets (r : Relation) (q : Nat) : NatSet := r.rows.getD q ∅

def add (r : Relation) (q t : Nat) : Relation := ⟨Row.adjust r.rows ∅ q (·.insert t)⟩

def post (r : Relation) (s : NatSet) : NatSet :=
  s.elements.foldl (fun found q => found ∪ r.targets q) ∅

def sources (r : Relation) : Nat := r.rows.countP (!·.isEmpty)

def edgeCount (r : Relation) : Nat := r.rows.foldr (fun s total => s.card + total) 0

end Relation

-- Edges grouped by symbol, then by source. Rows end at the last symbol or source in use, so there is
-- one value per set of edges.
structure Transitions where
  relations : Array Relation
deriving DecidableEq

namespace Transitions

instance : EmptyCollection Transitions := ⟨⟨#[]⟩⟩
instance : Inhabited Transitions := ⟨∅⟩

def under (ts : Transitions) : Nat → Relation
  | 0 => ∅
  | a+1 => ts.relations.getD a ∅

def add (ts : Transitions) (e : Edge) : Transitions :=
  ⟨Row.adjust ts.relations ∅ (e.symbol - 1) (·.add e.source e.target)⟩

def gather (es : List Edge) : Transitions := es.foldl add ∅

inductive Error where
  | symbolZero
  | panic (p : Machine.Panic)
deriving DecidableEq

def Error.message : Error → String
  | .symbolZero => "Symbols are 1-based"
  | .panic p => p.message

-- Relations take 24 bytes each and rows 32. The number of rows wraps around for the last source there is.
def edgeFault? (e : Edge) : Option Error :=
  if e.symbol = 0 then some .symbolZero
  else if ¬ Machine.Fits 24 e.symbol then some (.panic .capacity)
  else if Machine.wrap (e.source + 1) ≤ e.source then some (.panic .index)
  else if ¬ Machine.Fits 32 (e.source + 1) then some (.panic .capacity)
  else none

-- Edges are taken in the order of their symbols, and of their sources under one symbol.
def sooner (e f : Edge) : Bool := e.symbol < f.symbol || e.symbol == f.symbol && e.source ≤ f.source

def firstFaulty (es : List Edge) : Option Edge :=
  es.foldr (fun e later =>
    if edgeFault? e = none then later else some (later.elim e fun f => if sooner e f then e else f)) none

def ofEdges (es : List Edge) : Except Error Transitions := match (firstFaulty es).bind edgeFault? with
  | some fault => .error fault
  | none => .ok (gather es)

def edgeCount (ts : Transitions) : Nat := ts.relations.foldr (fun r total => r.edgeCount + total) 0

def isEmpty (ts : Transitions) : Bool := ts.edgeCount == 0

def maxSymbol (ts : Transitions) : Nat := ts.relations.size

end Transitions
end BuchiToRabin
