import BuchiToRabin.Determinization.Basic
namespace BuchiToRabin

structure DotStyle where
  stateShape : String := "circle"
  initialShape : String := "doublecircle"
  deadShape : String := "square"
  -- Label states with their trees, not their numbers.
  showTrees : Bool := false
deriving DecidableEq

namespace Determinization

structure Arrow where
  source : Nat
  target : Nat
  symbols : List Nat
deriving DecidableEq

def enter (target symbol : Nat) : List (Nat × List Nat) → List (Nat × List Nat)
  | [] => [(target,[symbol])]
  | (t,symbols) :: rest =>
    if target < t then (target,[symbol]) :: (t,symbols) :: rest
    else if target = t then (t,symbol :: symbols) :: rest
    else (t,symbols) :: enter target symbol rest

-- A row, grouped by target. The last symbol is entered first, so symbols ascend too.
def grouped (row : List Nat) : List (Nat × List Nat) :=
  row.zipIdx.foldr (fun (target,a) groups => enter target (a + 1) groups) []

def arrows (d : Determinization) : List Arrow :=
  d.rows.toList.zipIdx.flatMap fun (row,i) => (grouped row).map fun (t,symbols) => ⟨i + 1,t,symbols⟩

def Arrow.render (e : Arrow) : String :=
  e.source.repr ++ " -> " ++ e.target.repr ++ " [label=\"" ++ ",".intercalate (e.symbols.map Nat.repr) ++ "\"];"

structure Circle where
  id : Nat
  shape : String
  label : String
deriving DecidableEq

def circle (style : DotStyle) (entry : Nat × Tree) : Circle where
  id := entry.1
  shape := if entry.2.isDead then style.deadShape else if entry.1 = initial then style.initialShape
    else style.stateShape
  label := if style.showTrees then entry.2.render else entry.1.repr

def Circle.render (c : Circle) : String :=
  c.id.repr ++ " [shape=" ++ c.shape ++ ", label=\"" ++ c.label ++ "\"];"

def dotLines (d : Determinization) (style : DotStyle) : List String :=
  ["digraph \x7b","rankdir=LR;","node [shape=" ++ style.stateShape ++ "];",
    "init [shape=point, style=invis];","init -> " ++ initial.repr ++ ";"] ++
  d.store.entries.map (fun e => (circle style e).render) ++ d.arrows.map Arrow.render ++ ["\x7d"]

def dot (d : Determinization) (style : DotStyle) : String :=
  String.join ((d.dotLines style).map (· ++ "\n"))

end Determinization
end BuchiToRabin
