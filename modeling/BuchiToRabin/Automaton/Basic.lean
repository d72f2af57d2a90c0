import BuchiToRabin.Transitions.Lemmas
namespace BuchiToRabin

-- A nondeterministic Büchi automaton: states below `stateCount`, symbols from 1 to `alphabetSize`.
structure Automaton where
  stateCount : Nat
  alphabetSize : Nat
  initial : NatSet
  finals : NatSet
  transitions : Transitions
  initial_lt : ∀ q ∈ initial, q < stateCount
  finals_lt : ∀ q ∈ finals, q < stateCount
  edge_lt : ∀ a q t, t ∈ (transitions.under a).targets q →
    (q < stateCount ∧ t < stateCount) ∧ 1 ≤ a ∧ a ≤ alphabetSize

namespace Automaton

inductive Error where
  | strayEdge (e : Edge) (stateCount : Nat)
  | straySymbol (e : Edge) (alphabetSize : Nat)
  | strayInitial (states : NatSet) (stateCount : Nat)
  | strayFinals (states : NatSet) (stateCount : Nat)
  | transitions (e : Transitions.Error)
deriving DecidableEq

def renderEdge (e : Edge) : String :=
  "Transition \x7b from: " ++ e.source.repr ++ ", to: " ++ e.target.repr ++ ", symbol: " ++ e.symbol.repr ++
    " \x7d"

def Error.message : Error → String
  | .strayEdge e n => "Transition " ++ renderEdge e ++ " leaves the state range 0.." ++ n.repr
  | .straySymbol e k => "Transition " ++ renderEdge e ++ " uses a symbol outside 1..=" ++ k.repr
  | .strayInitial s n => "Initial states " ++ s.render ++ " exceed the state range 0.." ++ n.repr
  | .strayFinals s n => "Final states " ++ s.render ++ " exceed the state range 0.." ++ n.repr
  | .transitions e => e.message

-- The ends of an edge are looked at before its symbol.
def edgeError? (n k : Nat) (e : Edge) : Option Error :=
  if ¬ (e.source < n ∧ e.target < n) then some (.strayEdge e n)
  else if ¬ (1 ≤ e.symbol ∧ e.symbol ≤ k) then some (.straySymbol e k)
  else none

theorem edgeError?_eq_none_iff {n k : Nat} {e : Edge} :
    edgeError? n k e = none ↔ (e.source < n ∧ e.target < n) ∧ 1 ≤ e.symbol ∧ e.symbol ≤ k := by
  unfold edgeError?
  split
  · rename_i stray
    exact ⟨nofun,fun inside => absurd inside.1 stray⟩
  · split
    · rename_i stray
      exact ⟨nofun,fun inside => absurd inside.2 stray⟩
    · rename_i ends symbol
      exact ⟨fun _ => ⟨Decidable.not_not.mp ends,Decidable.not_not.mp symbol⟩,fun _ => rfl⟩

-- The first fault in order: edges as listed, then initial states, then final states, then the table of edges.
def build (n : Nat) (initial finals : NatSet) (k : Nat) (edges : List Edge) : Except Error Automaton :=
  match checked : edges.findSome? (edgeError? n k) with
  | some e => .error e
  | none =>
    if early : initial.bound ≤ n then
      if late : finals.bound ≤ n then
        match grouped : Transitions.ofEdges edges with
        | .error e => .error (.transitions e)
        | .ok transitions => .ok {
          stateCount := n
          alphabetSize := k
          initial
          finals
          transitions
          initial_lt := NatSet.bound_le_iff.mp early
          finals_lt := NatSet.bound_le_iff.mp late
          edge_lt := by
            intro a q t edge
            have sound : ∀ e ∈ edges, edgeError? n k e = none := List.findSome?_eq_none_iff.mp checked
            have listed := (Transitions.mem_ofEdges grouped).mp edge
            exact edgeError?_eq_none_iff.mp (sound _ listed) }
      else .error (.strayFinals finals n)
    else .error (.strayInitial initial n)

def under (A : Automaton) (a : Nat) : Relation := A.transitions.under a

def post (A : Automaton) (a : Nat) (s : NatSet) : NatSet := (A.under a).post s

def nameCount (A : Automaton) : Nat := 2 * A.stateCount

-- The alphabet, cut off after `count` symbols.
def firstSymbols (A : Automaton) (count : Nat) : List Nat :=
  (List.range (min count A.alphabetSize)).map (· + 1)

def symbols (A : Automaton) : List Nat := A.firstSymbols A.alphabetSize

def Moves (A : Automaton) (q a t : Nat) : Prop := t ∈ (A.under a).targets q

instance (A : Automaton) (q a t : Nat) : Decidable (A.Moves q a t) :=
  inferInstanceAs (Decidable (t ∈ (A.under a).targets q))

inductive Reads (A : Automaton) : Nat → List Nat → Nat → Prop where
  | stay : Reads A q [] q
  | move : A.Moves q a p → Reads A p w t → Reads A q (a :: w) t

def Reaches (A : Automaton) (w : List Nat) (t : Nat) : Prop := ∃ q ∈ A.initial, A.Reads q w t

def Word (A : Automaton) (w : Nat → Nat) : Prop := ∀ i, 1 ≤ w i ∧ w i ≤ A.alphabetSize

structure Run (A : Automaton) (w run : Nat → Nat) : Prop where
  start : run 0 ∈ A.initial
  moves : ∀ i, A.Moves (run i) (w i) (run (i + 1))

-- Büchi acceptance: some run meets the final states beyond every position.
def Accepts (A : Automaton) (w : Nat → Nat) : Prop :=
  ∃ run, A.Run w run ∧ ∀ i, ∃ j, i ≤ j ∧ run j ∈ A.finals

end Automaton
end BuchiToRabin
