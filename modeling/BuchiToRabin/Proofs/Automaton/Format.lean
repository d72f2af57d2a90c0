import BuchiToRabin.Automaton.Reader
import BuchiToRabin.Proofs.Attempt
namespace BuchiToRabin.Automaton.Reader
open Text

-- What a text may describe.
structure Description where
  stateCount : Nat
  alphabetSize : Nat
  edges : List Edge
  initial : NatSet
  finals : NatSet

structure Description.Matches (D : Description) (A : Automaton) : Prop where
  stateCount : A.stateCount = D.stateCount
  alphabetSize : A.alphabetSize = D.alphabetSize
  moves : ∀ q a t, A.Moves q a t ↔ ⟨q,a,t⟩ ∈ D.edges
  initial : A.initial = D.initial
  finals : A.finals = D.finals

-- A written state is a numeral from 1 to `n`, one more than the state.
structure StateToken (n : Nat) (token : List Char) (q : Nat) : Prop where
  numeral : numeral? token = some (q + 1)
  lt : q < n

structure SymbolToken (k : Nat) (token : List Char) (a : Nat) : Prop where
  numeral : numeral? token = some a
  inside : 1 ≤ a ∧ a ≤ k

-- Five fields or more.
inductive EdgeLine (n k : Nat) (line : List Char) (e : Edge) : Prop where
  | mk (split : fields line = source :: between :: symbol :: arrow :: target :: more)
      (leaves : StateToken n source e.source) (reads : SymbolToken k symbol e.symbol)
      (enters : StateToken n target e.target)

inductive StatesLine (n : Nat) (line : List Char) : NatSet → Prop where
  | mk (listed : List.Forall₂ (StateToken n) (fields line) qs) : StatesLine n line (.ofList qs)

inductive Tabulates (D : Description) : List (List Char) → Prop where
  | mk (states : numeral? stateLine = some D.stateCount) (symbols : numeral? symbolLine = some D.alphabetSize)
      (count : numeral? countLine = some rows.length)
      (edges : List.Forall₂ (EdgeLine D.stateCount D.alphabetSize) rows D.edges) :
      Tabulates D (stateLine :: symbolLine :: countLine :: rows)

-- Of the lines after the table the first two count. A set whose line is missing is empty.
def ReadsFinals (D : Description) : List (List Char) → Prop
  | [] => D.finals = ∅
  | line :: _ => StatesLine D.stateCount line D.finals

def ReadsSets (D : Description) : List (List Char) → Prop
  | [] => D.initial = ∅ ∧ D.finals = ∅
  | line :: rest => StatesLine D.stateCount line D.initial ∧ ReadsFinals D rest

def isComment (line : List Char) : Bool := line.head? = some '#'

-- Without comments: a part whose last line is not blank and in which blank lines do not count, and a part in
-- which they do.
def Parted (upper lower : List (List Char) → Prop) (ls : List (List Char)) : Prop :=
  ∃ top bottom, ls.filter (!isComment ·) = top ++ bottom ∧ top.getLast? ≠ some [] ∧
    upper (top.filter (!·.isEmpty)) ∧ lower bottom

-- Any lines, the header where it first stands, and what is behind it.
def Headed (later : List (List Char) → Prop) (ls : List (List Char)) : Prop :=
  ∃ before after, ls = before ++ header.toList :: after ∧ header.toList ∉ before ∧ later after

-- The format: the header, the table, the sets, and what is not read.
def Description.Of (D : Description) : List (List Char) → Prop := Headed (Parted (Tabulates D) (ReadsSets D))

-- Room for so many edges, and for the table of them.
structure Description.Fits (D : Description) : Prop where
  count : Machine.Fits 24 D.edges.length
  edges : ∀ e ∈ D.edges, Transitions.Roomy e

-- A count of edges for which there is no room, behind two other numerals, whatever follows it.
inductive Overcounts : List (List Char) → Prop where
  | mk (states : numeral? stateLine = some n) (symbols : numeral? symbolLine = some k)
      (count : numeral? countLine = some m) (excess : ¬ Machine.Fits 24 m) :
      Overcounts (stateLine :: symbolLine :: countLine :: rows)

def Oversized : List (List Char) → Prop := Headed (Parted Overcounts fun _ => True)

-- A line without the carriage return that belongs to its end.
def chomp (line : List Char) : List Char := if line.getLast? = some '\r' then line.dropLast else line

def trimmedLines (text : String) : List (List Char) := (lines '\n' text.toList).map fun line => trim (chomp line)

theorem trim_concat_blank (line : List Char) {c : Char} (blank : isBlank c = true) :
    trim (line ++ [c]) = trim line := by
  unfold trim
  rw [List.dropWhile_append]
  cases started : line.dropWhile isBlank with
  | nil => simp [blank]
  | cons d rest => simp [blank]

theorem trim_chomp (line : List Char) : trim (chomp line) = trim line := by
  unfold chomp
  split
  · rename_i ending
    obtain ⟨line,rfl⟩ := List.getLast?_eq_some_iff.mp ending
    rw [List.dropLast_concat,trim_concat_blank line (by decide)]
  · rfl

section
variable {n k i q a : Nat} {what : Quantity} {token text : List Char} {e : Edge} {s : NatSet}

theorem number_exact : number what token = .ok i ↔ numeral? token = some i := by
  unfold number
  cases numeral? token with
  | none => simp
  | some j => simp

theorem index_exact : index what n token = .ok i ↔ SymbolToken n token i := by
  unfold index
  cases read : number what token with
  | error f =>
    constructor
    · nofun
    · intro symbol
      rw [number_exact.mpr symbol.numeral] at read
      cases read
  | ok j =>
    have numeral := number_exact.mp read
    dsimp only
    constructor
    · intro done
      split at done
      · rename_i inside
        cases done
        exact ⟨numeral,inside⟩
      · cases done
    · intro symbol
      rw [symbol.numeral,Option.some.injEq] at numeral
      rw [←numeral,if_pos symbol.inside]

theorem edgeTotal_exact : edgeTotal token = .ok i ↔ numeral? token = some i ∧ Machine.Fits 24 i := by
  unfold edgeTotal
  cases read : number .edgeCount token with
  | error f =>
    refine iff_of_false nofun fun both => ?_
    cases read.symm.trans (number_exact.mpr both.1)
  | ok j =>
    rw [number_exact.mp read,Option.some.injEq]
    dsimp only
    split
    · rename_i room
      rw [Except.ok.injEq]
      exact ⟨fun same => ⟨same,same ▸ room⟩,And.left⟩
    · rename_i cramped
      exact iff_of_false nofun fun both => cramped (both.1 ▸ both.2)

theorem edgeTotal_oversized :
    edgeTotal token = .error .oversized ↔ ∃ m, numeral? token = some m ∧ ¬ Machine.Fits 24 m := by
  unfold edgeTotal number
  cases numeral? token with
  | none => simp
  | some m =>
    dsimp only
    split <;> simp_all

theorem stateIndex_exact : stateIndex n token = .ok q ↔ StateToken n token q := by
  unfold stateIndex
  constructor
  · intro done
    cases read : index .state n token with
    | error f => rw [read] at done; cases done
    | ok i =>
      rw [read] at done
      cases done
      obtain ⟨numeral,inside⟩ := index_exact.mp read
      have positive := inside.1
      have less : i - 1 < n := by omega
      exact ⟨numeral.trans (congrArg some (Nat.sub_add_cancel positive).symm),less⟩
  · intro state
    have read : index .state n token = .ok (q + 1) :=
      index_exact.mpr ⟨state.numeral,Nat.succ_le_succ (Nat.zero_le q),state.lt⟩
    rw [read]
    rfl

theorem edge_exact : edge n k text = .ok e ↔ EdgeLine n k text e := by
  constructor
  · intro done
    unfold edge at done
    split at done
    · rename_i source between symbol arrow target more split
      obtain ⟨q,leaves,done⟩ := bind_eq_ok.mp done
      obtain ⟨a,reads,done⟩ := bind_eq_ok.mp done
      obtain ⟨t,enters,done⟩ := bind_eq_ok.mp done
      cases done
      exact ⟨split,stateIndex_exact.mp leaves,index_exact.mp reads,stateIndex_exact.mp enters⟩
    · cases done
  · intro line
    obtain ⟨split,leaves,reads,enters⟩ := line
    unfold edge
    rw [split]
    dsimp only
    rw [stateIndex_exact.mpr leaves,index_exact.mpr reads,stateIndex_exact.mpr enters]
    rfl

theorem states_exact : states n text = .ok s ↔ StatesLine n text s := by
  unfold states
  constructor
  · intro done
    cases read : (fields text).mapM (stateIndex n) with
    | error f => rw [read] at done; cases done
    | ok qs =>
      rw [read] at done
      cases done
      exact ⟨((mapM_eq_ok _).mp read).imp fun _ _ => stateIndex_exact.mp⟩
  · intro line
    obtain ⟨listed⟩ := line
    rw [(mapM_eq_ok _).mpr (listed.imp fun _ _ => stateIndex_exact.mpr)]
    rfl

end

section
variable {n k : Nat} {start ends : NatSet} {es : List Edge}

-- Nothing is refused whose parts are in range, if there is room for the table of edges.
theorem build_ok (inside : ∀ e ∈ es, edgeError? n k e = none) (start_lt : ∀ q ∈ start, q < n)
    (ends_lt : ∀ q ∈ ends, q < n) (roomy : ∀ e ∈ es, Transitions.Roomy e) :
    ∃ A, build n start ends k es = .ok A ∧ (⟨n,k,es,start,ends⟩ : Description).Matches A := by
  have checked : es.findSome? (edgeError? n k) = none := List.findSome?_eq_none_iff.mpr inside
  have sound : ∀ e ∈ es, Transitions.edgeFault? e = none := fun e listed =>
    Transitions.edgeFault?_eq_none_iff.mpr ⟨(edgeError?_eq_none_iff.mp (inside e listed)).2.1,roomy e listed⟩
  have grouped := Transitions.ofEdges_eq_ok.mpr ⟨sound,rfl⟩
  unfold build
  split
  · rename_i found
    cases checked.symm.trans found
  · rw [dif_pos (NatSet.bound_le_iff.mpr start_lt),dif_pos (NatSet.bound_le_iff.mpr ends_lt)]
    split
    · rename_i failed
      cases grouped.symm.trans failed
    · rename_i done
      refine ⟨_,rfl,rfl,rfl,?_,rfl,rfl⟩
      intro q a t
      exact Transitions.mem_ofEdges done

theorem build_panics (inside : ∀ e ∈ es, edgeError? n k e = none) (start_lt : ∀ q ∈ start, q < n)
    (ends_lt : ∀ q ∈ ends, q < n) (cramped : ∃ e ∈ es, ¬ Transitions.Roomy e) :
    ∃ p, build n start ends k es = .error (.transitions (.panic p)) := by
  have checked : es.findSome? (edgeError? n k) = none := List.findSome?_eq_none_iff.mpr inside
  obtain ⟨p,failed⟩ := Transitions.ofEdges_panics
    (fun e listed => (edgeError?_eq_none_iff.mp (inside e listed)).2.1) cramped
  unfold build
  split
  · rename_i found
    cases checked.symm.trans found
  · rw [dif_pos (NatSet.bound_le_iff.mpr start_lt),dif_pos (NatSet.bound_le_iff.mpr ends_lt)]
    split
    · rename_i other
      cases failed.symm.trans other
      exact ⟨p,rfl⟩
    · rename_i done
      cases failed.symm.trans done

end

end BuchiToRabin.Automaton.Reader
