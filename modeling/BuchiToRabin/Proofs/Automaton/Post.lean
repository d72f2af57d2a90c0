import BuchiToRabin.Automaton.Basic
import BuchiToRabin.Proofs.NatSet.Algebra
namespace BuchiToRabin.Automaton

variable {A : Automaton} {a t : Nat} {r s : NatSet}

theorem mem_symbols : a ∈ A.symbols ↔ 1 ≤ a ∧ a ≤ A.alphabetSize := by
  simp only [symbols,firstSymbols,List.mem_map,List.mem_range,Nat.min_self]
  constructor
  · intro listed
    obtain ⟨i,small,rfl⟩ := listed
    omega
  · intro inside
    exact ⟨a - 1,by omega,by omega⟩

@[simp] theorem symbols_length (A : Automaton) : A.symbols.length = A.alphabetSize := by
  simp [symbols,firstSymbols]

theorem symbols_getElem? (symbol : a ∈ A.symbols) : A.symbols[a - 1]? = some a := by
  obtain ⟨positive,small⟩ := mem_symbols.mp symbol
  simp only [symbols,firstSymbols,Nat.min_self,List.getElem?_map]
  rw [List.getElem?_range (by omega),Option.map_some,Nat.sub_add_cancel positive]

theorem mem_post : t ∈ A.post a s ↔ ∃ q ∈ s, A.Moves q a t := Relation.mem_post

theorem post_mono (sub : r ⊆ s) : A.post a r ⊆ A.post a s := by
  intro t reached
  obtain ⟨q,present,moves⟩ := mem_post.mp reached
  exact mem_post.mpr ⟨q,sub q present,moves⟩

@[simp] theorem post_union (A : Automaton) (a : Nat) (r s : NatSet) :
    A.post a (r ∪ s) = A.post a r ∪ A.post a s := by
  ext t
  simp only [mem_post,NatSet.mem_union,or_and_right,exists_or]

theorem post_subset_full (A : Automaton) (a : Nat) (s : NatSet) : A.post a s ⊆ .full A.stateCount := by
  intro t reached
  obtain ⟨q,_,moves⟩ := mem_post.mp reached
  exact NatSet.mem_full.mpr (A.edge_lt a q t moves).1.2

theorem Reads.snoc {w : List Nat} {q p r : Nat} (reads : A.Reads q w p) (moves : A.Moves p a r) :
    A.Reads q (w ++ [a]) r := by
  induction reads with
  | stay => exact .move moves .stay
  | move first _ ih => exact .move first (ih moves)

theorem Reaches.snoc {w : List Nat} {p r : Nat} (reaches : A.Reaches w p) (moves : A.Moves p a r) :
    A.Reaches (w ++ [a]) r := by
  obtain ⟨q,start,reads⟩ := reaches
  exact ⟨q,start,reads.snoc moves⟩

def ofEdges (n : Nat) (initial finals : NatSet) (k : Nat) (edges : List Edge)
    (accepted : (build n initial finals k edges).toOption.isSome) : Automaton :=
  (build n initial finals k edges).toOption.get accepted

-- Guesses, while reading the first symbol, when to move from 0 to the final state 1 for good. Under the
-- second symbol 0 goes to 2 as well, which stays; 1 has no successor there, and 3 has none at all.
def guess : Automaton :=
  ofEdges 4 (.ofList [0]) (.ofList [1]) 2
    [⟨0,1,0⟩,⟨0,1,1⟩,⟨1,1,1⟩,⟨0,2,0⟩,⟨0,2,2⟩,⟨2,2,2⟩] (by decide +kernel)

-- Every word but the empty one leads to the final state 1, which has no successors.
def glimpse : Automaton := ofEdges 2 (.ofList [0]) (.ofList [1]) 1 [⟨0,1,0⟩,⟨0,1,1⟩] (by decide +kernel)

end BuchiToRabin.Automaton
