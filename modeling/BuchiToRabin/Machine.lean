namespace BuchiToRabin.Machine

-- Sizes and indices are words of 64 bits, in which sums and products wrap around.
def wrap (n : Nat) : Nat := n % UInt64.size

theorem wrap_of_lt (small : n < UInt64.size) : wrap n = n := Nat.mod_eq_of_lt small

-- Whether so many values of so many bytes can be asked for at once: a signed word counts the bytes. There is
-- memory for all that can be asked for.
def Fits (bytes count : Nat) : Prop := count * bytes < 1 <<< 63

instance (bytes count : Nat) : Decidable (Fits bytes count) := inferInstanceAs (Decidable (_ < _))

inductive Panic where
  | capacity
  | index
deriving DecidableEq

def Panic.message : Panic → String
  | .capacity => "capacity overflow"
  | .index => "index out of bounds"

end BuchiToRabin.Machine
