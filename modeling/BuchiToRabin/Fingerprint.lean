namespace BuchiToRabin

-- A 64-bit digest. Equal values have equal fingerprints; unequal values may share one.
class Fingerprint (α : Type u) where
  fingerprint : α → UInt64
export Fingerprint (fingerprint)

namespace Fingerprint

-- Three rounds of folding high bits onto low ones, with odd multipliers between them. Every step can
-- be undone, so distinct words stay distinct.
def scramble (x : UInt64) : UInt64 :=
  let y := (x ^^^ (x >>> 30)) * 0xBF58476D1CE4E5B9
  let z := (y ^^^ (y >>> 27)) * 0x94D049BB133111EB
  z ^^^ (z >>> 31)

def rotate5 (x : UInt64) : UInt64 := (x <<< 5) ||| (x >>> 59)

def mix (seed word : UInt64) : UInt64 :=
  scramble (rotate5 seed ^^^ (word * 0x9E3779B97F4A7C15))

def mixAll (seed : UInt64) (words : List UInt64) : UInt64 := words.foldl mix seed

@[simp] theorem mixAll_nil (seed : UInt64) : mixAll seed [] = seed := rfl
@[simp] theorem mixAll_cons (seed w : UInt64) (ws : List UInt64) :
    mixAll seed (w :: ws) = mixAll (mix seed w) ws := rfl
theorem mixAll_append (seed : UInt64) (us ws : List UInt64) :
    mixAll seed (us ++ ws) = mixAll (mixAll seed us) ws := by
  simp [mixAll]

instance : Fingerprint UInt64 := ⟨scramble⟩
instance : Fingerprint (UInt64 × UInt64) := ⟨fun p => mix (scramble p.1) p.2⟩
instance : Fingerprint (UInt64 × UInt64 × UInt64) :=
  ⟨fun p => mix (mix (scramble p.1) p.2.1) p.2.2⟩

end Fingerprint
end BuchiToRabin
