import Linearizability.Generator.ChaCha

/-!
# Uniform choice

A drawn word is scaled to the range by a widening multiplication. Words whose lower half falls
outside the largest multiple of the range are rejected, so that every number is equally likely.
-/

namespace Linearizability.Generator

/-- Lower halves up to this bound are accepted; `n` is positive and has at most `bits` bits. -/
def zone (bits n : Nat) : Nat := n <<< (bits - (Nat.log2 n + 1)) - 1

/-- The number of words after which the stream repeats. -/
def period : Nat := 1 <<< 68

/-- Tries up to `fuel` words of `bits` bits. -/
def belowWithin (bits : Nat) (draw : Generator → Nat × Generator) (n : Nat) :
    Nat → Generator → Nat × Generator
  | 0, g => (0, g)
  | fuel + 1, g =>
    let (v, g) := draw g
    if v * n % 2 ^ bits ≤ zone bits n then (v * n / 2 ^ bits, g)
    else belowWithin bits draw n fuel g

/-- A number below `n`. A word that is not accepted within the period never is. -/
def below32 (n : Nat) (g : Generator) : Nat × Generator :=
  belowWithin 32 next32 n period g

def below64 (n : Nat) (g : Generator) : Nat × Generator :=
  belowWithin 64 next64 n period g

/-- An item of the list, unless it is empty. Short lists are drawn from by single words. -/
def choose? {α : Type} (items : List α) (g : Generator) : Option (α × Generator) :=
  if items.isEmpty then none
  else
    let (i, g) :=
      if items.length < UInt32.size then g.below32 items.length else g.below64 items.length
    items[i]?.map fun item => (item, g)

end Linearizability.Generator
