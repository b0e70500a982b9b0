/-!
Bit arrays as they travel: words of 32 bits, the lowest bit first. A position is itself a word of
32 bits and wraps like one, which the arrays of a message are too short to show.
-/

namespace AccessTree.Bits

def position (word bit : Nat) : UInt32 := .ofNat word * 32 + .ofNat bit

/-- The positions of the bits that are set in one word. -/
def inWord (i : Nat) (w : UInt32) : List UInt32 :=
  ((List.range 32).filter w.toNat.testBit).map (position i)

def positionsFrom (i : Nat) : List UInt32 → List UInt32
  | [] => []
  | w :: ws => inWord i w ++ positionsFrom (i + 1) ws

/-- The positions of the bits that are set, word by word. -/
def positions (ws : List UInt32) : List UInt32 := positionsFrom 0 ws

end AccessTree.Bits
