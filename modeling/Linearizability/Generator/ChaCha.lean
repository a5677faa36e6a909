/-!
# A stream of random words

The words of a ChaCha stream with eight rounds and a 64-bit block counter, whose key is drawn from a
seed by a 64-bit congruential generator with permuted output. Words are numbered through the blocks,
and the stream repeats once the counter has run through.
-/

namespace Linearizability

def rotateLeft (x n : UInt32) : UInt32 := x <<< n ||| x >>> (32 - n)

def rotateRight (x n : UInt32) : UInt32 := x >>> n ||| x <<< (32 - n)

namespace ChaCha

abbrev Key := Vector UInt32 8

abbrev Block := Vector UInt32 16

def quarterRound (a b c d : Fin 16) (s : Block) : Block :=
  let s := s.set a (s[a] + s[b])
  let s := s.set d (rotateLeft (s[d] ^^^ s[a]) 16)
  let s := s.set c (s[c] + s[d])
  let s := s.set b (rotateLeft (s[b] ^^^ s[c]) 12)
  let s := s.set a (s[a] + s[b])
  let s := s.set d (rotateLeft (s[d] ^^^ s[a]) 8)
  let s := s.set c (s[c] + s[d])
  s.set b (rotateLeft (s[b] ^^^ s[c]) 7)

/-- One round on the columns and one on the diagonals. -/
def doubleRound (s : Block) : Block :=
  let s := quarterRound 0 4 8 12 s
  let s := quarterRound 1 5 9 13 s
  let s := quarterRound 2 6 10 14 s
  let s := quarterRound 3 7 11 15 s
  let s := quarterRound 0 5 10 15 s
  let s := quarterRound 1 6 11 12 s
  let s := quarterRound 2 7 8 13 s
  quarterRound 3 4 9 14 s

def initialBlock (key : Key) (counter : UInt64) : Block :=
  #v[0x61707865, 0x3320646E, 0x79622D32, 0x6B206574,
    key[0], key[1], key[2], key[3], key[4], key[5], key[6], key[7],
    counter.toUInt32, (counter >>> 32).toUInt32, 0, 0]

def block (key : Key) (counter : UInt64) : Block :=
  let start := initialBlock key counter
  let mixed := doubleRound (doubleRound (doubleRound (doubleRound start)))
  Vector.zipWith (· + ·) mixed start

/-- The word of the stream at this position. -/
def word (key : Key) (position : Nat) : UInt32 :=
  (block key (.ofNat (position / 16))).get (Fin.ofNat 16 position)

/-- The congruential state after one more step. -/
def seedStep (state : UInt64) : UInt64 :=
  state * 6364136223846793005 + 11634580027462260723

def seedWord (state : UInt64) : UInt32 :=
  rotateRight ((((state >>> 18) ^^^ state) >>> 27).toUInt32) (state >>> 59).toUInt32

def keyOfSeed (seed : UInt64) : Key :=
  Vector.ofFn fun i => seedWord (Nat.repeat seedStep (i + 1) seed)

end ChaCha

/-- A stream of random words and how far it is read. -/
structure Generator where
  key : ChaCha.Key
  position : Nat := 0

namespace Generator

def ofSeed (seed : UInt64) : Generator := { key := ChaCha.keyOfSeed seed }

def next32 (g : Generator) : Nat × Generator :=
  ((ChaCha.word g.key g.position).toNat, { g with position := g.position + 1 })

/-- Two words, the lower one first. -/
def next64 (g : Generator) : Nat × Generator :=
  let (low, g) := g.next32
  let (high, g) := g.next32
  (high * UInt32.size + low, g)

end Generator
end Linearizability
