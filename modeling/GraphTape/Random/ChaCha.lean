/-!
# A seeded source of words

The ChaCha stream cipher with twelve rounds as a source of random words. The word at a position
is a function of the key and the position, and a key of eight words is drawn from a 64-bit seed
by a permuted congruential generator.

* `block`: the sixteen words of one block of the stream.
* `word`: the 64-bit word at a position.
* `keyOfSeed`: the key of a seed.
-/

namespace GraphTape.Random

/-- Sixteen words: a state of the cipher, or a block of its stream. -/
abbrev Block := Vector UInt32 16

/-- A word rotated to the left. -/
def rotateLeft (x : UInt32) (k : UInt32) : UInt32 := (x <<< k) ||| (x >>> (32 - k))

/-- A word rotated to the right. -/
def rotateRight (x : UInt32) (k : UInt32) : UInt32 := (x >>> k) ||| (x <<< ((32 - k) % 32))

/-- The quarter round on four words of the state. -/
def quarterRound (s : Block) (a b c d : Fin 16) : Block :=
  let s := s.set a (s[a] + s[b])
  let s := s.set d (rotateLeft (s[d] ^^^ s[a]) 16)
  let s := s.set c (s[c] + s[d])
  let s := s.set b (rotateLeft (s[b] ^^^ s[c]) 12)
  let s := s.set a (s[a] + s[b])
  let s := s.set d (rotateLeft (s[d] ^^^ s[a]) 8)
  let s := s.set c (s[c] + s[d])
  s.set b (rotateLeft (s[b] ^^^ s[c]) 7)

/-- A round on the columns followed by a round on the diagonals. -/
def doubleRound (s : Block) : Block :=
  let s := quarterRound s 0 4 8 12
  let s := quarterRound s 1 5 9 13
  let s := quarterRound s 2 6 10 14
  let s := quarterRound s 3 7 11 15
  let s := quarterRound s 0 5 10 15
  let s := quarterRound s 1 6 11 12
  let s := quarterRound s 2 7 8 13
  quarterRound s 3 4 9 14

/-- The state before the rounds: the words of "expand 32-byte k", the key, the number of the
block with its low half first, and two words of zero. -/
def initialState (key : Vector UInt32 8) (counter : UInt64) : Block :=
  #v[0x61707865, 0x3320646e, 0x79622d32, 0x6b206574,
    key[0], key[1], key[2], key[3], key[4], key[5], key[6], key[7],
    counter.toUInt32, (counter >>> 32).toUInt32, 0, 0]

/-- The words of one block of the stream: six double rounds, added to the initial state. -/
def block (key : Vector UInt32 8) (counter : UInt64) : Block :=
  let s := initialState key counter
  Vector.zipWith (· + ·) s (Nat.repeat doubleRound 6 s)

/-- The 64-bit word at a position of the stream: two words of a block, the low half first. -/
def word (key : Vector UInt32 8) (i : Nat) : UInt64 :=
  let b := block key (i / 8).toUInt64
  let low := b.get ⟨2 * (i % 8), by omega⟩
  let high := b.get ⟨2 * (i % 8) + 1, by omega⟩
  low.toUInt64 ||| (high.toUInt64 <<< 32)

/-- The state of the key generator after one more step. -/
def nextSeed (state : UInt64) : UInt64 :=
  state * 6364136223846793005 + 11634580027462260723

/-- The word that the key generator puts out in a state. -/
def seedWord (state : UInt64) : UInt32 :=
  rotateRight (((state >>> 18) ^^^ state) >>> 27).toUInt32 (state >>> 59).toUInt32

/-- The key of a seed: the words of the eight states after it. -/
def keyOfSeed (seed : UInt64) : Vector UInt32 8 :=
  Vector.ofFn fun (i : Fin 8) => seedWord (Nat.repeat nextSeed (i + 1) seed)

/-- The stream of 64-bit words of a seed. -/
def seeded (seed : UInt64) : Nat → UInt64 :=
  let key := keyOfSeed seed
  fun i => word key i

end GraphTape.Random
