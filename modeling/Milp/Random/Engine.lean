/-!
# The word stream

Random words come from the ChaCha block function with eight rounds. An engine is a key and the
number of words already taken; the block at index `b` supplies the words `16 * b` to
`16 * b + 15` of the stream. So equal seeds give equal streams, and how the words are grouped
into larger draws does not matter to where the stream continues.
-/

namespace Milp.Random

/-- The sixteen words that the block function works on. -/
abbrev Block := Vector UInt32 16

namespace Block

/-- One quarter round on the words at positions `a`, `b`, `c` and `d`. -/
def quarter (s : Block) (a b c d : Fin 16) : Block :=
  let turn (x : UInt32) (k : UInt32) : UInt32 := (x <<< k) ||| (x >>> (32 - k))
  let s := s.set a (s[a] + s[b])
  let s := s.set d (turn (s[d] ^^^ s[a]) 16)
  let s := s.set c (s[c] + s[d])
  let s := s.set b (turn (s[b] ^^^ s[c]) 12)
  let s := s.set a (s[a] + s[b])
  let s := s.set d (turn (s[d] ^^^ s[a]) 8)
  let s := s.set c (s[c] + s[d])
  s.set b (turn (s[b] ^^^ s[c]) 7)

/-- Two rounds: the four columns, then the four diagonals. -/
def doubleRound (s : Block) : Block :=
  let s := (((s.quarter 0 4 8 12).quarter 1 5 9 13).quarter 2 6 10 14).quarter 3 7 11 15
  (((s.quarter 0 5 10 15).quarter 1 6 11 12).quarter 2 7 8 13).quarter 3 4 9 14

/-- The constant words that start every block. -/
def constants : Vector UInt32 4 := #v[0x61707865, 0x3320646e, 0x79622d32, 0x6b206574]

/-- The input block of a key at a block index: constants, key, the index in two words, zeros. -/
def input (key : Vector UInt32 8) (index : UInt64) : Block :=
  constants ++ key ++ #v[index.toUInt32, (index >>> 32).toUInt32, 0, 0]

/-- The output block: eight rounds, added to the input. -/
def output (key : Vector UInt32 8) (index : UInt64) : Block :=
  let start := input key index
  let mixed := Nat.repeat doubleRound 4 start
  Vector.zipWith (· + ·) start mixed

end Block

/-- A source of random words. -/
structure Engine where
  key : Vector UInt32 8
  /-- How many words were taken from the stream. -/
  taken : Nat
  deriving DecidableEq

namespace Engine

/-- One key word from a seed state, and the state after it. -/
def keyWord (state : UInt64) : UInt32 × UInt64 :=
  let next := state * 6364136223846793005 + 11634580027462260723
  let mixed := (((next >>> 18) ^^^ next) >>> 27).toUInt32
  let turn := (next >>> 59).toUInt32
  ((mixed >>> turn) ||| (mixed <<< ((32 - turn) % 32)), next)

/-- The key words of a seed, `n` of them. -/
def keyWords : Nat → UInt64 → List UInt32
  | 0, _ => []
  | n + 1, state =>
    let (word, next) := keyWord state
    word :: keyWords n next

/-- The engine of a seed, at the start of its stream. -/
def ofSeed (seed : UInt64) : Engine where
  key := Vector.ofFn fun i => (keyWords 8 seed).getD i 0
  taken := 0

/-- The next word. -/
def word (g : Engine) : UInt32 × Engine :=
  let block := Block.output g.key (UInt64.ofNat (g.taken / 16))
  (block.get ⟨g.taken % 16, Nat.mod_lt _ (by decide)⟩, { g with taken := g.taken + 1 })

/-- The next two words as one number, the low word first. -/
def long (g : Engine) : UInt64 × Engine :=
  let (low, g) := g.word
  let (high, g) := g.word
  ((high.toUInt64 <<< 32) ||| low.toUInt64, g)

end Engine
end Milp.Random
