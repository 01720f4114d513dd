import PacketFec.Bytes
import PacketFec.Limits

/-!
# A seeded random stream

The stream is the keystream of ChaCha with twelve rounds, as words of 32 bits, for a nonce of zero and a
block counter of 64 bits that starts at zero. The key is drawn from a seed of 64 bits by a permuted
congruential generator.

* `Generator.ofSeed`: the stream of a seed.
* `Generator.word64`, `Generator.bytes`, `Generator.upTo`, `Generator.below`: what is drawn from it.
-/

namespace PacketFec

/-- Four words side by side. -/
structure Row where
  a : UInt32
  b : UInt32
  c : UInt32
  d : UInt32

namespace Row

/-- Sum word by word. -/
@[inline] def add (x y : Row) : Row := ⟨x.a + y.a, x.b + y.b, x.c + y.c, x.d + y.d⟩

/-- Exclusive or word by word. -/
@[inline] def xor (x y : Row) : Row := ⟨x.a ^^^ y.a, x.b ^^^ y.b, x.c ^^^ y.c, x.d ^^^ y.d⟩

/-- A word with its bits turned to the left. -/
@[inline] def turnWord (w n : UInt32) : UInt32 := (w <<< n) ||| (w >>> (32 - n))

/-- Every word with its bits turned to the left. -/
@[inline] def turn (x : Row) (n : UInt32) : Row :=
  ⟨turnWord x.a n, turnWord x.b n, turnWord x.c n, turnWord x.d n⟩

/-- The words moved by one place to the left, the first one to the end. -/
@[inline] def shift (x : Row) : Row := ⟨x.b, x.c, x.d, x.a⟩

/-- The words in order. -/
def words (x : Row) : List UInt32 := [x.a, x.b, x.c, x.d]

end Row

/-- Sixteen words in four rows. -/
structure Block where
  r0 : Row
  r1 : Row
  r2 : Row
  r3 : Row

namespace Block

/-- A quarter round in each of the four columns. -/
def columnRound (x : Block) : Block :=
  let r0 := x.r0.add x.r1
  let r3 := (x.r3.xor r0).turn 16
  let r2 := x.r2.add r3
  let r1 := (x.r1.xor r2).turn 12
  let r0 := r0.add r1
  let r3 := (r3.xor r0).turn 8
  let r2 := r2.add r3
  let r1 := (r1.xor r2).turn 7
  ⟨r0, r1, r2, r3⟩

/-- A round in the columns and a round in the diagonals. -/
def doubleRound (x : Block) : Block :=
  let y := x.columnRound
  let z := columnRound ⟨y.r0, y.r1.shift, y.r2.shift.shift, y.r3.shift.shift.shift⟩
  ⟨z.r0, z.r1.shift.shift.shift, z.r2.shift.shift, z.r3.shift⟩

/-- A number of double rounds. -/
def rounds : Nat → Block → Block
  | 0, x => x
  | n + 1, x => rounds n x.doubleRound

/-- The keystream block of an initial block: twelve rounds, and the initial block added. -/
def keystream (x : Block) : Block :=
  let y := rounds 6 x
  ⟨y.r0.add x.r0, y.r1.add x.r1, y.r2.add x.r2, y.r3.add x.r3⟩

end Block

/-- A place in a random stream. -/
structure Generator where
  /-- The low half of the key. -/
  keyLow : Row
  /-- The high half of the key. -/
  keyHigh : Row
  /-- The number of the next block. -/
  block : UInt64
  /-- Words of the current block that have not been drawn. -/
  pending : List UInt32

namespace Generator

/-- The state of the key generator after a step. -/
def seedStep (state : UInt64) : UInt64 := state * 6364136223846793005 + 11634580027462260723

/-- The word that a state of the key generator gives. -/
def seedWord (state : UInt64) : UInt32 :=
  let folded := (((state >>> 18) ^^^ state) >>> 27).toUInt32
  let n := (state >>> 59).toUInt32
  (folded >>> n) ||| (folded <<< (32 - n))

/-- Four words of the key, and the state behind them. -/
def seedRow (state : UInt64) : Row × UInt64 :=
  let s1 := seedStep state
  let s2 := seedStep s1
  let s3 := seedStep s2
  let s4 := seedStep s3
  (⟨seedWord s1, seedWord s2, seedWord s3, seedWord s4⟩, s4)

/-- The stream of a seed. -/
def ofSeed (seed : UInt64) : Generator :=
  let (keyLow, state) := seedRow seed
  let (keyHigh, _) := seedRow state
  ⟨keyLow, keyHigh, 0, []⟩

/-- The block with the next number. -/
def nextBlock (g : Generator) : Block :=
  Block.keystream ⟨⟨0x61707865, 0x3320646e, 0x79622d32, 0x6b206574⟩, g.keyLow, g.keyHigh,
    ⟨g.block.toUInt32, (g.block >>> 32).toUInt32, 0, 0⟩⟩

/-- Draw a word of 32 bits. -/
def word32 (g : Generator) : UInt32 × Generator :=
  match g.pending with
  | w :: rest => (w, { g with pending := rest })
  | [] =>
    let b := g.nextBlock
    (b.r0.a, { g with
      block := g.block + 1
      pending := [b.r0.b, b.r0.c, b.r0.d] ++ b.r1.words ++ b.r2.words ++ b.r3.words })

/-- Draw a word of 64 bits, the low half first. -/
def word64 (g : Generator) : Nat × Generator :=
  let (low, g) := g.word32
  let (high, g) := g.word32
  (low.toNat + seqidLimit * high.toNat, g)

/-- Draw the bytes of whole words, low byte first. -/
def wordBytes (g : Generator) : Nat → Bytes × Generator
  | 0 => ([], g)
  | n + 1 =>
    let (w, g) := g.word32
    let (rest, g) := g.wordBytes n
    (w.toUInt8 :: (w >>> 8).toUInt8 :: (w >>> 16).toUInt8 :: (w >>> 24).toUInt8 :: rest, g)

/-- Draw `n` bytes. What is left of the last word is lost. -/
def bytes (g : Generator) (n : Nat) : Bytes × Generator :=
  let (bs, g) := g.wordBytes ((n + 3) / 4)
  (bs.take n, g)

/-- Draw words until one is at most `zone` in the low half of its product with `n`, and give the high half.
More than half of all words are, so the bound on the words drawn, the first argument, is never met. -/
def scaled (zone n : Nat) : Nat → Generator → Nat × Generator
  | 0, g => (0, g)
  | fuel + 1, g =>
    let (w, g) := g.word64
    if w * n % wordLimit ≤ zone then (w * n / wordLimit, g) else scaled zone n fuel g

/-- Draw a number from one up to `n`, all alike. -/
def upTo (g : Generator) (n : Nat) : Nat × Generator :=
  let zone := n <<< (63 - n.log2) - 1
  let (k, g) := scaled zone n 4096 g
  (k + 1, g)

/-- Draw whether a word of 64 bits lies below a threshold. -/
def below (g : Generator) (threshold : Nat) : Bool × Generator :=
  let (w, g) := g.word64
  (w < threshold, g)

end Generator

end PacketFec
