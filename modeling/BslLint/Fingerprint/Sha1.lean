/-!
# SHA-1

The hash of a text is that of its bytes of UTF-8, written in hexadecimal digits. The bytes are
padded to blocks of 64, and every block is mixed into five words of 32 bits in 80 rounds.
-/

namespace BslLint.Sha1

/-- The five words that the blocks are mixed into. -/
structure Chain where
  a : UInt32
  b : UInt32
  c : UInt32
  d : UInt32
  e : UInt32
  deriving DecidableEq, Repr

namespace Chain

/-- The words before the first block. -/
def initial : Chain := ⟨0x67452301, 0xEFCDAB89, 0x98BADCFE, 0x10325476, 0xC3D2E1F0⟩

/-- Adds words to words. -/
def add (x y : Chain) : Chain := ⟨x.a + y.a, x.b + y.b, x.c + y.c, x.d + y.d, x.e + y.e⟩

/-- The words in order. -/
def toList (x : Chain) : List UInt32 := [x.a, x.b, x.c, x.d, x.e]

end Chain

/-- Turns a word to the left by less than 32 bits. -/
def rotate (n : UInt32) (x : UInt32) : UInt32 := (x <<< n) ||| (x >>> (32 - n))

/-! ### Padding -/

/-- The bytes of a number of 64 bits, the most significant one first. -/
def bytesOfNat64 (n : Nat) : List UInt8 :=
  [56, 48, 40, 32, 24, 16, 8, 0].map fun shift ↦ (n >>> shift).toUInt8

/-- Bytes filled up to whole blocks: a single bit, zeros, and the number of bits before it. -/
def padded (bytes : List UInt8) : List UInt8 :=
  bytes ++ 0x80 :: List.replicate ((119 - bytes.length % 64) % 64) 0 ++
    bytesOfNat64 (8 * bytes.length)

/-! ### Blocks -/

/-- Four bytes at a time as words. -/
def words : List UInt8 → List UInt32
  | a :: b :: c :: d :: rest =>
    ((a.toUInt32 <<< 24) ||| (b.toUInt32 <<< 16) ||| (c.toUInt32 <<< 8) ||| d.toUInt32) ::
    words rest
  | _ => []

/-- Extends the words of a block by `n` more, the last word first. -/
def extend : Nat → List UInt32 → List UInt32
  | 0, ws => ws
  | n + 1, ws =>
    extend n (rotate 1 (ws.getD 2 0 ^^^ ws.getD 7 0 ^^^ ws.getD 13 0 ^^^ ws.getD 15 0) :: ws)

/-- The words of all rounds of a block. -/
def schedule (block : List UInt32) : List UInt32 := (extend 64 block.reverse).reverse

/-- What a round makes of three of the words, and the number it adds. -/
def mix (round : Nat) (b c d : UInt32) : UInt32 × UInt32 :=
  if round < 20 then ((b &&& c) ||| (~~~b &&& d), 0x5A827999)
  else if round < 40 then (b ^^^ c ^^^ d, 0x6ED9EBA1)
  else if round < 60 then ((b &&& c) ||| (b &&& d) ||| (c &&& d), 0x8F1BBCDC)
  else (b ^^^ c ^^^ d, 0xCA62C1D6)

/-- The rounds from some number on, one for each word. -/
def rounds (round : Nat) (x : Chain) : List UInt32 → Chain
  | [] => x
  | w :: ws =>
    let (f, k) := mix round x.b x.c x.d
    rounds (round + 1) ⟨rotate 5 x.a + f + x.e + k + w, x.a, rotate 30 x.b, x.c, x.d⟩ ws

/-- Mixes a block of 16 words in. -/
def mixBlock (x : Chain) (block : List UInt32) : Chain := x.add (rounds 0 x (schedule block))

/-- Mixes words in, 16 at a time. -/
def mixAll (x : Chain) (ws : List UInt32) : Chain :=
  if _h : ws.length < 16 then x
  else mixAll (mixBlock x (ws.take 16)) (ws.drop 16)
termination_by ws.length
decreasing_by simp only [List.length_drop]; omega

/-! ### Digests -/

/-- The eight hexadecimal digits of a word, in small letters. -/
def hexDigits (w : UInt32) : List Char :=
  [28, 24, 20, 16, 12, 8, 4, 0].map fun (shift : UInt32) ↦
    "0123456789abcdef".toList.getD ((w >>> shift) &&& 15).toNat '0'

/-- The hash of some bytes. -/
def ofBytes (bytes : List UInt8) : String :=
  String.ofList ((mixAll .initial (words (padded bytes))).toList.flatMap hexDigits)

/-- The hash of a text. -/
def ofText (text : String) : String := ofBytes text.toUTF8.toList

end BslLint.Sha1
