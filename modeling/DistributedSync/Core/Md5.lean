import Mathlib.Algebra.Group.Nat.Defs
import Mathlib.Data.Nat.Notation

/-!
# MD5

The hash that the queue asks of `hashlib`, so that a run on given topics can be evaluated. Words are
numbers below `2 ^ 32`, and bytes are numbers below `2 ^ 8`.
-/

namespace DistributedSync

namespace Md5

/-- The rotations, four for each round. -/
def shifts : List ℕ := [7, 12, 17, 22, 5, 9, 14, 20, 4, 11, 16, 23, 6, 10, 15, 21]

/-- The binary digits after the point of the sines of 1, …, 64. -/
def sines : List ℕ := [
  0xd76aa478, 0xe8c7b756, 0x242070db, 0xc1bdceee, 0xf57c0faf, 0x4787c62a, 0xa8304613, 0xfd469501,
  0x698098d8, 0x8b44f7af, 0xffff5bb1, 0x895cd7be, 0x6b901122, 0xfd987193, 0xa679438e, 0x49b40821,
  0xf61e2562, 0xc040b340, 0x265e5a51, 0xe9b6c7aa, 0xd62f105d, 0x02441453, 0xd8a1e681, 0xe7d3fbc8,
  0x21e1cde6, 0xc33707d6, 0xf4d50d87, 0x455a14ed, 0xa9e3e905, 0xfcefa3f8, 0x676f02d9, 0x8d2a4c8a,
  0xfffa3942, 0x8771f681, 0x6d9d6122, 0xfde5380c, 0xa4beea44, 0x4bdecfa9, 0xf6bb4b60, 0xbebfbc70,
  0x289b7ec6, 0xeaa127fa, 0xd4ef3085, 0x04881d05, 0xd9d4d039, 0xe6db99e5, 0x1fa27cf8, 0xc4ac5665,
  0xf4292244, 0x432aff97, 0xab9423a7, 0xfc93a039, 0x655b59c3, 0x8f0ccc92, 0xffeff47d, 0x85845dd1,
  0x6fa87e4f, 0xfe2ce6e0, 0xa3014314, 0x4e0811a1, 0xf7537e82, 0xbd3af235, 0x2ad7d2bb, 0xeb86d391]

/-- The four words that a block is worked into. -/
structure State where
  a : ℕ := 0x67452301
  b : ℕ := 0xefcdab89
  c : ℕ := 0x98badcfe
  d : ℕ := 0x10325476

def complement (x : ℕ) : ℕ := x ^^^ 0xffffffff

def rotateLeft (x n : ℕ) : ℕ := (x <<< n ||| x >>> (32 - n)) % 2 ^ 32

/-- The function of a round. -/
def mix (round b c d : ℕ) : ℕ :=
  match round with
  | 0 => b &&& c ||| complement b &&& d
  | 1 => d &&& b ||| complement d &&& c
  | 2 => b ^^^ c ^^^ d
  | _ => c ^^^ (b ||| complement d)

/-- The word of the block that step `i` reads. -/
def wordIndex (i : ℕ) : ℕ :=
  match i / 16 with
  | 0 => i
  | 1 => (5 * i + 1) % 16
  | 2 => (3 * i + 5) % 16
  | _ => 7 * i % 16

/-- Step `i` of the 64 steps of a block. -/
def step (block : List ℕ) (s : State) (i : ℕ) : State :=
  let sum := (s.a + mix (i / 16) s.b s.c s.d + sines.getD i 0 + block.getD (wordIndex i) 0) % 2 ^ 32
  { a := s.d
    b := (s.b + rotateLeft sum (shifts.getD (i / 16 * 4 + i % 4) 0)) % 2 ^ 32
    c := s.b
    d := s.c }

/-- The number with the given bytes, the lowest first. -/
def ofBytes : List ℕ → ℕ
  | [] => 0
  | byte :: bytes => byte + 256 * ofBytes bytes

/-- The lowest `n` bytes of a number, the lowest first. -/
def toBytes : ℕ → ℕ → List ℕ
  | 0, _ => []
  | n + 1, x => x % 256 :: toBytes n (x / 256)

/-- Consecutive pieces of length `n`, of which there are `count`. -/
def chunks (n : ℕ) : ℕ → List ℕ → List (List ℕ)
  | 0, _ => []
  | count + 1, l => l.take n :: chunks n count (l.drop n)

/-- Work a block of 64 bytes into the state. -/
def addBlock (s : State) (block : List ℕ) : State :=
  let t := (List.range 64).foldl (step ((chunks 4 16 block).map ofBytes)) s
  { a := (s.a + t.a) % 2 ^ 32, b := (s.b + t.b) % 2 ^ 32,
    c := (s.c + t.c) % 2 ^ 32, d := (s.d + t.d) % 2 ^ 32 }

/-- The message, followed by a single one bit, by zeros and by its length in bits. -/
def padded (bytes : List ℕ) : List ℕ :=
  bytes ++ 0x80 :: List.replicate ((119 - bytes.length % 64) % 64) 0 ++ toBytes 8 (8 * bytes.length)

/-- The digest, as a number whose highest byte is the first. -/
def digest (bytes : List ℕ) : ℕ :=
  let message := padded bytes
  let s := (chunks 64 (message.length / 64) message).foldl addBlock {}
  ofBytes ([s.a, s.b, s.c, s.d].flatMap (toBytes 4)).reverse

end Md5

/-- `int(hashlib.md5(s.encode()).hexdigest(), 16)`. -/
def hashlibMd5 (s : String) : ℕ := Md5.digest (s.toUTF8.toList.map UInt8.toNat)

example : hashlibMd5 "abc" = 0x900150983cd24fb0d6963f7d28e17f72 := by decide +kernel

end DistributedSync
