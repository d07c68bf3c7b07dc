import DistributedSync.Core.Md5
import DistributedSync.Library.Bytes

/-!
# SHA-256

The hash that the encryption asks of `hashlib` for its keys, so that a run on given texts can be
evaluated.
-/

namespace DistributedSync

namespace Sha256

/-- The binary digits after the point of the cube roots of the first 64 primes. -/
def cubeRoots : List ℕ := [
  0x428a2f98, 0x71374491, 0xb5c0fbcf, 0xe9b5dba5, 0x3956c25b, 0x59f111f1, 0x923f82a4, 0xab1c5ed5,
  0xd807aa98, 0x12835b01, 0x243185be, 0x550c7dc3, 0x72be5d74, 0x80deb1fe, 0x9bdc06a7, 0xc19bf174,
  0xe49b69c1, 0xefbe4786, 0x0fc19dc6, 0x240ca1cc, 0x2de92c6f, 0x4a7484aa, 0x5cb0a9dc, 0x76f988da,
  0x983e5152, 0xa831c66d, 0xb00327c8, 0xbf597fc7, 0xc6e00bf3, 0xd5a79147, 0x06ca6351, 0x14292967,
  0x27b70a85, 0x2e1b2138, 0x4d2c6dfc, 0x53380d13, 0x650a7354, 0x766a0abb, 0x81c2c92e, 0x92722c85,
  0xa2bfe8a1, 0xa81a664b, 0xc24b8b70, 0xc76c51a3, 0xd192e819, 0xd6990624, 0xf40e3585, 0x106aa070,
  0x19a4c116, 0x1e376c08, 0x2748774c, 0x34b0bcb5, 0x391c0cb3, 0x4ed8aa4a, 0x5b9cca4f, 0x682e6ff3,
  0x748f82ee, 0x78a5636f, 0x84c87814, 0x8cc70208, 0x90befffa, 0xa4506ceb, 0xbef9a3f7, 0xc67178f2]

/-- The eight words that a block is worked into. -/
structure State where
  a : ℕ := 0x6a09e667
  b : ℕ := 0xbb67ae85
  c : ℕ := 0x3c6ef372
  d : ℕ := 0xa54ff53a
  e : ℕ := 0x510e527f
  f : ℕ := 0x9b05688c
  g : ℕ := 0x1f83d9ab
  h : ℕ := 0x5be0cd19

def rotateRight (x n : ℕ) : ℕ := Md5.rotateLeft x (32 - n)

/-- The word that follows 16 words of the schedule. -/
def nextWord (w : List ℕ) : ℕ :=
  let x := w.getD 1 0
  let y := w.getD 14 0
  let small₀ := rotateRight x 7 ^^^ rotateRight x 18 ^^^ x >>> 3
  let small₁ := rotateRight y 17 ^^^ rotateRight y 19 ^^^ y >>> 10
  (w.getD 0 0 + small₀ + w.getD 9 0 + small₁) % 2 ^ 32

/-- One of the 64 steps of a block, with the next 16 words of the schedule. -/
def step : List ℕ × State → ℕ → List ℕ × State
  | (w, s), k =>
    let large₀ := rotateRight s.a 2 ^^^ rotateRight s.a 13 ^^^ rotateRight s.a 22
    let large₁ := rotateRight s.e 6 ^^^ rotateRight s.e 11 ^^^ rotateRight s.e 25
    let choose := s.e &&& s.f ^^^ Md5.complement s.e &&& s.g
    let majority := s.a &&& s.b ^^^ s.a &&& s.c ^^^ s.b &&& s.c
    let sum := s.h + large₁ + choose + k + w.getD 0 0
    (w.tail ++ [nextWord w],
      { a := (sum + large₀ + majority) % 2 ^ 32, b := s.a, c := s.b, d := s.c
        e := (s.d + sum) % 2 ^ 32, f := s.e, g := s.f, h := s.g })

def ofBytes (bytes : List ℕ) : ℕ := bytes.foldl (fun x byte => 256 * x + byte) 0

/-- Work a block of 64 bytes into the state. -/
def addBlock (s : State) (block : List ℕ) : State :=
  let t := (cubeRoots.foldl step ((Md5.chunks 4 16 block).map ofBytes, s)).2
  { a := (s.a + t.a) % 2 ^ 32, b := (s.b + t.b) % 2 ^ 32
    c := (s.c + t.c) % 2 ^ 32, d := (s.d + t.d) % 2 ^ 32
    e := (s.e + t.e) % 2 ^ 32, f := (s.f + t.f) % 2 ^ 32
    g := (s.g + t.g) % 2 ^ 32, h := (s.h + t.h) % 2 ^ 32 }

/-- The message, followed by a single one bit, by zeros and by its length in bits. -/
def padded (bytes : List ℕ) : List ℕ :=
  bytes ++ 0x80 :: List.replicate ((119 - bytes.length % 64) % 64) 0 ++
    (Md5.toBytes 8 (8 * bytes.length)).reverse

/-- The digest, as a number whose highest byte is the first. -/
def digest (bytes : List ℕ) : ℕ :=
  let message := padded bytes
  let s := (Md5.chunks 64 (message.length / 64) message).foldl addBlock {}
  [s.a, s.b, s.c, s.d, s.e, s.f, s.g, s.h].foldl (fun x word => 2 ^ 32 * x + word) 0

end Sha256

/-- `int(hashlib.sha256(data).hexdigest(), 16)`. -/
def hashlibSha256 (data : Bytes) : ℕ := Sha256.digest (data.map UInt8.toNat)

example : hashlibSha256 (Bytes.utf8 "abc") =
    0xba7816bf8f01cfea414140de5dae2223b00361a396177a9cb410ff61f20015ad := by decide +kernel

/-- `hashlib.sha256(data).digest()`. -/
def sha256Bytes (data : Bytes) : Vector UInt8 32 :=
  Vector.ofFn fun i => UInt8.ofNat (hashlibSha256 data >>> (8 * (31 - i.val)))

end DistributedSync
