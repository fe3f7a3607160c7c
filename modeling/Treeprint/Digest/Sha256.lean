import Treeprint.Text.Utf8

/-!
# SHA-256

The digest of a string of bytes: the message is padded to a multiple of sixty-four bytes, cut into
blocks of sixteen words, and each block is compressed into a chaining value of eight words.
-/

namespace Treeprint.Sha256

/-- The eight words that are carried from block to block. -/
structure Chain where
  a : UInt32
  b : UInt32
  c : UInt32
  d : UInt32
  e : UInt32
  f : UInt32
  g : UInt32
  h : UInt32

def Chain.start : Chain :=
  ⟨0x6a09e667, 0xbb67ae85, 0x3c6ef372, 0xa54ff53a, 0x510e527f, 0x9b05688c, 0x1f83d9ab, 0x5be0cd19⟩

def Chain.add (x y : Chain) : Chain :=
  ⟨x.a + y.a, x.b + y.b, x.c + y.c, x.d + y.d, x.e + y.e, x.f + y.f, x.g + y.g, x.h + y.h⟩

def Chain.words (x : Chain) : List UInt32 := [x.a, x.b, x.c, x.d, x.e, x.f, x.g, x.h]

def roundConstants : List UInt32 :=
  [0x428a2f98, 0x71374491, 0xb5c0fbcf, 0xe9b5dba5, 0x3956c25b, 0x59f111f1, 0x923f82a4, 0xab1c5ed5,
   0xd807aa98, 0x12835b01, 0x243185be, 0x550c7dc3, 0x72be5d74, 0x80deb1fe, 0x9bdc06a7, 0xc19bf174,
   0xe49b69c1, 0xefbe4786, 0x0fc19dc6, 0x240ca1cc, 0x2de92c6f, 0x4a7484aa, 0x5cb0a9dc, 0x76f988da,
   0x983e5152, 0xa831c66d, 0xb00327c8, 0xbf597fc7, 0xc6e00bf3, 0xd5a79147, 0x06ca6351, 0x14292967,
   0x27b70a85, 0x2e1b2138, 0x4d2c6dfc, 0x53380d13, 0x650a7354, 0x766a0abb, 0x81c2c92e, 0x92722c85,
   0xa2bfe8a1, 0xa81a664b, 0xc24b8b70, 0xc76c51a3, 0xd192e819, 0xd6990624, 0xf40e3585, 0x106aa070,
   0x19a4c116, 0x1e376c08, 0x2748774c, 0x34b0bcb5, 0x391c0cb3, 0x4ed8aa4a, 0x5b9cca4f, 0x682e6ff3,
   0x748f82ee, 0x78a5636f, 0x84c87814, 0x8cc70208, 0x90befffa, 0xa4506ceb, 0xbef9a3f7, 0xc67178f2]

/-- A word turned right by `n` bits. -/
def turn (x : UInt32) (n : UInt32) : UInt32 := (x >>> n) ||| (x <<< (32 - n))

/-- A word as four bytes, the highest first. -/
def bytesOfWord (w : UInt32) : Bytes :=
  [(w >>> 24).toUInt8, (w >>> 16).toUInt8, (w >>> 8).toUInt8, w.toUInt8]

/-- Bytes as words, four at a time; a shorter rest is left out. -/
def wordsOfBytes : Bytes → List UInt32
  | a :: b :: c :: d :: rest =>
    ((a.toUInt32 <<< 24) ||| (b.toUInt32 <<< 16) ||| (c.toUInt32 <<< 8) ||| d.toUInt32)
      :: wordsOfBytes rest
  | _ => []

/-- The message, a one bit, zeros, and its length in bits as sixty-four bits. -/
def pad (message : Bytes) : Bytes :=
  let bits := UInt64.ofNat (message.length * 8)
  message ++ [(0x80 : UInt8)] ++ List.replicate ((119 - message.length % 64) % 64) (0 : UInt8)
    ++ bytesOfWord (bits >>> 32).toUInt32 ++ bytesOfWord bits.toUInt32

/-- The sixteen words of a block drawn out to sixty-four: each new word mixes those two, seven,
    fifteen and sixteen places before it. -/
def schedule (block : Array UInt32) : Array UInt32 :=
  (List.range 48).foldl (fun w i =>
    let near := w.getD (i + 14) 0
    let far := w.getD (i + 1) 0
    w.push (w.getD i 0 + (turn far 7 ^^^ turn far 18 ^^^ (far >>> 3)) + w.getD (i + 9) 0
      + (turn near 17 ^^^ turn near 19 ^^^ (near >>> 10)))) block

def round (x : Chain) (constant word : UInt32) : Chain :=
  let choice := (x.e &&& x.f) ^^^ ((~~~ x.e) &&& x.g)
  let majority := (x.a &&& x.b) ^^^ (x.a &&& x.c) ^^^ (x.b &&& x.c)
  let first := x.h + (turn x.e 6 ^^^ turn x.e 11 ^^^ turn x.e 25) + choice + constant + word
  let second := (turn x.a 2 ^^^ turn x.a 13 ^^^ turn x.a 22) + majority
  ⟨first + second, x.a, x.b, x.c, x.d + first, x.e, x.f, x.g⟩

/-- Sixty-four rounds over a block, added to the value before them. -/
def compress (x : Chain) (block : List UInt32) : Chain :=
  let rounds := (roundConstants.zip (schedule block.toArray).toList).foldl
    (fun y kw => round y kw.1 kw.2) x
  x.add rounds

/-- Compress the first `n` blocks of sixty-four bytes. -/
def compressAll : Nat → Chain → Bytes → Chain
  | 0, x, _ => x
  | n + 1, x, bytes => compressAll n (compress x (wordsOfBytes (bytes.take 64))) (bytes.drop 64)

/-- The thirty-two bytes of the digest. -/
def digest (message : Bytes) : Bytes :=
  let padded := pad message
  (compressAll (padded.length / 64) .start padded).words.flatMap bytesOfWord

end Treeprint.Sha256
