import Qito.Lib.Lists
import Mathlib.Tactic.Common

/-! SHA-256 as lib/sha256.c computes it. The words of the state are 32-bit, the
count of bits 64-bit, and both wrap as they do in the source. -/
namespace Qito.Pkg

abbrev Bytes := List UInt8

abbrev Word := BitVec 32

def rotright (a : Word) (b : Nat) : Word := (a >>> b) ||| (a <<< (32 - b))

def ch (x y z : Word) : Word := (x &&& y) ^^^ (~~~x &&& z)
def maj (x y z : Word) : Word := (x &&& y) ^^^ (x &&& z) ^^^ (y &&& z)
def ep0 (x : Word) : Word := rotright x 2 ^^^ rotright x 13 ^^^ rotright x 22
def ep1 (x : Word) : Word := rotright x 6 ^^^ rotright x 11 ^^^ rotright x 25
def sig0 (x : Word) : Word := rotright x 7 ^^^ rotright x 18 ^^^ (x >>> 3)
def sig1 (x : Word) : Word := rotright x 17 ^^^ rotright x 19 ^^^ (x >>> 10)

def roundConstants : List Word :=
  [0x428a2f98, 0x71374491, 0xb5c0fbcf, 0xe9b5dba5, 0x3956c25b, 0x59f111f1, 0x923f82a4, 0xab1c5ed5,
    0xd807aa98, 0x12835b01, 0x243185be, 0x550c7dc3, 0x72be5d74, 0x80deb1fe, 0x9bdc06a7, 0xc19bf174,
    0xe49b69c1, 0xefbe4786, 0x0fc19dc6, 0x240ca1cc, 0x2de92c6f, 0x4a7484aa, 0x5cb0a9dc, 0x76f988da,
    0x983e5152, 0xa831c66d, 0xb00327c8, 0xbf597fc7, 0xc6e00bf3, 0xd5a79147, 0x06ca6351, 0x14292967,
    0x27b70a85, 0x2e1b2138, 0x4d2c6dfc, 0x53380d13, 0x650a7354, 0x766a0abb, 0x81c2c92e, 0x92722c85,
    0xa2bfe8a1, 0xa81a664b, 0xc24b8b70, 0xc76c51a3, 0xd192e819, 0xd6990624, 0xf40e3585, 0x106aa070,
    0x19a4c116, 0x1e376c08, 0x2748774c, 0x34b0bcb5, 0x391c0cb3, 0x4ed8aa4a, 0x5b9cca4f, 0x682e6ff3,
    0x748f82ee, 0x78a5636f, 0x84c87814, 0x8cc70208, 0x90befffa, 0xa4506ceb, 0xbef9a3f7, 0xc67178f2]

/-- The eight words a to h, or state[0] to state[7]. -/
structure Digest where
  a : Word
  b : Word
  c : Word
  d : Word
  e : Word
  f : Word
  g : Word
  h : Word

/-- sha256_ctx; data holds the datalen bytes of the block begun. -/
structure Sha256Ctx where
  state : Digest
  bitlen : Nat
  data : Bytes

def sha256Init : Sha256Ctx where
  state :=
    { a := 0x6a09e667
      b := 0xbb67ae85
      c := 0x3c6ef372
      d := 0xa54ff53a
      e := 0x510e527f
      f := 0x9b05688c
      g := 0x1f83d9ab
      h := 0x5be0cd19 }
  bitlen := 0
  data := []

def word (block : Bytes) (j : Nat) : Word :=
  (BitVec.ofNat 32 (block.getD j 0).toNat <<< 24) ||| (BitVec.ofNat 32 (block.getD (j + 1) 0).toNat <<< 16) |||
    (BitVec.ofNat 32 (block.getD (j + 2) 0).toNat <<< 8) ||| BitVec.ofNat 32 (block.getD (j + 3) 0).toNat

/-- The message schedule with its last words first, so that m[i - 1] is the head. -/
def extend : Nat → List Word → List Word
  | 0, m => m
  | n + 1, m => extend n ((sig1 (m.getD 1 0) + m.getD 6 0 + sig0 (m.getD 14 0) + m.getD 15 0) :: m)

def schedule (block : Bytes) : List Word :=
  (extend 48 ((List.range 16).map fun i => word block (4 * i)).reverse).reverse

def sha256Round (s : Digest) (km : Word × Word) : Digest :=
  let t1 := s.h + ep1 s.e + ch s.e s.f s.g + km.1 + km.2
  let t2 := ep0 s.a + maj s.a s.b s.c
  { a := t1 + t2, b := s.a, c := s.b, d := s.c, e := s.d + t1, f := s.e, g := s.f, h := s.g }

def sha256Transform (state : Digest) (block : Bytes) : Digest :=
  let s := (roundConstants.zip (schedule block)).foldl sha256Round state
  { a := state.a + s.a, b := state.b + s.b, c := state.c + s.c, d := state.d + s.d
    e := state.e + s.e, f := state.f + s.f, g := state.g + s.g, h := state.h + s.h }

/-- One byte of sha256_update. -/
def sha256Byte (ctx : Sha256Ctx) (byte : UInt8) : Sha256Ctx :=
  let data := ctx.data ++ [byte]
  if data.length = 64 then
    { state := sha256Transform ctx.state data, bitlen := (ctx.bitlen + 512) % 2 ^ 64, data := [] }
  else { ctx with data := data }

def sha256Update (ctx : Sha256Ctx) (data : Bytes) : Sha256Ctx := data.foldl sha256Byte ctx

def lengthBytes (bitlen : Nat) : Bytes := (List.range 8).map fun i => UInt8.ofNat (bitlen >>> (56 - 8 * i))

def bigEndian (w : Word) : Bytes := (List.range 4).map fun i => UInt8.ofNat (w.toNat >>> (24 - 8 * i))

def Digest.bytes (s : Digest) : Bytes := [s.a, s.b, s.c, s.d, s.e, s.f, s.g, s.h].flatMap bigEndian

def sha256Final (ctx : Sha256Ctx) : Bytes :=
  let bitlen := (ctx.bitlen + ctx.data.length * 8) % 2 ^ 64
  let padded := ctx.data ++ [0x80]
  if ctx.data.length < 56 then
    (sha256Transform ctx.state (padded ++ List.replicate (56 - padded.length) 0 ++ lengthBytes bitlen)).bytes
  else
    let state := sha256Transform ctx.state (padded ++ List.replicate (64 - padded.length) 0)
    (sha256Transform state (List.replicate 56 0 ++ lengthBytes bitlen)).bytes

def sha256Data (data : Bytes) : Bytes := sha256Final (sha256Update sha256Init data)

def hexDigit (n : Nat) : UInt8 := UInt8.ofNat (if n < 10 then 48 + n else 87 + n)

def sha256ToHex (hash : Bytes) : Bytes := hash.flatMap fun b => [hexDigit (b.toNat / 16), hexDigit (b.toNat % 16)]

def ascii (text : String) : Bytes := text.toList.map fun c => UInt8.ofNat c.toNat

theorem ascii_append (s t : String) : ascii (s ++ t) = ascii s ++ ascii t := by
  rw [ascii, String.toList_append, List.map_append]
  rfl

theorem ascii_ofList (cs : List Char) : ascii (String.ofList cs) = cs.map fun c => UInt8.ofNat c.toNat := by
  rw [ascii, String.toList_ofList]

end Qito.Pkg
