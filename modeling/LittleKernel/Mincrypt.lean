/-
# SHA-256

`external/lib/mincrypt/sha256.c`: `SHA256_init`, `SHA256_update`, `SHA256_final` and
`SHA256_hash`.

`SHA256_update` takes its length as an `int` and adds it to a 64-bit count, so a length
of 2 GiB or more is counted as a negative one; the bytes are hashed all the same.
-/

import LittleKernel.Lib.Bytes

namespace LittleKernel
namespace Mincrypt

/-- `K`. -/
def k : List UInt32 :=
  [0x428a2f98, 0x71374491, 0xb5c0fbcf, 0xe9b5dba5, 0x3956c25b, 0x59f111f1, 0x923f82a4, 0xab1c5ed5,
   0xd807aa98, 0x12835b01, 0x243185be, 0x550c7dc3, 0x72be5d74, 0x80deb1fe, 0x9bdc06a7, 0xc19bf174,
   0xe49b69c1, 0xefbe4786, 0x0fc19dc6, 0x240ca1cc, 0x2de92c6f, 0x4a7484aa, 0x5cb0a9dc, 0x76f988da,
   0x983e5152, 0xa831c66d, 0xb00327c8, 0xbf597fc7, 0xc6e00bf3, 0xd5a79147, 0x06ca6351, 0x14292967,
   0x27b70a85, 0x2e1b2138, 0x4d2c6dfc, 0x53380d13, 0x650a7354, 0x766a0abb, 0x81c2c92e, 0x92722c85,
   0xa2bfe8a1, 0xa81a664b, 0xc24b8b70, 0xc76c51a3, 0xd192e819, 0xd6990624, 0xf40e3585, 0x106aa070,
   0x19a4c116, 0x1e376c08, 0x2748774c, 0x34b0bcb5, 0x391c0cb3, 0x4ed8aa4a, 0x5b9cca4f, 0x682e6ff3,
   0x748f82ee, 0x78a5636f, 0x84c87814, 0x8cc70208, 0x90befffa, 0xa4506ceb, 0xbef9a3f7, 0xc67178f2]

/-- `ror`. -/
def ror (value bits : UInt32) : UInt32 := value >>> bits ||| value <<< (32 - bits)

/-- The variables `A` to `H`, or the words of `ctx->state`. -/
structure State where
  a : UInt32
  b : UInt32
  c : UInt32
  d : UInt32
  e : UInt32
  f : UInt32
  g : UInt32
  h : UInt32
deriving DecidableEq

/-- `HASH_CTX`, with `buf` as 64 bytes. -/
structure HashCtx where
  count : UInt64
  buf : List UInt8
  state : State
deriving DecidableEq

/-- `W[0..15]` of a block, the last one first. -/
def firstWords : List UInt8 → List UInt32 → List UInt32
  | b₀ :: b₁ :: b₂ :: b₃ :: bs, w =>
    firstWords bs
      ((b₀.toUInt32 <<< 24 ||| b₁.toUInt32 <<< 16 ||| b₂.toUInt32 <<< 8 ||| b₃.toUInt32) :: w)
  | _, w => w

/-- `n` more words of `W`, the last one first. -/
def extendWords : ℕ → List UInt32 → List UInt32
  | 0, w => w
  | n + 1, w =>
    let s0 := ror (w.getD 14 0) 7 ^^^ ror (w.getD 14 0) 18 ^^^ w.getD 14 0 >>> 3
    let s1 := ror (w.getD 1 0) 17 ^^^ ror (w.getD 1 0) 19 ^^^ w.getD 1 0 >>> 10
    extendWords n ((w.getD 15 0 + s0 + w.getD 6 0 + s1) :: w)

/-- One turn of the second loop of `SHA256_Transform`. -/
def round (v : State) (kw : UInt32 × UInt32) : State :=
  let s0 := ror v.a 2 ^^^ ror v.a 13 ^^^ ror v.a 22
  let maj := v.a &&& v.b ^^^ v.a &&& v.c ^^^ v.b &&& v.c
  let t2 := s0 + maj
  let s1 := ror v.e 6 ^^^ ror v.e 11 ^^^ ror v.e 25
  let ch := v.e &&& v.f ^^^ ~~~v.e &&& v.g
  let t1 := v.h + s1 + ch + kw.1 + kw.2
  ⟨t1 + t2, v.a, v.b, v.c, v.d + t1, v.e, v.f, v.g⟩

/-- `SHA256_Transform`. -/
def sha256Transform (ctx : HashCtx) : HashCtx :=
  let w := (extendWords 48 (firstWords ctx.buf [])).reverse
  let v := (k.zip w).foldl round ctx.state
  let s := ctx.state
  { ctx with
    state := ⟨s.a + v.a, s.b + v.b, s.c + v.c, s.d + v.d,
      s.e + v.e, s.f + v.f, s.g + v.g, s.h + v.h⟩ }

/-- `SHA256_init`. -/
def sha256Init : HashCtx where
  count := 0
  buf := List.replicate 64 0
  state := ⟨0x6a09e667, 0xbb67ae85, 0x3c6ef372, 0xa54ff53a,
    0x510e527f, 0x9b05688c, 0x1f83d9ab, 0x5be0cd19⟩

/-- One turn of the loop of `SHA256_update`, at position `i` of `buf`. -/
def updateByte (s : HashCtx × ℕ) (b : UInt8) : HashCtx × ℕ :=
  let ctx := { s.1 with buf := s.1.buf.set s.2 b }
  if s.2 + 1 = 64 then (sha256Transform ctx, 0) else (ctx, s.2 + 1)

/-- A length that was passed as an `int`, added to a `uint64_t`. -/
def intLen (n : ℕ) : UInt64 := UInt64.ofNat (if n % 2 ^ 32 < 2 ^ 31 then n else n + (2 ^ 64 - 2 ^ 32))

/-- `SHA256_update`. -/
def sha256Update (ctx : HashCtx) (data : List UInt8) : HashCtx :=
  (data.foldl updateByte
    ({ ctx with count := ctx.count + intLen data.length }, (ctx.count &&& 63).toNat)).1

/-- The second loop of `SHA256_final`, which ends within 64 turns. -/
def padZeros : ℕ → HashCtx → HashCtx
  | 0, ctx => ctx
  | n + 1, ctx => if ctx.count &&& 63 ≠ 56 then padZeros n (sha256Update ctx [0]) else ctx

/-- A word, the high byte first. -/
def bigEndian (x : UInt32) : List UInt8 :=
  [(x >>> 24).toUInt8, (x >>> 16).toUInt8, (x >>> 8).toUInt8, x.toUInt8]

/-- `SHA256_final`: the first `SHA256_DIGEST_SIZE` bytes of the buffer it returns. -/
def sha256Final (ctx : HashCtx) : List UInt8 :=
  let cnt := ctx.count * 8
  let ctx := padZeros 64 (sha256Update ctx [0x80])
  let ctx := (List.range 8).foldl
    (fun ctx i => sha256Update ctx [(cnt >>> UInt64.ofNat ((7 - i) * 8)).toUInt8]) ctx
  bigEndian ctx.state.a ++ (bigEndian ctx.state.b ++ (bigEndian ctx.state.c ++
    (bigEndian ctx.state.d ++ (bigEndian ctx.state.e ++ (bigEndian ctx.state.f ++
      (bigEndian ctx.state.g ++ bigEndian ctx.state.h))))))

/-- `SHA256_hash`. -/
def sha256Hash (data : List UInt8) : List UInt8 := sha256Final (sha256Update sha256Init data)

/-- The digest of `"abc"`. -/
example : sha256Hash [0x61, 0x62, 0x63] =
    [0xba, 0x78, 0x16, 0xbf, 0x8f, 0x01, 0xcf, 0xea, 0x41, 0x41, 0x40, 0xde, 0x5d, 0xae, 0x22, 0x23,
     0xb0, 0x03, 0x61, 0xa3, 0x96, 0x17, 0x7a, 0x9c, 0xb4, 0x10, 0xff, 0x61, 0xf2, 0x00, 0x15,
     0xad] := by
  decide +kernel

@[simp] theorem length_sha256Hash (data : List UInt8) : (sha256Hash data).length = 32 := rfl

end Mincrypt
end LittleKernel
