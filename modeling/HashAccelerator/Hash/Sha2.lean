import HashAccelerator.Hash.Schedule
/-!
# SHA-2

The compression function of the SHA-2 hashes. SHA-224 and SHA-256 compute on 32-bit words,
SHA-384 and SHA-512 on 64-bit words, with the same rounds: a `Family` gathers what differs, which is
the rotations of the four mixing functions and the round constants.
-/

namespace HashAccelerator

namespace Sha2

/-- What sets the hashes on one word width apart. -/
structure Family (ω : Type) where
  /-- Mixes the first working word. -/
  sumA : ω → ω
  /-- Mixes the fifth working word. -/
  sumE : ω → ω
  /-- Mixes the schedule's word of fifteen rounds ago. -/
  mixFar : ω → ω
  /-- Mixes the schedule's word of two rounds ago. -/
  mixNear : ω → ω
  /-- One constant for each round. -/
  constants : List ω

/-- The eight words that a round works on. -/
structure Working (ω : Type) where
  a : ω
  b : ω
  c : ω
  d : ω
  e : ω
  f : ω
  g : ω
  h : ω

section Rounds

variable {ω : Type} [OfNat ω 0] [Add ω] [AndOp ω] [XorOp ω] [Complement ω]

/-- Takes each bit from the second or the third word as the first word says. -/
def choose (e f g : ω) : ω := (e &&& f) ^^^ (~~~e &&& g)

/-- The majority of each bit. -/
def majority (a b c : ω) : ω := (a &&& b) ^^^ (a &&& c) ^^^ (b &&& c)

/-- The next word of the schedule. -/
def Family.nextWord (family : Family ω) (words : Schedule ω) : ω :=
  family.mixNear (words.back 2) + words.back 7 + family.mixFar (words.back 15) + words.back 16

/-- One round. -/
def Family.round (family : Family ω) (v : Working ω) (constant word : ω) : Working ω :=
  let first := v.h + family.sumE v.e + choose v.e v.f v.g + constant + word
  let second := family.sumA v.a + majority v.a v.b v.c
  { a := first + second, b := v.a, c := v.b, d := v.c
    e := v.d + first, f := v.e, g := v.f, h := v.g }

/-- The chaining value after one more block of sixteen words. -/
def Family.compress (family : Family ω) (state : Vector ω 8) (block : List ω) : Vector ω 8 :=
  let words := Schedule.ofBlock family.nextWord family.constants.length block
  let rounds := family.constants.zip words
  let v := rounds.foldl (fun v (constant, word) => family.round v constant word)
    ⟨state.get 0, state.get 1, state.get 2, state.get 3,
      state.get 4, state.get 5, state.get 6, state.get 7⟩
  #v[state.get 0 + v.a, state.get 1 + v.b, state.get 2 + v.c, state.get 3 + v.d,
    state.get 4 + v.e, state.get 5 + v.f, state.get 6 + v.g, state.get 7 + v.h]

end Rounds

/-! ## 32-bit words -/

/-- A word rotated to the right. -/
def rotateRight32 (word amount : UInt32) : UInt32 := word >>> amount ||| word <<< (32 - amount)

/-- The hashes on 32-bit words. -/
def narrow : Family UInt32 where
  sumA x := rotateRight32 x 2 ^^^ rotateRight32 x 13 ^^^ rotateRight32 x 22
  sumE x := rotateRight32 x 6 ^^^ rotateRight32 x 11 ^^^ rotateRight32 x 25
  mixFar x := rotateRight32 x 7 ^^^ rotateRight32 x 18 ^^^ x >>> 3
  mixNear x := rotateRight32 x 17 ^^^ rotateRight32 x 19 ^^^ x >>> 10
  constants := [
    0x428A2F98, 0x71374491, 0xB5C0FBCF, 0xE9B5DBA5, 0x3956C25B, 0x59F111F1, 0x923F82A4, 0xAB1C5ED5,
    0xD807AA98, 0x12835B01, 0x243185BE, 0x550C7DC3, 0x72BE5D74, 0x80DEB1FE, 0x9BDC06A7, 0xC19BF174,
    0xE49B69C1, 0xEFBE4786, 0x0FC19DC6, 0x240CA1CC, 0x2DE92C6F, 0x4A7484AA, 0x5CB0A9DC, 0x76F988DA,
    0x983E5152, 0xA831C66D, 0xB00327C8, 0xBF597FC7, 0xC6E00BF3, 0xD5A79147, 0x06CA6351, 0x14292967,
    0x27B70A85, 0x2E1B2138, 0x4D2C6DFC, 0x53380D13, 0x650A7354, 0x766A0ABB, 0x81C2C92E, 0x92722C85,
    0xA2BFE8A1, 0xA81A664B, 0xC24B8B70, 0xC76C51A3, 0xD192E819, 0xD6990624, 0xF40E3585, 0x106AA070,
    0x19A4C116, 0x1E376C08, 0x2748774C, 0x34B0BCB5, 0x391C0CB3, 0x4ED8AA4A, 0x5B9CCA4F, 0x682E6FF3,
    0x748F82EE, 0x78A5636F, 0x84C87814, 0x8CC70208, 0x90BEFFFA, 0xA4506CEB, 0xBEF9A3F7, 0xC67178F2]

/-- The words that SHA-224 begins with. -/
def initial224 : Vector UInt32 8 :=
  #v[0xC1059ED8, 0x367CD507, 0x3070DD17, 0xF70E5939, 0xFFC00B31, 0x68581511, 0x64F98FA7, 0xBEFA4FA4]

/-- The words that SHA-256 begins with. -/
def initial256 : Vector UInt32 8 :=
  #v[0x6A09E667, 0xBB67AE85, 0x3C6EF372, 0xA54FF53A, 0x510E527F, 0x9B05688C, 0x1F83D9AB, 0x5BE0CD19]

/-! ## 64-bit words -/

/-- A word rotated to the right. -/
def rotateRight64 (word amount : UInt64) : UInt64 := word >>> amount ||| word <<< (64 - amount)

/-- The hashes on 64-bit words. -/
def wide : Family UInt64 where
  sumA x := rotateRight64 x 28 ^^^ rotateRight64 x 34 ^^^ rotateRight64 x 39
  sumE x := rotateRight64 x 14 ^^^ rotateRight64 x 18 ^^^ rotateRight64 x 41
  mixFar x := rotateRight64 x 1 ^^^ rotateRight64 x 8 ^^^ x >>> 7
  mixNear x := rotateRight64 x 19 ^^^ rotateRight64 x 61 ^^^ x >>> 6
  constants := [
    0x428A2F98D728AE22, 0x7137449123EF65CD, 0xB5C0FBCFEC4D3B2F, 0xE9B5DBA58189DBBC,
    0x3956C25BF348B538, 0x59F111F1B605D019, 0x923F82A4AF194F9B, 0xAB1C5ED5DA6D8118,
    0xD807AA98A3030242, 0x12835B0145706FBE, 0x243185BE4EE4B28C, 0x550C7DC3D5FFB4E2,
    0x72BE5D74F27B896F, 0x80DEB1FE3B1696B1, 0x9BDC06A725C71235, 0xC19BF174CF692694,
    0xE49B69C19EF14AD2, 0xEFBE4786384F25E3, 0x0FC19DC68B8CD5B5, 0x240CA1CC77AC9C65,
    0x2DE92C6F592B0275, 0x4A7484AA6EA6E483, 0x5CB0A9DCBD41FBD4, 0x76F988DA831153B5,
    0x983E5152EE66DFAB, 0xA831C66D2DB43210, 0xB00327C898FB213F, 0xBF597FC7BEEF0EE4,
    0xC6E00BF33DA88FC2, 0xD5A79147930AA725, 0x06CA6351E003826F, 0x142929670A0E6E70,
    0x27B70A8546D22FFC, 0x2E1B21385C26C926, 0x4D2C6DFC5AC42AED, 0x53380D139D95B3DF,
    0x650A73548BAF63DE, 0x766A0ABB3C77B2A8, 0x81C2C92E47EDAEE6, 0x92722C851482353B,
    0xA2BFE8A14CF10364, 0xA81A664BBC423001, 0xC24B8B70D0F89791, 0xC76C51A30654BE30,
    0xD192E819D6EF5218, 0xD69906245565A910, 0xF40E35855771202A, 0x106AA07032BBD1B8,
    0x19A4C116B8D2D0C8, 0x1E376C085141AB53, 0x2748774CDF8EEB99, 0x34B0BCB5E19B48A8,
    0x391C0CB3C5C95A63, 0x4ED8AA4AE3418ACB, 0x5B9CCA4F7763E373, 0x682E6FF3D6B2B8A3,
    0x748F82EE5DEFB2FC, 0x78A5636F43172F60, 0x84C87814A1F0AB72, 0x8CC702081A6439EC,
    0x90BEFFFA23631E28, 0xA4506CEBDE82BDE9, 0xBEF9A3F7B2C67915, 0xC67178F2E372532B,
    0xCA273ECEEA26619C, 0xD186B8C721C0C207, 0xEADA7DD6CDE0EB1E, 0xF57D4F7FEE6ED178,
    0x06F067AA72176FBA, 0x0A637DC5A2C898A6, 0x113F9804BEF90DAE, 0x1B710B35131C471B,
    0x28DB77F523047D84, 0x32CAAB7B40C72493, 0x3C9EBE0A15C9BEBC, 0x431D67C49C100D4C,
    0x4CC5D4BECB3E42B6, 0x597F299CFC657E2A, 0x5FCB6FAB3AD6FAEC, 0x6C44198C4A475817]

/-- The words that SHA-384 begins with. -/
def initial384 : Vector UInt64 8 :=
  #v[0xCBBB9D5DC1059ED8, 0x629A292A367CD507, 0x9159015A3070DD17, 0x152FECD8F70E5939,
    0x67332667FFC00B31, 0x8EB44A8768581511, 0xDB0C2E0D64F98FA7, 0x47B5481DBEFA4FA4]

/-- The words that SHA-512 begins with. -/
def initial512 : Vector UInt64 8 :=
  #v[0x6A09E667F3BCC908, 0xBB67AE8584CAA73B, 0x3C6EF372FE94F82B, 0xA54FF53A5F1D36F1,
    0x510E527FADE682D1, 0x9B05688C2B3E6C1F, 0x1F83D9ABFB41BD6B, 0x5BE0CD19137E2179]

end Sha2

end HashAccelerator
