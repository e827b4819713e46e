import Mozkey.Base.ByteString

/-!
# Fingerprints of strings

The legacy fingerprint of `base/hash.cc`.  Characters are unsigned, as the build asks for.
-/

namespace Mozkey

def kFingerPrintSeed1 : UInt32 := 0x7a63

/-- `ToUint32`. -/
def toUint32 (a b c d : UInt8) : UInt32 :=
  a.toUInt32 + (b.toUInt32 <<< 8) + (c.toUInt32 <<< 16) + (d.toUInt32 <<< 24)

/-- `Mix`. -/
def mix (a b c : UInt32) : UInt32 × UInt32 × UInt32 :=
  let a := (a - b - c) ^^^ (c >>> 13)
  let b := (b - c - a) ^^^ (a <<< 8)
  let c := (c - a - b) ^^^ (b >>> 13)
  let a := (a - b - c) ^^^ (c >>> 12)
  let b := (b - c - a) ^^^ (a <<< 16)
  let c := (c - a - b) ^^^ (b >>> 5)
  let a := (a - b - c) ^^^ (c >>> 3)
  let b := (b - c - a) ^^^ (a <<< 10)
  let c := (c - a - b) ^^^ (b >>> 15)
  (a, b, c)

/-- The loop of `LegacyFingerprint32WithSeed` over blocks of twelve characters, and what
comes after it.  The cases of the switch fall through; a character that is not there adds
nothing. -/
def mixBlocks (strLen : UInt32) : ByteString → UInt32 → UInt32 → UInt32 → UInt32
  | s0 :: s1 :: s2 :: s3 :: s4 :: s5 :: s6 :: s7 :: s8 :: s9 :: s10 :: s11 :: str, a, b, c =>
      let (a, b, c) :=
        mix (a + toUint32 s0 s1 s2 s3) (b + toUint32 s4 s5 s6 s7) (c + toUint32 s8 s9 s10 s11)
      mixBlocks strLen str a b c
  | str, a, b, c =>
      let c := c + strLen + ((byteAt str 10).toUInt32 <<< 24) + ((byteAt str 9).toUInt32 <<< 16) +
        ((byteAt str 8).toUInt32 <<< 8)
      let b := b + toUint32 (byteAt str 4) (byteAt str 5) (byteAt str 6) (byteAt str 7)
      let a := a + toUint32 (byteAt str 0) (byteAt str 1) (byteAt str 2) (byteAt str 3)
      (mix a b c).2.2

/-- `LegacyFingerprint32WithSeed`. -/
def legacyFingerprint32WithSeed (str : ByteString) (seed : UInt32) : UInt32 :=
  mixBlocks (UInt32.ofNat str.length) str 0x9e3779b9 0x9e3779b9 seed

theorem legacyFingerprint32WithSeed_pair (x y : UInt8) (seed : UInt32) :
    legacyFingerprint32WithSeed [x, y] seed =
      (mix (0x9e3779b9 + toUint32 x y 0 0) 0x9e3779b9 (seed + 2)).2.2 := by
  simp [legacyFingerprint32WithSeed, mixBlocks, byteAt, toUint32]

/-- `LegacyFingerprintWithSeed`. -/
def legacyFingerprintWithSeed (str : ByteString) (seed : UInt32) : UInt64 :=
  let hi := legacyFingerprint32WithSeed str seed
  let lo := legacyFingerprint32WithSeed str kFingerPrintSeed1
  let result := hi.toUInt64 <<< 32 ||| lo.toUInt64
  if hi = 0 ∧ lo < 2 then result ^^^ 0x130f9bef94a0a928 else result

/-- **No fingerprint is zero.** -/
theorem legacyFingerprintWithSeed_ne_zero (str : ByteString) (seed : UInt32) :
    legacyFingerprintWithSeed str seed ≠ 0 := by
  unfold legacyFingerprintWithSeed
  generalize legacyFingerprint32WithSeed str seed = hi
  generalize legacyFingerprint32WithSeed str kFingerPrintSeed1 = lo
  dsimp only
  split
  · rename_i special
    obtain ⟨rfl, small⟩ := special
    have two : lo.toNat < 2 := UInt32.lt_iff_toNat_lt.1 small
    obtain zero | one : lo.toNat = 0 ∨ lo.toNat = 1 := by omega
    · have isZero : lo = 0 := UInt32.toNat_inj.1 zero
      subst isZero
      decide
    · have isOne : lo = 1 := UInt32.toNat_inj.1 one
      subst isOne
      decide
  · rename_i general
    intro zero
    obtain ⟨high, low⟩ := UInt64.or_eq_zero_iff.1 zero
    apply general
    have highNat := congrArg UInt64.toNat high
    have lowNat := congrArg UInt64.toNat low
    have bound := hi.toNat_lt
    rw [UInt64.toNat_shiftLeft, UInt32.toNat_toUInt64, Nat.shiftLeft_eq] at highNat
    rw [UInt32.toNat_toUInt64] at lowNat
    have shift : (32 : UInt64).toNat % 64 = 32 := rfl
    rw [shift] at highNat
    have small : hi.toNat * 2 ^ 32 < 2 ^ 64 := by omega
    rw [Nat.mod_eq_of_lt small] at highNat
    have zeroNat : (0 : UInt64).toNat = 0 := rfl
    refine ⟨UInt32.toNat_inj.1 ?_, UInt32.lt_iff_toNat_lt.2 ?_⟩
    · show hi.toNat = 0
      omega
    · show lo.toNat < 2
      omega

-- "google", as in the tests of the source
example : legacyFingerprintWithSeed [103, 111, 111, 103, 108, 101] 0xdeadbeef =
    0x1f8cbc0cafa6beed := by decide +kernel

end Mozkey
