import SpeedTrial.Numeric.FixedPoint

/-!
# Logarithms of whole numbers

The natural logarithm is rounded from fixed point.  The logarithm to base two is computed on
doubles: the number is scaled into the octave from 11/16 to 11/8 and divided by the centre of
the part of the octave that it is in; the logarithm of the centre comes from a table and that
of the quotient, which is close to one, is a polynomial.  All arithmetic is on doubles, in the
order it is written in, with an error of at most 0.55 units of the last place.

* `ln` and `log2` are the two logarithms.
-/

namespace SpeedTrial.Numeric

/-- The natural logarithm of a positive whole number, as the nearest double. -/
def ln (n : Nat) : Float := nearest false (log2Fixed n * fixedLn2) (fixedOne * fixedOne)

/-! ## Centres -/

/-- The centre of a part of an octave. -/
structure Centre where
  /-- One over the centre; this is a double, and the centre is what one over it is. -/
  inverse : Float
  /-- The double nearest to the centre. -/
  high : Float
  /-- The double nearest to what the centre is above that. -/
  low : Float
  /-- The double nearest to the logarithm of the centre to base two. -/
  log : Float

/-- The centre with a given inverse. -/
def Centre.ofInverse (inverse : Float) : Centre :=
  match parts? inverse with
  | none => ⟨inverse, inverse, inverse, inverse⟩
  | some p =>
    let num := twoPow (-p.exponent).toNat
    let high := nearest false num p.significand
    let rest : Int := match parts? high with
      | none => 0
      | some h => num * twoPow (-h.exponent).toNat - h.significand * p.significand
    let unit := match parts? high with
      | none => 1
      | some h => p.significand * twoPow (-h.exponent).toNat
    let log := p.log2Fixed
    ⟨inverse, high, nearest (rest < 0) rest.natAbs unit, nearest (0 < log) log.natAbs fixedOne⟩

/-- The inverses of the centres of the 64 equal parts of the octave from 1 to 2; from the part
that starts with 11/8 on, the centres are those of the part halved.  Each is close to the
middle of its part and was chosen there so that its logarithm is close to a double with few
bits. -/
def inverses : Array UInt64 :=
  #[0x3FEFC07EF9CAA76B, 0x3FEF4465D3F6F184, 0x3FEECC079F84107F, 0x3FEE573A99975AE8,
    0x3FEDE5D6F0BD3DE6, 0x3FED77B681FF38B3, 0x3FED0CB5724DE943, 0x3FECA4B2DC0E7563,
    0x3FEC3F8EE8D6CB51, 0x3FEBDD2B4F020C4C, 0x3FEB7D6C006015CA, 0x3FEB20366E2E338F,
    0x3FEAC57026295039, 0x3FEA6D01BC2731DD, 0x3FEA16D3BC3FF18B, 0x3FE9C2D14967FEAD,
    0x3FE970E4F47C9902, 0x3FE920FB3982BCF2, 0x3FE8D30187F759F1, 0x3FE886E5EBB9F66D,
    0x3FE83C97B658B994, 0x3FE7F405FFC61022, 0x3FE7AD22181415CA, 0x3FE767DCF99EFF8C,
    0x3FF724286BB1ACF8, 0x3FF6E1F766D2CCA1, 0x3FF6A13D0E30D48A, 0x3FF661EC32D06C85,
    0x3FF623FA951198F8, 0x3FF5E75BA4CF026C, 0x3FF5AC055A214FB8, 0x3FF571ED0F166E1E,
    0x3FF53909590BF835, 0x3FF5014FED61ADDD, 0x3FF4CAB88E487BD0, 0x3FF49539B4334FEE,
    0x3FF460CBDFAFD569, 0x3FF42D664EE4B953, 0x3FF3FB01111DD8A6, 0x3FF3C995B70C5836,
    0x3FF3991C4AB6FD4A, 0x3FF3698E0CE099B5, 0x3FF33AE48213E7B2, 0x3FF30D191985BDB1,
    0x3FF2E025CAB271D7, 0x3FF2B404CF13CD82, 0x3FF288B02C7CCB50, 0x3FF25E2263944DE5,
    0x3FF234563D8615B1, 0x3FF20B46E33EAF38, 0x3FF1E2EEFDCDA3DD, 0x3FF1BB4A580B3930,
    0x3FF19453847F2200, 0x3FF16E06C0D5D73C, 0x3FF1485F47B7E4C2, 0x3FF12358AD0085D1,
    0x3FF0FEF00F532227, 0x3FF0DB2077D03A8F, 0x3FF0B7E6D65980D9, 0x3FF0953EFE7B408D,
    0x3FF07325CAC53B83, 0x3FF05197E40D1B5C, 0x3FF03091C1208EA2, 0x3FF0101025B37E21]

/-- The centres of the parts of an octave. -/
def centres : Array Centre := inverses.map fun bits => Centre.ofInverse (Float.ofBits bits)

/-- The centre of a part of an octave. -/
def centreAt (part : Nat) : Centre := centres[part]?.getD (Centre.ofInverse 1.0)

/-! ## Logarithms to base two -/

/-- The first part of an octave whose centre is that of the part halved. -/
def firstHalved : Nat := 24

/-- The double with the upper 32 bits of another and zeros below. -/
def upperHalf (x : Float) : Float := Float.ofBits ((x.toBits >>> 32) <<< 32)

/-- The logarithm of `1 + r` to base two, less its linear part, over `r` squared. -/
def log2Tail (r : Float) : Float :=
  let c0 := Float.ofBits 0xBFE71547652B8339
  let c1 := Float.ofBits 0x3FDEC709DC3A04BE
  let c2 := Float.ofBits 0xBFD7154764702FFB
  let c3 := Float.ofBits 0x3FD2776C50034C48
  let c4 := Float.ofBits 0xBFCEC7B328EA92BC
  let c5 := Float.ofBits 0x3FCA6225E117F92E
  let r2 := r * r
  let r4 := r2 * r2
  c0 + r * c1 + r2 * (c2 + r * c3) + r4 * (c4 + r * c5)

/-- The logarithm to base two of `z · 2 ^ k`, with the centre of the part that `z` is in.  The
linear part is split so that its leading bits are added without an error. -/
def log2Near (c : Centre) (z k : Float) : Float :=
  let log2eHigh := Float.ofBits 0x3FF7154765200000
  let log2eLow := Float.ofBits 0x3DE705FC2EEFA200
  let r := (z - c.high - c.low) * c.inverse
  let rHigh := upperHalf r
  let t1 := rHigh * log2eHigh
  let t2 := (r - rHigh) * log2eHigh + r * log2eLow
  let t3 := k + c.log
  let high := t3 + t1
  let low := t3 - high + t1 + t2
  low + r * r * log2Tail r + high

/-- The logarithm to base two of a whole number; zero counts as one. -/
def log2 (n : Nat) : Float :=
  if n ≤ 1 then 0.0
  else match parts? (ofCount n) with
    | none => ofCount n
    | some p =>
      let part := (p.significand - twoPow 52) / twoPow 46
      let halving : Int := if part < firstHalved then 52 else 53
      log2Near (centreAt part) (nearestScaled false p.significand (-halving))
        (ofCount (p.exponent + halving).toNat)

end SpeedTrial.Numeric
