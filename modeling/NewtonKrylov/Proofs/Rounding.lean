import Mathlib
import NewtonKrylov.Precision
import NewtonKrylov.Scalar

/-!
# Numbers that rounding leaves alone

The bits of a format hold a mantissa and an exponent if the exponent is the one that rounding chooses
(`Fixed`) and is not too large (`Canonical`). What bits hold is the same after it was packed
(`Held.unpack_pack`), and rounding gives it back from whatever mantissa and exponent of the same value
(`Fixed.round_eq`). So a factor of one changes no number, a factor of two makes no positive number zero,
and a binary32 number comes back from binary64 as it was (`narrow_widen`).
-/

namespace NewtonKrylov.Rounding

open Float.Model (UnpackedFloat Format totalExponent)
open Float.Model.UnpackedFloat
open Precision

variable {spec : Format} {m : Nat} {e : Int}

/-! ## What bits hold -/

/-- A mantissa and the exponent that rounding chooses for it. -/
structure Fixed (spec : Format) (m : Nat) (e : Int) : Prop where
  pos : 0 < m
  exponent : spec.targetExponent (totalExponent m e) = e

/-- A mantissa and an exponent as the bits of a format hold them. -/
structure Canonical (spec : Format) (m : Nat) (e : Int) : Prop extends Fixed spec m e where
  bounded : e + spec.exponentBias + spec.mantissaBitsWithoutImplicit + 1 < 2 ^ spec.exponentBits

/-- A number that the bits of a format hold. -/
def Held (spec : Format) : UnpackedFloat → Prop
  | .finite _ m e _ => Canonical spec m e
  | _ => True

theorem targetExponent_eq (spec : Format) (m : Nat) (e : Int) :
    spec.targetExponent (totalExponent m e) =
      max (m.log2 + e - spec.mantissaBitsWithoutImplicit) spec.minExponent := by
  have hbits : (spec.mantissaBits : Int) = 1 + spec.mantissaBitsWithoutImplicit := by
    simp [Format.mantissaBits]
  rw [Format.targetExponent, totalExponent, hbits]
  congr 1
  ring

theorem Fixed.cases (h : Fixed spec m e) :
    m.log2 = spec.mantissaBitsWithoutImplicit ∧ spec.minExponent ≤ e ∨
      m.log2 < spec.mantissaBitsWithoutImplicit ∧ e = spec.minExponent := by
  have hexponent := h.exponent
  rw [targetExponent_eq] at hexponent
  omega

theorem toNat_append_one {w : Nat} (f : BitVec w) : (1#1 ++ f).toNat = 2 ^ w + f.toNat := by
  rw [BitVec.toNat_append, ← Nat.shiftLeft_add_eq_or_of_lt f.isLt]
  simp [Nat.shiftLeft_eq]

theorem log2_append_one {w : Nat} (f : BitVec w) : (1#1 ++ f).toNat.log2 = w := by
  have hlt := f.isLt
  rw [toNat_append_one, Nat.log2_eq_iff (by positivity)]
  omega

theorem ofNat_append_one {w : Nat} (f : BitVec w) : BitVec.ofNat w (1#1 ++ f).toNat = f := by
  rw [← BitVec.toNat_inj, BitVec.toNat_ofNat, toNat_append_one, Nat.add_mod_left,
    Nat.mod_eq_of_lt f.isLt]

theorem append_one_ofNat {w : Nat} (hm : m.log2 = w) (hpos : 0 < m) :
    (1#1 ++ BitVec.ofNat w m).toNat = m := by
  have hbounds := (Nat.log2_eq_iff hpos.ne').mp hm
  rw [pow_succ] at hbounds
  have hmod : m % 2 ^ w = m - 2 ^ w := by
    rw [Nat.mod_eq_sub_mod hbounds.1, Nat.mod_eq_of_lt (by omega)]
  rw [toNat_append_one, BitVec.toNat_ofNat, hmod]
  omega

theorem ne_ones {w : Nat} {v : BitVec w} : v ≠ -1#w ↔ v.toNat + 1 < 2 ^ w := by
  have hlt := v.isLt
  rw [ne_eq, ← BitVec.toNat_inj, BitVec.neg_one_eq_allOnes, BitVec.toNat_allOnes]
  omega

theorem unpackSign_packComponents (s : Sign) (v : BitVec spec.exponentBits)
    (f : BitVec spec.mantissaBitsWithoutImplicit) :
    unpackSign (packComponents spec s v f) = s.toBitVec := by
  ext i hi
  obtain rfl : i = 0 := by omega
  simp [unpackSign, packComponents, BitVec.getLsbD_append, BitVec.getElem_append]

theorem sign_toBitVec (s : Sign) : Sign.ofBitVec s.toBitVec = s := by
  cases s <;> rfl

theorem toBitVec_sign (v : BitVec 1) : (Sign.ofBitVec v).toBitVec = v := by
  have hlt := v.isLt
  rcases (by omega : v.toNat = 0 ∨ v.toNat = 1) with h | h
  · rw [show v = 0#1 from BitVec.eq_of_toNat_eq h]
    rfl
  · rw [show v = 1#1 from BitVec.eq_of_toNat_eq h]
    rfl

theorem packComponents_unpack (b : BitVec spec.numBits) :
    packComponents spec (Sign.ofBitVec (unpackSign b)) (unpackExponent b) (unpackMantissa b) = b := by
  have hm := spec.hm
  have he := spec.he
  rw [packComponents, toBitVec_sign]
  apply BitVec.eq_of_getLsbD_eq
  intro i hi
  simp only [unpackSign, unpackExponent, unpackMantissa, BitVec.getLsbD_append, BitVec.getLsbD_cast,
    BitVec.getLsbD_extractLsb]
  grind

theorem pos_of_ne_zero {w : Nat} {v : BitVec w} (h : v ≠ 0#w) : 0 < v.toNat := by
  rwa [Nat.pos_iff_ne_zero, ne_eq, ← BitVec.toNat_zero, BitVec.toNat_inj]

theorem log2_lt_width {w : Nat} {v : BitVec w} (h : v ≠ 0#w) : v.toNat.log2 < w :=
  (Nat.log2_lt (pos_of_ne_zero h).ne').mpr v.isLt

theorem minExponent_eq (spec : Format) :
    spec.minExponent = 1 - spec.exponentBias - spec.mantissaBitsWithoutImplicit := by
  have hpow : 1 ≤ 2 ^ (spec.exponentBits - 1) := Nat.one_le_two_pow
  rw [Format.minExponent, Format.exponentBias, Format.mantissaBits, Nat.cast_sub hpow]
  push_cast
  ring

theorem canonical_normal {v : BitVec spec.exponentBits} (hzero : v ≠ 0#_) (hones : v ≠ -1#_)
    (f : BitVec spec.mantissaBitsWithoutImplicit) :
    Canonical spec (1#1 ++ f).toNat
      (v.toNat - (spec.exponentBias + spec.mantissaBitsWithoutImplicit)) := by
  have hmin := minExponent_eq spec
  have hpos := pos_of_ne_zero hzero
  have hlt := ne_ones.mp hones
  zify at hlt
  refine ⟨⟨by simp, ?_⟩, by omega⟩
  rw [targetExponent_eq, log2_append_one]
  omega

theorem canonical_subnormal (hbits : 2 ≤ spec.exponentBits)
    {f : BitVec spec.mantissaBitsWithoutImplicit} (hf : f ≠ 0#_) :
    Canonical spec f.toNat
      (0 - (spec.exponentBias + spec.mantissaBitsWithoutImplicit) + 1) := by
  have hmin := minExponent_eq spec
  have hlog := log2_lt_width hf
  have hpow : (2 : Int) ^ 2 ≤ 2 ^ spec.exponentBits := pow_le_pow_right₀ (by norm_num) hbits
  refine ⟨⟨pos_of_ne_zero hf, ?_⟩, by omega⟩
  rw [targetExponent_eq]
  omega

theorem unpack_held (hbits : 2 ≤ spec.exponentBits) (b : BitVec spec.numBits) :
    Held spec (UnpackedFloat.unpack spec b) := by
  unfold UnpackedFloat.unpack
  by_cases hones : unpackExponent b = -1#_
  · rw [if_pos hones]
    split <;> trivial
  rw [if_neg hones]
  by_cases hzero : unpackExponent b = 0#_
  · rw [if_pos hzero]
    split
    · trivial
    · next hf =>
      rw [hzero, BitVec.toNat_zero]
      exact canonical_subnormal hbits hf
  · rw [if_neg hzero]
    exact canonical_normal hzero hones _

theorem Canonical.exists_biased (h : Canonical spec m e) : ∃ k : Nat, 0 < k ∧
    k + 1 < 2 ^ spec.exponentBits ∧
    e = k - (spec.exponentBias + spec.mantissaBitsWithoutImplicit) := by
  have hmin := minExponent_eq spec
  have hbounded := h.bounded
  have hle : spec.minExponent ≤ e := by rcases h.cases with h | h <;> omega
  refine ⟨(e + spec.exponentBias + spec.mantissaBitsWithoutImplicit).toNat, by omega, ?_, by omega⟩
  zify
  omega

theorem pack_normal {k : Nat} (hk : k + 1 < 2 ^ spec.exponentBits)
    (hlog : m.log2 = spec.mantissaBitsWithoutImplicit) (s : Sign) (hpos : 0 < m) :
    UnpackedFloat.pack spec
        (.finite s m (k - (spec.exponentBias + spec.mantissaBitsWithoutImplicit)) hpos) =
      packComponents spec s (BitVec.ofNat _ k) (BitVec.ofNat _ m) := by
  have hbits : m.log2 + 1 = spec.mantissaBits := by
    rw [Format.mantissaBits]
    omega
  have hbiased : ((k : Int) - (spec.exponentBias + spec.mantissaBitsWithoutImplicit) +
      spec.exponentBias + spec.mantissaBitsWithoutImplicit).toNat = k := by
    omega
  unfold UnpackedFloat.pack
  simp only [hbiased]
  rw [if_neg (by omega), if_pos hbits]

theorem pack_subnormal {k : Nat} (hk : k + 1 < 2 ^ spec.exponentBits)
    (hlog : m.log2 < spec.mantissaBitsWithoutImplicit) (s : Sign) (hpos : 0 < m) :
    UnpackedFloat.pack spec
        (.finite s m (k - (spec.exponentBias + spec.mantissaBitsWithoutImplicit)) hpos) =
      packComponents spec s 0#_ (BitVec.ofNat _ m) := by
  have hbits : ¬m.log2 + 1 = spec.mantissaBits := by
    rw [Format.mantissaBits]
    omega
  have hbiased : ((k : Int) - (spec.exponentBias + spec.mantissaBitsWithoutImplicit) +
      spec.exponentBias + spec.mantissaBitsWithoutImplicit).toNat = k := by
    omega
  unfold UnpackedFloat.pack
  simp only [hbiased]
  rw [if_neg (by omega), if_neg hbits]

theorem pack_unpack (hbits : 2 ≤ spec.exponentBits) {b : BitVec spec.numBits} (hb : spec.Valid b) :
    UnpackedFloat.pack spec (UnpackedFloat.unpack spec b) = b := by
  have hcomponents := packComponents_unpack b
  unfold UnpackedFloat.unpack
  by_cases hones : unpackExponent b = -1#_
  · rw [if_pos hones]
    split
    · next hf =>
      rw [hones, hf] at hcomponents
      exact hcomponents
    · next hf => exact (hb.eq_packedNaN hones hf).symm
  rw [if_neg hones]
  by_cases hzero : unpackExponent b = 0#_
  · rw [if_pos hzero]
    split
    · next hf =>
      rw [hzero, hf] at hcomponents
      exact hcomponents
    · next hf =>
      have hpow : 2 ^ 2 ≤ 2 ^ spec.exponentBits := Nat.pow_le_pow_right two_pos hbits
      have hexponent : ((BitVec.ofNat spec.exponentBits 0).toNat : Int) -
          (spec.exponentBias + spec.mantissaBitsWithoutImplicit) + 1 =
          (1 : Nat) - (spec.exponentBias + spec.mantissaBitsWithoutImplicit) := by
        rw [BitVec.toNat_zero]
        omega
      rw [hzero] at hcomponents
      simp only [hzero, hexponent]
      rw [pack_subnormal (by omega) (log2_lt_width hf), BitVec.ofNat_toNat, BitVec.setWidth_eq]
      exact hcomponents
  · rw [if_neg hzero]
    rw [pack_normal (ne_ones.mp hones) (log2_append_one _), ofNat_append_one, BitVec.ofNat_toNat,
      BitVec.setWidth_eq]
    exact hcomponents

section Components

variable (s : Sign) {v : BitVec spec.exponentBits} {f : BitVec spec.mantissaBitsWithoutImplicit}

theorem zero_ne_ones : BitVec.ofNat spec.exponentBits 0 ≠ -1#_ := by
  rw [ne_ones, BitVec.toNat_zero, zero_add]
  exact Nat.one_lt_two_pow spec.he.ne'

theorem unpack_special : UnpackedFloat.unpack spec (packComponents spec s (-1#_) f) =
    if f = 0#_ then .infinity s else .notANumber := by
  unfold UnpackedFloat.unpack
  simp only [unpackMantissa_packComponents, unpackExponent_packComponents,
    unpackSign_packComponents, sign_toBitVec]
  rw [if_pos trivial]

theorem unpack_zero : UnpackedFloat.unpack spec (packComponents spec s 0#_ 0#_) = .zero s := by
  unfold UnpackedFloat.unpack
  simp only [unpackMantissa_packComponents, unpackExponent_packComponents,
    unpackSign_packComponents, sign_toBitVec]
  rw [if_neg zero_ne_ones, if_pos trivial, dif_pos trivial]

theorem unpack_subnormal (hf : f ≠ 0#_) : UnpackedFloat.unpack spec (packComponents spec s 0#_ f) =
    .finite s f.toNat (0 - (spec.exponentBias + spec.mantissaBitsWithoutImplicit) + 1)
      (pos_of_ne_zero hf) := by
  unfold UnpackedFloat.unpack
  simp only [unpackMantissa_packComponents, unpackExponent_packComponents,
    unpackSign_packComponents, sign_toBitVec]
  rw [if_neg zero_ne_ones, if_pos trivial, dif_neg hf]
  rfl

theorem unpack_normal (hzero : v ≠ 0#_) (hones : v ≠ -1#_) :
    UnpackedFloat.unpack spec (packComponents spec s v f) =
      .finite s (1#1 ++ f).toNat (v.toNat - (spec.exponentBias + spec.mantissaBitsWithoutImplicit))
        (by simp) := by
  unfold UnpackedFloat.unpack
  simp only [unpackMantissa_packComponents, unpackExponent_packComponents,
    unpackSign_packComponents, sign_toBitVec]
  rw [if_neg hones, if_neg hzero]

end Components

theorem Held.unpack_pack {u : UnpackedFloat} (hu : Held spec u) :
    UnpackedFloat.unpack spec (UnpackedFloat.pack spec u) = u := by
  cases u with
  | notANumber =>
    have hf : BitVec.ofNat spec.mantissaBitsWithoutImplicit 1 <<<
        (spec.mantissaBitsWithoutImplicit - 1) ≠ 0#_ := by
      have hm := spec.hm
      intro h
      have hbit := congrArg (BitVec.getLsbD · (spec.mantissaBitsWithoutImplicit - 1)) h
      simp [hm] at hbit
    exact (unpack_special .positive).trans (if_neg hf)
  | infinity s => exact (unpack_special s).trans (if_pos rfl)
  | zero s => exact unpack_zero s
  | finite s m e hpos =>
    have hcanonical : Canonical spec m e := hu
    obtain ⟨k, hk, hk', rfl⟩ := hcanonical.exists_biased
    rcases hcanonical.cases with ⟨hlog, -⟩ | ⟨hlog, he⟩
    · have hexponent : (BitVec.ofNat spec.exponentBits k).toNat = k := by
        rw [BitVec.toNat_ofNat, Nat.mod_eq_of_lt (by omega)]
      have hones : BitVec.ofNat spec.exponentBits k ≠ -1#_ := by
        rwa [ne_ones, hexponent]
      have hzero : BitVec.ofNat spec.exponentBits k ≠ 0#_ := fun h => by
        rw [h, BitVec.toNat_zero] at hexponent
        omega
      rw [pack_normal hk' hlog, unpack_normal s hzero hones]
      simp only [append_one_ofNat hlog hpos, hexponent]
    · have hmantissa : (BitVec.ofNat spec.mantissaBitsWithoutImplicit m).toNat = m := by
        rw [BitVec.toNat_ofNat, Nat.mod_eq_of_lt ((Nat.log2_lt hpos.ne').mp hlog)]
      have hf : BitVec.ofNat spec.mantissaBitsWithoutImplicit m ≠ 0#_ := fun h => by
        rw [h, BitVec.toNat_zero] at hmantissa
        omega
      have hexponent : (k : Int) - (spec.exponentBias + spec.mantissaBitsWithoutImplicit) =
          0 - (spec.exponentBias + spec.mantissaBitsWithoutImplicit) + 1 := by
        rw [he, minExponent_eq]
        ring
      rw [pack_subnormal hk' hlog, unpack_subnormal s hf]
      simp only [hmantissa, hexponent]

theorem Fixed.unpack_pack (h : Fixed spec m e) (s : Sign) :
    UnpackedFloat.unpack spec (UnpackedFloat.pack spec (.finite s m e h.pos)) = .finite s m e h.pos ∨
      UnpackedFloat.unpack spec (UnpackedFloat.pack spec (.finite s m e h.pos)) = .infinity s := by
  by_cases hbounded :
      e + spec.exponentBias + spec.mantissaBitsWithoutImplicit + 1 < 2 ^ spec.exponentBits
  · have hheld : Held spec (.finite s m e h.pos) := ⟨h, hbounded⟩
    exact .inl hheld.unpack_pack
  · right
    have hlarge : 2 ^ spec.exponentBits ≤
        (e + spec.exponentBias + spec.mantissaBitsWithoutImplicit).toNat + 1 := by
      zify
      omega
    have hpack : UnpackedFloat.pack spec (.finite s m e h.pos) = packedInfinity spec s := by
      unfold UnpackedFloat.pack
      dsimp only
      rw [if_pos hlarge]
    rw [hpack]
    exact (unpack_special s).trans (if_pos rfl)

/-! ## Rounding what bits hold -/

theorem shiftRight_exact (m k : Nat) :
    ExtendedMantissa.ofMantissaAndAccuracy (m * 2 ^ k) .exact >>> k =
      ExtendedMantissa.ofMantissaAndAccuracy m .exact := by
  show Nat.repeat ExtendedMantissa.shiftRightOne k _ = _
  induction k generalizing m with
  | zero => simp [Nat.repeat]
  | succ k ih =>
    rw [pow_succ', ← mul_assoc, Nat.repeat, ih]
    simp [ExtendedMantissa.ofMantissaAndAccuracy, ExtendedMantissa.shiftRightOne]

theorem log2_mul_two_pow {a : Nat} (ha : a ≠ 0) (k : Nat) : (a * 2 ^ k).log2 = a.log2 + k := by
  induction k with
  | zero => rw [pow_zero, mul_one, add_zero]
  | succ k ih =>
    rw [pow_succ', mul_left_comm, Nat.log2_two_mul (by positivity), ih, add_assoc]

theorem totalExponent_mul_two_pow (hm : 0 < m) (e : Int) (k : Nat) :
    totalExponent (m * 2 ^ k) (e - k) = totalExponent m e := by
  rw [totalExponent, totalExponent, log2_mul_two_pow hm.ne']
  push_cast
  ring

theorem Fixed.shift_eq (h : Fixed spec m e) (k : Nat) :
    shiftToTargetExponent spec (m * 2 ^ k) (e - k) .exact = (.ofMantissaAndAccuracy m .exact, e) := by
  have hshift : (e - (e - k)).toNat = k := by omega
  rw [shiftToTargetExponent, totalExponent_mul_two_pow h.pos, h.exponent, shiftToExponent, hshift,
    shiftRight_exact, sub_add_cancel]

theorem Fixed.roundWithAccuracy_eq (h : Fixed spec m e) (s : Sign) (k : Nat) :
    roundWithAccuracy spec s (m * 2 ^ k) (e - k) .exact = .finite s m e h.pos := by
  have hagain := h.shift_eq 0
  rw [pow_zero, mul_one, Nat.cast_zero, sub_zero] at hagain
  have hmantissa : (ExtendedMantissa.ofMantissaAndAccuracy m .exact).roundedMantissa = m := rfl
  simp only [roundWithAccuracy, h.shift_eq, hmantissa, hagain]
  exact dif_neg h.pos.ne'

/-- Rounding depends on the value only, and leaves it alone if bits hold it. -/
theorem Fixed.round_eq (h : Fixed spec m e) (s : Sign) {n i j : Nat} {t : Int}
    (hm : n * 2 ^ i = m * 2 ^ j) (he : t - i = e - j) :
    UnpackedFloat.round spec s n t = .finite s m e h.pos := by
  have hpos : 0 < n := by
    have hvalue : 0 < n * 2 ^ i := by
      rw [hm]
      exact Nat.mul_pos h.pos (Nat.two_pow_pos j)
    exact Nat.pos_of_mul_pos_right hvalue
  have htarget : spec.targetExponent (totalExponent n t) = e := by
    rw [← totalExponent_mul_two_pow hpos t i, hm, he, totalExponent_mul_two_pow h.pos, h.exponent]
  have hround := fun k => h.roundWithAccuracy_eq s k
  unfold UnpackedFloat.round
  simp only [htarget, decreaseExponent]
  rcases le_total i j with hij | hij
  · -- zeros behind the mantissa stay there until it is rounded
    obtain ⟨k, rfl⟩ := Nat.exists_eq_add_of_le hij
    have hshift : (t - e).toNat = 0 := by omega
    have hm' : n = m * 2 ^ k := by
      rw [pow_add, mul_comm (2 ^ i), ← mul_assoc] at hm
      exact Nat.eq_of_mul_eq_mul_right (Nat.two_pow_pos i) hm
    have he' : t = e - k := by
      push_cast at he
      omega
    rw [hshift, Nat.shiftLeft_zero, Nat.cast_zero, sub_zero, hm', he']
    exact hround k
  · obtain ⟨k, rfl⟩ := Nat.exists_eq_add_of_le hij
    have hshift : (t - e).toNat = k := by
      push_cast at he
      omega
    have hm' : n * 2 ^ k = m := by
      rw [pow_add, mul_comm (2 ^ j), ← mul_assoc] at hm
      exact Nat.eq_of_mul_eq_mul_right (Nat.two_pow_pos j) hm
    have he' : t - k = e := by
      push_cast at he
      omega
    rw [hshift, Nat.shiftLeft_eq, hm', he']
    have hzero := hround 0
    rwa [pow_zero, mul_one, Nat.cast_zero, sub_zero] at hzero

theorem sign_mul_positive (s : Sign) : s * .positive = s := by
  cases s <;> rfl

theorem Held.mul_one {u : UnpackedFloat} (hu : Held spec u) (k : Nat) :
    u.mul spec (.finite .positive (2 ^ k) (-k) (Nat.two_pow_pos k)) = u := by
  cases u with
  | finite s m e hpos =>
    have hcanonical : Canonical spec m e := hu
    rw [UnpackedFloat.mul, sign_mul_positive]
    exact hcanonical.roundWithAccuracy_eq s k
  | infinity s | zero s => rw [UnpackedFloat.mul, sign_mul_positive]
  | notANumber => rfl

theorem Canonical.exists_double (h : Canonical spec m e) (k : Nat) : ∃ m' e', ∃ hpos : 0 < m',
    Fixed spec m' e' ∧ ∀ s, roundWithAccuracy spec s (m * 2 ^ (k + 1)) (e - k) .exact =
      .finite s m' e' hpos := by
  rcases h.cases with ⟨hlog, hle⟩ | ⟨hlog, rfl⟩
  · have hfixed : Fixed spec m (e + 1) := by
      refine ⟨h.pos, ?_⟩
      rw [targetExponent_eq]
      omega
    have hexponent : e + 1 - (k + 1 : Nat) = e - k := by
      push_cast
      ring
    refine ⟨m, e + 1, h.pos, hfixed, fun s => ?_⟩
    rw [← hfixed.roundWithAccuracy_eq s (k + 1), hexponent]
  · have hfixed : Fixed spec (m * 2 ^ 1) spec.minExponent := by
      refine ⟨Nat.mul_pos h.pos (Nat.two_pow_pos 1), ?_⟩
      rw [targetExponent_eq, log2_mul_two_pow h.pos.ne']
      omega
    refine ⟨m * 2 ^ 1, spec.minExponent, hfixed.pos, hfixed, fun s => ?_⟩
    rw [← hfixed.roundWithAccuracy_eq s k, mul_assoc, ← pow_add, add_comm 1 k]

/-! ## Binary64 and binary32 -/

theorem unpack_held64 (x : Float) : Held .binary64 x.toModel.unpack := unpack_held (by decide) _

theorem unpack_held32 (x : Float32) : Held .binary32 x.toModel.unpack := unpack_held (by decide) _

theorem float_pack_unpack (x : Float) : Float.ofModel (.pack x.toModel.unpack) = x := by
  have hbits := pack_unpack (by decide) x.toModel.valid
  have hmodel : Float.Model.pack x.toModel.unpack = x.toModel := by
    simp only [Float.Model.pack, Float.Model.unpack, hbits]
  rw [hmodel]

theorem float32_pack_unpack (x : Float32) : Float32.ofModel (.pack x.toModel.unpack) = x := by
  have hbits := pack_unpack (by decide) x.toModel.valid
  have hmodel : Float32.Model.pack x.toModel.unpack = x.toModel := by
    simp only [Float32.Model.pack, Float32.Model.unpack, hbits]
  rw [hmodel]

theorem float_mul_one (x : Float) : x * Scalar.ofNat 1 = x := by
  have hone : (Scalar.ofNat 1 : Float).toModel.unpack =
      .finite .positive (2 ^ 52) (-(52 : Nat)) (Nat.two_pow_pos 52) := rfl
  show Float.ofModel (.pack (x.toModel.unpack.mul .binary64 (Scalar.ofNat 1 : Float).toModel.unpack)) = x
  rw [hone, (unpack_held64 x).mul_one, float_pack_unpack]

theorem isZero_of_unpack {x : Float} {s : Sign}
    (h : x.toModel.unpack = .infinity s ∨ ∃ m e hpos, x.toModel.unpack = .finite s m e hpos) :
    Scalar.isZero x = false := by
  show x.toModel.unpack.beq (.zero .positive) = false
  rcases h with h | ⟨m, e, hpos, h⟩
  · rw [h]
    cases s <;> rfl
  · rw [h]
    cases s <;> rfl

theorem unpack_of_pos {x : Float} (hx : Scalar.lt (Scalar.ofNat 0) x = true) :
    x.toModel.unpack = .infinity .positive ∨
      ∃ m e hpos, x.toModel.unpack = .finite .positive m e hpos := by
  have hless : (Scalar.ofNat 0 : Float) < x := of_decide_eq_true hx
  have hlt : UnpackedFloat.lt (.zero .positive) x.toModel.unpack = true := of_decide_eq_true hless
  cases hu : x.toModel.unpack with
  | infinity s =>
    cases s with
    | positive => exact .inl rfl
    | negative =>
      rw [hu] at hlt
      cases hlt
  | notANumber | zero =>
    rw [hu] at hlt
    cases hlt
  | finite s m e hpos =>
    cases s with
    | positive => exact .inr ⟨m, e, hpos, rfl⟩
    | negative =>
      rw [hu] at hlt
      cases hlt

theorem double_ne_zero {x : Float} (hx : Scalar.lt (Scalar.ofNat 0) x = true) :
    Scalar.isZero (Scalar.ofNat 2 * x) = false := by
  have hheld := unpack_held64 x
  have htwo : (Scalar.ofNat 2 : Float).toModel.unpack =
      .finite .positive (2 ^ 52) (-51) (Nat.two_pow_pos 52) := rfl
  have hproduct : (Scalar.ofNat 2 * x).toModel.unpack = UnpackedFloat.unpack .binary64
      (UnpackedFloat.pack .binary64
        ((Scalar.ofNat 2 : Float).toModel.unpack.mul .binary64 x.toModel.unpack)) := rfl
  rw [htwo] at hproduct
  rcases unpack_of_pos hx with hu | ⟨m, e, hpos, hu⟩
  · rw [hu] at hproduct
    exact isZero_of_unpack (.inl (hproduct.trans (Held.unpack_pack (u := .infinity .positive) trivial)))
  · rw [hu] at hheld
    have hcanonical : Canonical .binary64 m e := hheld
    obtain ⟨m', e', hpos', hfixed, hround⟩ := hcanonical.exists_double 51
    have hmul : (UnpackedFloat.finite .positive (2 ^ 52) (-51) (Nat.two_pow_pos 52)).mul .binary64
        (.finite .positive m e hpos) = .finite .positive m' e' hpos' := by
      rw [UnpackedFloat.mul, mul_comm (2 ^ 52), add_comm (-51)]
      exact hround .positive
    rw [hu, hmul] at hproduct
    rcases hfixed.unpack_pack .positive with h | h
    · exact isZero_of_unpack (.inr ⟨m', e', hpos', hproduct.trans h⟩)
    · exact isZero_of_unpack (.inl (hproduct.trans h))

theorem float32_mul_one (x : Float32) : x * narrow (Scalar.ofNat 1) = x := by
  have hone : (narrow (Scalar.ofNat 1)).toModel.unpack =
      .finite .positive (2 ^ 23) (-(23 : Nat)) (Nat.two_pow_pos 23) := rfl
  show Float32.ofModel (.pack (x.toModel.unpack.mul .binary32
    (narrow (Scalar.ofNat 1)).toModel.unpack)) = x
  rw [hone, (unpack_held32 x).mul_one, float32_pack_unpack]

/-- A mantissa of at most 53 bits is held by binary64 when it is shifted to exactly 53, unless its
exponent is very small or very large. -/
theorem canonical64 (hpos : 0 < m) (hlog : m.log2 ≤ 52) (he : -1022 ≤ e ∧ e ≤ 971) :
    Canonical .binary64 (m * 2 ^ (52 - m.log2)) (e - (52 - m.log2 : Nat)) := by
  have hmin : Format.binary64.minExponent = -1074 := rfl
  have hbits : Format.binary64.mantissaBitsWithoutImplicit = 52 := rfl
  refine ⟨⟨Nat.mul_pos hpos (Nat.two_pow_pos _), ?_⟩, ?_⟩
  · rw [targetExponent_eq, log2_mul_two_pow hpos.ne', hmin, hbits]
    omega
  · show e - (52 - m.log2 : Nat) + 1023 + 52 + 1 < 2 ^ 11
    omega

theorem Canonical.wide (h : Canonical .binary32 m e) :
    Canonical .binary64 (m * 2 ^ (52 - m.log2)) (e - (52 - m.log2 : Nat)) := by
  have hbounded : e + 127 + 23 + 1 < 2 ^ 8 := h.bounded
  have hmin : Format.binary32.minExponent = -149 := rfl
  have hbounds : m.log2 ≤ 23 ∧ -149 ≤ e := by
    rcases h.cases with ⟨hlog, he⟩ | ⟨hlog, he⟩
    · exact ⟨hlog.le, hmin ▸ he⟩
    · exact ⟨hlog.le, (hmin ▸ he).ge⟩
  exact canonical64 h.pos (by omega) (by omega)

theorem narrow_widen (x : Float32) : narrow (widen x) = x := by
  have hheld := unpack_held32 x
  have hsame : Held .binary64 (nearest .binary64 x.toModel.unpack) ∧
      nearest .binary32 (nearest .binary64 x.toModel.unpack) = x.toModel.unpack := by
    cases hx : x.toModel.unpack with
    | finite s m e hpos =>
      rw [hx] at hheld
      have hcanonical : Canonical .binary32 m e := hheld
      have hwide := hcanonical.wide.round_eq s (n := m) (i := 52 - m.log2) (j := 0)
        (by rw [pow_zero, mul_one]) (by rw [Nat.cast_zero, sub_zero])
      have hnarrow := hcanonical.round_eq s (n := m * 2 ^ (52 - m.log2)) (i := 0)
        (j := 52 - m.log2) (by rw [pow_zero, mul_one]) (by rw [Nat.cast_zero, sub_zero])
      simp only [nearest, hwide, hnarrow]
      exact ⟨hcanonical.wide, trivial⟩
    | infinity | zero | notANumber => exact ⟨trivial, rfl⟩
  have hwide : (widen x).toModel.unpack = nearest .binary64 x.toModel.unpack := hsame.1.unpack_pack
  rw [narrow, hwide, hsame.2, float32_pack_unpack]

end NewtonKrylov.Rounding
