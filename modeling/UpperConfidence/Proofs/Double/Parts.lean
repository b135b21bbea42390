import Mathlib

/-!
# The parts of a double

A double stands for a sign, a mantissa and an exponent, or for a zero, an
infinity or no number at all. Arithmetic takes doubles apart, works on the
parts and puts the result together. Here is how the two directions undo each
other: taking apart loses nothing, and putting together loses nothing when the
parts are regular, which they are when they come from a double.
-/

namespace UpperConfidence.Double

open Float.Model Float.Model.UnpackedFloat

/-- What a double stands for. -/
def parts (x : Float) : UnpackedFloat := x.toModel.unpack

/-- The double with the given parts. -/
def ofParts (u : UnpackedFloat) : Float := .ofModel (.pack u)

/-- Parts with a mantissa of 53 bits, shorter only at the least exponent. The
exponent may still be too large for a double. -/
def Rounded : UnpackedFloat → Prop
  | .finite _ m e _ => m < 2 ^ 53 ∧ -1074 ≤ e ∧ (2 ^ 52 ≤ m ∨ e = -1074)
  | _ => True

/-- Rounded parts whose exponent is in range. -/
def Regular : UnpackedFloat → Prop
  | .finite s m e h => Rounded (.finite s m e h) ∧ e ≤ 971
  | _ => True

/-! ## Fields of bits -/

@[simp] theorem exponentBias_binary64 : Format.binary64.exponentBias = 1023 := rfl

@[simp] theorem mantissaBits_binary64 : Format.binary64.mantissaBits = 53 := rfl

theorem unpackSign_packComponents (s : Sign) (e : BitVec 11) (m : BitVec 52) :
    Sign.ofBitVec (unpackSign (packComponents .binary64 s e m)) = s := by
  have field : unpackSign (packComponents .binary64 s e m) = s.toBitVec := by
    simp only [unpackSign, packComponents]
    ext i hi
    grind
  rw [field]
  cases s <;> rfl

/-- The three fields of a word make up the word. -/
theorem packComponents_fields (b : BitVec Format.binary64.numBits) :
    packComponents .binary64 (Sign.ofBitVec (unpackSign b)) (unpackExponent b)
      (unpackMantissa b) = b := by
  have sign : ∀ v : BitVec 1, (Sign.ofBitVec v).toBitVec = v := by decide
  simp only [packComponents, sign, unpackSign, unpackExponent, unpackMantissa]
  ext i hi
  grind

theorem toNat_leading_append (v : BitVec 52) : (1#1 ++ v).toNat = 2 ^ 52 + v.toNat := by
  rw [BitVec.toNat_append, ← Nat.shiftLeft_add_eq_or_of_lt v.isLt]
  simp [Nat.shiftLeft_eq]

theorem log2_eq_of_normal {m : Nat} (lower : 2 ^ 52 ≤ m) (upper : m < 2 ^ 53) : m.log2 = 52 :=
  (Nat.log2_eq_iff (by omega)).mpr ⟨lower, upper⟩

theorem log2_lt_of_subnormal {m : Nat} (upper : m < 2 ^ 52) : m.log2 < 52 := by
  rcases Nat.eq_zero_or_pos m with rfl | hm
  · simp
  · exact (Nat.log2_lt hm.ne').mpr upper

/-- The exponent field of a finite double is neither all zeros nor all ones,
unless the double is subnormal. -/
theorem ofNat_exponent_ne {k : Nat} (lower : 0 < k) (upper : k < 2047) :
    BitVec.ofNat 11 k ≠ 0#11 ∧ BitVec.ofNat 11 k ≠ -1#11 := by
  constructor <;> intro h <;> have := congrArg BitVec.toNat h <;> simp at this <;> omega

/-! ## Taking apart -/

theorem regular_unpack (b : BitVec Format.binary64.numBits) : Regular (unpack .binary64 b) := by
  have mantissa := (unpackMantissa b).isLt
  have exponent := (unpackExponent b).isLt
  simp only [UnpackedFloat.unpack]
  split
  · split <;> trivial
  · rename_i notTop
    split
    · rename_i bottom
      split
      · trivial
      · simp only [Regular, Rounded, bottom, exponentBias_binary64]
        norm_num at mantissa ⊢
        omega
    · rename_i notBottom
      have top : (unpackExponent b).toNat ≠ 2047 := fun h => notTop (BitVec.eq_of_toNat_eq h)
      have bottom : (unpackExponent b).toNat ≠ 0 := fun h => notBottom (BitVec.eq_of_toNat_eq h)
      simp only [Regular, Rounded, toNat_leading_append, exponentBias_binary64]
      norm_num at mantissa exponent ⊢
      omega

theorem regular_parts (x : Float) : Regular (parts x) := regular_unpack _

/-! ## Putting together -/

/-- The exponent field of a regular double with exponent `e`. -/
theorem toNat_biased (e : Int) :
    (e + (1023 : Nat) + (52 : Nat)).toNat = (e + 1075).toNat := by omega

theorem unpack_pack {u : UnpackedFloat} (h : Regular u) :
    UnpackedFloat.unpack .binary64 (UnpackedFloat.pack .binary64 u) = u := by
  cases u with
  | notANumber => rfl
  | infinity s => cases s <;> rfl
  | zero s => cases s <;> rfl
  | finite s m e hm =>
    obtain ⟨⟨upper, least, normal⟩, greatest⟩ := h
    simp only [UnpackedFloat.pack, exponentBias_binary64, mantissaBits_binary64, toNat_biased]
    rw [if_neg (by norm_num; omega)]
    by_cases hidden : 2 ^ 52 ≤ m
    · have bits := log2_eq_of_normal hidden upper
      obtain ⟨notBottom, notTop⟩ := ofNat_exponent_ne (k := (e + 1075).toNat) (by omega) (by omega)
      rw [if_pos (by omega)]
      simp only [UnpackedFloat.unpack, unpackMantissa_packComponents,
        unpackExponent_packComponents, unpackSign_packComponents, if_neg notTop, if_neg notBottom,
        toNat_leading_append, exponentBias_binary64, BitVec.toNat_ofNat]
      norm_num
      omega
    · have bits := log2_lt_of_subnormal (not_le.mp hidden)
      obtain rfl : e = -1074 := by omega
      have small : (BitVec.ofNat 52 m).toNat = m := by simp; omega
      have nonzero : BitVec.ofNat 52 m ≠ 0#52 := by
        intro h
        rw [h] at small
        simp at small
        omega
      rw [if_neg (by omega)]
      simp only [UnpackedFloat.unpack, unpackMantissa_packComponents,
        unpackExponent_packComponents, unpackSign_packComponents, dif_neg nonzero, small]
      rfl

theorem parts_ofParts {u : UnpackedFloat} (h : Regular u) : parts (ofParts u) = u := unpack_pack h

theorem pack_unpack {b : BitVec Format.binary64.numBits} (valid : Format.binary64.Valid b) :
    UnpackedFloat.pack .binary64 (UnpackedFloat.unpack .binary64 b) = b := by
  have mantissa : (unpackMantissa b).toNat < 2 ^ 52 := (unpackMantissa b).isLt
  have exponent : (unpackExponent b).toNat < 2 ^ 11 := (unpackExponent b).isLt
  have fields := packComponents_fields b
  simp only [UnpackedFloat.unpack]
  split
  · rename_i top
    split
    · rename_i zero
      rwa [top, zero] at fields
    · rename_i nonzero
      exact (valid.eq_packedNaN top nonzero).symm
  · rename_i notTop
    split
    · rename_i bottom
      split
      · rename_i zero
        rwa [bottom, zero] at fields
      · have bits := log2_lt_of_subnormal mantissa
        simp only [UnpackedFloat.pack, bottom, mantissaBits_binary64]
        rw [if_neg (by decide), if_neg (by omega), BitVec.ofNat_toNat, BitVec.setWidth_eq]
        rwa [bottom] at fields
    · rename_i notBottom
      have top : (unpackExponent b).toNat ≠ 2047 := fun h => notTop (BitVec.eq_of_toNat_eq h)
      have bottom : (unpackExponent b).toNat ≠ 0 := fun h => notBottom (BitVec.eq_of_toNat_eq h)
      have bits : (2 ^ 52 + (unpackMantissa b).toNat).log2 = 52 :=
        log2_eq_of_normal (by omega) (by omega)
      have biased : ((unpackExponent b).toNat - (((1023 : Nat) : Int) + (52 : Nat)) + (1023 : Nat)
          + (52 : Nat)).toNat = (unpackExponent b).toNat := by omega
      have stored : BitVec.ofNat 52 (2 ^ 52 + (unpackMantissa b).toNat) = unpackMantissa b := by
        apply BitVec.eq_of_toNat_eq
        rw [BitVec.toNat_ofNat]
        omega
      simp only [UnpackedFloat.pack, toNat_leading_append, mantissaBits_binary64,
        exponentBias_binary64, bits, biased, stored]
      rw [if_neg (by norm_num; omega), if_pos trivial, BitVec.ofNat_toNat, BitVec.setWidth_eq]
      exact fields

@[simp] theorem ofParts_parts (x : Float) : ofParts (parts x) = x := by
  obtain ⟨⟨bits, valid⟩⟩ := x
  have h := pack_unpack valid
  simp only [ofParts, parts, Float.Model.pack, Float.Model.unpack, h]

theorem parts_injective {x y : Float} (h : parts x = parts y) : x = y := by
  rw [← ofParts_parts x, h, ofParts_parts]

end UpperConfidence.Double
