import Mathlib.Tactic.Linarith
import Chance.Proofs.Syntax.Proper
import Chance.Decimal.Reading

/-!
# Numerals denote magnitudes

The double that a numeral denotes is neither negative nor undefined. Rounding keeps the sign, and
packing a positive double leaves the sign bit clear.
-/

namespace Chance.Number

open Float.Model (Format UnpackedFloat)
open Float.Model.UnpackedFloat

variable {c : Prop} {x : Float} {spec : Format} {u : UnpackedFloat} {m : Nat} {e : Int}

/-- Unpacked doubles with a positive sign. -/
def Positive : UnpackedFloat → Prop
  | .infinity s => s = .positive
  | .zero s => s = .positive
  | .finite s .. => s = .positive
  | .notANumber => False

theorem positive_dite [Decidable c] {x : c → UnpackedFloat} {y : ¬c → UnpackedFloat}
    (hx : ∀ h, Positive (x h)) (hy : ∀ h, Positive (y h)) : Positive (dite c x y) := by
  by_cases h : c
  · rw [dif_pos h]
    exact hx h
  · rw [dif_neg h]
    exact hy h

theorem positive_ite [Decidable c] {x y : UnpackedFloat} (hx : c → Positive x)
    (hy : ¬c → Positive y) : Positive (if c then x else y) :=
  positive_dite hx hy

theorem positive_roundWithAccuracy (spec : Format) (m : Nat) (e : Int) (a : Accuracy) :
    Positive (roundWithAccuracy spec .positive m e a) :=
  positive_dite (fun _ => rfl) (fun _ => rfl)

theorem positive_mul {hm : 0 < m} (hu : Positive u) :
    Positive (mul spec u (.finite .positive m e hm)) := by
  cases u with
  | notANumber => exact hu.elim
  | infinity s =>
    subst hu
    exact rfl
  | zero s =>
    subst hu
    exact rfl
  | finite s m' e' hm' =>
    subst hu
    exact positive_roundWithAccuracy _ _ _ _

theorem positive_div {hm : 0 < m} (hu : Positive u) :
    Positive (div spec u (.finite .positive m e hm)) := by
  cases u with
  | notANumber => exact hu.elim
  | infinity s =>
    subst hu
    exact rfl
  | zero s =>
    subst hu
    exact rfl
  | finite s m' e' hm' =>
    subst hu
    exact positive_roundWithAccuracy _ _ _ _

theorem positive_ofScientific (spec : Format) (m : Nat) (e : Int) :
    Positive (ofScientific spec m e) := by
  refine positive_dite (fun _ => rfl) fun _ => ?_
  refine positive_ite (fun _ => rfl) fun _ => ?_
  refine positive_ite (fun _ => rfl) fun _ => ?_
  exact positive_ite (fun _ => positive_mul rfl) fun _ => positive_div rfl

theorem pack_positive (hu : Positive u) :
    ∃ e m, pack Format.binary64 u = packComponents Format.binary64 .positive e m ∧
      (e = -1#_ → m = 0#_) := by
  cases u with
  | notANumber => exact hu.elim
  | infinity s =>
    subst hu
    exact ⟨_, _, rfl, fun _ => rfl⟩
  | zero s =>
    subst hu
    exact ⟨_, _, rfl, fun _ => rfl⟩
  | finite s m e hm =>
    subst hu
    unfold pack
    dsimp only
    split_ifs with hinf hnormal
    · exact ⟨_, _, rfl, fun _ => rfl⟩
    · refine ⟨_, _, rfl, fun h => ?_⟩
      -- a normal double keeps its exponent below the largest one
      have hexponent := congrArg BitVec.toNat h
      rw [BitVec.toNat_ofNat, Nat.mod_eq_of_lt (by omega)] at hexponent
      have hones : (-1#11 : BitVec 11).toNat = 2047 := rfl
      simp only [Format.binary64] at hinf hexponent
      omega
    · exact ⟨_, _, rfl, fun h => absurd h (by decide)⟩

theorem toNat_packComponents_lt (e : BitVec 11) (m : BitVec 52) :
    (packComponents Format.binary64 .positive e m).toNat < 2 ^ 63 := by
  have happend : (packComponents Format.binary64 .positive e m).toNat =
      (0#1 ++ e).toNat <<< 52 ||| m.toNat := BitVec.toNat_append _ _
  have hsign : (0#1 ++ e).toNat = e.toNat := by
    rw [BitVec.toNat_append]
    simp
  have he := e.isLt
  have hm := m.isLt
  rw [happend, hsign, ← Nat.shiftLeft_add_eq_or_of_lt hm, Nat.shiftLeft_eq]
  omega

theorem unpackSign_packComponents (e : BitVec 11) (m : BitVec 52) :
    unpackSign (packComponents Format.binary64 .positive e m) = 0#1 := by
  have hlt := toNat_packComponents_lt e m
  apply BitVec.eq_of_toNat_eq
  change ((packComponents Format.binary64 .positive e m).toNat >>> 63) % 2 = 0
  rw [Nat.shiftRight_eq_div_pow, Nat.div_eq_of_lt hlt]

theorem positive_unpack {e : BitVec 11} {m : BitVec 52} (h : e = -1#_ → m = 0#_) :
    Positive (unpack Format.binary64 (packComponents Format.binary64 .positive e m)) := by
  have hmantissa : unpackMantissa (packComponents Format.binary64 .positive e m) = m :=
    unpackMantissa_packComponents
  have hexponent : unpackExponent (packComponents Format.binary64 .positive e m) = e :=
    unpackExponent_packComponents
  have hsign : unpackSign (packComponents Format.binary64 .positive e m) = 0#1 :=
    unpackSign_packComponents e m
  unfold unpack
  rw [hexponent, hsign]
  refine positive_ite (fun he => positive_ite (fun _ => rfl) fun hm => ?_) fun _ => ?_
  · rw [hmantissa] at hm
    exact absurd (h he) hm
  · exact positive_ite (fun _ => positive_dite (fun _ => rfl) fun _ => rfl) fun _ => rfl

theorem positive_unpack_pack (hu : Positive u) : Positive (Float.Model.pack u).unpack := by
  obtain ⟨e, m, hpack, hem⟩ := pack_positive hu
  have h := positive_unpack hem
  rw [← hpack] at h
  exact h

theorem isMagnitude_pack (hu : Positive u) : IsMagnitude (.ofModel (Float.Model.pack u)) := by
  have hunpack := positive_unpack_pack hu
  obtain ⟨e, m, hpack, _⟩ := pack_positive hu
  constructor
  · have hnan : (Float.Model.pack u).unpack.isNaN = false := by
      cases hcase : (Float.Model.pack u).unpack with
      | notANumber =>
        rw [hcase] at hunpack
        exact hunpack.elim
      | _ => rfl
    exact hnan
  · have hlt := toNat_packComponents_lt e m
    rw [← hpack] at hlt
    have hbits : (Float.ofModel (Float.Model.pack u)).toBits.toNat < 2 ^ 63 := hlt
    have hshift : ((Float.ofModel (Float.Model.pack u)).toBits >>> 63).toNat = 0 := by
      rw [UInt64.toNat_shiftRight, Nat.shiftRight_eq_div_pow]
      exact Nat.div_eq_of_lt hbits
    rw [isNegative, decide_eq_false_iff_not]
    intro hone
    rw [hone] at hshift
    cases hshift

/-- Finite doubles other than zero with a positive sign. -/
def isPositiveFinite : UnpackedFloat → Bool
  | .finite .positive .. => true
  | _ => false

theorem powerOfTen_finite :
    ∀ x ∈ Float.exactlyRepresentablePowersOfTen.toList, isPositiveFinite x.toModel.unpack := by
  decide +kernel

theorem isMagnitude_mul (hu : Positive u) (hx : isPositiveFinite x.toModel.unpack) :
    IsMagnitude (.ofModel (Float.Model.pack (mul Format.binary64 u x.toModel.unpack))) := by
  unfold isPositiveFinite at hx
  split at hx
  · rename_i m e hm hcase
    rw [hcase]
    exact isMagnitude_pack (positive_mul hu)
  · cases hx

theorem isMagnitude_div (hu : Positive u) (hx : isPositiveFinite x.toModel.unpack) :
    IsMagnitude (.ofModel (Float.Model.pack (div Format.binary64 u x.toModel.unpack))) := by
  unfold isPositiveFinite at hx
  split at hx
  · rename_i m e hm hcase
    rw [hcase]
    exact isMagnitude_pack (positive_div hu)
  · cases hx

theorem positive_ofNat (n : Nat) : Positive (ofNat Format.binary64 n) := by
  unfold ofNat ofInt UnpackedFloat.normalize
  split
  · rename_i h
    rw [Int.compare_eq_lt] at h
    omega
  · exact rfl
  · exact positive_roundWithAccuracy _ _ _ _

theorem isMagnitude_ofScientific (m : Nat) (s : Bool) (e : Nat) :
    IsMagnitude (Float.ofScientific m s e) := by
  unfold Float.ofScientific
  split
  · rename_i h
    have hsize : e < Float.exactlyRepresentablePowersOfTen.size := by
      simp only [Float.exactlyRepresentablePowersOfTen, List.size_toArray, List.length_cons,
        List.length_nil]
      omega
    have hpower := powerOfTen_finite _ (Array.getElem_mem_toList hsize)
    have hwhole := positive_unpack_pack (positive_ofNat m.toUInt64.toNat)
    cases s with
    | true => exact isMagnitude_div hwhole hpower
    | false => exact isMagnitude_mul hwhole hpower
  · exact isMagnitude_pack (positive_ofScientific _ _ _)

end Chance.Number

namespace Chance.Decimal

theorem isMagnitude_nearest (m : Nat) (e : Int) : Number.IsMagnitude (nearest m e) := by
  have hzero : Number.IsMagnitude 0 := ⟨by decide +kernel, by decide +kernel⟩
  have hinfinity : Number.IsMagnitude (1.0 / 0.0) := ⟨by decide +kernel, by decide +kernel⟩
  unfold nearest
  dsimp only
  split_ifs
  · exact hzero
  · exact hinfinity
  · exact hzero
  · exact Number.isMagnitude_ofScientific _ _ _

end Chance.Decimal
