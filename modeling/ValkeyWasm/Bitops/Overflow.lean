import Mathlib.Tactic.Positivity

/-! The overflow checks of the bit-field commands. -/
namespace ValkeyWasm.Bitops

inductive OverflowType
  | wrap | sat | fail
deriving DecidableEq

/-- The returned value, and what `*limit` is set to. -/
def overflowed (code : Int) (limit wrapped : BitVec 64) : OverflowType → Int × Option (BitVec 64)
  | .wrap => (1,some wrapped)
  | .sat => (code,some limit)
  | .fail => (code,none)

/-- Conversion to `int64_t` wraps around. -/
def int64 (x : Int) : Int := (x + 2 ^ 63) % 2 ^ 64 - 2 ^ 63

def mask (bits : Nat) : BitVec 64 := BitVec.allOnes 64 <<< bits

def checkUnsignedBitfieldOverflow (value incr : BitVec 64) (bits : Nat) (owtype : OverflowType) : Int × Option (BitVec 64) :=
  let max : Int := 2 ^ bits - 1
  let maxincr := int64 (max - value.toNat)
  let minincr := int64 (-value.toNat)
  let wrapped := (value + incr) &&& ~~~mask bits
  if value.toNat > max ∨ (incr.toInt > 0 ∧ incr.toInt > maxincr) then overflowed 1 (BitVec.ofInt 64 max) wrapped owtype
  else if incr.toInt < 0 ∧ incr.toInt < minincr then overflowed (-1) 0 wrapped owtype
  else (0,none)

/-- The sum in the width of the field: the sign bit is copied to the bits above it, or they are cleared. -/
def wrapSigned (c : BitVec 64) (bits : Nat) : BitVec 64 :=
  let msb := 1#64 <<< (bits - 1)
  if bits < 64 then if c &&& msb ≠ 0 then c ||| mask bits else c &&& ~~~mask bits else c

def checkSignedBitfieldOverflow (value incr : BitVec 64) (bits : Nat) (owtype : OverflowType) : Int × Option (BitVec 64) :=
  let max : Int := 2 ^ (bits - 1) - 1
  let min := -max - 1
  let maxincr := int64 (max - value.toInt)
  let minincr := int64 (min - value.toInt)
  let wrapped := wrapSigned (value + incr) bits
  if value.toInt > max ∨ (bits ≠ 64 ∧ incr.toInt > maxincr) ∨
      (value.toInt ≥ 0 ∧ incr.toInt > 0 ∧ incr.toInt > maxincr) then overflowed 1 (BitVec.ofInt 64 max) wrapped owtype
  else if value.toInt < min ∨ (bits ≠ 64 ∧ incr.toInt < minincr) ∨
      (value.toInt < 0 ∧ incr.toInt < 0 ∧ incr.toInt < minincr) then overflowed (-1) (BitVec.ofInt 64 min) wrapped owtype
  else (0,none)

/-- The result is zero exactly where the sum is between the bounds; elsewhere the limit is the bound that is
exceeded, or the sum wrapped around. -/
structure Exact (value : BitVec 64 → Int) (least greatest sum wrapped : Int) (owtype : OverflowType)
    (result : Int × Option (BitVec 64)) : Prop where
  zero : result.1 = 0 ↔ least ≤ sum ∧ sum ≤ greatest
  sat : owtype = .sat → result.1 ≠ 0 → result.2.map value = some (if greatest < sum then greatest else least)
  wrap : owtype = .wrap → result.1 ≠ 0 → result.2.map value = some wrapped

def UnsignedExact (value incr : BitVec 64) (bits : Nat) (owtype : OverflowType) : Prop :=
  Exact (fun x => x.toNat) 0 (2 ^ bits - 1) (value.toNat + incr.toInt) ((value.toNat + incr.toInt) % 2 ^ bits) owtype
    (checkUnsignedBitfieldOverflow value incr bits owtype)

def SignedExact (value incr : BitVec 64) (bits : Nat) (owtype : OverflowType) : Prop :=
  Exact BitVec.toInt (-2 ^ (bits - 1)) (2 ^ (bits - 1) - 1) (value.toInt + incr.toInt)
    ((value.toInt + incr.toInt).bmod (2 ^ bits)) owtype (checkSignedBitfieldOverflow value incr bits owtype)

section
variable {value : BitVec 64 → Int} {least greatest sum wrapped : Int} {owtype : OverflowType}

theorem exact_outside {code : Int} {limit word : BitVec 64} (nonzero : code ≠ 0) (outside : ¬(least ≤ sum ∧ sum ≤ greatest))
    (bound : owtype = .sat → value limit = if greatest < sum then greatest else least) (around : value word = wrapped) :
    Exact value least greatest sum wrapped owtype (overflowed code limit word owtype) := by
  refine ⟨?_,?_,?_⟩
  · refine iff_of_false ?_ outside
    cases owtype <;> simp [overflowed,nonzero]
  · rintro rfl _
    exact congrArg some (bound rfl)
  · rintro rfl _
    exact congrArg some around

theorem exact_inside (inside : least ≤ sum ∧ sum ≤ greatest) : Exact value least greatest sum wrapped owtype (0,none) :=
  ⟨iff_of_true rfl inside,fun _ other => absurd rfl other,fun _ other => absurd rfl other⟩

end

theorem mask_getElem {bits i : Nat} (bound : i < 64) : (mask bits)[i] = !decide (i < bits) := by
  simp only [mask,BitVec.getElem_shiftLeft,BitVec.getElem_allOnes,Bool.and_true]

theorem and_not_mask (x : BitVec 64) (bits : Nat) : x &&& ~~~mask bits = (x.setWidth bits).setWidth 64 := by
  ext i bound
  by_cases inside : i < bits <;> simp [mask_getElem bound,BitVec.getLsbD_eq_getElem bound,inside]

theorem toInt_range (x : BitVec 64) : -2 ^ 63 ≤ x.toInt ∧ x.toInt < 2 ^ 63 := ⟨BitVec.le_toInt x,BitVec.toInt_lt⟩

section
variable {bits : Nat} (value incr : BitVec 64) (owtype : OverflowType)

theorem unsigned_exact (high : bits ≤ 63) (passed : incr.toInt = 0 ∨ value.toNat < 2 ^ bits) :
    UnsignedExact value incr bits owtype := by
  have bound : (2 : Int) ^ bits ≤ 2 ^ 63 := pow_le_pow_right₀ (by decide) high
  have positive : (0 : Int) < 2 ^ bits := by positivity
  have around : (((value + incr) &&& ~~~mask bits).toNat : Int) = (value.toNat + incr.toInt) % 2 ^ bits := by
    have sum : ((value + incr).toNat : Int) = (value.toNat + incr.toInt) % 2 ^ 64 := by
      rw [BitVec.toNat_add,BitVec.toInt_eq_toNat_cond]
      omega
    have divides : (2 : Int) ^ bits ∣ 2 ^ 64 := pow_dvd_pow 2 (by omega)
    have small := Int.emod_lt_of_pos ((value + incr).toNat : Int) positive
    rw [and_not_mask,BitVec.toNat_setWidth,BitVec.toNat_setWidth]
    push_cast
    rw [Int.emod_eq_of_lt (Int.emod_nonneg _ positive.ne') (by omega),sum,Int.emod_emod_of_dvd _ divides]
  have small := value.isLt
  have range := toInt_range incr
  have greatest : ((BitVec.ofInt 64 (2 ^ bits - 1)).toNat : Int) = 2 ^ bits - 1 := by
    rw [BitVec.toNat_ofInt]
    omega
  unfold UnsignedExact checkUnsignedBitfieldOverflow int64
  rw [← Int.ofNat_lt] at passed
  push_cast at passed
  generalize (2 : Int) ^ bits = P at *
  dsimp only
  split
  · refine exact_outside (by decide) ?_ ?_ around
    · omega
    · intro _
      rw [if_pos (by omega),greatest]
  split
  · refine exact_outside (by decide) ?_ ?_ around
    · omega
    · intro _
      rw [if_neg (by omega)]
      rfl
  · apply exact_inside
    omega

omit value incr owtype in
theorem wrapSigned_eq (x : BitVec 64) (low : 1 ≤ bits) (high : bits ≤ 64) :
    (wrapSigned x bits).toInt = x.toInt.bmod (2 ^ bits) := by
  have extended : wrapSigned x bits = (x.setWidth bits).signExtend 64 := by
    have sign : (x.setWidth bits).msb = x.getLsbD (bits - 1) := by
      simp [BitVec.msb_eq_getLsbD_last,show bits - 1 < bits by omega]
    have tested : x &&& 1#64 <<< (bits - 1) ≠ 0 ↔ x.getLsbD (bits - 1) := by
      rw [← BitVec.twoPow_eq,BitVec.and_twoPow]
      split
      · rename_i set_
        refine iff_of_true (fun zero => ?_) set_
        have bit := congrArg (BitVec.getLsbD · (bits - 1)) zero
        simp at bit
        omega
      · rename_i clear
        exact iff_of_false (by simp) clear
    unfold wrapSigned
    simp only [tested]
    split
    · cases set_ : x.getLsbD (bits - 1)
      all_goals
        ext i bound
        rw [BitVec.getElem_signExtend,sign,set_]
        by_cases inside : i < bits <;> simp [mask_getElem bound,BitVec.getLsbD_eq_getElem bound,inside]
    · obtain rfl : bits = 64 := by omega
      simp
  have divides : 2 ^ bits ∣ 2 ^ 64 := Nat.pow_dvd_pow 2 high
  rw [extended,BitVec.toInt_signExtend_of_le high,BitVec.toInt_setWidth,BitVec.toInt_eq_toNat_bmod x,Int.bmod_bmod_of_dvd divides]

theorem signed_exact_iff (low : 1 ≤ bits) (high : bits ≤ 64)
    (passed : incr.toInt = 0 ∨ -2 ^ (bits - 1) ≤ value.toInt ∧ value.toInt < 2 ^ (bits - 1)) :
    SignedExact value incr bits owtype ↔ owtype ≠ .sat ∨ bits = 64 ∨ 2 ^ (bits - 1) - 1 - value.toInt < 2 ^ 63 := by
  have around : (wrapSigned (value + incr) bits).toInt = (value.toInt + incr.toInt).bmod (2 ^ bits) := by
    have divides : 2 ^ bits ∣ 2 ^ 64 := Nat.pow_dvd_pow 2 high
    rw [wrapSigned_eq _ low high,BitVec.toInt_add,Int.bmod_bmod_of_dvd divides]
  have narrow : bits ≠ 64 → (2 : Int) ^ (bits - 1) ≤ 2 ^ 62 := fun other => pow_le_pow_right₀ (by decide) (by omega)
  have wide : bits = 64 → (2 : Int) ^ (bits - 1) = 2 ^ 63 := by
    rintro rfl
    rfl
  have positive : (0 : Int) < 2 ^ (bits - 1) := by positivity
  have range := toInt_range value
  have range' := toInt_range incr
  unfold SignedExact checkSignedBitfieldOverflow int64
  generalize (2 : Int) ^ (bits - 1) = P at *
  have greatest : (BitVec.ofInt 64 (P - 1)).toInt = P - 1 := by
    rw [BitVec.toInt_ofInt,Int.bmod_eq_of_le (by omega) (by omega)]
  have least : (BitVec.ofInt 64 (-(P - 1) - 1)).toInt = -P := by
    rw [BitVec.toInt_ofInt,Int.bmod_eq_of_le (by omega) (by omega)]
    omega
  dsimp only
  by_cases early : bits = 64 ∨ P - 1 - value.toInt < 2 ^ 63
  · refine iff_of_true ?_ (.inr early)
    split
    · refine exact_outside (by decide) ?_ ?_ around
      · omega
      · intro _
        rw [if_pos (by omega),greatest]
    split
    · refine exact_outside (by decide) ?_ ?_ around
      · omega
      · intro _
        rw [if_neg (by omega),least]
    · apply exact_inside
      omega
  · -- The distance to the greatest value has wrapped around: a value below the field is taken for one above it.
    rw [if_pos (by omega)]
    cases owtype with
    | sat =>
      refine iff_of_false (fun exact_ => ?_) (by simpa using early)
      have limit := exact_.sat rfl (by simp [overflowed])
      rw [if_neg (by omega)] at limit
      simp [overflowed,greatest] at limit
      omega
    | wrap => exact iff_of_true (exact_outside (by decide) (by omega) nofun around) (.inl nofun)
    | fail => exact iff_of_true (exact_outside (by decide) (by omega) nofun around) (.inl nofun)

end

/-- SET passes any value with no increment, INCRBY a value of the field with any increment. -/
theorem bitfield_overflow_exact_iff (value incr : BitVec 64) (owtype : OverflowType) :
    (∀ bits, 1 ≤ bits → bits ≤ 63 → (incr.toInt = 0 ∨ value.toNat < 2 ^ bits) → UnsignedExact value incr bits owtype) ∧
    ∀ bits, 1 ≤ bits → bits ≤ 64 → (incr.toInt = 0 ∨ -2 ^ (bits - 1) ≤ value.toInt ∧ value.toInt < 2 ^ (bits - 1)) →
      (SignedExact value incr bits owtype ↔ owtype ≠ .sat ∨ bits = 64 ∨ 2 ^ (bits - 1) - 1 - value.toInt < 2 ^ 63) :=
  ⟨fun _ _ high passed => unsigned_exact value incr owtype high passed,
    fun _ low high passed => signed_exact_iff value incr owtype low high passed⟩

/-- The least value of 64 bits saturates a signed byte at its greatest value. -/
theorem checkSignedBitfieldOverflow_least :
    checkSignedBitfieldOverflow (BitVec.intMin 64) 0 8 .sat = (1,some 127) ∧ ¬SignedExact (BitVec.intMin 64) 0 8 .sat := by
  refine ⟨by decide,fun exact_ => ?_⟩
  have limit := exact_.sat rfl (by decide)
  revert limit
  decide

end ValkeyWasm.Bitops
