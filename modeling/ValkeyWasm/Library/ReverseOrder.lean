import Mathlib.Data.Nat.Bitwise
import Mathlib.Tactic.Ring

/-! Words ordered by their reversed bits.
In this order the words that agree on their `e` low bits form one block of consecutive
values, and setting all other bits before adding one leads to the next block. -/
namespace ValkeyWasm.Library.ReverseOrder
open Nat

variable {w : Nat}

/-- Rank of a word among all words, read from its last bit to its first. -/
def order (v : BitVec w) : Nat := v.reverse.toNat

theorem order_lt (v : BitVec w) : order v < 2^w := v.reverse.isLt

theorem testBit_order (v : BitVec w) (i : Nat) :
    (order v).testBit i = (decide (i < w) && v.getLsbD (w - 1 - i)) := by
  rw [order,BitVec.testBit_toNat,BitVec.getLsbD_reverse,BitVec.getMsbD_eq_getLsbD]

theorem order_zero : order (0 : BitVec w) = 0 := by
  apply eq_of_testBit_eq
  intro i
  simp [testBit_order]

theorem order_injective {u v : BitVec w} (same : order u = order v) : u = v := by
  have reversed : u.reverse = v.reverse := BitVec.eq_of_toNat_eq same
  rw [← BitVec.reverse_reverse_eq (x := u),reversed,BitVec.reverse_reverse_eq]

theorem testBit_block (v : BitVec w) {e : Nat} (fits : e ≤ w) (i : Nat) :
    (order v / 2^(w - e)).testBit i = (decide (i < e) && v.getLsbD (e - 1 - i)) := by
  rw [testBit_div_two_pow,testBit_order]
  by_cases inside : i < e
  · have bound : i + (w - e) < w := by omega
    have mirrored : w - 1 - (i + (w - e)) = e - 1 - i := by omega
    simp [inside,bound,mirrored]
  · have bound : ¬i + (w - e) < w := by omega
    simp [inside,bound]

theorem mod_eq_of_block_eq (u v : BitVec w) (e : Nat) (fits : e ≤ w)
    (same : order u / 2^(w - e) = order v / 2^(w - e)) : u.toNat % 2^e = v.toNat % 2^e := by
  apply eq_of_testBit_eq
  intro i
  rw [testBit_mod_two_pow,testBit_mod_two_pow]
  by_cases inside : i < e
  · have bits := congrArg (fun n => Nat.testBit n (e - 1 - i)) same
    have mirrored : e - 1 - (e - 1 - i) = i := by omega
    have bound : e - 1 - i < e := by omega
    simp only [testBit_block _ fits,bound,decide_true,Bool.true_and,mirrored] at bits
    simp only [inside,decide_true,Bool.true_and,BitVec.testBit_toNat,bits]
  · simp [inside]

def advance (v mask : BitVec w) : BitVec w := ((v ||| ~~~mask).reverse + 1).reverse

structure LowMask (mask : BitVec w) (e : Nat) : Prop where
  fits : e ≤ w
  bit : ∀ i, i < w → mask.getLsbD i = decide (i < e)

section
variable (v mask : BitVec w) (e : Nat) (masks : LowMask mask e)
include v mask e masks

theorem order_fill :
    order (v ||| ~~~mask) = order v / 2^(w - e) * 2^(w - e) + (2^(w - e) - 1) := by
  have fits := masks.fits
  have block : order (v ||| ~~~mask) / 2^(w - e) = order v / 2^(w - e) := by
    apply eq_of_testBit_eq
    intro i
    rw [testBit_block _ fits,testBit_block _ fits]
    by_cases inside : i < e
    · have within : e - 1 - i < w := by omega
      have masked : mask.getLsbD (e - 1 - i) = true := by
        rw [masks.bit _ within]
        simpa using (by omega : e - 1 - i < e)
      simp [inside,masked]
    · simp [inside]
  have rest : order (v ||| ~~~mask) % 2^(w - e) = 2^(w - e) - 1 := by
    apply eq_of_testBit_eq
    intro i
    rw [testBit_mod_two_pow,testBit_two_pow_sub_one,testBit_order]
    by_cases inside : i < w - e
    · have within : w - 1 - i < w := by omega
      have masked : mask.getLsbD (w - 1 - i) = false := by
        rw [masks.bit _ within]
        simpa using (by omega : ¬w - 1 - i < e)
      have bound : i < w := by omega
      simp only [inside,bound,within,BitVec.getLsbD_or,BitVec.getLsbD_not,masked,decide_true,Bool.not_false,
        Bool.true_and,Bool.or_true]
    · simp [inside]
  calc order (v ||| ~~~mask) = order (v ||| ~~~mask) / 2^(w - e) * 2^(w - e) + order (v ||| ~~~mask) % 2^(w - e) :=
        (div_add_mod' _ _).symm
    _ = order v / 2^(w - e) * 2^(w - e) + (2^(w - e) - 1) := by rw [block,rest]

theorem order_advance :
    order (advance v mask) = (order v / 2^(w - e) + 1) * 2^(w - e) % 2^w := by
  have positive : 0 < 2^(w - e) := Nat.two_pow_pos _
  have filled := order_fill v mask e masks
  unfold order at filled ⊢
  rw [advance,BitVec.reverse_reverse_eq,BitVec.toNat_add,filled]
  have one : (1 : BitVec w).toNat = 1 % 2^w := by simp
  rw [one,Nat.add_mod_mod,add_assoc,Nat.sub_add_cancel positive,add_mul,one_mul]

theorem advance_cases :
    (advance v mask = 0 ∧ (order v / 2^(w - e) + 1) * 2^(w - e) = 2^w) ∨
      order (advance v mask) = (order v / 2^(w - e) + 1) * 2^(w - e) := by
  have next := order_advance v mask e masks
  have width : 2^e * 2^(w - e) = 2^w := by rw [← pow_add,Nat.add_sub_cancel' masks.fits]
  have block : order v / 2^(w - e) < 2^e := by
    rw [Nat.div_lt_iff_lt_mul (Nat.two_pow_pos _),width]
    exact order_lt v
  rcases lt_or_eq_of_le (mul_le_mul_right (2^(w - e)) (succ_le_of_lt block)) with inside | last
  · exact Or.inr (next.trans (mod_eq_of_lt (width ▸ inside)))
  · refine Or.inl ⟨order_injective ?_,last.trans width⟩
    rw [next,order_zero,last.trans width,mod_self]

end

/-- The words from one cursor up to the next one; the cursor zero stands for the end. -/
def Covers (cursor next v : BitVec w) : Prop := order cursor ≤ order v ∧ (next = 0 ∨ order v < order next)

theorem block_of_covers (cursor mask v : BitVec w) (e : Nat) (masks : LowMask mask e) (covered : Covers cursor (advance cursor mask) v) :
    order v / 2^(w - e) = order cursor / 2^(w - e) := by
  obtain ⟨low,high⟩ := covered
  have positive : 0 < 2^(w - e) := Nat.two_pow_pos _
  have below : order v < (order cursor / 2^(w - e) + 1) * 2^(w - e) := by
    rcases advance_cases cursor mask e masks with ⟨_,last⟩ | inside
    · exact last ▸ order_lt v
    rcases high with wrapped | ahead
    · rw [wrapped,order_zero] at inside
      exact absurd inside.symm (mul_pos (succ_pos _) positive).ne'
    · exact inside ▸ ahead
  apply le_antisymm
  · exact Nat.lt_succ_iff.mp ((Nat.div_lt_iff_lt_mul positive).mpr below)
  · exact Nat.div_le_div_right low

theorem getLsbD_of_aligned {v : BitVec w} {e : Nat} (fits : e ≤ w) (aligned : order v % 2^(w - e) = 0) {i : Nat} (high : e ≤ i) (inside : i < w) :
    v.getLsbD i = false := by
  have bit : (order v % 2^(w - e)).testBit (w - 1 - i) = false := by rw [aligned,zero_testBit]
  rw [testBit_mod_two_pow,testBit_order] at bit
  simpa [show w - 1 - i < w - e by omega,show w - 1 - i < w by omega,show w - 1 - (w - 1 - i) = i by omega] using bit

theorem block_of_continues (cursor small large : BitVec w) (e f : Nat) (le : e ≤ f) (masksSmall : LowMask small e)
    (masksLarge : LowMask large f) (more : advance cursor large &&& (small ^^^ large) ≠ 0) :
    order (advance cursor large) / 2^(w - e) = order cursor / 2^(w - e) := by
  have fits := masksSmall.fits
  have fitsLarge := masksLarge.fits
  have split : 2^(w - e) = 2^(w - f) * 2^(f - e) := by
    rw [← pow_add]
    congr 1
    omega
  rcases advance_cases cursor large f masksLarge with ⟨wrapped,_⟩ | inside
  · simp [wrapped] at more
  have block : order (advance cursor large) / 2^(w - f) = order cursor / 2^(w - f) + 1 := by
    rw [inside,Nat.mul_div_cancel _ (Nat.two_pow_pos _)]
  rw [split,← Nat.div_div_eq_div_mul,← Nat.div_div_eq_div_mul,block,Nat.succ_div]
  split
  · rename_i boundary
    exfalso
    apply more
    obtain ⟨q,equal⟩ := boundary
    have aligned : order (advance cursor large) % 2^(w - e) = 0 := by
      rw [inside,equal,split,mul_comm (2^(f - e)),mul_assoc,mul_comm (2^(f - e)),mul_mod_left]
    apply BitVec.eq_of_getLsbD_eq
    intro i bound
    rw [BitVec.getLsbD_and,BitVec.getLsbD_xor,masksSmall.bit i bound,masksLarge.bit i bound]
    by_cases lowBit : i < e
    · simp [lowBit,lt_of_lt_of_le lowBit le]
    · simp [getLsbD_of_aligned fits aligned (by omega) bound]
  · rw [add_zero]

/-- Exchanges the bits at positions that differ in `k`; the mask tells the lower ones. -/
def swapBits (k : Nat) (mask v : BitVec w) : BitVec w := ((v >>> k) &&& mask) ||| ((v &&& mask) <<< k)

def Selects (k : Nat) (mask : BitVec w) : Prop :=
  ∀ i < w, i ^^^ k < w ∧ (if mask.getLsbD i then i ^^^ k = i + k ∧ (k ≤ i → mask.getLsbD (i - k) = false)
    else i ^^^ k = i - k ∧ k ≤ i ∧ mask.getLsbD (i - k) = true)

instance (k : Nat) (mask : BitVec w) : Decidable (Selects k mask) :=
  inferInstanceAs (Decidable (∀ i < w, i ^^^ k < w ∧ (if mask.getLsbD i then _ else _)))

theorem getLsbD_swapBits (k : Nat) {mask : BitVec w} (v : BitVec w) (selects : Selects k mask) {i : Nat} (inside : i < w) :
    (swapBits k mask v).getLsbD i = v.getLsbD (i ^^^ k) := by
  obtain ⟨bound,pair⟩ := selects i inside
  simp only [swapBits,BitVec.getLsbD_or,BitVec.getLsbD_and,BitVec.getLsbD_ushiftRight,BitVec.getLsbD_shiftLeft,inside,
    decide_true,Bool.true_and]
  split at pair
  · rename_i low
    rw [pair.1,low,Bool.and_true,add_comm k i]
    by_cases early : i < k
    · simp [early]
    · rw [pair.2 (by omega)]
      simp
  · rename_i high
    have later : ¬i < k := by omega
    rw [pair.1,pair.2.2]
    simp [high,later]

end ValkeyWasm.Library.ReverseOrder
