import Mathlib.Data.List.Basic
import Mathlib.Tactic.Ring

/-! Numbers as byte strings of a given width, lowest or highest byte first. -/
namespace ValkeyWasm.Library.ByteOrder
open List Nat

def littleEndian : Nat → Nat → List (BitVec 8)
  | 0, _ => []
  | width + 1, v => BitVec.ofNat 8 v :: littleEndian width (v / 256)

def ofLittleEndian : List (BitVec 8) → Nat
  | [] => 0
  | b :: s => b.toNat + 256 * ofLittleEndian s

def bigEndian (width v : Nat) : List (BitVec 8) := (littleEndian width v).reverse

def ofBigEndian (s : List (BitVec 8)) : Nat := ofLittleEndian s.reverse

theorem length_littleEndian (width v : Nat) : (littleEndian width v).length = width := by
  induction width generalizing v with
  | zero => rfl
  | succ width ih => rw [littleEndian,length_cons,ih]

theorem length_bigEndian (width v : Nat) : (bigEndian width v).length = width := by
  rw [bigEndian,length_reverse,length_littleEndian]

theorem ofLittleEndian_littleEndian (width v : Nat) : ofLittleEndian (littleEndian width v) = v % 256^width := by
  induction width generalizing v with
  | zero => simp [littleEndian,ofLittleEndian,mod_one]
  | succ width ih => rw [littleEndian,ofLittleEndian,ih,BitVec.toNat_ofNat,pow_succ 256,mul_comm (256^width),mod_mul]

theorem ofBigEndian_bigEndian {width v : Nat} (fits : v < 256^width) : ofBigEndian (bigEndian width v) = v := by
  rw [ofBigEndian,bigEndian,reverse_reverse,ofLittleEndian_littleEndian,mod_eq_of_lt fits]

end ValkeyWasm.Library.ByteOrder
