import Mathlib.Tactic.Ring

/-! Byte memory with little-endian numbers.
A memory is total: bytes that nothing has written have some value. Numbers are read and
written by width, and a move copies from the memory as it was before the move. -/
namespace ValkeyWasm.Library.Memory
open List Nat Int

abbrev Bytes := Nat → BitVec 8

def readLE (mem : Bytes) : Nat → Nat → Nat
  | _, 0 => 0
  | base, width + 1 => (mem base).toNat + 256 * readLE mem (base + 1) width

def writeLE (mem : Bytes) (base width value : Nat) : Bytes := fun i =>
  if base ≤ i ∧ i < base + width then BitVec.ofNat 8 (value / 256^(i - base)) else mem i

def memmove (mem : Bytes) (dst src bytes : Nat) : Bytes := fun i =>
  if dst ≤ i ∧ i < dst + bytes then mem (src + (i - dst)) else mem i

theorem cell_le {i j : Nat} (lt : i < j) (width : Nat) : i * width + width ≤ j * width := by
  rw [← succ_mul]
  exact Nat.mul_le_mul_right width lt

theorem readLE_lt (mem : Bytes) (base width : Nat) : readLE mem base width < 256^width := by
  induction width generalizing base with
  | zero => simp [readLE]
  | succ width ih =>
    have byte := (mem base).isLt
    have rest := ih (base + 1)
    rw [readLE,pow_succ]
    omega

variable {mem : Bytes} {base : Nat} {other : Bytes} {width : Nat} {at_ : Nat}

theorem readLE_congr (same : ∀ i < width, mem (base + i) = other (at_ + i)) :
    readLE mem base width = readLE other at_ width := by
  induction width generalizing base at_ with
  | zero => rfl
  | succ width ih =>
    have first := same 0 (by omega)
    have rest : ∀ i < width, mem (base + 1 + i) = other (at_ + 1 + i) := by
      intro i inside
      have next := same (i + 1) (by omega)
      rwa [show base + (i + 1) = base + 1 + i by ring,show at_ + (i + 1) = at_ + 1 + i by ring] at next
    rw [readLE,readLE,ih rest]
    simpa using congrArg (fun b : BitVec 8 => b.toNat + 256 * readLE other (at_ + 1) width) first

variable {width : Nat} {base : Nat}

theorem readLE_digits {value : Nat} {mem : Bytes}
    (digits : ∀ i < width, mem (base + i) = BitVec.ofNat 8 (value / 256^i)) : readLE mem base width = value % 256^width := by
  induction width generalizing base value with
  | zero => simp [readLE,mod_one]
  | succ width ih =>
    have first := digits 0 (by omega)
    have rest : readLE mem (base + 1) width = value / 256 % 256^width := by
      apply ih
      intro i inside
      have next := digits (i + 1) (by omega)
      rw [show base + (i + 1) = base + 1 + i by ring,pow_succ,mul_comm,← Nat.div_div_eq_div_mul] at next
      exact next
    rw [readLE,rest]
    simp only [add_zero,pow_zero,Nat.div_one] at first
    rw [first,BitVec.toNat_ofNat,pow_succ 256,mul_comm (256^width),mod_mul]

theorem readLE_writeLE (mem : Bytes) (base width value : Nat) : readLE (writeLE mem base width value) base width = value % 256^width := by
  apply readLE_digits
  intro i inside
  rw [writeLE,if_pos ⟨by omega,by omega⟩,Nat.add_sub_cancel_left]

theorem readLE_writeLE_disjoint (mem : Bytes) (value : Nat) {other : Nat} (apart : at_ + other ≤ base ∨ base + width ≤ at_) :
    readLE (writeLE mem base width value) at_ other = readLE mem at_ other := by
  apply readLE_congr
  intro i inside
  rw [writeLE,if_neg (by omega)]

theorem readLE_memmove (mem : Bytes) {dst : Nat} (src : Nat) {bytes : Nat} (inside : dst ≤ at_ ∧ at_ + width ≤ dst + bytes) :
    readLE (memmove mem dst src bytes) at_ width = readLE mem (src + (at_ - dst)) width := by
  apply readLE_congr
  intro i below
  rw [memmove,if_pos (by omega)]
  congr 1
  omega

theorem readLE_memmove_disjoint (mem : Bytes) {dst : Nat} (src : Nat) {bytes : Nat} (apart : at_ + width ≤ dst ∨ dst + bytes ≤ at_) :
    readLE (memmove mem dst src bytes) at_ width = readLE mem at_ width := by
  apply readLE_congr
  intro i below
  rw [memmove,if_neg (by omega)]

def signed (width value : Nat) : Int := Int.bmod value (256^width)

def unsigned (width : Nat) (value : Int) : Nat := (value % (256^width : Nat)).toNat

def Fits (width : Nat) (value : Int) : Prop := -(256^width / 2 : Nat) ≤ value ∧ value < (256^width / 2 : Nat)

theorem signed_unsigned (positive : 0 < width) {value : Int} (fits : Fits width value) :
    signed width (unsigned width value % 256^width) = value := by
  have even : 256^width / 2 * 2 = 256^width := Nat.div_mul_cancel (dvd_pow (by norm_num) positive.ne')
  have bound : 0 < 256^width := Nat.pow_pos (by decide)
  have nonneg : 0 ≤ value % (256^width : Nat) := emod_nonneg _ (by omega)
  have below : value % (256^width : Nat) < (256^width : Nat) := emod_lt_of_pos _ (by omega)
  have small : unsigned width value < 256^width := by
    unfold unsigned
    omega
  rw [mod_eq_of_lt small,signed,unsigned,toNat_of_nonneg nonneg,emod_bmod]
  obtain ⟨low,high⟩ := fits
  exact bmod_eq_of_le (by omega) (by omega)

theorem fits_signed (positive : 0 < width) (value : Nat) : Fits width (signed width value) := by
  have even : 256^width / 2 * 2 = 256^width := Nat.div_mul_cancel (dvd_pow (by norm_num) positive.ne')
  have bound : 0 < 256^width := Nat.pow_pos (by decide)
  have low := le_bmod (x := value) (m := 256^width) bound
  have high := bmod_lt (x := value) (m := 256^width) bound
  unfold signed
  constructor <;> omega

def writeBytes (mem : Bytes) (base : Nat) (l : List (BitVec 8)) : Bytes := fun i =>
  if base ≤ i then (l[i - base]?).getD (mem i) else mem i

def Holds (mem : Bytes) (base : Nat) (l : List (BitVec 8)) : Prop := ∀ i b, l[i]? = some b → mem (base + i) = b

variable {l : List (BitVec 8)}

theorem holds_append {r : List (BitVec 8)} :
    Holds mem base (l ++ r) ↔ Holds mem base l ∧ Holds mem (base + l.length) r := by
  constructor
  · intro holds
    constructor
    · intro i b found
      exact holds i b (by rw [getElem?_append_left (List.getElem?_eq_some_iff.mp found).1,found])
    · intro i b found
      rw [add_assoc]
      exact holds (l.length + i) b (by rw [getElem?_append_right (le_add_right _ _),Nat.add_sub_cancel_left,found])
  · rintro ⟨first,second⟩ i b found
    rcases lt_or_ge i l.length with inside | past
    · rw [getElem?_append_left inside] at found
      exact first i b found
    · rw [getElem?_append_right past] at found
      have last := second (i - l.length) b found
      rwa [show base + l.length + (i - l.length) = base + i by omega] at last

theorem Holds.congr (holds : Holds mem base l)
    (same : ∀ i, base ≤ i → i < base + l.length → other i = mem i) : Holds other base l := by
  intro i b found
  have inside := (List.getElem?_eq_some_iff.mp found).1
  rw [same (base + i) (by omega) (by omega)]
  exact holds i b found

theorem Holds.map_range (holds : Holds mem base l) :
    (List.range l.length).map (fun i => mem (base + i)) = l := by
  apply ext_getElem
  · rw [length_map,length_range]
  · intro i _ inside
    rw [getElem_map,getElem_range]
    exact holds i _ (getElem?_eq_getElem inside)

theorem holds_writeBytes (mem : Bytes) (base : Nat) (l : List (BitVec 8)) : Holds (writeBytes mem base l) base l := by
  intro i b found
  rw [writeBytes,if_pos (le_add_right _ _),Nat.add_sub_cancel_left,found]
  rfl

variable {i : Nat}

theorem writeBytes_outside (mem : Bytes) {l : List (BitVec 8)} (outside : i < base ∨ base + l.length ≤ i) :
    writeBytes mem base l i = mem i := by
  unfold writeBytes
  split
  · rw [getElem?_eq_none (by omega)]
    rfl
  · rfl

theorem writeBytes_congr
    (same : i < base ∨ base + l.length ≤ i → mem i = other i) : writeBytes mem base l i = writeBytes other base l i := by
  rcases lt_or_ge i base with before | from_
  · rw [writeBytes_outside _ (Or.inl before),writeBytes_outside _ (Or.inl before),same (Or.inl before)]
  rcases lt_or_ge i (base + l.length) with inside | after
  · unfold writeBytes
    rw [if_pos from_,if_pos from_,getElem?_eq_getElem (by omega)]
    rfl
  · rw [writeBytes_outside _ (Or.inr after),writeBytes_outside _ (Or.inr after),same (Or.inr after)]

theorem readLE_writeBytes_disjoint (mem : Bytes) {l : List (BitVec 8)}
    (apart : at_ + width ≤ base ∨ base + l.length ≤ at_) : readLE (writeBytes mem base l) at_ width = readLE mem at_ width := by
  apply readLE_congr
  intro i below
  exact writeBytes_outside _ (by omega)

theorem writeLE_outside (mem : Bytes) (value : Nat) (outside : i < base ∨ base + width ≤ i) :
    writeLE mem base width value i = mem i := if_neg (by omega)

theorem memmove_outside (mem : Bytes) {dst : Nat} (src : Nat) {bytes : Nat} (outside : i < dst ∨ dst + bytes ≤ i) :
    memmove mem dst src bytes i = mem i := if_neg (by omega)

theorem Holds.moved {src : Nat} (holds : Holds mem src l) (dst : Nat) :
    Holds (memmove mem dst src l.length) dst l := by
  intro i b found
  have inside := (List.getElem?_eq_some_iff.mp found).1
  rw [memmove,if_pos (by omega),Nat.add_sub_cancel_left]
  exact holds i b found

theorem holds_splice {pre mid post : List (BitVec 8)} (holds : Holds mem base (pre ++ (mid ++ post)))
    (new : List (BitVec 8)) :
    Holds (writeBytes (memmove mem (base + pre.length + new.length) (base + pre.length + mid.length) post.length) (base + pre.length) new)
      base (pre ++ (new ++ post)) := by
  rw [holds_append,holds_append] at holds ⊢
  obtain ⟨first,-,last⟩ := holds
  refine ⟨?_,holds_writeBytes _ _ _,?_⟩
  · refine first.congr ?_
    intro i from_ below
    rw [writeBytes_outside _ (by omega),memmove_outside _ _ (by omega)]
  · refine (last.moved (base + pre.length + new.length)).congr ?_
    intro i from_ below
    rw [writeBytes_outside _ (by omega)]

@[simp] theorem writeBytes_nil (mem : Bytes) (base : Nat) : writeBytes mem base [] = mem := by
  funext i
  apply writeBytes_outside
  rw [length_nil]
  omega

theorem writeBytes_append (mem : Bytes) (base : Nat) (l r : List (BitVec 8)) :
    writeBytes (writeBytes mem base l) (base + l.length) r = writeBytes mem base (l ++ r) := by
  funext i
  unfold writeBytes
  rcases lt_or_ge i (base + l.length) with inside | past
  · rw [if_neg (by omega)]
    split
    · rw [getElem?_append_left (by omega)]
    · rfl
  · rw [if_pos past,if_pos (by omega),if_pos (by omega),getElem?_append_right (by omega),getElem?_eq_none (by omega : l.length ≤ i - base),
      show i - (base + l.length) = i - base - l.length by omega]
    rfl

end ValkeyWasm.Library.Memory
