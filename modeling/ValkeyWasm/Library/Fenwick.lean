import Mathlib.Algebra.BigOperators.Intervals
import Mathlib.Algebra.Order.BigOperators.Group.Finset
import Mathlib.Tactic.Abel
import Mathlib.Tactic.Ring

/-! Binary indexed trees.
Node `i`, counted from 1, holds the sum of the values in the block that ends before `i`
and has the length of the lowest set bit of `i`. Reading a prefix sum removes the lowest
bit again and again; adding to a value visits the nodes whose blocks contain it by adding
the lowest bit again and again. -/
namespace ValkeyWasm.Library.Fenwick
open Finset Function Nat

/-- The lowest set bit of `i` is `p`. -/
def LowestBit (i p : Nat) : Prop := ∃ k m, i = 2^k * (2 * m + 1) ∧ p = 2^k

theorem LowestBit.pos {i p : Nat} (lowest : LowestBit i p) : 0 < p := by
  obtain ⟨k,_,_,rfl⟩ := lowest
  exact Nat.two_pow_pos k

theorem LowestBit.unique {i p q : Nat} (left : LowestBit i p) (right : LowestBit i q) : p = q := by
  obtain ⟨k,m,rfl,rfl⟩ := left
  obtain ⟨j,l,same,rfl⟩ := right
  wlog le : k ≤ j
  · exact (this _ _ _ _ same.symm (by omega)).symm
  obtain ⟨d,rfl⟩ := Nat.exists_eq_add_of_le le
  rw [pow_add,mul_assoc] at same
  have odd := Nat.eq_of_mul_eq_mul_left (Nat.two_pow_pos k) same
  cases d with
  | zero => rfl
  | succ d =>
    rw [pow_succ,mul_comm _ 2,mul_assoc] at odd
    omega

theorem add_le_of_dvd {t a b : Nat} (left : t ∣ a) (right : t ∣ b) (lt : a < b) : a + t ≤ b := by
  have apart := le_of_dvd (by omega) (dvd_sub right left)
  omega

def Covers (p i d : Nat) : Prop := i - p < d ∧ d ≤ i

theorem covers_next {i d p q : Nat} (lowest : LowestBit i p) (lowestNext : LowestBit d q) (other : d ≠ i) :
    Covers p i (d + q) ↔ Covers p i d := by
  obtain ⟨k,m,rfl,rfl⟩ := lowest
  obtain ⟨j,l,rfl,rfl⟩ := lowestNext
  have start : 2^k * (2 * m + 1) - 2^k = 2^(k + 1) * m := by
    rw [mul_add,mul_one,Nat.add_sub_cancel]
    ring
  have finish : 2^k * (2 * m + 1) = 2^(k + 1) * m + 2^k := by ring
  have next : 2^j * (2 * l + 1) + 2^j = 2^(j + 1) * (l + 1) := by ring
  have here : 2^j * (2 * l + 1) = 2^(j + 1) * l + 2^j := by ring
  unfold Covers
  rw [start]
  rcases lt_or_ge j k with finer | coarser
  · -- all borders of the block are multiples of the step
    have steps : 2^(j + 1) ∣ 2^k := pow_dvd_pow 2 finer
    have blockStart : 2^(j + 1) ∣ 2^(k + 1) * m := (pow_dvd_pow 2 (by omega)).mul_right _
    have blockEnd : 2^(j + 1) ∣ 2^k * (2 * m + 1) := steps.mul_right _
    have nextStep : 2^(j + 1) ∣ 2^(j + 1) * (l + 1) := dvd_mul_right _ _
    have hereStep : 2^(j + 1) ∣ 2^(j + 1) * l := dvd_mul_right _ _
    have double : 2^(j + 1) = 2^j + 2^j := by ring
    have positive := Nat.two_pow_pos j
    constructor
    · rintro ⟨above,below⟩
      have past := add_le_of_dvd blockStart (next ▸ nextStep) above
      omega
    · rintro ⟨above,below⟩
      have inside := add_le_of_dvd hereStep blockEnd (by omega)
      omega
  · -- a multiple of the block length is never strictly inside the block
    have length : 2^k ∣ 2^j * (2 * l + 1) := (pow_dvd_pow 2 coarser).mul_right _
    have double : 2^(k + 1) = 2^k + 2^k := by ring
    have positive := Nat.two_pow_pos k
    constructor
    · rintro ⟨above,below⟩
      have far : 2^(k + 1) ∣ 2^j * (2 * l + 1) + 2^j := next ▸ (pow_dvd_pow 2 (by omega)).mul_right _
      have past := add_le_of_dvd (dvd_mul_right _ m) far above
      omega
    · rintro ⟨above,below⟩
      have past := add_le_of_dvd ((pow_dvd_pow 2 (by omega : k ≤ k + 1)).mul_right m) length above
      omega

variable {A : Type*} [AddCommGroup A]

def Indexes (low : Nat → Nat) (n : Nat) (tree f : Nat → A) : Prop :=
  ∀ i, 0 < i → i ≤ n → tree i = ∑ j ∈ Ico (i - low i) i, f j

def Owing (low : Nat → Nat) (n : Nat) (tree f : Nat → A) (delta : A) (d : Nat) : Prop :=
  ∀ i, 0 < i → i ≤ n → (Covers (low i) i d → tree i + delta = ∑ j ∈ Ico (i - low i) i, f j) ∧
    (¬Covers (low i) i d → tree i = ∑ j ∈ Ico (i - low i) i, f j)

variable {low : Nat → Nat} {n : Nat} {tree f : Nat → A} {delta : A} {d : Nat}

theorem Indexes.sum_range (indexes : Indexes low n tree f) (positive : 0 < d) (bound : d ≤ n) :
    ∑ j ∈ range d, f j = tree d + ∑ j ∈ range (d - low d), f j := by
  rw [indexes d positive bound,add_comm,range_eq_Ico,range_eq_Ico,sum_Ico_consecutive]
  · exact zero_le _
  · exact sub_le _ _

theorem Indexes.owing (indexes : Indexes low n tree f) (delta : A) (x : Nat) : Owing low n tree (update f x (f x + delta)) delta (x + 1) := by
  intro i positive bound
  rw [indexes i positive bound]
  constructor
  · rintro ⟨above,below⟩
    have inside : x ∈ Ico (i - low i) i := mem_Ico.mpr ⟨by omega,by omega⟩
    rw [sum_update_of_mem inside,sdiff_singleton_eq_erase,← add_sum_erase _ f inside]
    abel
  intro outside
  apply sum_congr rfl
  intro j inside
  rw [mem_Ico] at inside
  rw [update_of_ne]
  rintro rfl
  exact outside ⟨by omega,by omega⟩

theorem Owing.step (owing : Owing low n tree f delta d) (lowest : ∀ i, 0 < i → i ≤ n → LowestBit i (low i)) (positive : 0 < d)
    (bound : d ≤ n) : Owing low n (update tree d (tree d + delta)) f delta (d + low d) := by
  intro i above below
  have lowestHere := lowest d positive bound
  by_cases same : i = d
  · subst same
    have paid := (owing i above below).1 ⟨by have := lowestHere.pos; omega,le_rfl⟩
    have past : ¬Covers (low i) i (i + low i) := fun covers => by have := covers.2; have := lowestHere.pos; omega
    rw [update_self]
    exact ⟨fun covers => absurd covers past,fun _ => paid⟩
  · rw [update_of_ne same,covers_next (lowest i above below) lowestHere (Ne.symm same)]
    exact owing i above below

theorem Owing.done (owing : Owing low n tree f delta d) (past : n < d) : Indexes low n tree f := by
  intro i above below
  exact (owing i above below).2 (fun covers => by have := covers.2; omega)

theorem Owing.here (owing : Owing low n tree f delta d) (lowest : LowestBit d (low d)) (positive : 0 < d) (bound : d ≤ n) :
    tree d + delta = ∑ j ∈ Ico (d - low d) d, f j :=
  (owing d positive bound).1 ⟨by have := lowest.pos; omega,le_rfl⟩

end ValkeyWasm.Library.Fenwick
