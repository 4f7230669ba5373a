import Mathlib.Data.List.Induction
import Mathlib.Tactic.Ring

/-! Decimal numerals, most significant digit first. -/
namespace ValkeyWasm.Library.Decimal
open List Nat

def horner (v : Nat) (ds : List Nat) : Nat := ds.foldl (fun v d => v * 10 + d) v

def numeral : Nat → Nat → List Nat
  | 0, _ => []
  | n + 1, v => numeral n (v / 10) ++ [v % 10]

theorem horner_append (v : Nat) (ds es : List Nat) : horner v (ds ++ es) = horner (horner v ds) es := foldl_append

theorem numeral_horner (v : Nat) {ds : List Nat} (digits : ∀ d ∈ ds, d < 10) : numeral ds.length (horner v ds) = ds := by
  induction ds using List.reverseRecOn with
  | nil => rfl
  | append_singleton ds d ih =>
    have last := digits d (by simp)
    have rest := ih (fun e member => digits e (by simp [member]))
    rw [horner_append,length_append,length_singleton,numeral]
    change numeral ds.length ((horner v ds * 10 + d) / 10) ++ [(horner v ds * 10 + d) % 10] = ds ++ [d]
    rw [show (horner v ds * 10 + d) / 10 = horner v ds by omega,show (horner v ds * 10 + d) % 10 = d by omega,rest]

theorem horner_lt (v : Nat) {ds : List Nat} (digits : ∀ d ∈ ds, d < 10) : horner v ds < (v + 1) * 10^ds.length := by
  induction ds using List.reverseRecOn with
  | nil => simp [horner]
  | append_singleton ds d ih =>
    have last := digits d (by simp)
    have rest := ih (fun e member => digits e (by simp [member]))
    rw [horner_append,length_append,length_singleton,pow_succ]
    change horner v ds * 10 + d < _
    rw [← mul_assoc]
    omega

theorem le_horner (v : Nat) (ds : List Nat) : v * 10^ds.length ≤ horner v ds := by
  induction ds using List.reverseRecOn with
  | nil => simp [horner]
  | append_singleton ds d ih =>
    rw [horner_append,length_append,length_singleton,pow_succ]
    change _ ≤ horner v ds * 10 + d
    rw [← mul_assoc]
    omega

theorem length_numeral (n v : Nat) : (numeral n v).length = n := by
  induction n generalizing v with
  | zero => rfl
  | succ n ih => rw [numeral,length_append,ih,length_singleton]

theorem getElem?_numeral {n k : Nat} (v : Nat) (inside : k < n) : (numeral n v)[n - 1 - k]? = some (v / 10^k % 10) := by
  induction n generalizing v k with
  | zero => omega
  | succ n ih =>
    rw [numeral]
    cases k with
    | zero =>
      rw [getElem?_append_right (by rw [length_numeral]; omega),length_numeral]
      simp
    | succ k =>
      rw [getElem?_append_left (by rw [length_numeral]; omega),show n + 1 - 1 - (k + 1) = n - 1 - k by omega,ih (v / 10) (by omega),
        Nat.div_div_eq_div_mul,pow_succ,mul_comm]

theorem numeral_lt (n v : Nat) : ∀ d ∈ numeral n v, d < 10 := by
  induction n generalizing v with
  | zero => exact nofun
  | succ n ih =>
    intro d member
    rcases mem_append.mp member with earlier | last
    · exact ih (v / 10) d earlier
    · rw [mem_singleton.mp last]
      exact mod_lt v (by decide)

theorem horner_numeral {n v : Nat} (small : v < 10^n) : horner 0 (numeral n v) = v := by
  induction n generalizing v with
  | zero =>
    rw [pow_zero] at small
    have zero : v = 0 := by omega
    rw [zero]
    rfl
  | succ n ih =>
    rw [pow_succ] at small
    rw [numeral,horner_append,ih (by omega)]
    change v / 10 * 10 + v % 10 = v
    omega

theorem numeral_succ (n v : Nat) : numeral (n + 1) v = v / 10^n % 10 :: numeral n v := by
  induction n generalizing v with
  | zero => simp [numeral]
  | succ n ih =>
    rw [numeral,ih,cons_append,Nat.div_div_eq_div_mul,← pow_succ']
    rfl

end ValkeyWasm.Library.Decimal
