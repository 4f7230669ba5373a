import Mathlib.Data.List.FinRange
import Mathlib.Algebra.BigOperators.Group.List.Basic
import Mathlib.Algebra.Order.Group.Multiset
import Mathlib.Algebra.Ring.Int.Parity

/-! Finite families of optional contents and the multiset of what they hold.
A family is changed one position at a time; the lemmas say how the multiset and
its sums over a list of families follow. Nothing here depends on what is stored. -/
namespace ValkeyWasm.Library.Occupancy
open Function List

variable {ι β : Type*}

def contents (positions : List ι) (family : ι → Option β) : Multiset β :=
  (positions.filterMap family : List β)

theorem mem_contents (positions : List ι) (family : ι → Option β) (value : β) :
    value ∈ contents positions family ↔ ∃ p ∈ positions, family p = some value := by
  simp [contents]

theorem contents_congr {positions : List ι} {first second : ι → Option β}
    (same : ∀ p ∈ positions, first p = second p) : contents positions first = contents positions second := by
  have equal : positions.filterMap first = positions.filterMap second := filterMap_congr same
  simp only [contents,equal]

theorem contents_cons (p : ι) (positions : List ι) (family : ι → Option β) :
    contents (p::positions) family = (family p).toList + contents positions family := by
  cases held : family p <;> simp [contents,held]

variable [DecidableEq ι]

section
variable (positions : List ι) (distinct : positions.Nodup) (family : ι → Option β) (p : ι) (member : p ∈ positions)
include positions distinct family p member

theorem contents_update (value : Option β) :
    contents positions (update family p value) + ((family p).toList : Multiset β) =
      contents positions family + (value.toList : Multiset β) := by
  induction positions with
  | nil => simp at member
  | cons q rest ih =>
    obtain ⟨absent,restDistinct⟩ := nodup_cons.mp distinct
    rw [contents_cons,contents_cons]
    by_cases same : p = q
    · subst q
      have unchanged : contents rest (update family p value) = contents rest family := by
        apply contents_congr
        intro x inside
        exact update_of_ne (fun equal : x = p => absent (equal ▸ inside)) _ _
      rw [unchanged,update_self]
      ac_rfl
    · have inside : p ∈ rest := by simpa [same] using member
      have tail := ih restDistinct inside
      rw [update_of_ne (Ne.symm same)]
      rw [add_assoc,tail,add_assoc]

theorem contents_fill (free : family p = none) (value : β) :
    contents positions (update family p (some value)) = value ::ₘ contents positions family := by
  have moved := contents_update positions distinct family p member (some value)
  rw [free] at moved
  simpa [add_comm] using moved

theorem contents_clear {value : β} (held : family p = some value) :
    contents positions family = value ::ₘ contents positions (update family p none) := by
  have moved := contents_update positions distinct family p member none
  rw [held] at moved
  simpa [add_comm] using moved.symm

end

theorem sum_map_set {σ M : Type*} [AddCommMonoid M] (measure : σ → M) (values : List σ) (i : Nat)
    (bound : i < values.length) (next : σ) :
    ((values.set i next).map measure).sum + measure values[i] = (values.map measure).sum + measure next := by
  induction values generalizing i with
  | nil => simp at bound
  | cons head rest ih =>
    cases i with
    | zero =>
      simp only [set_cons_zero,map_cons,sum_cons,getElem_cons_zero]
      ac_rfl
    | succ i =>
      have inside : i < rest.length := by simpa using bound
      simp only [set_cons_succ,map_cons,sum_cons,getElem_cons_succ]
      rw [add_assoc,ih i inside,add_assoc]

theorem mem_sum (families : List (Multiset β)) (value : β) :
    value ∈ families.sum ↔ ∃ family ∈ families, value ∈ family := by
  induction families with
  | nil => simp
  | cons head rest ih => simp [ih]

theorem card_sum (families : List (Multiset β)) : families.sum.card = (families.map Multiset.card).sum := by
  induction families with
  | nil => rfl
  | cons head rest ih => simp [ih]

end ValkeyWasm.Library.Occupancy
