import Mathlib.Data.Finset.Card

/-! Counters that hold the number of things with a property. The property is changed at one place at a time, and the
counter with it. -/

namespace ValkeyWasm.Library.Counting
open Finset

/-- A counter holds the number of things with a property. -/
def Numbers {C : Type} (p : C → Prop) (n : Nat) : Prop := ∃ members : Finset C, (∀ c, c ∈ members ↔ p c) ∧ members.card = n

namespace Numbers
variable {C : Type} {p q : C → Prop} {n : Nat}

theorem congr (numbers : Numbers p n) (same : ∀ c, q c ↔ p c) : Numbers q n := by
  obtain ⟨members,member,card⟩ := numbers
  exact ⟨members,fun c => (member c).trans (same c).symm,card⟩

theorem keep (numbers : Numbers p n) {c : C} (own : q c ↔ p c) (others : ∀ c', c' ≠ c → (q c' ↔ p c')) : Numbers q n := by
  apply numbers.congr
  intro c'
  by_cases same : c' = c
  · rw [same]
    exact own
  · exact others c' same

variable [DecidableEq C]

theorem add (numbers : Numbers p n) {c : C} (outside : ¬p c) (inside : q c) (others : ∀ c', c' ≠ c → (q c' ↔ p c')) :
    Numbers q (n + 1) := by
  obtain ⟨members,member,card⟩ := numbers
  refine ⟨insert c members,?_,?_⟩
  · intro c'
    rw [mem_insert,member]
    by_cases same : c' = c
    · simp [same,inside]
    · simp [same,others c' same]
  · rw [card_insert_of_notMem (fun inside => outside ((member c).mp inside)),card]

theorem remove (numbers : Numbers p n) {c : C} (inside : p c) (outside : ¬q c) (others : ∀ c', c' ≠ c → (q c' ↔ p c')) :
    n ≠ 0 ∧ Numbers q (n - 1) := by
  obtain ⟨members,member,card⟩ := numbers
  have present : c ∈ members := (member c).mpr inside
  constructor
  · rw [← card]
    exact card_ne_zero_of_mem present
  refine ⟨members.erase c,?_,?_⟩
  · intro c'
    rw [mem_erase,member]
    by_cases same : c' = c
    · simp [same,outside]
    · simp [same,others c' same]
  · rw [card_erase_of_mem present,card]

omit [DecidableEq C] in
theorem unique {m : Nat} (first : Numbers p n) (second : Numbers p m) : n = m := by
  obtain ⟨members,member,rfl⟩ := first
  obtain ⟨others,other,rfl⟩ := second
  congr 1
  ext c
  rw [member,other]

omit [DecidableEq C] in
theorem none (C : Type) : Numbers (fun _ : C => False) 0 := ⟨∅,by simp,rfl⟩

end Numbers

end ValkeyWasm.Library.Counting
