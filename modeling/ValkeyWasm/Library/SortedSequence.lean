import Mathlib.Data.Finset.Card

/-! Strictly increasing finite sequences as sets.
A sequence is a function and a length; what it says beyond its length does not matter. -/
namespace ValkeyWasm.Library.SortedSequence
open Finset

variable {α : Type*}

def insertAt (f : Nat → α) (pos : Nat) (value : α) : Nat → α := fun i =>
  if i < pos then f i else if i = pos then value else f (i - 1)

def eraseAt (f : Nat → α) (pos : Nat) : Nat → α := fun i => if i < pos then f i else f (i + 1)

section Order
variable [LinearOrder α]

def Increasing (f : Nat → α) (n : Nat) : Prop := ∀ i j, i < j → j < n → f i < f j

def members (f : Nat → α) (n : Nat) : Finset α := (Finset.range n).image f

structure Place (f : Nat → α) (n pos : Nat) (value : α) : Prop where
  le : pos ≤ n
  below : ∀ i < pos, f i < value
  above : ∀ i, pos ≤ i → i < n → value < f i

variable {f : Nat → α} {n : Nat} {value : α}

theorem mem_members : value ∈ members f n ↔ ∃ i < n, f i = value := by
  simp [members]

theorem Increasing.congr {g : Nat → α} (increasing : Increasing f n) (same : ∀ i < n, g i = f i) : Increasing g n := by
  intro i j before inside
  rw [same i (by omega),same j inside]
  exact increasing i j before inside

theorem members_congr {g : Nat → α} (same : ∀ i < n, g i = f i) : members g n = members f n := by
  apply image_congr
  intro i inside
  exact same i (by simpa using inside)

theorem Increasing.le {i j : Nat} (increasing : Increasing f n) (order : i ≤ j) (inside : j < n) : f i ≤ f j := by
  rcases order.lt_or_eq with before | rfl
  · exact (increasing i j before inside).le
  · exact le_rfl

theorem Increasing.eq_of_eq {i j : Nat} (increasing : Increasing f n) (hi : i < n) (hj : j < n) (same : f i = f j) : i = j := by
  rcases lt_trichotomy i j with before | equal | after
  · exact absurd same (increasing i j before hj).ne
  · exact equal
  · exact absurd same (increasing j i after hi).ne'

theorem Increasing.card (increasing : Increasing f n) : (members f n).card = n := by
  rw [members,Finset.card_image_of_injOn,card_range]
  intro i hi j hj same
  exact increasing.eq_of_eq (by simpa using hi) (by simpa using hj) same

variable {pos : Nat}

theorem Place.not_mem (place : Place f n pos value) : value ∉ members f n := by
  rw [mem_members]
  rintro ⟨i,inside,same⟩
  rcases lt_or_ge i pos with before | after
  · exact (place.below i before).ne same
  · exact (place.above i after inside).ne' same

theorem Increasing.inserted (increasing : Increasing f n) (place : Place f n pos value) :
    Increasing (insertAt f pos value) (n + 1) := by
  intro i j before inside
  unfold insertAt
  rcases lt_trichotomy j pos with jlow | rfl | jhigh
  · rw [if_pos (by omega),if_pos jlow]
    exact increasing i j before (by have := place.le; omega)
  · rw [if_pos before,if_neg (by omega),if_pos rfl]
    exact place.below i before
  rw [if_neg (by omega : ¬ j < pos),if_neg (by omega : ¬ j = pos)]
  split
  · exact increasing i (j - 1) (by omega) (by omega)
  · split
    · exact place.above (j - 1) (by omega) (by omega)
    · exact increasing (i - 1) (j - 1) (by omega) (by omega)

theorem members_insertAt (value : α) (le : pos ≤ n) :
    members (insertAt f pos value) (n + 1) = insert value (members f n) := by
  ext x
  rw [mem_insert,mem_members,mem_members]
  unfold insertAt
  constructor
  · rintro ⟨i,inside,rfl⟩
    split
    · exact Or.inr ⟨i,by omega,rfl⟩
    · split
      · exact Or.inl rfl
      · exact Or.inr ⟨i - 1,by omega,rfl⟩
  · rintro (rfl | ⟨i,inside,rfl⟩)
    · exact ⟨pos,by omega,by rw [if_neg (by omega),if_pos rfl]⟩
    · rcases lt_or_ge i pos with before | after
      · exact ⟨i,by omega,by rw [if_pos before]⟩
      · exact ⟨i + 1,by omega,by rw [if_neg (by omega),if_neg (by omega),Nat.add_sub_cancel]⟩

theorem Increasing.erased (increasing : Increasing f n) (pos : Nat) : Increasing (eraseAt f pos) (n - 1) := by
  intro i j before inside
  unfold eraseAt
  split <;> split
  · exact increasing i j before (by omega)
  · exact increasing i (j + 1) (by omega) (by omega)
  · omega
  · exact increasing (i + 1) (j + 1) (by omega) (by omega)

theorem Increasing.members_erased (increasing : Increasing f n) (inside : pos < n) :
    members (eraseAt f pos) (n - 1) = (members f n).erase (f pos) := by
  ext x
  rw [mem_erase,mem_members,mem_members]
  unfold eraseAt
  constructor
  · rintro ⟨i,below,rfl⟩
    split
    · exact ⟨(increasing i pos (by omega) inside).ne,i,by omega,rfl⟩
    · exact ⟨(increasing pos (i + 1) (by omega) (by omega)).ne',i + 1,by omega,rfl⟩
  rintro ⟨other,i,below,rfl⟩
  have apart : i ≠ pos := fun same => other (by rw [same])
  rcases lt_or_gt_of_ne apart with before | after
  · exact ⟨i,by omega,by rw [if_pos before]⟩
  · exact ⟨i - 1,by omega,by rw [if_neg (by omega),Nat.sub_add_cancel (by omega)]⟩

end Order

end ValkeyWasm.Library.SortedSequence
