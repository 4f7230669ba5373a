import Mathlib.Data.List.AList
import Mathlib.Algebra.BigOperators.Group.List.Basic
import Mathlib.Algebra.Ring.Int.Parity

/-! What is found in a changed dictionary, and sums over the values of a dictionary. They depend on what is found under
each key only, not on the order in which the dictionary is walked. -/

namespace ValkeyWasm.Library.Dictionary
open Function List AList

variable {K V : Type}

def total (weight : V → Int) (dict : AList fun _ : K => V) : Int := (dict.entries.map fun entry => weight entry.2).sum

theorem total_empty (weight : V → Int) : total weight (∅ : AList fun _ : K => V) = 0 := rfl

variable [DecidableEq K] {dict other : AList fun _ : K => V} {key k : K} {value v : V}

theorem lookup_erase_some : (dict.erase key).lookup k = some v ↔ k ≠ key ∧ dict.lookup k = some v := by
  by_cases same : k = key
  · subst same
    simp
  · simp [same]

theorem lookup_insert_some : (dict.insert key value).lookup k = some v ↔ k = key ∧ value = v ∨ k ≠ key ∧ dict.lookup k = some v := by
  by_cases same : k = key
  · subst same
    simp
  · simp [same]

theorem update_some {f : K → Option V} {new : Option V} :
    update f key new k = some v ↔ k = key ∧ new = some v ∨ k ≠ key ∧ f k = some v := by
  by_cases same : k = key
  · subst same
    simp
  · simp [same]

theorem lookup_insert_new (absent : dict.lookup key = none) :
    (dict.insert key value).lookup k = some v ↔ k = key ∧ value = v ∨ dict.lookup k = some v := by
  rw [lookup_insert_some]
  refine or_congr_right (and_iff_right_of_imp ?_)
  rintro found rfl
  rw [absent] at found
  cases found

/-- A family of dictionaries of lists in which a key whose list has become empty is dropped. -/
theorem lookup_file {D : Type} [DecidableEq D] (dicts : D → AList fun _ : K => List V) (d d' : D) (l : List V) :
    (update dicts d (if l = [] then (dicts d).erase key else (dicts d).insert key l) d').lookup k =
      if d' = d ∧ k = key then (if l = [] then none else some l) else (dicts d').lookup k := by
  rcases eq_or_ne d' d with rfl | elsewhere
  · rw [update_self]
    by_cases same : k = key
    · subst same
      by_cases empty : l = [] <;> simp [empty]
    · by_cases empty : l = [] <;> simp [empty,same]
  · simp [elsewhere]

theorem total_congr (weight : V → Int) (same : ∀ key, dict.lookup key = other.lookup key) :
    total weight dict = total weight other := by
  have perm : dict.entries.Perm other.entries := by
    apply lookup_ext dict.nodupKeys other.nodupKeys
    intro key value
    change value ∈ dict.lookup key ↔ value ∈ other.lookup key
    rw [same key]
  exact (perm.map _).sum_eq

theorem total_insert (weight : V → Int) (absent : dict.lookup key = none) :
    total weight (dict.insert key value) = weight value + total weight dict := by
  rw [total,entries_insert_of_notMem (lookup_eq_none.mp absent),map_cons,sum_cons]
  rfl

theorem total_erase (weight : V → Int) (found : dict.lookup key = some value) :
    total weight dict = weight value + total weight (dict.erase key) := by
  rw [← total_insert weight (lookup_erase key dict)]
  apply total_congr
  intro other
  by_cases same : other = key
  · subst same
    rw [found,lookup_insert]
  · rw [lookup_insert_ne same,lookup_erase_ne same]

end ValkeyWasm.Library.Dictionary
