import ValkeyWasm.Kvstore.Metrics
import Mathlib.Data.Int.ConditionallyCompleteOrder
import Mathlib.Data.Int.Interval

/-! The search for the hash table of a key, by descent in the binary indexed tree.
An importing hash table counts for nothing. -/
namespace ValkeyWasm.Kvstore
open Hashtable Library.Fenwick Finset Nat

section
variable {f : Nat → Int} {index : Nat → Int} {n : Nat} {target : Int} {bits r : Nat}

theorem sum_mono (nonneg : ∀ j, 0 ≤ f j) {i j : Nat} (le : i ≤ j) : ∑ k ∈ range i, f k ≤ ∑ k ∈ range j, f k :=
  sum_le_sum_of_subset_of_nonneg (range_mono le) fun k _ _ => nonneg k

theorem lt_of_sum_lt (nonneg : ∀ j, 0 ≤ f j) {i j : Nat} (less : ∑ k ∈ range i, f k < ∑ k ∈ range j, f k) : i < j := by
  by_contra not
  exact absurd (sum_mono nonneg (Nat.le_of_not_lt not)) (not_le_of_gt less)

variable (small : n < 2^32) (indexes : Indexes lowestBit n index f)
include small indexes

theorem index_block (aligned : 2^(bits + 1) ∣ r) (inside : r + 2^bits ≤ n) :
    index (r + 2^bits) = ∑ j ∈ range (r + 2^bits), f j - ∑ j ∈ range r, f j := by
  obtain ⟨m,rfl⟩ := aligned
  have positive : 0 < 2^(bits + 1) * m + 2^bits := Nat.add_pos_right _ (Nat.two_pow_pos bits)
  have lowest : lowestBit (2^(bits + 1) * m + 2^bits) = 2^bits :=
    (lowestBit_lowest _ positive (by omega)).unique ⟨bits,m,by ring,rfl⟩
  rw [indexes.sum_range positive inside,lowest,Nat.add_sub_cancel]
  ring

variable (nonneg : ∀ j, 0 ≤ f j) (total : target ≤ ∑ j ∈ range n, f j)
include nonneg total

/-- The target stays in the block of twice the length that starts at the result. -/
theorem descend_spec (whole : 2^bits ∣ n) (aligned : 2^(bits + 1) ∣ r) (inside : r < n) (above : ∑ j ∈ range r, f j < target)
    (below : target ≤ ∑ j ∈ range (r + 2^(bits + 1)), f j) :
    ∃ r', descend index (2^bits) (r,target - ∑ j ∈ range r, f j) = (r',target - ∑ j ∈ range r', f j) ∧ 2^bits ∣ r' ∧ r' < n ∧
      ∑ j ∈ range r', f j < target ∧ target ≤ ∑ j ∈ range (r' + 2^bits), f j := by
  have finer : 2^bits ∣ r := (pow_dvd_pow 2 (le_succ bits)).trans aligned
  have block := index_block small indexes aligned (add_le_of_dvd finer whole inside)
  unfold descend
  dsimp only
  split
  · have past : ∑ j ∈ range (r + 2^bits), f j < target := by omega
    refine ⟨r + 2^bits,by rw [block,sub_sub,add_sub_cancel],dvd_add finer dvd_rfl,lt_of_sum_lt nonneg (past.trans_le total),past,?_⟩
    rwa [add_assoc,← two_mul,mul_comm,← pow_succ]
  · exact ⟨r,rfl,finer,inside,above,by omega⟩

theorem searchIndex_spec (whole : 2^bits ∣ n) (aligned : 2^(bits + 1) ∣ r) (inside : r < n) (above : ∑ j ∈ range r, f j < target)
    (below : target ≤ ∑ j ∈ range (r + 2^(bits + 1)), f j) :
    ∃ i < n, (searchIndex index bits (r,target - ∑ j ∈ range r, f j)).1 = i ∧ ∑ j ∈ range i, f j < target ∧ target ≤ ∑ j ∈ range (i + 1), f j := by
  induction bits generalizing r with
  | zero =>
    obtain ⟨r',moved,-,inside',above',below'⟩ := descend_spec small indexes nonneg total whole aligned inside above below
    exact ⟨r',inside',congrArg Prod.fst moved,above',below'⟩
  | succ bits ih =>
    obtain ⟨r',moved,aligned',inside',above',below'⟩ := descend_spec small indexes nonneg total whole aligned inside above below
    rw [searchIndex,moved]
    exact ih ((pow_dvd_pow 2 (le_succ bits)).trans whole) aligned' inside' above' below'

end

variable {L : Layout} {b : Nat} {α κ : Type*} {ty : KvstoreType α κ} {kvs : Kvstore L b α}

def keysBefore (ty : KvstoreType α κ) (kvs : Kvstore L b α) (i : Nat) : Int :=
  ∑ j ∈ range i, values (fun didx => if kvs.isImporting ty didx then 0 else kvs.kvstoreHashtableSize didx) j

theorem keysBefore_mono (ty : KvstoreType α κ) (kvs : Kvstore L b α) {i j : Nat} (le : i ≤ j) : kvs.keysBefore ty i ≤ kvs.keysBefore ty j := sum_mono (values_nonneg _) le

/-- Hash table `i` adds to the sum. -/
theorem keysBefore_lt_iff {i : Fin (2^b)} :
    kvs.keysBefore ty i < kvs.keysBefore ty (i + 1) ↔ kvs.isImporting ty i = false ∧ kvs.kvstoreHashtableSize i ≠ 0 := by
  rw [keysBefore,keysBefore,sum_range_succ,values,dif_pos i.isLt]
  cases kvs.isImporting ty i <;> simp [pos_iff_ne_zero]

namespace Counts
variable (several : b ≠ 0) (counts : Counts ty kvs kvs.kvstoreHashtableSize (kvs.isImporting ty))
include several counts

theorem kvstoreSize_eq : kvs.kvstoreSize = kvs.keysBefore ty (2^b) := by
  rw [kvstoreSize,if_pos (plural_of several),counts.visible.keyCount,keysBefore,sum_range]
  simp [values]

variable (small : b ≤ 16)
include small

theorem find_spec {target : Int} (positive : 0 < target) (bound : target ≤ kvs.kvstoreSize) : ∃ i : Fin (2^b),
    kvs.kvstoreFindHashtableIndexByKeyIndex target = some (i : Int) ∧ kvs.keysBefore ty i < target ∧ target ≤ kvs.keysBefore ty (i + 1) := by
  have size := counts.kvstoreSize_eq several
  obtain ⟨i,inside,found,above,below⟩ := searchIndex_spec (r := 0) (word_of small) (counts.visible.index several) (values_nonneg _) (size ▸ bound)
    dvd_rfl (dvd_zero _) (Nat.two_pow_pos b) (by simpa using positive) ((size ▸ bound).trans (keysBefore_mono ty kvs (by rw [pow_succ]; omega)))
  rw [range_zero,sum_empty,sub_zero] at found
  refine ⟨⟨i,inside⟩,?_,above,below⟩
  rw [kvstoreFindHashtableIndexByKeyIndex,if_neg (plural_of several),if_neg (by omega),if_neg (by omega),found]

theorem fairRandom_iff {r : Int} (inside : 0 ≤ r ∧ r < kvs.kvstoreSize) (i : Fin (2^b)) :
    kvs.kvstoreGetFairRandomHashtableIndex r = some (i : Int) ↔ kvs.keysBefore ty i ≤ r ∧ r < kvs.keysBefore ty (i + 1) := by
  obtain ⟨j,found,above,below⟩ := counts.find_spec several small (show 0 < r + 1 by omega) (by omega)
  rw [kvstoreGetFairRandomHashtableIndex,if_neg (by omega),Int.emod_eq_of_lt inside.1 inside.2,found,Option.some.injEq]
  constructor
  · intro same
    obtain rfl : j = i := by omega
    omega
  · intro between
    have left := lt_of_sum_lt (values_nonneg _) (above.trans_le between.2)
    have right := lt_of_sum_lt (values_nonneg _) ((Int.lt_add_one_of_le between.1).trans_le below)
    omega

end Counts

/-- The hash table of a key, and the next hash table that has one. -/
theorem kvstore_search (several : b ≠ 0) (small : b ≤ 16) (counts : Counts ty kvs kvs.kvstoreHashtableSize (kvs.isImporting ty)) :
    (∀ target : Int, 0 < target → target ≤ kvs.kvstoreSize → ∃ i : Fin (2^b), kvs.kvstoreFindHashtableIndexByKeyIndex target = some (i : Int) ∧
      (∀ j : Nat, kvs.keysBefore ty j < target ∧ target ≤ kvs.keysBefore ty (j + 1) ↔ j = i) ∧
      kvs.isImporting ty i = false ∧ kvs.kvstoreHashtableSize i ≠ 0) ∧
    ∀ didx : Fin (2^b),
      (∃ i : Fin (2^b), kvs.kvstoreGetNextNonEmptyHashtableIndex didx = some (i : Int) ∧
        IsLeast {j | didx < j ∧ kvs.isImporting ty j = false ∧ kvs.kvstoreHashtableSize j ≠ 0} i) ∨
      kvs.kvstoreGetNextNonEmptyHashtableIndex didx = some (-1) ∧
        ∀ j, didx < j → ¬(kvs.isImporting ty j = false ∧ kvs.kvstoreHashtableSize j ≠ 0) := by
  constructor
  · intro target positive bound
    obtain ⟨i,found,above,below⟩ := counts.find_spec several small positive bound
    refine ⟨i,found,fun j => ⟨fun both => ?_,?_⟩,keysBefore_lt_iff.mp (above.trans_le below)⟩
    · have left := lt_of_sum_lt (values_nonneg _) (both.1.trans_le below)
      have right := lt_of_sum_lt (values_nonneg _) (above.trans_le both.2)
      omega
    · rintro rfl
      exact ⟨above,below⟩
  · intro didx
    have read : kvs.cumulativeKeyCountRead didx = kvs.keysBefore ty (didx + 1) := counts.cumulativeKeyCountRead_values small several didx
    rw [kvstoreGetNextNonEmptyHashtableIndex,if_neg (plural_of several),read]
    dsimp only
    split
    · rename_i more
      have nonneg : 0 ≤ kvs.keysBefore ty (didx + 1) := sum_nonneg fun j _ => values_nonneg _ j
      obtain ⟨i,found,above,below⟩ := counts.find_spec several small (by omega) more
      have after := lt_of_sum_lt (values_nonneg _) (Int.lt_of_add_one_le below)
      refine .inl ⟨i,found,⟨by omega,keysBefore_lt_iff.mp (above.trans_le below)⟩,?_⟩
      rintro j ⟨past,filled⟩
      by_contra before
      have grows := keysBefore_lt_iff.mpr filled
      have low := keysBefore_mono ty kvs (show didx.val + 1 ≤ j by omega)
      have high := keysBefore_mono ty kvs (show j.val + 1 ≤ i by omega)
      omega
    · rename_i none_
      rw [counts.kvstoreSize_eq several] at none_
      refine .inr ⟨rfl,fun j past filled => none_ ?_⟩
      have grows := keysBefore_lt_iff.mpr filled
      have low := keysBefore_mono ty kvs (show didx.val + 1 ≤ j by omega)
      have high := keysBefore_mono ty kvs (show j.val + 1 ≤ 2^b by omega)
      omega

/-- Of the residues of the random number, each hash table is chosen by as many as it has keys. -/
theorem fairRandom_fair [Inhabited α] [DecidableEq κ] (several : b ≠ 0) (small : b ≤ 16) (reachable : Reachable ty kvs) (i : Fin (2^b)) :
    ((Ico 0 kvs.kvstoreSize).filter fun r => kvs.kvstoreGetFairRandomHashtableIndex r = some (i : Int)).card =
      if kvs.isImporting ty i then 0 else kvs.kvstoreHashtableSize i := by
  have counts := (reachable_sound reachable).counts_isImporting
  have size := counts.kvstoreSize_eq several
  have low : 0 ≤ kvs.keysBefore ty i := keysBefore_mono ty kvs (Nat.zero_le i)
  have high := keysBefore_mono ty kvs (show i.val + 1 ≤ 2^b by omega)
  trans (Ico (kvs.keysBefore ty i) (kvs.keysBefore ty (i + 1))).card
  · congr 1
    ext r
    rw [mem_filter,mem_Ico,mem_Ico]
    constructor
    · rintro ⟨inside,chosen⟩
      exact (counts.fairRandom_iff several small inside i).mp chosen
    · intro between
      have inside : 0 ≤ r ∧ r < kvs.kvstoreSize := by omega
      exact ⟨inside,(counts.fairRandom_iff several small inside i).mpr between⟩
  · rw [Int.card_Ico,keysBefore,keysBefore,sum_range_succ,values,dif_pos i.isLt,add_sub_cancel_left]
    rfl

theorem fairRandom_fair_importingScript : ∃ kvs, runFrom ⟨true,true⟩ importingScript = some kvs ∧
    ((Ico 0 kvs.kvstoreSize).filter fun r => kvs.kvstoreGetFairRandomHashtableIndex r = some 0).card =
      if kvs.isImporting identityKvstoreType 0 then 0 else kvs.kvstoreHashtableSize 0 := by
  have runs : (runFrom ⟨true,true⟩ importingScript).isSome := by decide +kernel
  obtain ⟨kvs,ran⟩ := Option.isSome_iff_exists.mp runs
  exact ⟨kvs,ran,fairRandom_fair (by decide) (by decide) (runFrom_reachable ran) 0⟩

theorem kvstore_search_importingScript : ∃ kvs, runFrom ⟨true,true⟩ importingScript = some kvs ∧
    ∃ i : Fin (2^1), kvs.kvstoreFindHashtableIndexByKeyIndex 1 = some (i : Int) ∧ kvs.kvstoreHashtableSize i ≠ 0 := by
  have counters : (runFrom ⟨true,true⟩ importingScript).map (·.kvstoreSize) = some 1 := by decide +kernel
  obtain ⟨kvs,ran,one⟩ := Option.map_eq_some_iff.mp counters
  have sound := reachable_sound (runFrom_reachable ran)
  obtain ⟨i,found,-,-,filled⟩ := (kvstore_search (by decide) (by decide) sound.counts_isImporting).1 1 (by decide) one.ge
  exact ⟨kvs,ran,i,found,filled⟩

end ValkeyWasm.Kvstore
