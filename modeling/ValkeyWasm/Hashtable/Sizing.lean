import ValkeyWasm.Hashtable.Resize

/-! The arithmetic of resizing: the size that `resize` chooses, and the comparisons that call it.
Both multiply in `size_t`. -/
namespace ValkeyWasm.Hashtable

variable {L : Layout} {α κ : Type*}

/-- A number of buckets for `minCapacity` entries: it holds them within the fill bound, half of it does not, and its
size in bytes is a `size_t`. -/
structure Layout.Sized (L : Layout) (minCapacity buckets : Nat) : Prop where
  holds : minCapacity ≤ buckets * L.entriesPerBucket
  fill : minCapacity * L.bucketFactor ≤ buckets * Layout.bucketDivisor
  bytes : buckets * bucketSize < 2^L.sizeBits
  least : buckets = 1 ∨ buckets / 2 * Layout.bucketDivisor < minCapacity * L.bucketFactor

theorem nextBucketExp_fill {minCapacity e : Nat} (positive : 0 < minCapacity) (below : minCapacity * L.bucketFactor < 2^L.sizeBits)
    (small : (e : Int) + 6 < L.sizeBits) (chosen : nextBucketExp L minCapacity = e) :
    minCapacity * L.bucketFactor ≤ 2^e * 32 ∧ (e = 0 ∨ 2^(e - 1) * 32 < minCapacity * L.bucketFactor) := by
  have some' : 0 < minCapacity * L.bucketFactor := Nat.mul_pos positive (by cases L <;> decide)
  rw [nextBucketExp,if_neg (by omega)] at chosen
  generalize minCapacity * L.bucketFactor = product at *
  have unwrapped : L.wrap (L.wrap (product + 2^L.sizeBits - 1) / Layout.bucketDivisor + 1) = (product - 1) / 32 + 1 := by
    rw [show product + 2^L.sizeBits - 1 = product - 1 + 2^L.sizeBits by omega,Layout.wrap,Layout.wrap,Layout.bucketDivisor,
      Nat.add_mod_right,Nat.mod_eq_of_lt (show product - 1 < _ by omega),Nat.mod_eq_of_lt (by omega)]
  dsimp only at chosen
  rw [unwrapped] at chosen
  split at chosen
  · omega
  split at chosen
  · obtain rfl : e = 0 := by omega
    exact ⟨by omega,.inl rfl⟩
  obtain rfl : e = Nat.log2 ((product - 1) / 32) + 1 := by rw [Nat.add_sub_cancel] at chosen; omega
  have low := Nat.log2_self_le (n := (product - 1) / 32) (by omega)
  have high := Nat.lt_log2_self (n := (product - 1) / 32)
  rw [Nat.add_sub_cancel]
  omega

theorem nextBucketExp_sized {minCapacity : Nat} (positive : 0 < minCapacity)
    (fits : resizeOverflows L minCapacity (nextBucketExp L minCapacity) = false) :
    ∃ e : Nat, nextBucketExp L minCapacity = e ∧ L.Sized minCapacity (numBuckets e) := by
  obtain ⟨e,chosen⟩ := Int.eq_ofNat_of_zero_le (nextBucketExp_nonneg L minCapacity positive)
  rw [chosen] at fits
  have small := exp_bound_of_resizeOverflows L (Int.natCast_nonneg e) fits
  have buckets : numBuckets (e : Int) = 2^e := by rw [numBuckets_eq _ (by omega),Int.toNat_natCast]
  have bound : 2^e ≤ 2^(L.sizeBits - 7) := Nat.pow_le_pow_right (by decide) (by omega)
  simp only [resizeOverflows,Bool.or_eq_false_iff,decide_eq_false_iff_not,not_lt] at fits
  have holds := fits.1.trans (Nat.mod_le _ _)
  -- what `resize` accepts is too small for the product with the factor to wrap
  have below : minCapacity * L.bucketFactor < 2^L.sizeBits ∧ 2^e * bucketSize < 2^L.sizeBits := by
    cases L <;> simp only [Layout.sizeBits,Layout.entriesPerBucket,Layout.bucketFactor,bucketSize] at * <;> omega
  obtain ⟨fill,least⟩ := nextBucketExp_fill positive below.1 small chosen
  refine ⟨e,chosen,buckets ▸ ⟨holds,fill,below.2,?_⟩⟩
  rcases least with rfl | more
  · exact .inl rfl
  cases e with
  | zero => exact .inl rfl
  | succ e =>
    rw [pow_succ,Nat.mul_div_cancel _ (by decide)]
    exact .inr more

theorem resize_sized [Inhabited α] (ty : HashtableType α κ) (env : Env) (canFail : Bool) (requested : Nat) (ht : Hashtable L α) :
    ht.resize ty env canFail requested = ⟨ht,false,false⟩ ∨
    ∃ e : Nat, nextBucketExp L (max requested 1) = e ∧ L.Sized (max requested 1) (numBuckets e) ∧
      (ht.resize ty env canFail requested = ⟨ht.startRehashing ty e,true,false⟩ ∨ ht.resize ty env canFail requested = ⟨ht,false,true⟩) := by
  have adjusted : (if requested = 0 then 1 else requested) = max requested 1 := by split <;> omega
  simp only [resize,adjusted]
  by_cases overflows : resizeOverflows L (max requested 1) (nextBucketExp L (max requested 1)) = true
  · rw [if_pos overflows]
    exact .inl rfl
  obtain ⟨e,chosen,sized⟩ := nextBucketExp_sized (by omega) (Bool.eq_false_iff.mpr overflows)
  rw [if_neg overflows,chosen]
  split
  · exact .inl rfl
  split
  · exact .inl rfl
  split
  · exact .inl rfl
  split
  · exact .inr ⟨e,rfl,sized,.inr rfl⟩
  · exact .inr ⟨e,rfl,sized,.inl rfl⟩

/-! ## The checks -/

section Checks
variable [Inhabited α] (ty : HashtableType α κ) (env : Env) (ht : Hashtable L α)

end Checks

end ValkeyWasm.Hashtable
