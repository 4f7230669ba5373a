import ValkeyWasm.Intset.Intset
import ValkeyWasm.Library.SortedSequence
import Mathlib.Tactic.NormNum

/-! What the operations of an intset do to the values at its positions. -/
namespace ValkeyWasm.Intset
open Library.Memory Library.SortedSequence Nat Int
open Hashtable (Layout)

theorem Encoding.bytes_pos (enc : Encoding) : 0 < enc.bytes := by
  cases enc <;> decide

variable {v : Int}

theorem fits_int16 : Fits 2 v ↔ -2^15 ≤ v ∧ v ≤ 2^15 - 1 := by
  norm_num [Fits]
  omega

theorem fits_int32 : Fits 4 v ↔ -2^31 ≤ v ∧ v ≤ 2^31 - 1 := by
  norm_num [Fits]
  omega

theorem fits_int64 : Fits 8 v ↔ -2^63 ≤ v ∧ v ≤ 2^63 - 1 := by
  norm_num [Fits]
  omega

theorem fits_mono {narrow wide : Encoding} (le : narrow.bytes ≤ wide.bytes) (fits : Fits narrow.bytes v) : Fits wide.bytes v := by
  have grows : 256^narrow.bytes / 2 ≤ 256^wide.bytes / 2 := Nat.div_le_div_right (Nat.pow_le_pow_right (by decide) le)
  obtain ⟨low,high⟩ := fits
  constructor <;> omega

variable {enc : Encoding}

theorem valueEncoding_le_iff (word : Fits 8 v) : (intsetValueEncoding v).bytes ≤ enc.bytes ↔ Fits enc.bytes v := by
  unfold intsetValueEncoding
  cases enc with
  | int16 =>
    refine Iff.trans ?_ fits_int16.symm
    split_ifs <;> simp only [Encoding.bytes] <;> omega
  | int32 =>
    refine Iff.trans ?_ fits_int32.symm
    split_ifs <;> simp only [Encoding.bytes] <;> omega
  | int64 =>
    refine iff_of_true ?_ word
    split_ifs <;> decide

theorem outside_of_narrow (word : Fits 8 v) (narrow : enc.bytes < (intsetValueEncoding v).bytes) {u : Int}
    (fits : Fits enc.bytes u) : if v < 0 then v < u else u < v := by
  have misfit := mt (valueEncoding_le_iff word).mpr narrow.not_ge
  unfold Fits at misfit fits
  split <;> omega

theorem fits_getEncoded (is : Intset) (pos : Nat) (enc : Encoding) : Fits enc.bytes (is.intsetGetEncoded pos enc) :=
  fits_signed enc.bytes_pos _

variable {is : Intset} {pos : Nat}

theorem getEncoded_congr {other : Intset} {at_ : Nat}
    (same : ∀ i < enc.bytes, is.contents (pos * enc.bytes + i) = other.contents (at_ * enc.bytes + i)) :
    is.intsetGetEncoded pos enc = other.intsetGetEncoded at_ enc := by
  unfold intsetGetEncoded
  rw [readLE_congr same]

variable {value : Int}

theorem getAt_set_self (fits : Fits is.encoding.bytes value) (pos : Nat) :
    (is.intsetSet pos value).intsetGetAt pos = value := by
  unfold intsetGetAt intsetGetEncoded intsetSet
  rw [readLE_writeLE]
  exact signed_unsigned is.encoding.bytes_pos fits

theorem getAt_set_of_ne {i : Nat} (value : Int) (other : i ≠ pos) :
    (is.intsetSet pos value).intsetGetAt i = is.intsetGetAt i := by
  unfold intsetGetAt intsetGetEncoded intsetSet
  rw [readLE_writeLE_disjoint]
  rcases lt_or_gt_of_ne other with before | after
  · exact Or.inl (cell_le before _)
  · exact Or.inr (cell_le after _)

structure Resized (is next : Intset) (len : Nat) : Prop where
  encoding : next.encoding = is.encoding
  length : next.length = is.length
  allocated : next.allocated = len * is.encoding.bytes
  kept : ∀ i < is.allocated, i < len * is.encoding.bytes → next.contents i = is.contents i

theorem resize_spec {L : Layout} {fresh : Bytes} {next : Intset} {len : Nat} (resized : is.intsetResize L fresh len = some next) :
    Resized is next len := by
  unfold intsetResize at resized
  dsimp only at resized
  split at resized
  · cases resized
    refine ⟨rfl,rfl,rfl,?_⟩
    intro i old inside
    exact if_pos (by omega)
  · cases resized

theorem resize_returns (fresh : Bytes) (is : Intset) {len : Nat} (short : len ≤ 2^32) : ∃ next, is.intsetResize .bits64 fresh len = some next := by
  refine ⟨_,if_pos ?_⟩
  have wide : is.encoding.bytes ≤ 8 := by cases is.encoding <;> decide
  calc len * is.encoding.bytes ≤ 2^32 * 8 := Nat.mul_le_mul short wide
    _ ≤ 2^Layout.bits64.sizeBits - 1 - headerSize := by decide

structure Valid (is : Intset) : Prop where
  increasing : Increasing is.intsetGetAt is.length
  allocated : is.allocated = is.length * is.encoding.bytes
  bounded : is.length ≤ 2^30

def elements (is : Intset) : Finset Int := members is.intsetGetAt is.length

theorem Valid.card (valid : Valid is) : is.elements.card = is.length := valid.increasing.card

theorem intsetNew_valid (fresh : Bytes) : Valid (intsetNew fresh) :=
  ⟨fun _ _ _ inside => absurd inside (not_lt_zero _),rfl,zero_le _⟩

/-- Where the search ends: at the value, or with everything smaller before `min` and everything
larger from it on. -/
def Ended (is : Intset) (value : Int) (result : Int × Int × Int) : Prop :=
  (result.2.2 = value ∧ ∃ k < is.length, result.2.1 = k ∧ is.intsetGetAt k = value) ∨
  (result.2.2 ≠ value ∧ ∃ k : Nat, result.1 = k ∧ Place is.intsetGetAt is.length k value)

theorem searchLoop_ended (valid : Valid is) (value : Int) (rounds : Nat) (min max mid cur : Int)
    (enough : max - min + 1 < rounds) (low : 0 ≤ min) (order : min ≤ max + 1) (high : max < is.length)
    (below : ∀ i : Nat, i < min → is.intsetGetAt i < value) (above : ∀ i : Nat, max < i → i < is.length → value < is.intsetGetAt i)
    (started : min ≤ max ∨ cur ≠ value) : Ended is value (is.searchLoop value rounds min max mid cur) := by
  have bounded := valid.bounded
  induction rounds generalizing min max mid cur with
  | zero => omega
  | succ rounds ih =>
    rw [searchLoop]
    split
    · rename_i inside
      obtain ⟨lower,hl⟩ := eq_ofNat_of_zero_le low
      obtain ⟨upper,hu⟩ := eq_ofNat_of_zero_le (low.trans inside)
      subst hl hu
      have middle : ((lower : Int) + upper) % 2^32 / 2 = ((lower + upper) / 2 : Nat) := by omega
      dsimp only
      rw [middle,toNat_natCast]
      split
      · rename_i larger
        refine ih _ _ _ _ (by omega) (by omega) (by omega) high ?_ above (Or.inr larger.ne)
        exact fun i before => (valid.increasing.le (by omega) (by omega)).trans_lt larger
      · split
        · rename_i smaller
          refine ih _ _ _ _ (by omega) (by omega) (by omega) (by omega) below ?_ (Or.inr smaller.ne')
          exact fun i after within => smaller.trans_le (valid.increasing.le (by omega) within)
        · exact Or.inl ⟨by dsimp only; omega,(lower + upper) / 2,by omega,rfl,by omega⟩
    · obtain ⟨lower,hl⟩ := eq_ofNat_of_zero_le low
      subst hl
      refine Or.inr ⟨started.resolve_left (by omega),lower,rfl,by omega,fun i before => below i (by omega),?_⟩
      intro i after within
      exact above i (by omega) within

theorem search_spec (valid : Valid is) (value : Int) :
    match is.intsetSearch value with
    | (true,pos) => pos < is.length ∧ is.intsetGetAt pos = value
    | (false,pos) => Place is.intsetGetAt is.length pos value := by
  have bounded := valid.bounded
  unfold intsetSearch
  by_cases empty : is.length = 0
  · rw [if_pos empty]
    exact ⟨zero_le _,fun i before => absurd before (not_lt_zero i),fun i _ inside => absurd inside (by omega)⟩
  have last : Int.bmod (is.length - 1) (2^32) = (is.length - 1 : Nat) := by
    rw [bmod_eq_of_le (by omega) (by omega)]
    omega
  rw [if_neg empty,last,toNat_natCast]
  by_cases larger : value > is.intsetGetAt (is.length - 1)
  · rw [if_pos larger]
    refine ⟨le_rfl,?_,fun i from_ inside => absurd inside (by omega)⟩
    exact fun i before => (valid.increasing.le (by omega) (by omega)).trans_lt larger
  rw [if_neg larger]
  by_cases smaller : value < is.intsetGetAt 0
  · rw [if_pos smaller]
    refine ⟨zero_le _,fun i before => absurd before (not_lt_zero i),?_⟩
    exact fun i _ inside => smaller.trans_le (valid.increasing.le (zero_le i) inside)
  rw [if_neg smaller]
  have ended := searchLoop_ended valid value (is.length + 1) 0 (is.length - 1 : Nat) (-1) (-1) (by omega) le_rfl (by omega) (by omega)
    (fun i before => by omega) (fun i after inside => by omega) (Or.inl (by omega))
  generalize is.searchLoop value (is.length + 1) 0 (is.length - 1 : Nat) (-1) (-1) = result at ended
  obtain ⟨min,mid,cur⟩ := result
  dsimp only
  rcases ended with ⟨found,k,inside,at_,same⟩ | ⟨missed,k,at_,place⟩
  · subst at_
    rw [if_pos found.symm]
    exact ⟨inside,same⟩
  subst at_
  rw [if_neg missed.symm]
  exact place

theorem search_true (valid : Valid is) (found : is.intsetSearch value = (true,pos)) :
    pos < is.length ∧ is.intsetGetAt pos = value := by
  have spec := search_spec valid value
  rwa [found] at spec

theorem search_false (valid : Valid is) (missed : is.intsetSearch value = (false,pos)) :
    Place is.intsetGetAt is.length pos value := by
  have spec := search_spec valid value
  rwa [missed] at spec

theorem mem_of_found (valid : Valid is) (found : is.intsetSearch value = (true,pos)) : value ∈ is.elements := by
  obtain ⟨inside,same⟩ := search_true valid found
  exact mem_members.mpr ⟨pos,inside,same⟩

theorem not_mem_of_narrow (word : Fits 8 value) (narrow : is.encoding.bytes < (intsetValueEncoding value).bytes) :
    value ∉ is.elements := by
  intro member
  obtain ⟨i,-,same⟩ := mem_members.mp member
  have apart := outside_of_narrow word narrow (fits_getEncoded is i is.encoding)
  change is.intsetGetEncoded i is.encoding = value at same
  split at apart <;> omega

theorem find_spec (valid : Valid is) (word : Fits 8 value) : is.intsetFind value = true ↔ value ∈ is.elements := by
  unfold intsetFind
  rw [Bool.and_eq_true,decide_eq_true_iff]
  constructor
  · rintro ⟨-,found⟩
    exact mem_of_found valid (Prod.ext found rfl)
  intro member
  constructor
  · by_contra narrow
    exact not_mem_of_narrow word (Nat.lt_of_not_le narrow) member
  · by_contra missed
    exact (search_false valid (Prod.ext (Bool.not_eq_true _ ▸ missed) rfl)).not_mem member

end ValkeyWasm.Intset
