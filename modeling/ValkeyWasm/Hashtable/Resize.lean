import ValkeyWasm.Hashtable.Rehash

/-! Resizing, aborted shrinks and the fill checks that trigger them.
All of them rearrange the table; in addition the check before an insertion always
leaves a table to insert into. -/
namespace ValkeyWasm.Hashtable
open List Option

variable {L : Layout} {α κ : Type*}

theorem nextBucketExp_nonneg (L : Layout) (minCapacity : Nat) (positive : 0 < minCapacity) :
    0 ≤ nextBucketExp L minCapacity := by
  unfold nextBucketExp
  rw [if_neg (by omega)]
  dsimp only
  split
  · cases L <;> simp [Layout.sizeBits]
  · split
    · exact le_refl 0
    · omega

theorem exp_bound_of_resizeOverflows (L : Layout) {minCapacity : Nat} {exp : Int} (low : 0 ≤ exp)
    (fits : resizeOverflows L minCapacity exp = false) : exp + 6 < L.sizeBits := by
  by_contra large
  obtain ⟨e,rfl⟩ := Int.eq_ofNat_of_zero_le low
  have bytes : numBuckets e * bucketSize = 2^L.sizeBits * 2^(e + 6 - L.sizeBits) := by
    rw [numBuckets_eq _ (by omega),bucketSize,Int.toNat_natCast,← pow_add,
      show (64 : Nat) = 2^6 by decide,← pow_add]
    congr 1
    omega
  have zero : L.wrap (numBuckets e * bucketSize) = 0 := by
    rw [bytes,Layout.wrap,Nat.mul_mod_right]
  have positive := numBuckets_pos (e : Int) (by omega)
  simp only [resizeOverflows,zero,Bool.or_eq_false_iff,decide_eq_false_iff_not] at fits
  exact fits.2 positive

variable {ht : Hashtable L α}

theorem rehashIdx_eq_none (idle : ht.isRehashing = false) : ht.rehashIdx = none := by
  simpa [isRehashing] using idle

variable {ty : HashtableType α κ}

theorem abortShrinkIfNeeded_rearranged (wf : ht.WF ty) (env : Env) :
    Reshaped ty ht (ht.abortShrinkIfNeeded env).1 := by
  unfold abortShrinkIfNeeded
  split
  · rename_i aborts
    simp only [abortsShrink,Bool.and_eq_true] at aborts
    obtain ⟨⟨⟨⟨_,running⟩,_⟩,_⟩,_⟩ := aborts
    obtain ⟨idx,equal⟩ := isSome_iff_exists.mp running
    obtain ⟨_,allocated,apart,_⟩ := wf.running idx equal
    have same : ht.table1.slots + ht.table0.slots = ht.slots := add_comm _ _
    have distinct := wf.distinct
    rw [← same] at distinct
    have traced : Leads ht.shape [.aborted (numBuckets ht.table0.bucketExp) (numBuckets ht.table1.bucketExp)]
        ⟨numBuckets ht.table1.bucketExp,numBuckets ht.table0.bucketExp,true⟩ := by
      rw [shape,running]
      exact .aborted _ _ _ _ (.nil _)
    refine ⟨⟨⟨wf.second,wf.first,by simp,?_,distinct,wf.owned.second,wf.owned.first,
      fun _ => (wf.owned.apart (by simp [equal])).symm⟩,same,fun _ => allocated,rfl,rfl,rfl⟩,_,rfl,traced⟩
    intro r restarted
    obtain rfl : 0 = r := by simpa using restarted
    refine ⟨numBuckets_pos _ allocated,?_,Ne.symm apart,fun index c early => by omega⟩
    exact allocated_of_numBuckets_pos (lt_of_le_of_lt (Nat.zero_le _) (wf.running idx equal).1)
  · exact .refl wf

theorem Table.WF.buckets_nil {table : Table L α} (wf : table.WF ty) (null : table.bucketExp = -1) : table.buckets = [] := by
  have length := wf.length
  rwa [null,numBuckets,if_pos rfl,length_eq_zero_iff] at length

theorem WF.idle_of_null (wf : ht.WF ty) (null : ht.table0.bucketExp = -1) : ht.rehashIdx = none := by
  cases running : ht.rehashIdx with
  | none => rfl
  | some idx =>
    have inside := (wf.running idx running).1
    simp [null,numBuckets] at inside

theorem Table.slots_of_null {table : Table L α} (null : table.buckets.isEmpty = true) : table.slots = 0 := by
  rw [List.isEmpty_iff] at null
  simp [Table.slots,null]

section Resizing
variable [Inhabited α]

theorem Chain.empty_slots : (Chain.empty : Chain L α).slots = 0 := Bucket.slots_zeroed

theorem Table.alloc_slots (exp : Int) (address : Nat) : (Table.alloc exp address : Table L α).slots = 0 := by
  simp [Table.slots,Table.alloc,Chain.empty_slots]

theorem Table.alloc_wf (ty : HashtableType α κ) {exp : Int} (address : Nat) (low : 0 ≤ exp) (high : exp + 6 < L.sizeBits) :
    (Table.alloc exp address : Table L α).WF ty where
  expLow := by simp only [Table.alloc]; omega
  expHigh := high
  length := by simp [Table.alloc]
  used := by rw [Table.alloc_slots]; rfl
  children := by simp [Table.alloc,Table.childTotal,Chain.empty,Chain.childCount]
  links := by
    intro c member
    rw [eq_of_mem_replicate member]
    trivial
  placed := by
    intro index c located s inside
    have member := mem_of_getElem? located
    rw [eq_of_mem_replicate member,Chain.empty_slots] at inside
    simp at inside

theorem startRehashing_spec (wf : ht.WF ty) (idle : ht.rehashIdx = none)
    {exp : Int} (low : 0 ≤ exp) (high : exp + 6 < L.sizeBits) (apart : exp ≠ ht.table0.bucketExp) :
    Reshaped ty ht (ht.startRehashing ty exp) ∧ (ht.startRehashing ty exp).table0.bucketExp ≠ -1 := by
  have second := wf.idle idle
  have fresh : {(Table.alloc exp ht.nextAddress : Table L α) with childBuckets := ht.table1.childBuckets} = Table.alloc exp ht.nextAddress := by
    rw [second]
    rfl
  have allocWf : (Table.alloc exp ht.nextAddress : Table L α).WF ty := Table.alloc_wf ty _ low high
  have held : ht.slots = ht.table0.slots := by
    rw [slots,second]
    simp [Table.slots,Table.reset]
  have nonnull : exp ≠ -1 := by omega
  have begun : Traced ht ({ht with table1 := Table.alloc exp ht.nextAddress, rehashIdx := some 0, nextAddress := ht.nextAddress + 1} : Hashtable L α).rehashingStarted := by
    refine ⟨[.started (numBuckets ht.table0.bucketExp) (numBuckets exp)],rfl,?_⟩
    simp only [shape,isRehashing,idle,second]
    exact .started _ _ _ _ (.nil _)
  unfold startRehashing
  simp only [fresh]
  split
  · rename_i drained
    have nothing : ht.table0.slots = 0 := by
      simp only [Bool.or_eq_true,Bool.and_eq_true,beq_iff_eq] at drained
      rcases drained with null | ⟨unused,_⟩
      · exact Table.slots_of_null null
      · rw [← Multiset.card_eq_zero,← wf.first.used]
        exact unused
    have same : (Table.alloc exp ht.nextAddress : Table L α).slots + (Table.reset : Table L α).slots = ht.slots := by
      rw [held,nothing,Table.alloc_slots]
      simp [Table.slots,Table.reset]
    have distinct := wf.distinct
    rw [← same] at distinct
    exact ⟨⟨⟨⟨allocWf,Table.reset_wf ty,fun _ => rfl,by simp [rehashingCompleted],distinct,
      ⟨fun _ => Nat.lt_succ_self _,by simp [rehashingCompleted,Table.reset],by simp [rehashingCompleted]⟩⟩,same,
      fun _ => nonnull,rfl,rfl,rfl⟩,begun.trans (rehashingCompleted_traced _ rfl)⟩,nonnull⟩
  · rename_i loaded
    have allocated : ht.table0.bucketExp ≠ -1 := by
      intro absent
      simp [rehashingStarted,wf.first.buckets_nil absent] at loaded
    have same : ht.table0.slots + (Table.alloc exp ht.nextAddress : Table L α).slots = ht.slots := by
      rw [held,Table.alloc_slots,add_zero]
    have distinct := wf.distinct
    rw [← same] at distinct
    have started : Reshaped ty ht ({ht with table1 := Table.alloc exp ht.nextAddress, rehashIdx := some 0, nextAddress := ht.nextAddress + 1} : Hashtable L α).rehashingStarted := by
      have older := wf.owned.first allocated
      refine ⟨⟨⟨wf.first,allocWf,by simp [rehashingStarted],?_,distinct,
        ⟨fun _ => Nat.lt_succ_of_lt older,fun _ => Nat.lt_succ_self _,fun _ => Nat.ne_of_lt older⟩⟩,same,id,rfl,rfl,rfl⟩,begun⟩
      intro r equal
      obtain rfl : 0 = r := by simpa [rehashingStarted] using equal
      refine ⟨numBuckets_pos _ allocated,nonnull,fun equal => apart equal.symm,?_⟩
      intro index c early
      omega
    split
    · have finished := started.trans (rehashAll_rearranged (numBuckets ht.table0.bucketExp) started.wf)
      exact ⟨finished,finished.allocated allocated⟩
    · exact ⟨started,allocated⟩

theorem resize_cases (ty : HashtableType α κ) (env : Env) (canFail : Bool) (requested : Nat) (ht : Hashtable L α) :
    ((ht.resize ty env canFail requested).hashtable = ht ∧ (ht.resize ty env canFail requested).resized = false) ∨
      ∃ exp : Int, 0 ≤ exp ∧ exp + 6 < L.sizeBits ∧ exp ≠ ht.table0.bucketExp ∧
        ht.resize ty env canFail requested = ⟨ht.startRehashing ty exp,true,false⟩ := by
  have low := nextBucketExp_nonneg L (if requested = 0 then 1 else requested) (by split <;> omega)
  unfold resize
  dsimp only
  generalize (if requested = 0 then 1 else requested) = minCapacity at low ⊢
  split
  · exact Or.inl ⟨rfl,rfl⟩
  rename_i fits
  have high := exp_bound_of_resizeOverflows L low (by simpa using fits)
  split
  · exact Or.inl ⟨rfl,rfl⟩
  rename_i apart
  repeat' split
  all_goals first | exact Or.inl ⟨rfl,rfl⟩ | exact Or.inr ⟨_,low,high,apart,rfl⟩

theorem resize_spec (wf : ht.WF ty) (idle : ht.rehashIdx = none) (env : Env)
    (canFail : Bool) (requested : Nat) :
    Reshaped ty ht (ht.resize ty env canFail requested).hashtable ∧
      ((ht.resize ty env canFail requested).resized = true →
        (ht.resize ty env canFail requested).hashtable.table0.bucketExp ≠ -1) := by
  rcases resize_cases ty env canFail requested ht with ⟨same,refused⟩ | ⟨exp,low,high,apart,started⟩
  · rw [same,refused]
    exact ⟨.refl wf,by simp⟩
  · obtain ⟨rearranged,allocated⟩ := startRehashing_spec wf idle low high apart
    rw [started]
    exact ⟨rearranged,fun _ => allocated⟩

theorem expand_rearranged (wf : ht.WF ty) (env : Env) (canFail : Bool)
    (size : Nat) : Reshaped ty ht (ht.expand ty env canFail size).hashtable := by
  unfold expand
  split
  · exact .refl wf
  · rename_i idle
    simp only [Bool.or_eq_true,not_or,Bool.not_eq_true] at idle
    exact (resize_spec wf (rehashIdx_eq_none idle.1) env canFail size).1

theorem shrinkIfNeeded_rearranged (wf : ht.WF ty) (env : Env) :
    Reshaped ty ht (ht.shrinkIfNeeded ty env).1 := by
  unfold shrinkIfNeeded
  split
  · exact .refl wf
  rename_i idle
  simp only [Bool.or_eq_true,not_or,Bool.not_eq_true] at idle
  dsimp only
  split
  · exact .refl wf
  · exact (resize_spec wf (rehashIdx_eq_none idle.1) env false _).1

theorem expandIfNeeded_rearranged (wf : ht.WF ty) (env : Env) :
    Reshaped ty ht (ht.expandIfNeeded ty env).1 := by
  unfold expandIfNeeded
  split
  · split
    · exact .refl wf
    · exact abortShrinkIfNeeded_rearranged wf env
  rename_i idle
  dsimp only
  split
  · exact .refl wf
  · exact (resize_spec wf (rehashIdx_eq_none (by simpa using idle)) env false _).1

theorem resize_first (ty : HashtableType α κ) {ht : Hashtable L α} (env : Env) (null : ht.table0.bucketExp = -1)
    (nothing : ht.table0.buckets = []) : (ht.resize ty env false 1).resized = true := by
  have exp : nextBucketExp L 1 = 0 := by cases L <;> decide
  have fits : resizeOverflows L 1 0 = false := by cases L <;> decide
  simp [resize,exp,fits,null,nothing,resizeRefused,numBuckets]

theorem expandIfNeeded_allocated (wf : ht.WF ty) (env : Env) :
    (ht.expandIfNeeded ty env).1.table0.bucketExp ≠ -1 := by
  by_cases null : ht.table0.bucketExp = -1
  · have nothing := wf.first.buckets_nil null
    have idle := wf.idle_of_null null
    have unused : ht.table0.used = 0 := by
      rw [wf.first.used]
      simp [Table.slots,nothing]
    have one : L.wrap 1 = 1 := by cases L <;> decide
    have full : ¬L.wrap (1 * 100) ≤ L.wrap (L.wrap (0 * L.entriesPerBucket) * env.maxFillPercent) := by
      cases L <;> simp [Layout.wrap,Layout.sizeBits]
    have grown := (resize_spec wf idle env false 1).2 (resize_first ty env null nothing)
    simp only [expandIfNeeded,isRehashing,idle,unused,one]
    rw [null,show numBuckets (-1) = 0 from rfl,if_neg full]
    exact grown
  · exact (expandIfNeeded_rearranged wf env).allocated null

theorem rightsizeIfNeeded_rearranged (wf : ht.WF ty) (env : Env) :
    Reshaped ty ht (ht.rightsizeIfNeeded ty env).1 := by
  have shrunk := shrinkIfNeeded_rearranged wf env
  unfold rightsizeIfNeeded
  dsimp only
  split
  · exact shrunk
  · exact shrunk.trans (expandIfNeeded_rearranged shrunk.wf env)

theorem prepareInsert_spec (wf : ht.WF ty) (env : Env) :
    Reshaped ty ht (ht.prepareInsert ty env) ∧ (ht.prepareInsert ty env).table0.bucketExp ≠ -1 := by
  have expanded := expandIfNeeded_rearranged wf env
  have stepped := rehashStepIfPolicy_rearranged expanded.wf env .avoid
  exact ⟨expanded.trans stepped,stepped.allocated (expandIfNeeded_allocated wf env)⟩

end Resizing

end ValkeyWasm.Hashtable
