import ValkeyWasm.Hashtable.Trace

/-! Rehashing and resizing rearrange a hash table without changing what it holds.
An expanding step recomputes every hash in batches and a shrinking step reuses the
bucket index; both move one chain of table 0 and are specified by the same lemma. -/
namespace ValkeyWasm.Hashtable
open List Option Nat

variable {L : Layout} {α κ : Type*}

def Chain.slotList : Chain L α → List (Slot α)
  | .last b => filledSlots b false
  | .link b child => filledSlots b true ++ child.slotList

theorem filledSlots_eq (b : Bucket L α) (chained : Bool) (free : chained = true → b.slot L.lastPos = none) :
    filledSlots b chained = L.positions.filterMap b.slot := by
  apply filterMap_congr
  intro p _
  split
  · rfl
  rename_i outside
  cases chained with
  | false => exact absurd p.isLt outside
  | true =>
    have same : p = L.lastPos := by
      apply Fin.ext
      simp only [numBucketPositions,if_true] at outside
      change p.val = L.entriesPerBucket - 1
      omega
    rw [same,free rfl]

theorem Chain.coe_slotList {c : Chain L α} (links : c.LinksFree) : (c.slotList : Multiset (Slot α)) = c.slots := by
  induction c with
  | last b => rw [slotList,filledSlots_eq b false (by simp)]; rfl
  | link b child ih =>
    rw [slotList,filledSlots_eq b true (fun _ => links.1),← Multiset.coe_add,ih links.2]
    rfl

theorem MovedOut.empty {table : Table L α} (moved : MovedOut table table.buckets.length) :
    table.slots = 0 ∧ table.childTotal = 0 := by
  constructor
  · apply Multiset.eq_zero_of_forall_notMem
    intro s member
    obtain ⟨index,c,located,inside⟩ := (Table.mem_slots table s).mp member
    have bound : index < table.buckets.length := (List.getElem?_eq_some_iff.mp located).1
    rw [(moved index c bound located).1] at inside
    simp at inside
  · apply sum_eq_zero
    intro count member
    obtain ⟨c,inside,rfl⟩ := mem_map.mp member
    obtain ⟨index,bound,rfl⟩ := getElem_of_mem inside
    exact (moved index _ bound (getElem?_eq_getElem bound)).2

theorem fetchEntriesForExpand_spec (count : Nat) (c : Chain L α) :
    (fetchEntriesForExpand count c).1 ++
        ((fetchEntriesForExpand count c).2.elim [] (fun rest => rest.slotList.map (·.entry))) =
      c.slotList.map (·.entry) ∧
    ∀ rest, (fetchEntriesForExpand count c).2 = some rest → rest.childCount + count ≤ c.childCount := by
  induction c generalizing count with
  | last b => cases count <;> simp [fetchEntriesForExpand,Chain.slotList]
  | link b child ih =>
    cases count with
    | zero => simp [fetchEntriesForExpand]
    | succ count =>
      obtain ⟨split,left⟩ := ih count
      refine ⟨by simp only [fetchEntriesForExpand,append_assoc,split,Chain.slotList,map_append],?_⟩
      intro rest found
      have bound := left rest found
      simp only [Chain.childCount]
      omega

section Rehashing
variable [Inhabited α]

theorem rehashEntry_eq (ht : Hashtable L α) (r : Nat) (running : ht.rehashIdx = some r) (entry : α) (hash : BitVec 64)
    (h2 : BitVec 8) (bound : bucketIndex hash ht.table1.bucketExp < ht.table1.buckets.length) :
    ht.rehashEntry entry hash h2 = {ht with
      table0 := {ht.table0 with used := ht.table0.used - 1}
      table1 := ht.table1.insertSlot (bucketIndex hash ht.table1.bucketExp) h2 entry} := by
  have target : ht.insertTable = 1 := by simp [insertTable,isRehashing,running]
  have written := findBucketForInsert_modifyBucket ht hash
    (·.place (ht.findBucketForInsert hash).2.pos h2 entry) (by rw [target]; exact bound)
  rw [target] at written
  simp only [rehashEntry,written]
  simp [Table.insertSlot,findBucketForInsert,isRehashing,running]

theorem rehashSlots_spec (ty : HashtableType α κ) (hashFor : Slot α → BitVec 64) (byteFor : Slot α → BitVec 8)
    (items : List (Slot α)) (ht : Hashtable L α) (r : Nat) (running : ht.rehashIdx = some r) (wf : ht.table1.WF ty)
    (allocated : ht.table1.bucketExp ≠ -1)
    (aimed : ∀ s ∈ items, Homed ty ht.table1.bucketExp (bucketIndex (hashFor s) ht.table1.bucketExp) s ∧ byteFor s = s.hash) :
    ∃ moved : Table L α, items.foldl (fun ht s => ht.rehashEntry s.entry (hashFor s) (byteFor s)) ht =
        {ht with table0 := {ht.table0 with used := ht.table0.used - items.length}, table1 := moved} ∧
      moved.WF ty ∧ (moved.bucketExp = ht.table1.bucketExp ∧ moved.address = ht.table1.address) ∧
      moved.slots = (items : Multiset (Slot α)) + ht.table1.slots := by
  induction items generalizing ht with
  | nil => exact ⟨ht.table1,by simp,wf,⟨rfl,rfl⟩,by simp⟩
  | cons s rest ih =>
    obtain ⟨homed,byte⟩ := aimed s (by simp)
    have bound : bucketIndex (hashFor s) ht.table1.bucketExp < ht.table1.buckets.length := by
      rw [wf.length]
      exact bucketIndex_lt _ _ allocated
    obtain ⟨inserted,added⟩ := wf.insertSlot _ bound s.hash s.entry homed
    have first := rehashEntry_eq ht r running s.entry (hashFor s) (byteFor s) bound
    rw [byte] at first
    obtain ⟨moved,equal,movedWf,exp,slots⟩ := ih (ht.rehashEntry s.entry (hashFor s) s.hash)
      (by rw [first]; exact running) (by rw [first]; exact inserted) (by rw [first]; exact allocated)
      (by rw [first]; exact fun x member => aimed x (by simp [member]))
    refine ⟨moved,?_,movedWf,⟨by rw [exp.1,first]; rfl,by rw [exp.2,first]; rfl⟩,?_⟩
    · rw [foldl_cons,byte,equal,first]
      simp [Nat.sub_sub,Nat.add_comm]
    · rw [slots,first,added,← Multiset.cons_coe,Multiset.add_cons,Multiset.cons_add]

theorem rehashBatches_eq (ty : HashtableType α κ) (rounds : Nat) (c : Chain L α) (ht : Hashtable L α)
    (enough : c.childCount < rounds) :
    rehashBatches ty rounds (some c) ht = (c.slotList.map (·.entry)).foldl (rehashHashed ty) ht := by
  induction rounds generalizing c ht with
  | zero => omega
  | succ rounds ih =>
    obtain ⟨split,left⟩ := fetchEntriesForExpand_spec fetchBucketCountWhenExpand c
    rw [rehashBatches,← split,foldl_append]
    cases rest : (fetchEntriesForExpand fetchBucketCountWhenExpand c).2 with
    | none => cases rounds <;> rfl
    | some next =>
      have bound := left next rest
      exact ih next _ (by simp only [fetchBucketCountWhenExpand] at bound; omega)

theorem rehashChainShrink_eq (idx : Nat) (c : Chain L α) (ht : Hashtable L α) :
    rehashChainShrink idx c ht =
      c.slotList.foldl (fun ht s => ht.rehashEntry s.entry (BitVec.ofNat 64 idx) s.hash) ht := by
  induction c generalizing ht with
  | last b => rfl
  | link b child ih => rw [rehashChainShrink,ih,Chain.slotList,foldl_append]; rfl

def Table.clearChain (table : Table L α) (idx : Nat) : Table L α :=
  let old := table.chain idx
  ⟨table.bucketExp,table.buckets.set idx (.last {old.top with presence := fun _ => false}),
    table.used - old.slots.card,table.childBuckets - old.childCount,table.address⟩

variable {ty : HashtableType α κ}

theorem Table.WF.clearChain {table : Table L α} (wf : table.WF ty) (idx : Nat)
    (bound : idx < table.buckets.length) :
    (table.clearChain idx).WF ty ∧ (table.clearChain idx).slots + (table.chain idx).slots = table.slots ∧
      (MovedOut table idx → MovedOut (table.clearChain idx) (idx + 1)) := by
  let fresh : Chain L α := .last {(table.chain idx).top with presence := fun _ => false}
  have vacant : fresh.slots = 0 := Bucket.slots_eq_zero_of_isEmpty _ (by simp [Bucket.isEmpty,Bucket.isPositionFilled])
  have total := Table.slots_setChain table idx fresh bound
  have children := Table.childTotal_setChain table idx fresh bound
  have single : fresh.childCount = 0 := rfl
  rw [vacant,add_zero] at total
  refine ⟨?_,total,?_⟩
  · have usedBound : (table.chain idx).slots.card ≤ table.used := by
      rw [wf.used,← total,Multiset.card_add]
      omega
    have childBound := wf.children
    apply wf.exchange idx bound fresh trivial
    · rw [vacant]
      simp
    · rw [vacant,Multiset.card_zero]
      omega
    · omega
  · intro before index c early located
    simp only [Table.clearChain,getElem?_set] at located
    split at located
    · simp only [some.injEq] at located
      exact located ▸ ⟨vacant,rfl⟩
    · exact before index c (by omega) located

/-- One bucket chain further, or done: what a rehashing step does to the index. -/
inductive Advanced (ht next : Hashtable L α) (idx : Nat) : Prop where
  | completed (idle : next.rehashIdx = none) (exp : next.table0.bucketExp = ht.table1.bucketExp)
  | advanced (r : Nat) (running : next.rehashIdx = some r) (further : idx < r)
      (exp0 : next.table0.bucketExp = ht.table0.bucketExp) (exp1 : next.table1.bucketExp = ht.table1.bucketExp)

variable {ht : Hashtable L α}

section
variable (wf : ht.WF ty) (idx : Nat) (running : ht.rehashIdx = some idx)
include wf idx running

theorem rehashStepFinalize_spec {moved : Table L α} (movedWf : moved.WF ty)
    (exp : moved.bucketExp = ht.table1.bucketExp ∧ moved.address = ht.table1.address)
    (slots : moved.slots = (ht.table0.chain idx).slots + ht.table1.slots) (next : Hashtable L α)
    (stepped : next = ({ht with
      table0 := {ht.table0 with used := ht.table0.used - (ht.table0.chain idx).slots.card}
      table1 := moved} : Hashtable L α).rehashStepFinalize) :
    Reshaped ty ht next ∧ Advanced ht next idx := by
  obtain ⟨inside,allocated,apart,before⟩ := wf.running idx running
  obtain ⟨clearedWf,cleared,gone⟩ := wf.first.clearChain idx (wf.first.length ▸ inside)
  have held : (ht.table0.clearChain idx).slots + moved.slots = ht.slots := by
    rw [slots,← add_assoc,cleared]
    rfl
  have finalized : next = if (ht.table0.clearChain idx).used = 0 ∧ (ht.table0.clearChain idx).childBuckets = 0 then
      ({ht with table0 := ht.table0.clearChain idx, table1 := moved, rehashIdx := some (idx + 1)} : Hashtable L α).rehashingCompleted
      else {ht with table0 := ht.table0.clearChain idx, table1 := moved, rehashIdx := some (idx + 1)} := by
    rw [stepped]
    simp only [running]
    rfl
  have traced : Traced ht next := by
    rw [stepped]
    apply Traced.trans _ (rehashStepFinalize_traced _)
    exact Quiet.traced ⟨rfl,by simp only [shape,isRehashing,exp.1]⟩
  split at finalized
  · rename_i drained
    have nothing : (ht.table0.clearChain idx).slots = 0 := by
      rw [← Multiset.card_eq_zero,← clearedWf.used]
      exact drained.1
    rw [nothing,zero_add] at held
    subst finalized
    have same : (moved.slots + (Table.reset : Table L α).slots) = ht.slots := by
      rw [held]
      simp [Table.slots,Table.reset]
    refine ⟨⟨⟨⟨movedWf,Table.reset_wf ty,fun _ => rfl,by simp [rehashingCompleted],?_,?_⟩,same,
      fun _ => exp.1 ▸ allocated,rfl,rfl,rfl⟩,traced⟩,.completed rfl exp.1⟩
    · have distinct := wf.distinct
      rwa [← same] at distinct
    · exact ⟨fun _ => exp.2 ▸ wf.owned.second allocated,by simp [rehashingCompleted,Table.reset],
        by simp [rehashingCompleted]⟩
  · rename_i pending
    subst finalized
    have shorter : idx + 1 < numBuckets ht.table0.bucketExp := by
      by_contra finished
      have whole : MovedOut (ht.table0.clearChain idx) (ht.table0.clearChain idx).buckets.length := by
        intro index c early located
        have count := clearedWf.length
        change (ht.table0.clearChain idx).buckets.length = numBuckets ht.table0.bucketExp at count
        exact gone before index c (by omega) located
      obtain ⟨nothing,childless⟩ := whole.empty
      exact pending ⟨by rw [clearedWf.used,nothing]; rfl,by rw [clearedWf.children,childless]⟩
    refine ⟨⟨⟨⟨clearedWf,movedWf,by simp,?_,?_,?_⟩,held,id,rfl,rfl,rfl⟩,traced⟩,.advanced _ rfl (lt_succ_self idx) rfl exp.1⟩
    · intro r same
      obtain rfl : idx + 1 = r := by simpa using same
      exact ⟨shorter,exp.1 ▸ allocated,exp.1 ▸ apart,gone before⟩
    · have distinct := wf.distinct
      rwa [← held] at distinct
    · exact ⟨wf.owned.first,fun _ => exp.2 ▸ wf.owned.second allocated,
        fun _ => exp.2 ▸ wf.owned.apart (by simp [running])⟩

theorem moveChain_spec (hashFor : Slot α → BitVec 64) (byteFor : Slot α → BitVec 8)
    (aimed : ∀ s, Homed ty ht.table0.bucketExp idx s →
      bucketIndex (ty.hashOf s.entry) ht.table1.bucketExp = bucketIndex (hashFor s) ht.table1.bucketExp ∧ byteFor s = s.hash)
    {next : Hashtable L α}
    (stepped : next = ((ht.table0.chain idx).slotList.foldl
      (fun ht s => ht.rehashEntry s.entry (hashFor s) (byteFor s)) ht).rehashStepFinalize) :
    Reshaped ty ht next ∧ Advanced ht next idx := by
  obtain ⟨inside,allocated,_,_⟩ := wf.running idx running
  have bound : idx < ht.table0.buckets.length := wf.first.length ▸ inside
  have listed := Chain.coe_slotList (wf.first.links _ (Table.chain_mem ht.table0 idx bound))
  have length : (ht.table0.chain idx).slotList.length = (ht.table0.chain idx).slots.card := by
    rw [← listed,Multiset.coe_card]
  obtain ⟨moved,equal,movedWf,exp,slots⟩ := rehashSlots_spec ty hashFor byteFor (ht.table0.chain idx).slotList ht idx running
    wf.second allocated (by
      intro s member
      have stored : s ∈ (ht.table0.chain idx).slots := listed ▸ Multiset.mem_coe.mpr member
      have homed := wf.first.placed idx _ (Table.getElem?_chain ht.table0 idx bound) s stored
      obtain ⟨index,byte⟩ := aimed s homed
      exact ⟨⟨index,homed.2⟩,byte⟩)
  rw [listed] at slots
  apply rehashStepFinalize_spec wf idx running movedWf exp slots next
  rw [stepped,equal,length]

theorem rehashStepExpand_spec :
    Reshaped ty ht (ht.rehashStepExpand ty) ∧ Advanced ht (ht.rehashStepExpand ty) idx := by
  apply moveChain_spec wf idx running (fun s => ty.hashOf s.entry) (fun s => highBits (ty.hashOf s.entry))
  · intro s homed
    exact ⟨rfl,homed.2.symm⟩
  · simp only [rehashStepExpand,running]
    rw [rehashBatches_eq ty _ _ _ (lt_succ_self _),foldl_map]
    rfl

theorem rehashChainShrink_spec (shrinking : ht.table1.bucketExp < ht.table0.bucketExp) (next : Hashtable L α)
    (stepped : next = (rehashChainShrink idx (ht.table0.chain idx) ht).rehashStepFinalize) :
    Reshaped ty ht next ∧ Advanced ht next idx := by
  apply moveChain_spec wf idx running (fun _ => BitVec.ofNat 64 idx) (fun s => s.hash)
  · intro s homed
    have low := wf.second.expLow
    have allocated := (wf.running idx running).2.1
    have high := Table.exp_lt wf.first
    rw [← homed.1]
    exact ⟨(bucketIndex_ofIndex _ (by omega) (le_of_lt shrinking) (by omega)).symm,rfl⟩
  · rw [stepped,rehashChainShrink_eq]

theorem skipEmpty_spec (vacant : ¬(!(ht.table0.chain idx).top.isEmpty || (ht.table0.chain idx).chained) = true) :
    Reshaped ty ht ht.rehashStepFinalize ∧ Advanced ht ht.rehashStepFinalize idx := by
  simp only [Bool.or_eq_true,Bool.not_eq_true',not_or,Bool.not_eq_false] at vacant
  have nothing : (ht.table0.chain idx).slots = 0 := by
    cases held : ht.table0.chain idx with
    | last b =>
      rw [held] at vacant
      exact b.slots_eq_zero_of_isEmpty vacant.1
    | link b child => simp [held,Chain.chained] at vacant
  exact rehashStepFinalize_spec wf idx running wf.second ⟨rfl,rfl⟩ (by simp [nothing]) _ (by simp [nothing])

end

theorem rehashStepShrinkFrom_spec (emptyVisits : Nat) (wf : ht.WF ty) (idx : Nat)
    (running : ht.rehashIdx = some idx) (shrinking : ht.table1.bucketExp < ht.table0.bucketExp) :
    Reshaped ty ht (rehashStepShrinkFrom (emptyVisits + 1) ht) ∧ Advanced ht (rehashStepShrinkFrom (emptyVisits + 1) ht) idx := by
  induction emptyVisits generalizing ht idx with
  | zero =>
    simp only [rehashStepShrinkFrom,running]
    split
    · exact rehashChainShrink_spec wf idx running shrinking _ rfl
    · rename_i vacant
      exact skipEmpty_spec wf idx running vacant
  | succ emptyVisits ih =>
    rw [rehashStepShrinkFrom,running]
    dsimp only
    split
    · exact rehashChainShrink_spec wf idx running shrinking _ rfl
    rename_i vacant
    obtain ⟨skipped,progress⟩ := skipEmpty_spec wf idx running vacant
    cases progress with
    | completed idle exp =>
      have stopped : rehashStepShrinkFrom (emptyVisits + 1) ht.rehashStepFinalize = ht.rehashStepFinalize := by
        simp [rehashStepShrinkFrom,idle]
      rw [stopped]
      exact ⟨skipped,.completed idle exp⟩
    | advanced r further beyond exp0 exp1 =>
      obtain ⟨rest,finished⟩ := ih skipped.wf r further (by rw [exp0,exp1]; exact shrinking)
      refine ⟨skipped.trans rest,?_⟩
      cases finished with
      | completed idle exp => exact .completed idle (exp.trans exp1)
      | advanced q stopped last next0 next1 =>
        exact .advanced q stopped (lt_trans beyond last) (next0.trans exp0) (next1.trans exp1)

theorem rehashStep_spec (wf : ht.WF ty) (idx : Nat)
    (running : ht.rehashIdx = some idx) :
    Reshaped ty ht (ht.rehashStep ty) ∧ Advanced ht (ht.rehashStep ty) idx := by
  unfold rehashStep
  split
  · rename_i shrinking
    exact rehashStepShrinkFrom_spec 9 wf idx running shrinking
  · exact rehashStepExpand_spec wf idx running

theorem rehashStep_rearranged (wf : ht.WF ty) (running : ht.isRehashing = true) :
    Reshaped ty ht (ht.rehashStep ty) := by
  obtain ⟨idx,equal⟩ := isSome_iff_exists.mp running
  exact (rehashStep_spec wf idx equal).1

theorem rehashStepIfPolicy_rearranged (wf : ht.WF ty) (env : Env)
    (policy : ResizePolicy) : Reshaped ty ht (ht.rehashStepIfPolicy ty env policy) := by
  unfold rehashStepIfPolicy
  split
  · exact .refl wf
  rename_i active
  split
  · exact .refl wf
  · exact rehashStep_rearranged wf (by simp only [Bool.or_eq_true,not_or] at active; simpa using active.1)

theorem rehashAll_rearranged (rounds : Nat) (wf : ht.WF ty) :
    Reshaped ty ht (rehashAll ty rounds ht) := by
  induction rounds generalizing ht with
  | zero => exact .refl wf
  | succ rounds ih =>
    unfold rehashAll
    split
    · rename_i running
      have stepped := rehashStep_rearranged wf running
      exact stepped.trans (ih stepped.wf)
    · exact .refl wf

theorem rehashTimed_rearranged (elapsed : Nat → Bool) (rounds rehashes : Nat)
    (wf : ht.WF ty) : Reshaped ty ht (rehashTimed ty elapsed rounds rehashes ht).1 := by
  induction rounds generalizing rehashes ht with
  | zero => exact .refl wf
  | succ rounds ih =>
    unfold rehashTimed
    split
    · exact .refl wf
    rename_i running
    have stepped := rehashStep_rearranged wf (by simpa using running)
    split
    · exact stepped
    · exact stepped.trans (ih _ stepped.wf)

theorem rehashMicroseconds_rearranged (wf : ht.WF ty) (env : Env)
    (elapsed : Nat → Bool) : Reshaped ty ht (ht.rehashMicroseconds ty env elapsed).1 := by
  unfold rehashMicroseconds
  split
  · exact .refl wf
  · split
    · exact .refl wf
    · exact rehashTimed_rearranged elapsed _ _ wf

end Rehashing

end ValkeyWasm.Hashtable
