import ValkeyWasm.Hashtable.Contents

/-! Where entries are while rehashing is paused.
Iterators and scans pause rehashing and then rely on positions: an insertion leaves
every entry where it is, except that it moves the last entry of a full bucket to the
first position of the child bucket it adds; a deletion moves nothing. -/
namespace ValkeyWasm.Hashtable
open Function List Option Bool Nat

variable {L : Layout} {α κ : Type*}

namespace Chain

def allFull : Chain L α → Bool
  | last b => bucketIsFull b false
  | link b child => bucketIsFull b true && child.allFull

theorem slotAt_modifyBucket_of_ne (c : Chain L α) {depth : Nat} (f : Bucket L α → Bucket L α) {i : Nat} (p : L.Pos)
    (apart : i ≠ depth) : (c.modifyBucket depth f).slotAt i p = c.slotAt i p := by
  rw [slotAt,bucketAt_modifyBucket,if_neg apart,slotAt]

theorem slotAt_modifyBucket_self (c : Chain L α) (depth : Nat) (f : Bucket L α → Bucket L α) (p : L.Pos) :
    (c.modifyBucket depth f).slotAt depth p = (c.bucketAt depth).bind (fun b => (f b).slot p) := by
  rw [slotAt,bucketAt_modifyBucket,if_pos rfl]
  cases c.bucketAt depth <;> rfl

theorem depth_le_of_not_chainedAt (c : Chain L α) (depth i : Nat) (p : L.Pos) (s : Slot α) (final : c.chainedAt depth = false)
    (held : c.slotAt i p = some s) : i ≤ depth := by
  induction c generalizing depth i with
  | last b =>
    cases i with
    | zero => exact zero_le _
    | succ i => simp [slotAt,bucketAt] at held
  | link b child ih =>
    cases depth with
    | zero => simp [chainedAt] at final
    | succ depth =>
      cases i with
      | zero => exact zero_le _
      | succ i => exact succ_le_succ (ih depth i final held)

theorem lt_childCount_of_chainedAt (c : Chain L α) (depth : Nat) (chained : c.chainedAt depth = true) : depth < c.childCount := by
  induction c generalizing depth with
  | last b => simp [chainedAt] at chained
  | link b child ih =>
    cases depth with
    | zero => exact succ_pos _
    | succ depth => exact succ_lt_succ (ih depth chained)

section Insertion
variable [Inhabited α]

theorem added_findRoom_le (c : Chain L α) : c.findRoom.added ≤ 1 := by
  induction c with
  | last b => unfold findRoom; split <;> simp
  | link b child ih =>
    unfold findRoom
    split
    · exact ih
    · simp

theorem slotAt_findRoom (c : Chain L α) (depth : Nat) (p : L.Pos) (s : Slot α) (held : c.slotAt depth p = some s) :
    c.findRoom.chain.slotAt depth p = some s ∨
      (c.allFull = true ∧ depth = c.childCount ∧ p = L.lastPos ∧ c.findRoom.chain.slotAt (depth + 1) L.firstPos = some s) := by
  induction c generalizing depth with
  | last b =>
    cases depth with
    | succ depth => simp [slotAt,bucketAt] at held
    | zero =>
      have slot : b.slot p = some s := held
      cases full : bucketIsFull b false with
      | false =>
        simp only [findRoom,full]
        exact Or.inl held
      | true =>
        simp only [findRoom,full,allFull]
        by_cases moved : p = L.lastPos
        · subst moved
          obtain ⟨_,hash,entry⟩ := (Bucket.slot_eq_some b _ s).mp slot
          refine Or.inr ⟨trivial,rfl,rfl,?_⟩
          change (bucketConvertToChained b).2.slot L.firstPos = some s
          simp [bucketConvertToChained,Bucket.moveEntry,Bucket.slot_place,hash,entry]
        · refine Or.inl ?_
          change (bucketConvertToChained b).1.slot p = some s
          simp only [bucketConvertToChained,Bucket.moveEntry,Bucket.slot_clearPresence]
          rw [update_of_ne moved,slot]
  | link b child ih =>
    cases full : bucketIsFull b true with
    | false =>
      simp only [findRoom,full]
      exact Or.inl held
    | true =>
      simp only [findRoom,full,allFull]
      cases depth with
      | zero => exact Or.inl held
      | succ depth =>
        rcases ih depth held with same | ⟨rest,deep,last,shifted⟩
        · exact Or.inl same
        · exact Or.inr ⟨rest,by rw [deep,childCount],last,shifted⟩

theorem slotAt_place_findRoom (c : Chain L α) (links : c.LinksFree) (h2 : BitVec 8) (entry : α) (depth : Nat) (p : L.Pos) (s : Slot α)
    (held : c.findRoom.chain.slotAt depth p = some s) :
    (c.findRoom.chain.modifyBucket c.findRoom.depth (·.place c.findRoom.pos h2 entry)).slotAt depth p = some s := by
  obtain ⟨_,_,_,b,located,free,_⟩ := findRoom_spec c links
  by_cases same : depth = c.findRoom.depth
  · subst same
    rw [slotAt_modifyBucket_self,located,bind_some,Bucket.slot_place]
    have slot : b.slot p = some s := by simpa [slotAt,located] using held
    have apart : p ≠ c.findRoom.pos := by
      rintro rfl
      rw [free] at slot
      simp at slot
    rw [update_of_ne apart,slot]
  · rw [slotAt_modifyBucket_of_ne _ _ _ same]
    exact held

end Insertion

end Chain

def Position.shifted (p : Position L) : Position L := {p with depth := p.depth + 1, pos := L.firstPos}

structure Anchored (ty : HashtableType α κ) (ht next : Hashtable L α) : Prop where
  wf : next.WF ty
  framed : Framed ht next
  tables : ∀ t, (ht.table t).bucketExp ≠ -1 →
    (next.table t).bucketExp = (ht.table t).bucketExp ∧ (next.table t).address = (ht.table t).address
  rehashIdx : ∀ r, ht.rehashIdx = some r → next.rehashIdx = some r

variable {ty : HashtableType α κ} {ht : Hashtable L α}

theorem Anchored.refl (wf : ht.WF ty) : Anchored ty ht ht :=
  ⟨wf,⟨rfl,rfl,rfl⟩,fun _ _ => ⟨rfl,rfl⟩,fun _ running => running⟩

variable {next : Hashtable L α}

theorem Anchored.trans {middle : Hashtable L α} (first : Anchored ty ht middle)
    (second : Anchored ty middle next) : Anchored ty ht next := by
  refine ⟨second.wf,first.framed.trans second.framed,?_,fun r running => second.rehashIdx r (first.rehashIdx r running)⟩
  intro t allocated
  obtain ⟨exp,address⟩ := first.tables t allocated
  obtain ⟨nextExp,nextAddress⟩ := second.tables t (exp ▸ allocated)
  exact ⟨nextExp.trans exp,nextAddress.trans address⟩

def ChainsGrow (ht next : Hashtable L α) : Prop :=
  ∀ t, (ht.table t).bucketExp ≠ -1 → ∀ (index : Nat) (c : Chain L α), (next.table t).buckets[index]? = some c →
    ∃ d, (ht.table t).buckets[index]? = some d ∧ d.childCount ≤ c.childCount

variable {ht : Hashtable L α}

theorem chainsGrow_modifyTable {t : Fin 2} {f : Table L α → Table L α} {index : Nat} (grown : Chain L α) {c : Chain L α}
    (located : (ht.table t).buckets[index]? = some c) (longer : c.childCount ≤ grown.childCount)
    (buckets : (f (ht.table t)).buckets = (ht.table t).buckets.set index grown) : ChainsGrow ht (ht.modifyTable t f) := by
  intro u _ i d found
  rw [table_modifyTable] at found
  split at found
  · rename_i same
    subst same
    rw [buckets,getElem?_set] at found
    split at found
    · rename_i here
      subst here
      split at found
      · obtain rfl := Option.some.inj found
        exact ⟨c,located,longer⟩
      · simp at found
    · exact ⟨d,found,le_rfl⟩
  · exact ⟨d,found,le_rfl⟩

theorem anchored_modifyTable {t : Fin 2} {f : Table L α → Table L α}
    (exp : ∀ table, (f table).bucketExp = table.bucketExp) (address : ∀ table, (f table).address = table.address)
    (wf : (ht.modifyTable t f).WF ty) : Anchored ty ht (ht.modifyTable t f) := by
  refine ⟨wf,framed_modifyTable ht t f,?_,fun r running => by rw [rehashIdx_modifyTable]; exact running⟩
  intro u _
  rw [table_modifyTable]
  split
  · rename_i same
    exact same ▸ ⟨exp _,address _⟩
  · exact ⟨rfl,rfl⟩

variable {p : Position L} {s : Slot α}

section Positions
variable [Inhabited α]

/-- An insertion of this hash moves the slot at the position to a new child bucket. -/
def shifts (ht : Hashtable L α) (hash : BitVec 64) (p : Position L) : Bool :=
  let c := (ht.table p.table).chain p.index
  decide (p.table = ht.insertTable) && decide (p.index = bucketIndex hash (ht.table p.table).bucketExp) && c.allFull &&
    decide (p.depth = c.childCount) && decide (p.pos = L.lastPos)

theorem slotAt_insertSlot (wf : ht.WF ty) {hash : BitVec 64} {h2 : BitVec 8} {entry : α} (inserted : next = ht.modifyTable ht.insertTable
      (fun table => table.insertSlot (bucketIndex hash table.bucketExp) h2 entry)) (held : ht.slotAt p = some s) :
    next.slotAt p = some s ∨ (ht.shifts hash p = true ∧ next.slotAt p.shifted = some s) := by
  obtain ⟨c,located,inside,bound,chain⟩ := located_of_slotAt held
  by_cases target : p.table = ht.insertTable ∧ p.index = bucketIndex hash (ht.table p.table).bucketExp
  · obtain ⟨table,index⟩ := target
    let grown := c.findRoom.chain.modifyBucket c.findRoom.depth (·.place c.findRoom.pos h2 entry)
    have rewritten : (next.table p.table).buckets[p.index]? = some grown := by
      rw [inserted,table_modifyTable,if_pos table,← table]
      simp only [Table.insertSlot,← index,chain]
      rw [getElem?_set_self bound]
    have links := (wf.table p.table).links c (mem_of_getElem? located)
    rcases Chain.slotAt_findRoom c p.depth p.pos s inside with kept | ⟨full,deep,last,moved⟩
    · exact Or.inl ((slotAt_eq_some next p s).mpr ⟨grown,rewritten,Chain.slotAt_place_findRoom c links h2 entry _ _ s kept⟩)
    · refine Or.inr ⟨?_,(slotAt_eq_some next p.shifted s).mpr
        ⟨grown,rewritten,Chain.slotAt_place_findRoom c links h2 entry _ _ s moved⟩⟩
      simp [shifts,chain,full,deep,last,← table,← index]
  · refine Or.inl ((slotAt_eq_some next p s).mpr ⟨c,?_,inside⟩)
    rw [inserted,table_modifyTable]
    split
    · rename_i table
      have elsewhere : bucketIndex hash (ht.table ht.insertTable).bucketExp ≠ p.index :=
        fun equal => target ⟨table,table ▸ equal.symm⟩
      simp only [Table.insertSlot]
      rw [getElem?_set_ne elsewhere,← table]
      exact located
    · exact located

theorem rehashStepIfPolicy_paused (ty : HashtableType α κ) (env : Env) (policy : ResizePolicy)
    (paused : ht.pauseRehash ≠ 0) : ht.rehashStepIfPolicy ty env policy = ht := by
  simp [rehashStepIfPolicy,paused]

/-- The insertion swaps the tables of a shrink, or replaces the table in one go. -/
def insertDisturbs (ty : HashtableType α κ) (env : Env) (ht : Hashtable L α) : Bool :=
  ht.abortsShrink env || (ty.instantRehashing && !ht.isRehashing && (ht.expandIfNeeded ty env).2)

theorem not_overfilled_of_unused {L : Layout} (env : Env) {exp : Int} (low : 0 ≤ exp) (high : exp + 6 < L.sizeBits) :
    L.wrap (L.wrap (0 + 1) * 100) ≤ L.wrap (L.wrap (numBuckets exp * L.entriesPerBucket) * env.maxFillPercent) := by
  obtain ⟨e,rfl⟩ := Int.eq_ofNat_of_zero_le low
  have percent : env.maxFillPercent = 100 ∨ env.maxFillPercent = 500 := by
    unfold Env.maxFillPercent
    split
    · exact Or.inl rfl
    · exact Or.inr rfl
  have table64 : ∀ e : Fin 58, ∀ fill ∈ [100,500], (1 : Nat) % 2^64 * 100 % 2^64 ≤ 2^e.val * 7 % 2^64 * fill % 2^64 := by decide
  have table32 : ∀ e : Fin 26, ∀ fill ∈ [100,500], (1 : Nat) % 2^32 * 100 % 2^32 ≤ 2^e.val * 12 % 2^32 * fill % 2^32 := by decide
  cases L with
  | bits64 =>
    have bound : e < 58 := by simp only [Layout.sizeBits] at high; omega
    exact table64 ⟨e,bound⟩ env.maxFillPercent (by rcases percent with p | p <;> simp [p])
  | bits32 =>
    have bound : e < 26 := by simp only [Layout.sizeBits] at high; omega
    exact table32 ⟨e,bound⟩ env.maxFillPercent (by rcases percent with p | p <;> simp [p])

theorem expandIfNeeded_calm (wf : ht.WF ty) (env : Env)
    (allocated : ht.table0.bucketExp ≠ -1) (calm : ht.insertDisturbs ty env = false) :
    (ht.expandIfNeeded ty env).1 = ht ∨
      (ht.rehashIdx = none ∧ (ht.expandIfNeeded ty env).1.rehashIdx = some 0 ∧ (ht.expandIfNeeded ty env).1.table0 = ht.table0 ∧
        (ht.expandIfNeeded ty env).1.table1.childBuckets = ht.table1.childBuckets) := by
  simp only [insertDisturbs,or_eq_false_iff] at calm
  obtain ⟨noAbort,noSwap⟩ := calm
  cases running : ht.isRehashing with
  | true =>
    simp [expandIfNeeded,running,abortShrinkIfNeeded,noAbort]
  | false =>
    have idle := rehashIdx_eq_none running
    by_cases filled : L.wrap (L.wrap (ht.table0.used + 1) * 100) ≤
        L.wrap (L.wrap (numBuckets ht.table0.bucketExp * L.entriesPerBucket) * env.maxFillPercent)
    · simp [expandIfNeeded,running,filled]
    have used : ht.table0.used ≠ 0 := by
      intro unused
      have low := wf.first.expLow
      exact filled (unused ▸ not_overfilled_of_unused env (by omega) wf.first.expHigh)
    have nonnull : ht.table0.buckets.isEmpty = false := by
      have length := wf.first.length
      have positive := numBuckets_pos _ allocated
      cases buckets : ht.table0.buckets with
      | nil => rw [buckets,length_nil] at length; omega
      | cons c rest => rfl
    simp only [expandIfNeeded,running,filled] at noSwap ⊢
    rcases resize_cases ty env false (L.wrap (ht.table0.used + 1)) ht with ⟨same,_⟩ | ⟨exp,_,_,_,started⟩
    · exact Or.inl same
    · have slow : ty.instantRehashing = false := by simpa [started] using noSwap
      refine Or.inr ⟨idle,?_⟩
      simp [started,startRehashing,rehashingStarted,used,nonnull,slow]

theorem prepareInsert_paused {ty : HashtableType α κ} (env : Env) (paused : ht.pauseRehash ≠ 0)
    (wf : ht.WF ty) : ht.prepareInsert ty env = (ht.expandIfNeeded ty env).1 := by
  apply rehashStepIfPolicy_paused
  rw [(expandIfNeeded_rearranged wf env).framed.pauseRehash]
  exact paused

section
variable (wf : ht.WF ty) (env : Env) (allocated : ht.table0.bucketExp ≠ -1) (calm : ht.insertDisturbs ty env = false)
include wf env allocated calm

theorem table_expandIfNeeded (t : Fin 2) (present : (ht.table t).bucketExp ≠ -1) :
    (ht.expandIfNeeded ty env).1.table t = ht.table t := by
  rcases expandIfNeeded_calm wf env allocated calm with same | ⟨idle,_,first,_⟩
  · rw [same]
  revert t
  refine Fin.forall_fin_two.mpr ⟨fun _ => first,fun present => ?_⟩
  rw [table_one,wf.idle idle] at present
  simp [Table.reset] at present

theorem expandIfNeeded_anchored :
    Anchored ty ht (ht.expandIfNeeded ty env).1 := by
  have expanded := expandIfNeeded_rearranged wf env
  refine ⟨expanded.wf,expanded.framed,fun t present => ?_,?_⟩
  · rw [table_expandIfNeeded wf env allocated calm t present]
    exact ⟨rfl,rfl⟩
  intro r running
  rcases expandIfNeeded_calm wf env allocated calm with same | ⟨idle,_⟩
  · rw [same]
    exact running
  · simp [idle] at running

theorem slotAt_expandIfNeeded
    (held : ht.slotAt p = some s) : (ht.expandIfNeeded ty env).1.slotAt p = some s := by
  have present : (ht.table p.table).bucketExp ≠ -1 := by
    obtain ⟨-,-,-,bound,-⟩ := located_of_slotAt held
    apply allocated_of_numBuckets_pos
    rw [← (wf.table p.table).length]
    exact lt_of_le_of_lt (zero_le _) bound
  rw [slotAt,table_expandIfNeeded wf env allocated calm p.table present]
  exact held

end

section
variable (wf : ht.WF ty) (env : Env) (paused : ht.pauseRehash ≠ 0) (allocated : ht.table0.bucketExp ≠ -1) (calm : ht.insertDisturbs ty env = false) (entry : α)
include wf env paused allocated calm entry

theorem insert_paused (absent : ∀ s ∈ ht.slots, ty.entryGetKey s.entry ≠ ty.entryGetKey entry) :
    Anchored ty ht (ht.insert ty env (ty.hashOf entry) entry) ∧
      ∀ p s, ht.slotAt p = some s → (ht.insert ty env (ty.hashOf entry) entry).slotAt p = some s ∨
        ((ht.expandIfNeeded ty env).1.shifts (ty.hashOf entry) p = true ∧
          (ht.insert ty env (ty.hashOf entry) entry).slotAt p.shifted = some s) := by
  have expanded := expandIfNeeded_anchored wf env allocated calm
  have equal := insert_eq wf env (ty.hashOf entry) entry
  rw [prepareInsert_paused env paused wf] at equal
  constructor
  · refine expanded.trans ?_
    rw [equal]
    apply anchored_modifyTable
    · exact fun _ => rfl
    · exact fun _ => rfl
    · rw [← equal]
      exact (insert_spec wf env absent).wf
  · intro p s held
    exact slotAt_insertSlot expanded.wf equal (slotAt_expandIfNeeded wf env allocated calm held)

theorem chainsGrow_insert :
    ChainsGrow ht (ht.insert ty env (ty.hashOf entry) entry) := by
  have expanded := expandIfNeeded_rearranged wf env
  intro t present index c located
  rw [insert_eq wf env,prepareInsert_paused env paused wf] at located
  have same := table_expandIfNeeded wf env allocated calm t present
  rw [← same] at present ⊢
  have bound := expanded.wf.insertIndex_lt (expanded.allocated allocated) (ty.hashOf entry)
  have home := Table.getElem?_chain _ _ bound
  obtain ⟨_,_,count,_⟩ := Chain.findRoom_spec _ ((expanded.wf.table _).links _ (Table.chain_mem _ _ bound))
  refine chainsGrow_modifyTable _ home ?_ rfl t present index c located
  rw [Chain.childCount_modifyBucket,count]
  exact le_add_right _ _

theorem insert_origin (absent : ∀ s ∈ ht.slots, ty.entryGetKey s.entry ≠ ty.entryGetKey entry) (p : Position L) (s : Slot α)
    (held : (ht.insert ty env (ty.hashOf entry) entry).slotAt p = some s) :
    s.entry = entry ∨ ∃ q, ht.slotAt q = some s ∧
      (p = q ∨ (p = q.shifted ∧ (ht.expandIfNeeded ty env).1.shifts (ty.hashOf entry) q = true)) := by
  obtain ⟨nextWf,slots,_,_⟩ := insert_spec wf env absent
  have member := (mem_slots _ s).mpr ⟨p,held⟩
  rw [slots,Multiset.mem_cons] at member
  rcases member with rfl | old
  · exact Or.inl rfl
  obtain ⟨q,there⟩ := (mem_slots ht s).mp old
  refine Or.inr ⟨q,there,?_⟩
  rcases (insert_paused wf env paused allocated calm entry absent).2 q s there with same | ⟨shifted,moved⟩
  · exact Or.inl (nextWf.position_unique q p s s same held rfl)
  · exact Or.inr ⟨nextWf.position_unique q.shifted p s s moved held rfl,shifted⟩

end

def childBuckets (ht : Hashtable L α) : Nat := ht.table0.childBuckets + ht.table1.childBuckets

omit [Inhabited α] in
theorem childBuckets_modifyTable (ht : Hashtable L α) (t : Fin 2) (f : Table L α → Table L α) :
    (ht.modifyTable t f).childBuckets + (ht.table t).childBuckets = ht.childBuckets + (f (ht.table t)).childBuckets := by
  revert t
  refine Fin.forall_fin_two.mpr ⟨?_,?_⟩
  · simp only [childBuckets,modifyTable_zero,table_zero]
    omega
  · simp only [childBuckets,modifyTable_one,table_one]
    omega

theorem childBuckets_insert (wf : ht.WF ty) {env : Env} (paused : ht.pauseRehash ≠ 0)
    (allocated : ht.table0.bucketExp ≠ -1) (calm : ht.insertDisturbs ty env = false) (entry : α) :
    (ht.insert ty env (ty.hashOf entry) entry).childBuckets ≤ ht.childBuckets + 1 := by
  have expanded : (ht.expandIfNeeded ty env).1.childBuckets = ht.childBuckets := by
    rcases expandIfNeeded_calm wf env allocated calm with same | ⟨_,_,first,second⟩
    · rw [same]
    · rw [childBuckets,first,second,childBuckets]
  rw [insert_eq wf env,prepareInsert_paused env paused wf,← expanded]
  generalize (ht.expandIfNeeded ty env).1 = middle
  generalize middle.insertTable = t
  have changed := childBuckets_modifyTable middle t fun table => table.insertSlot (bucketIndex (ty.hashOf entry) table.bucketExp)
    (highBits (ty.hashOf entry)) entry
  have added := Chain.added_findRoom_le ((middle.table t).chain (bucketIndex (ty.hashOf entry) (middle.table t).bucketExp))
  simp only [Table.insertSlot] at changed ⊢
  omega

theorem clearPosition_eq (ht : Hashtable L α) (p : Position L) : ht.clearPosition p = ht.modifyTable p.table (fun table =>
    {table.setChain p.index ((table.chain p.index).modifyBucket p.depth (·.clearPresence p.pos)) with used := table.used - 1}) := by
  simp only [clearPosition,modifyBucket,decrementUsed,modifyTable_modifyTable]
  rfl

theorem slotAt_clearPosition_self (ht : Hashtable L α) (p : Position L) : (ht.clearPosition p).slotAt p = none := by
  rw [slotAt,table_clearPosition]
  simp only [Table.setChain]
  by_cases bound : p.index < (ht.table p.table).buckets.length
  · rw [getElem?_set_self bound,bind_some,Chain.slotAt_clearPresence,if_pos ⟨rfl,rfl⟩]
  · rw [getElem?_eq_none (by simpa using bound),bind_none]

theorem clearPosition_anchored (wf : ht.WF ty)
    (held : ht.slotAt p = some s) : Anchored ty ht (ht.clearPosition p) := by
  have cleared := (clearPosition_spec wf held).1
  rw [clearPosition_eq] at cleared ⊢
  exact anchored_modifyTable (fun _ => rfl) (fun _ => rfl) cleared

theorem chainsGrow_clearPosition (held : ht.slotAt p = some s) :
    ChainsGrow ht (ht.clearPosition p) := by
  obtain ⟨c,located,_⟩ := (slotAt_eq_some ht p s).mp held
  rw [clearPosition_eq]
  refine chainsGrow_modifyTable (c.modifyBucket p.depth (·.clearPresence p.pos)) located ?_ ?_
  · rw [Chain.childCount_modifyBucket]
  · simp [Table.setChain,Table.chain_eq _ _ c located]

theorem childBuckets_clearPosition (ht : Hashtable L α) (p : Position L) : (ht.clearPosition p).childBuckets = ht.childBuckets := by
  rw [clearPosition_eq]
  exact add_right_cancel (childBuckets_modifyTable ht p.table _)

variable [DecidableEq κ]

theorem findBucket_paused (ty : HashtableType α κ) (env : Env) (hash : BitVec 64) (key : κ) (ht : Hashtable L α)
    (paused : ht.pauseRehash ≠ 0) : (ht.findBucket ty env hash key).1 = ht := by
  unfold findBucket
  split
  · rfl
  · exact rehashStepIfPolicy_paused ty env .allow paused

theorem pop_paused (wf : ht.WF ty) (plain : ty.validateEntry = none) (env : Env)
    (key : κ) (paused : 0 < ht.pauseRehash) (pausedShrink : ht.pauseAutoShrink ≠ 0) :
    (∃ p s, ht.slotAt p = some s ∧ ty.entryGetKey s.entry = key ∧ ht.pop ty env key = (ht.clearPosition p,some s.entry)) ∨
      ((∀ s ∈ ht.slots, ty.entryGetKey s.entry ≠ key) ∧ ht.pop ty env key = (ht,none)) := by
  unfold pop
  split
  · rename_i vacant
    exact Or.inr ⟨by simp [wf.slots_eq_zero vacant],rfl⟩
  have unmoved := findBucket_paused ty env (ty.hashKey key) key ht (by omega)
  rcases findBucket_cases wf plain env key with ⟨next,p,s,result,_,held,equal⟩ | ⟨next,result,_,absent⟩
  · rw [result] at unmoved ⊢
    subst unmoved
    refine Or.inl ⟨p,s,held,equal,?_⟩
    have framed := (clearPosition_spec wf held).framed
    have stillPaused : (next.clearPosition p).isRehashingPaused = true := by
      simp [isRehashingPaused,framed.pauseRehash,paused]
    have unfilled : (next.clearPosition p).fillBucketHoleIfChained p = next.clearPosition p := by
      simp [fillBucketHoleIfChained,stillPaused]
    have unshrunk : ((next.clearPosition p).shrinkIfNeeded ty env).1 = next.clearPosition p := by
      simp [shrinkIfNeeded,framed.pauseAutoShrink,pausedShrink]
    simp [unfilled,unshrunk,entryAt_eq next p s held]
  · rw [result] at unmoved ⊢
    subst unmoved
    exact Or.inr ⟨absent,rfl⟩

theorem add_paused (wf : ht.WF ty) (plain : ty.validateEntry = none) (env : Env)
    (entry : α) (paused : ht.pauseRehash ≠ 0) :
    ht.add ty env entry = (ht,false) ∨ ((∀ s ∈ ht.slots, ty.entryGetKey s.entry ≠ ty.entryGetKey entry) ∧
      ht.add ty env entry = (ht.insert ty env (ty.hashOf entry) entry,true)) := by
  have unmoved := findBucket_paused ty env (ty.hashKey (ty.entryGetKey entry)) (ty.entryGetKey entry) ht paused
  rcases findBucket_cases wf plain env (ty.entryGetKey entry) with ⟨next,p,s,result,_,held,_⟩ | ⟨next,result,_,absent⟩
  · rw [result] at unmoved
    subst unmoved
    left
    simp [add,addOrFind,result,entryAt_eq next p s held]
  · rw [result] at unmoved
    subst unmoved
    exact Or.inr ⟨absent,by simp only [add,addOrFind,result]; rfl⟩

end Positions

def Position.Before (p q : Position L) : Prop := q = p ∨ (q.table = p.table ∧ q.index = p.index ∧ p.depth < q.depth)

theorem Position.Before.trans {q r : Position L} (first : p.Before q) (second : q.Before r) : p.Before r := by
  rcases first with rfl | ⟨table,index,deeper⟩
  · exact second
  · rcases second with rfl | ⟨nextTable,nextIndex,nextDeeper⟩
    · exact Or.inr ⟨table,index,deeper⟩
    · exact Or.inr ⟨nextTable.trans table,nextIndex.trans index,deeper.trans nextDeeper⟩

/-- What insertions and deletions of one key do to the slots of a paused table. -/
structure Forward (ty : HashtableType α κ) (key : κ) (ht next : Hashtable L α) : Prop where
  anchored : Anchored ty ht next
  kept : ∀ p s, ht.slotAt p = some s → ty.entryGetKey s.entry = key ∨ ∃ q, next.slotAt q = some s ∧ p.Before q

theorem Forward.refl {key : κ} (wf : ht.WF ty) : Forward ty key ht ht :=
  ⟨.refl wf,fun p _ held => Or.inr ⟨p,held,Or.inl rfl⟩⟩

theorem Forward.trans {key : κ} {middle : Hashtable L α} (first : Forward ty key ht middle)
    (second : Forward ty key middle next) : Forward ty key ht next := by
  refine ⟨first.anchored.trans second.anchored,?_⟩
  intro p s held
  rcases first.kept p s held with same | ⟨q,there,before⟩
  · exact Or.inl same
  · rcases second.kept q s there with same | ⟨r,final,after⟩
    · exact Or.inl same
    · exact Or.inr ⟨r,final,before.trans after⟩

section Callbacks
variable [Inhabited α] [DecidableEq κ]

theorem add_forward (wf : ht.WF ty) (plain : ty.validateEntry = none) {env : Env}
    {entry : α} (key : κ) (paused : ht.pauseRehash ≠ 0) (allocated : ht.table0.bucketExp ≠ -1)
    (calm : ((ht.add ty env entry).2 && ht.insertDisturbs ty env) = false) :
    Forward ty key ht (ht.add ty env entry).1 ∧ (ht.add ty env entry).1.childBuckets ≤ ht.childBuckets + 1 := by
  rcases add_paused wf plain env entry paused with found | ⟨absent,added⟩
  · rw [found]
    exact ⟨.refl wf,le_succ _⟩
  rw [added] at calm ⊢
  obtain ⟨anchored,kept⟩ := insert_paused wf env paused allocated calm entry absent
  refine ⟨⟨anchored,?_⟩,childBuckets_insert wf paused allocated calm entry⟩
  intro p s held
  rcases kept p s held with same | ⟨_,moved⟩
  · exact Or.inr ⟨p,same,Or.inl rfl⟩
  · exact Or.inr ⟨p.shifted,moved,Or.inr ⟨rfl,rfl,lt_succ_self _⟩⟩

theorem delete_forward (wf : ht.WF ty) (plain : ty.validateEntry = none) (env : Env)
    (key : κ) (paused : 0 < ht.pauseRehash) (pausedShrink : ht.pauseAutoShrink ≠ 0) :
    Forward ty key ht (ht.delete ty env key).1 ∧ (ht.delete ty env key).1.childBuckets = ht.childBuckets := by
  rcases pop_paused wf plain env key paused pausedShrink with ⟨p,s,held,same,popped⟩ | ⟨_,popped⟩
  · simp only [delete,popped]
    refine ⟨⟨clearPosition_anchored wf held,?_⟩,childBuckets_clearPosition ht p⟩
    intro q x there
    by_cases here : q = p
    · subst here
      rw [held] at there
      exact Or.inl (Option.some.inj there ▸ same)
    · exact Or.inr ⟨q,by rw [slotAt_clearPosition_of_ne ht here]; exact there,Or.inl rfl⟩
  · simp only [delete,popped]
    exact ⟨.refl wf,trivial⟩

end Callbacks

section Pauses
variable [Inhabited α]

theorem childBuckets_pop [DecidableEq κ] (wf : ht.WF ty) (plain : ty.validateEntry = none)
    (env : Env) (key : κ) (paused : 0 < ht.pauseRehash) (pausedShrink : ht.pauseAutoShrink ≠ 0) :
    (ht.pop ty env key).1.childBuckets = ht.childBuckets := by
  rcases pop_paused wf plain env key paused pausedShrink with ⟨p,_,_,_,popped⟩ | ⟨_,popped⟩
  · rw [popped]
    exact childBuckets_clearPosition ht p
  · rw [popped]

theorem childBuckets_twoPhasePopDelete (wf : ht.WF ty) (fit : ht.PausesFit) (env : Env) (held : ht.slotAt p = some s) (paused : 0 < ht.pauseRehash) (pausedShrink : 0 < ht.pauseAutoShrink) :
    (ht.hashtablePauseRehashing.twoPhasePopDelete ty env p).childBuckets = ht.childBuckets := by
  have room := fit.autoShrinkRoom
  obtain ⟨cleared,-,clearedEq,rfl,deleted,_⟩ := twoPhasePopDelete_eq wf fit env held
  have stays : cleared.isRehashingPaused = true := by
    rw [clearedEq]
    exact decide_eq_true paused
  have shrink : cleared.pauseAutoShrink = ht.pauseAutoShrink + 1 := by rw [clearedEq,withPauses_pauseAutoShrink]
  have unfilled : cleared.fillBucketHoleIfChained p = cleared := by simp [fillBucketHoleIfChained,stays]
  rw [deleted,unfilled,hashtableResumeAutoShrink]
  rw [shrink,add_sub_cancel_right,int16_eq (by omega) (by omega),if_neg pausedShrink.ne']
  rw [clearedEq]
  exact childBuckets_clearPosition ht.hashtablePauseRehashing p

theorem childBuckets_compactBucketChain_le (index : Nat) (t : Fin 2) (ht : Hashtable L α) :
    (ht.compactBucketChain index t).childBuckets ≤ ht.childBuckets := by
  revert t
  exact Fin.forall_fin_two.mpr ⟨Nat.add_le_add_right (sub_le _ _) _,Nat.add_le_add_left (sub_le _ _) _⟩

theorem compactBucketChain_any (wf : ht.WF ty) (index : Nat) (t : Fin 2) :
    Reshaped ty ht (ht.compactBucketChain index t) := by
  by_cases bound : index < (ht.table t).buckets.length
  · exact compactBucketChain_rearranged wf index t bound
  have vacant : ∀ table : Table L α, table.buckets.length ≤ index → table.rechain index Chain.compactBucketChain = table := by
    intro table outside
    have nothing : table.chain index = Chain.empty := by simp [Table.chain,getElem?_eq_none outside]
    simp [nothing,Chain.empty,Chain.compactBucketChain,Chain.compactLoop,Table.rechain,Table.setChain,set_eq_of_length_le outside]
  have same : ht.compactBucketChain index t = ht := by
    rw [compactBucketChain,modifyTable_eq ht t _ (vacant (ht.table t) (Nat.le_of_not_lt bound)),modifyTable_same]
  rw [same]
  exact .refl wf

theorem hashtableResumeRehashing_rearranged (wf : ht.WF ty) (env : Env)
    (rehash : ht.pauseRehash = 1) (autoShrink : ht.pauseAutoShrink = 1) :
    Reshaped ty (ht.withPauses 0 0) (ht.hashtableResumeRehashing ty env) := by
  have resumed := hashtableResumeAutoShrink_rearranged (wf.withPauses 0 1) env (by simp) (by simp)
  have same : ht.hashtableResumeRehashing ty env = (ht.withPauses 0 1).hashtableResumeAutoShrink ty env := by
    simp only [hashtableResumeRehashing,rehash,autoShrink]
    rfl
  rw [same]
  exact resumed

end Pauses

end ValkeyWasm.Hashtable
