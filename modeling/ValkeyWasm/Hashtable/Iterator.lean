import ValkeyWasm.Hashtable.ScanCallback

/-! Safe iterators.
`hashtableNext` walks over the positions of the tables in lexicographic order. One step
of its loop either stays in the table it found or, at the end of a chain, compacts that
chain; in both cases the slots ahead of the iterator stay ahead of it or come under it. -/
namespace ValkeyWasm.Hashtable
open List Option Bool Nat

variable {L : Layout} {α κ : Type*}

/-- `iter` of a safe iterator; it is live unless `hashtable` is null. -/
structure Iter (L : Layout) where
  live : Bool
  table : Fin 2
  index : Int
  bucket : BucketRef
  posInBucket : L.Pos
  lastSeenSize : Nat

def Iter.fresh (it : Iter L) : Bool := decide (it.index = -1) && decide (it.table = 0)

def hashtableInitIterator (ht : Hashtable L α) : Hashtable L α × Iter L :=
  ({ht with safeIterators := ht.safeIterators + 1},⟨true,0,-1,⟨0,0,0⟩,L.firstPos,0⟩)

/-- One round of the loop of `hashtableNext`, up to the test of the position. Without
`more` the loop is left. -/
structure Advance (L : Layout) (α : Type*) where
  hashtable : Hashtable L α
  iter : Iter L
  more : Bool

def beginIteration (it : Iter L) (ht : Hashtable L α) : Advance L α :=
  let paused := ht.hashtablePauseRehashing
  let seen : Iter L := {it with lastSeenSize := (paused.table it.table).used}
  if paused.table0.buckets.isEmpty then ⟨paused,seen,false⟩
  else
    let index := paused.rehashIdx.getD 0
    ⟨paused,{seen with index := index, bucket := ⟨(paused.table it.table).address,index,0⟩, posInBucket := L.firstPos},true⟩

section Stepping
variable [Inhabited α]

def leaveIndex (it : Iter L) (ht : Hashtable L α) : Advance L α :=
  let compacted := if ht.pauseRehash = 1 ∧ (ht.table it.table).used < it.lastSeenSize
    then ht.compactBucketChain it.index.toNat it.table else ht
  let seen : Iter L := {it with lastSeenSize := (compacted.table it.table).used, posInBucket := L.firstPos, index := it.index + 1}
  if numBuckets (compacted.table it.table).bucketExp ≤ seen.index.toNat then
    if compacted.isRehashing && decide (it.table = 0) then
      ⟨compacted,{seen with index := 0, table := 1, bucket := ⟨(compacted.table 1).address,0,0⟩},true⟩
    else ⟨compacted,seen,false⟩
  else ⟨compacted,{seen with bucket := ⟨(compacted.table it.table).address,seen.index.toNat,0⟩},true⟩

def Iter.advance (it : Iter L) (ht : Hashtable L α) : Advance L α :=
  if it.fresh then beginIteration it ht
  else if ht.chainedOf it.bucket && decide (L.entriesPerBucket - 1 ≤ it.posInBucket.val + 1) then
    ⟨ht,{it with posInBucket := L.firstPos, bucket := {it.bucket with depth := it.bucket.depth + 1}},true⟩
  else if inside : it.posInBucket.val + 1 < L.entriesPerBucket then
    ⟨ht,{it with posInBucket := ⟨it.posInBucket.val + 1,inside⟩},true⟩
  else leaveIndex it ht

def hashtableCleanupIterator (ty : HashtableType α κ) (env : Env) (it : Iter L) (ht : Hashtable L α) : Hashtable L α :=
  if !it.live then ht
  else
    let resumed := if it.fresh then ht else ht.hashtableResumeRehashing ty env
    {resumed with safeIterators := resumed.safeIterators - 1}

/-- The loop of `hashtableNext`; the error is the state in which its rounds ran out. -/
def nextLoop (ty : HashtableType α κ) (env : Env) : Nat → Iter L → Hashtable L α → Except (Hashtable L α) (Hashtable L α × Iter L × Option α)
  | 0, _, ht => .error ht
  | rounds + 1, it, ht =>
    let step := it.advance ht
    if !step.more then .ok (hashtableCleanupIterator ty env step.iter step.hashtable,{step.iter with live := false},none)
    else
      match step.hashtable.slotOf step.iter.bucket step.iter.posInBucket with
      | none => nextLoop ty env rounds step.iter step.hashtable
      | some slot =>
        if ty.validateElementIfNeeded slot.entry then .ok (step.hashtable,step.iter,some slot.entry)
        else nextLoop ty env rounds step.iter step.hashtable

def positionCount (ht : Hashtable L α) : Nat :=
  (numBuckets ht.table0.bucketExp + ht.table0.childBuckets + (numBuckets ht.table1.bucketExp + ht.table1.childBuckets)) * L.entriesPerBucket

/-- `hashtableNext`. The loop visits a position at most once. -/
def hashtableNext (ty : HashtableType α κ) (env : Env) (it : Iter L) (ht : Hashtable L α) :
    Except (Hashtable L α) (Hashtable L α × Iter L × Option α) :=
  if !it.live then .ok (ht,it,none) else nextLoop ty env (ht.positionCount + 2) it ht

end Stepping

def Position.Precedes (p q : Position L) : Prop :=
  p.table < q.table ∨ (p.table = q.table ∧ (p.index < q.index ∨ (p.index = q.index ∧
    (p.depth < q.depth ∨ (p.depth = q.depth ∧ p.pos.val < q.pos.val)))))

theorem Position.Precedes.irrefl (p : Position L) : ¬p.Precedes p := by
  unfold Position.Precedes
  omega

def Iter.position (it : Iter L) : Option (Position L) :=
  bif it.fresh then none else some ⟨it.table,it.bucket.index,it.bucket.depth,it.posInBucket⟩

def Iter.Ahead (it : Iter L) (p : Position L) : Prop := ∀ q, it.position = some q → q.Precedes p

def Iter.Reaches (it : Iter L) (p : Position L) : Prop := it.position = some p ∨ it.Ahead p

variable {it : Iter L}

theorem Iter.Ahead.ne_position {p : Position L} (ahead : it.Ahead p) : it.position ≠ some p :=
  fun here => Position.Precedes.irrefl p (ahead p here)

structure Iter.Placed (it : Iter L) (ht : Hashtable L α) : Prop where
  started : it.fresh = false
  live : it.live = true
  index : it.index = it.bucket.index
  allocated : (ht.table it.table).bucketExp ≠ -1
  address : it.bucket.address = (ht.table it.table).address
  inside : it.bucket.index < numBuckets (ht.table it.table).bucketExp
  deep : ∀ c, (ht.table it.table).buckets[it.bucket.index]? = some c → it.bucket.depth ≤ c.childCount

variable {ht : Hashtable L α}

theorem Iter.Placed.position_eq (placed : it.Placed ht) :
    it.position = some ⟨it.table,it.bucket.index,it.bucket.depth,it.posInBucket⟩ := by
  simp [Iter.position,placed.started]

theorem Iter.Placed.ahead_iff (placed : it.Placed ht) (p : Position L) :
    it.Ahead p ↔ (⟨it.table,it.bucket.index,it.bucket.depth,it.posInBucket⟩ : Position L).Precedes p := by
  simp [Iter.Ahead,placed.position_eq]

theorem Iter.Placed.reaches_iff (placed : it.Placed ht) (p : Position L) :
    it.Reaches p ↔ (it.table < p.table ∨ (it.table = p.table ∧ (it.bucket.index < p.index ∨ (it.bucket.index = p.index ∧
      (it.bucket.depth < p.depth ∨ (it.bucket.depth = p.depth ∧ it.posInBucket.val ≤ p.pos.val)))))) := by
  rw [Iter.Reaches,placed.ahead_iff,placed.position_eq,some.injEq,Position.Precedes]
  obtain ⟨-,-,-,-⟩ := p
  simp only [Position.mk.injEq,Fin.ext_iff]
  omega

variable {ty : HashtableType α κ}

theorem Iter.Placed.index_lt (placed : it.Placed ht) (wf : ht.WF ty) : it.bucket.index < (ht.table it.table).buckets.length := by
  rw [(wf.table it.table).length]
  exact placed.inside

theorem Iter.Placed.anchored {next : Hashtable L α} (placed : it.Placed ht)
    (anchored : Anchored ty ht next) (grown : ChainsGrow ht next) : it.Placed next := by
  obtain ⟨exp,address⟩ := anchored.tables it.table placed.allocated
  refine ⟨placed.started,placed.live,placed.index,exp ▸ placed.allocated,placed.address.trans address.symm,exp ▸ placed.inside,?_⟩
  intro c located
  obtain ⟨d,earlier,le⟩ := grown it.table placed.allocated it.bucket.index c located
  exact (placed.deep d earlier).trans le

def Iter.base (it : Iter L) (ht : Hashtable L α) : Hashtable L α := bif it.fresh then ht.hashtablePauseRehashing else ht

structure Stepped (ty : HashtableType α κ) (ht : Hashtable L α) (it : Iter L) (nextHt : Hashtable L α) (next : Iter L) : Prop where
  anchored : Anchored ty (it.base ht) nextHt
  placed : next.Placed nextHt
  back : ∀ p s, nextHt.slotAt p = some s → next.Reaches p → ht.slotAt p = some s ∧ it.Ahead p
  forth : ∀ p s, ht.slotAt p = some s → it.Ahead p → nextHt.slotAt p = some s ∧ next.Reaches p
  passed : ∀ p s, ht.slotAt p = some s → ¬it.Ahead p → ∃ q, nextHt.slotAt q = some s ∧ ¬next.Reaches q

variable {next : Iter L}

theorem Stepped.trans {middleHt nextHt : Hashtable L α} {middle : Iter L}
    (first : Stepped ty ht it middleHt middle) (vacant : ∀ p, middle.position = some p → middleHt.slotAt p = none)
    (second : Stepped ty middleHt middle nextHt next) : Stepped ty ht it nextHt next := by
  have ahead : ∀ p s, middleHt.slotAt p = some s → middle.Reaches p → middle.Ahead p := by
    intro p s held reaches
    rcases reaches with here | ahead
    · rw [vacant p here] at held
      simp at held
    · exact ahead
  have base : middle.base middleHt = middleHt := by simp [Iter.base,first.placed.started]
  refine ⟨first.anchored.trans (base ▸ second.anchored),second.placed,?_,?_,?_⟩
  · intro p s held reaches
    obtain ⟨between,later⟩ := second.back p s held reaches
    exact first.back p s between (Or.inr later)
  · intro p s held later
    obtain ⟨between,reaches⟩ := first.forth p s held later
    exact second.forth p s between (ahead p s between reaches)
  · intro p s held done
    obtain ⟨q,between,unreached⟩ := first.passed p s held done
    exact second.passed q s between (fun later => unreached (Or.inr later))

theorem stepped_of_ahead_iff (wf : ht.WF ty)
    (placed : it.Placed ht) (nextPlaced : next.Placed ht)
    (agree : ∀ p s, ht.slotAt p = some s → (it.Ahead p ↔ next.Reaches p)) : Stepped ty ht it ht next := by
  have base : it.base ht = ht := by simp [Iter.base,placed.started]
  refine ⟨base.symm ▸ .refl wf,nextPlaced,?_,?_,?_⟩
  · exact fun p s held reaches => ⟨held,(agree p s held).mpr reaches⟩
  · exact fun p s held later => ⟨held,(agree p s held).mp later⟩
  · exact fun p s held done => ⟨p,held,fun reaches => done ((agree p s held).mpr reaches)⟩

structure Tidied (ty : HashtableType α κ) (t : Fin 2) (index : Nat) (ht next : Hashtable L α) : Prop where
  anchored : Anchored ty ht next
  elsewhere : ∀ p : Position L, (p.table,p.index) ≠ (t,index) → next.slotAt p = ht.slotAt p
  within : ∀ p s, (p.table,p.index) = (t,index) → ht.slotAt p = some s → ∃ q, (q.table,q.index) = (t,index) ∧ next.slotAt q = some s

theorem Tidied.refl (wf : ht.WF ty) (t : Fin 2) (index : Nat) : Tidied ty t index ht ht :=
  ⟨.refl wf,fun _ _ => rfl,fun p _ here held => ⟨p,here,held⟩⟩

theorem index_lt_of_slotAt (wf : ht.WF ty) {p : Position L} {s : Slot α}
    (held : ht.slotAt p = some s) : p.index < numBuckets (ht.table p.table).bucketExp := by
  obtain ⟨c,located,_⟩ := (slotAt_eq_some ht p s).mp held
  rw [← (wf.table p.table).length]
  exact (List.getElem?_eq_some_iff.mp located).1

theorem sum_succ_mul (counts : List Nat) (k : Nat) : (counts.map (fun n => (n + 1) * k)).sum = (counts.length + counts.sum) * k := by
  induction counts with
  | nil => simp
  | cons n rest ih =>
    simp only [map_cons,sum_cons,length_cons,ih]
    ring

def Table.positionsFrom (table : Table L α) (index : Nat) : Nat :=
  ((table.buckets.drop index).map (fun c => (c.childCount + 1) * L.entriesPerBucket)).sum

theorem Table.positionsFrom_zero {table : Table L α} (wf : table.WF ty) :
    table.positionsFrom 0 = (numBuckets table.bucketExp + table.childBuckets) * L.entriesPerBucket := by
  have total := sum_succ_mul (table.buckets.map Chain.childCount) L.entriesPerBucket
  rw [List.map_map,length_map,wf.length] at total
  rw [wf.children]
  exact total

theorem WF.positionCount_eq (wf : ht.WF ty) :
    ht.table0.positionsFrom 0 + ht.table1.positionsFrom 0 = ht.positionCount := by
  rw [Table.positionsFrom_zero wf.first,Table.positionsFrom_zero wf.second,positionCount,← add_mul]

def Iter.Ready (it : Iter L) (ht : Hashtable L α) : Prop := (it.fresh = true ∧ it.live = true ∧ ht.PausesFit) ∨ it.Placed ht

theorem Iter.Ready.live (ready : it.Ready ht) : it.live = true := by
  rcases ready with fresh | placed
  · exact fresh.2.1
  · exact placed.live

theorem unchained_of_past (level : ¬(ht.chainedOf it.bucket && decide (L.entriesPerBucket - 1 ≤ it.posInBucket.val + 1)) = true)
    (past : ¬it.posInBucket.val + 1 < L.entriesPerBucket) : ht.chainedOf it.bucket = false := by
  by_contra linked
  exact level (by simp [linked]; omega)

section Rounds
variable [Inhabited α]

theorem advance_within (wf : ht.WF ty) (placed : it.Placed ht)
    (stays : (ht.chainedOf it.bucket && decide (L.entriesPerBucket - 1 ≤ it.posInBucket.val + 1)) = true ∨
      it.posInBucket.val + 1 < L.entriesPerBucket) :
    (it.advance ht).more = true ∧ Stepped ty ht it (it.advance ht).hashtable (it.advance ht).iter := by
  have bound := placed.index_lt wf
  have links := (wf.table it.table).links _ (Table.chain_mem _ _ bound)
  have chained := wf.chainedOf_eq it.table placed.allocated it.bucket placed.address placed.inside
  simp only [Iter.advance,placed.started,Bool.false_eq_true,if_false]
  split
  · rename_i down
    simp only [and_eq_true,decide_eq_true_eq] at down
    have nextPlaced : Iter.Placed {it with posInBucket := L.firstPos, bucket := {it.bucket with depth := it.bucket.depth + 1}} ht := by
      refine ⟨placed.started,placed.live,placed.index,placed.allocated,placed.address,placed.inside,?_⟩
      intro c located
      rw [chained,Table.chain_eq _ _ c located] at down
      exact Chain.lt_childCount_of_chainedAt c _ down.1
    refine ⟨rfl,stepped_of_ahead_iff wf placed nextPlaced ?_⟩
    intro p s held
    rw [placed.ahead_iff,nextPlaced.reaches_iff,Position.Precedes]
    -- the word that is skipped holds the child pointer, not an entry
    have usable : it.table = p.table → it.bucket.index = p.index → it.bucket.depth = p.depth → p.pos.val + 1 < L.entriesPerBucket := by
      intro table index depth
      obtain ⟨c,located,inside⟩ := (slotAt_eq_some ht p s).mp held
      rw [← table,← index] at located
      rw [Table.chain_eq _ _ c located] at links chained
      have apart := Chain.usable_of_slotAt c p.depth p.pos s links inside (by rw [← depth,← chained]; exact down.1)
      have last : p.pos.val ≠ L.entriesPerBucket - 1 := fun equal => apart (Fin.ext equal)
      omega
    have first : L.firstPos.val = 0 := rfl
    simp only [first]
    omega
  · rename_i level
    have inside : it.posInBucket.val + 1 < L.entriesPerBucket := stays.resolve_left level
    rw [dif_pos inside]
    have nextPlaced : Iter.Placed {it with posInBucket := ⟨it.posInBucket.val + 1,inside⟩} ht :=
      ⟨placed.started,placed.live,placed.index,placed.allocated,placed.address,placed.inside,placed.deep⟩
    refine ⟨rfl,stepped_of_ahead_iff wf placed nextPlaced ?_⟩
    intro p s _
    rw [placed.ahead_iff,nextPlaced.reaches_iff,Position.Precedes]
    dsimp only
    omega

theorem compactBucketChain_tidied (wf : ht.WF ty) {t : Fin 2} {index : Nat}
    (bound : index < (ht.table t).buckets.length) : Tidied ty t index ht (ht.compactBucketChain index t) := by
  have rearranged := compactBucketChain_rearranged wf index t bound
  refine ⟨?_,fun p apart => slotAt_rechain ht t index _ p apart,?_⟩
  · apply anchored_modifyTable
    · exact fun _ => rfl
    · exact fun _ => rfl
    · exact rearranged.wf
  intro p s here held
  obtain ⟨c,located,inside⟩ := (slotAt_eq_some ht p s).mp held
  obtain ⟨table,same⟩ := Prod.mk.inj here
  rw [table,same] at located
  have links := (wf.table t).links c (mem_of_getElem? located)
  have stored : s ∈ c.compactBucketChain.1.slots := by
    rw [(Chain.compactBucketChain_spec c links).same]
    exact (Chain.mem_slots c s).mpr ⟨p.depth,p.pos,inside⟩
  obtain ⟨depth,pos,there⟩ := (Chain.mem_slots _ s).mp stored
  refine ⟨⟨t,index,depth,pos⟩,rfl,(slotAt_eq_some _ _ s).mpr ⟨c.compactBucketChain.1,?_,there⟩⟩
  simp only [compactBucketChain,table_modifyTable,Table.chain_eq _ _ c located]
  exact getElem?_set_self bound

section
variable (wf : ht.WF ty) (placed : it.Placed ht)
    (final : ht.chainedOf it.bucket = false) (past : ¬it.posInBucket.val + 1 < L.entriesPerBucket)
include wf placed final past

theorem ahead_iff_later (p : Position L) (s : Slot α) (held : ht.slotAt p = some s) :
    it.Ahead p ↔ it.table < p.table ∨ (it.table = p.table ∧ it.bucket.index < p.index) := by
  have chained := wf.chainedOf_eq it.table placed.allocated it.bucket placed.address placed.inside
  have shallow : it.table = p.table → it.bucket.index = p.index → p.depth ≤ it.bucket.depth := by
    intro table index
    obtain ⟨c,located,inside⟩ := (slotAt_eq_some ht p s).mp held
    rw [← table,← index] at located
    rw [Table.chain_eq _ _ c located] at chained
    exact Chain.depth_le_of_not_chainedAt c _ _ _ s (chained.symm.trans final) inside
  rw [placed.ahead_iff,Position.Precedes]
  dsimp only
  omega

theorem stepped_of_tidied {middle : Hashtable L α} (tidied : Tidied ty it.table it.bucket.index ht middle) (nextPlaced : next.Placed middle)
    (reach : ∀ p s, ht.slotAt p = some s → (it.table < p.table ∨ (it.table = p.table ∧ it.bucket.index < p.index) ↔ next.Reaches p))
    (unreached : ∀ p : Position L, (p.table,p.index) = (it.table,it.bucket.index) → ¬next.Reaches p) :
    Stepped ty ht it middle next := by
  have base : it.base ht = ht := by simp [Iter.base,placed.started]
  have later := ahead_iff_later wf placed final past
  refine ⟨base.symm ▸ tidied.anchored,nextPlaced,?_,?_,?_⟩
  · intro p s held reaches
    have apart : (p.table,p.index) ≠ (it.table,it.bucket.index) := fun here => unreached p here reaches
    rw [tidied.elsewhere p apart] at held
    exact ⟨held,(later p s held).mpr ((reach p s held).mpr reaches)⟩
  · intro p s held ahead
    have reaches := (reach p s held).mp ((later p s held).mp ahead)
    rw [tidied.elsewhere p (fun here => unreached p here reaches)]
    exact ⟨held,reaches⟩
  intro p s held done
  by_cases here : (p.table,p.index) = (it.table,it.bucket.index)
  · obtain ⟨q,there,moved⟩ := tidied.within p s here held
    exact ⟨q,moved,unreached q there⟩
  · refine ⟨p,by rw [tidied.elsewhere p here]; exact held,?_⟩
    exact fun reaches => done ((later p s held).mpr ((reach p s held).mpr reaches))

theorem leaveIndex_spec :
    Anchored ty ht (leaveIndex it ht).hashtable ∧
      ((leaveIndex it ht).more = true → Stepped ty ht it (leaveIndex it ht).hashtable (leaveIndex it ht).iter) ∧
      ((leaveIndex it ht).more = false → ∀ p s, ht.slotAt p = some s → ¬it.Ahead p) := by
  have bound := placed.index_lt wf
  have same : it.index.toNat = it.bucket.index := by rw [placed.index,Int.toNat_natCast]
  have tidied : Tidied ty it.table it.bucket.index ht (if ht.pauseRehash = 1 ∧ (ht.table it.table).used < it.lastSeenSize
      then ht.compactBucketChain it.index.toNat it.table else ht) := by
    rw [same]
    split
    · exact compactBucketChain_tidied wf bound
    · exact .refl wf _ _
  unfold leaveIndex
  generalize (if ht.pauseRehash = 1 ∧ (ht.table it.table).used < it.lastSeenSize
      then ht.compactBucketChain it.index.toNat it.table else ht) = middle at tidied
  obtain ⟨exp,-⟩ := tidied.anchored.tables it.table placed.allocated
  have nextIndex : (it.index + 1).toNat = it.bucket.index + 1 := by rw [placed.index]; omega
  have first : L.firstPos.val = 0 := rfl
  dsimp only
  rw [exp,nextIndex]
  split
  · split
    · -- on to table 1
      rename_i crossing
      simp only [and_eq_true,decide_eq_true_eq] at crossing
      refine ⟨tidied.anchored,fun _ => ?_,by simp⟩
      obtain ⟨r,running⟩ := isSome_iff_exists.mp crossing.1
      have allocated : middle.table1.bucketExp ≠ -1 := (tidied.anchored.wf.running r running).2.1
      have nextPlaced : Iter.Placed (⟨it.live,1,0,⟨(middle.table 1).address,0,0⟩,L.firstPos,(middle.table it.table).used⟩ : Iter L) middle :=
        ⟨by simp [Iter.fresh],placed.live,rfl,allocated,rfl,numBuckets_pos _ allocated,fun _ _ => zero_le _⟩
      apply stepped_of_tidied wf placed final past tidied nextPlaced
      · intro p s held
        have inside := index_lt_of_slotAt wf held
        have same : p.table = it.table → p.index < it.bucket.index + 1 := by
          intro table
          rw [table] at inside
          omega
        rw [nextPlaced.reaches_iff]
        dsimp only
        omega
      · intro p here reaches
        have table := (Prod.mk.inj here).1
        rw [nextPlaced.reaches_iff] at reaches
        dsimp only at reaches
        omega
    · rename_i staying
      refine ⟨tidied.anchored,by simp,fun _ => ?_⟩
      intro p s held ahead
      have inside := index_lt_of_slotAt wf held
      rcases (ahead_iff_later wf placed final past p s held).mp ahead with table | ⟨table,index⟩
      · have rehashing := (wf.inPlace p s held).rehashing (by omega)
        obtain ⟨r,running⟩ := isSome_iff_exists.mp rehashing
        apply staying
        simp only [isRehashing,tidied.anchored.rehashIdx r running,isSome_some,Bool.true_and,decide_eq_true_eq]
        omega
      · rw [← table] at inside
        omega
  · refine ⟨tidied.anchored,fun _ => ?_,by simp⟩
    have nextPlaced : Iter.Placed (⟨it.live,it.table,it.index + 1,⟨(middle.table it.table).address,it.bucket.index + 1,0⟩,
        L.firstPos,(middle.table it.table).used⟩ : Iter L) middle := by
      refine ⟨?_,placed.live,?_,exp ▸ placed.allocated,rfl,by dsimp only; rw [exp]; omega,fun _ _ => zero_le _⟩
      · have positive : it.index + 1 ≠ -1 := by rw [placed.index]; omega
        simp [Iter.fresh,positive]
      · rw [placed.index]
        rfl
    apply stepped_of_tidied wf placed final past tidied nextPlaced
    · intro p s _
      rw [nextPlaced.reaches_iff]
      dsimp only
      omega
    intro p here reaches
    obtain ⟨table,index⟩ := Prod.mk.inj here
    rw [nextPlaced.reaches_iff] at reaches
    dsimp only at reaches
    omega

end

theorem Table.positionsFrom_succ {table : Table L α} {index : Nat} (bound : index < table.buckets.length) :
    table.positionsFrom index = ((table.chain index).childCount + 1) * L.entriesPerBucket + table.positionsFrom (index + 1) := by
  rw [positionsFrom,drop_eq_getElem_cons bound,map_cons,sum_cons,getElem_eq_chain table index bound,positionsFrom]

theorem Table.positionsFrom_le (table : Table L α) (index : Nat) : table.positionsFrom index ≤ table.positionsFrom 0 := by
  induction index with
  | zero => exact le_rfl
  | succ index ih =>
    by_cases bound : index < table.buckets.length
    · have split := positionsFrom_succ bound
      omega
    · rw [positionsFrom,drop_of_length_le (by omega)]
      exact zero_le _

def Iter.remaining (it : Iter L) (ht : Hashtable L α) : Nat :=
  bif it.fresh then ht.positionCount + 1
  else (((ht.table it.table).chain it.bucket.index).childCount - it.bucket.depth) * L.entriesPerBucket +
    (L.entriesPerBucket - 1 - it.posInBucket.val) + (ht.table it.table).positionsFrom (it.bucket.index + 1) +
    (if it.table = 0 then ht.table1.positionsFrom 0 else 0)

theorem Iter.remaining_started (ht : Hashtable L α) (started : it.fresh = false) :
    it.remaining ht = (((ht.table it.table).chain it.bucket.index).childCount - it.bucket.depth) * L.entriesPerBucket +
      (L.entriesPerBucket - 1 - it.posInBucket.val) + (ht.table it.table).positionsFrom (it.bucket.index + 1) +
      (if it.table = 0 then ht.table1.positionsFrom 0 else 0) := by
  simp [Iter.remaining,started]

theorem Iter.remaining_first (ht : Hashtable L α) {it : Iter L} (started : it.fresh = false) (depth : it.bucket.depth = 0)
    (pos : it.posInBucket = L.firstPos) (bound : it.bucket.index < (ht.table it.table).buckets.length) :
    it.remaining ht + 1 = (ht.table it.table).positionsFrom it.bucket.index + (if it.table = 0 then ht.table1.positionsFrom 0 else 0) := by
  have first : L.firstPos.val = 0 := rfl
  rw [it.remaining_started ht started,depth,pos,Table.positionsFrom_succ bound,succ_mul,Nat.sub_zero]
  omega

theorem positionsFrom_compact (ht : Hashtable L α) (t : Fin 2) (index : Nat) :
    ((ht.compactBucketChain index t).table t).positionsFrom (index + 1) = (ht.table t).positionsFrom (index + 1) ∧
      (t = 0 → (ht.compactBucketChain index t).table1 = ht.table1) := by
  constructor
  · simp only [compactBucketChain,table_modifyTable,if_true,Table.positionsFrom,Table.setChain]
    rw [drop_set_of_lt (lt_succ_self index)]
  · rintro rfl
    rfl

theorem leaveIndex_cases (placed : it.Placed ht) (more : (leaveIndex it ht).more = true) :
    (leaveIndex it ht).iter.bucket.depth = 0 ∧ (leaveIndex it ht).iter.posInBucket = L.firstPos ∧
      ((it.table = 0 ∧ (leaveIndex it ht).iter.table = 1 ∧ (leaveIndex it ht).iter.bucket.index = 0) ∨
        ((leaveIndex it ht).iter.table = it.table ∧ (leaveIndex it ht).iter.bucket.index = it.bucket.index + 1)) ∧
      ((leaveIndex it ht).hashtable.table it.table).positionsFrom (it.bucket.index + 1) = (ht.table it.table).positionsFrom (it.bucket.index + 1) ∧
      (it.table = 0 → (leaveIndex it ht).hashtable.table1 = ht.table1) := by
  have same : it.index.toNat = it.bucket.index := by rw [placed.index,Int.toNat_natCast]
  have nextIndex : (it.index + 1).toNat = it.bucket.index + 1 := by rw [placed.index]; omega
  revert more
  unfold leaveIndex
  generalize compacting : (if ht.pauseRehash = 1 ∧ (ht.table it.table).used < it.lastSeenSize
    then ht.compactBucketChain it.index.toNat it.table else ht) = middle
  have kept : (middle.table it.table).positionsFrom (it.bucket.index + 1) = (ht.table it.table).positionsFrom (it.bucket.index + 1) ∧
      (it.table = 0 → middle.table1 = ht.table1) := by
    rw [← compacting,same]
    split
    · exact positionsFrom_compact ht it.table it.bucket.index
    · exact ⟨rfl,fun _ => rfl⟩
  dsimp only
  split
  · split
    · rename_i crossing
      simp only [and_eq_true,decide_eq_true_eq] at crossing
      exact fun _ => ⟨rfl,rfl,Or.inl ⟨crossing.2,rfl,rfl⟩,kept⟩
    · intro impossible
      simp at impossible
  · exact fun _ => ⟨rfl,rfl,Or.inr ⟨rfl,nextIndex⟩,kept⟩

theorem leaveIndex_remaining (wf : ht.WF ty) (placed : it.Placed ht)
    (final : ht.chainedOf it.bucket = false) (past : ¬it.posInBucket.val + 1 < L.entriesPerBucket)
    (more : (leaveIndex it ht).more = true) : (leaveIndex it ht).iter.remaining (leaveIndex it ht).hashtable < it.remaining ht := by
  have stepped := (leaveIndex_spec wf placed final past).2.1 more
  obtain ⟨depth,pos,destination,later,other⟩ := leaveIndex_cases placed more
  have total := it.remaining_started ht placed.started
  have arrival := Iter.remaining_first (leaveIndex it ht).hashtable stepped.placed.started depth pos
    (stepped.placed.index_lt stepped.anchored.wf)
  rcases destination with ⟨zero,one,index⟩ | ⟨table,index⟩
  · rw [one,index,table_one,other zero,if_neg (by decide)] at arrival
    rw [if_pos zero] at total
    omega
  rw [table,index] at arrival
  by_cases zero : it.table = 0
  · rw [if_pos zero,other zero] at arrival
    rw [if_pos zero] at total
    omega
  · rw [if_neg zero] at arrival
    omega

theorem advance_remaining (wf : ht.WF ty) (placed : it.Placed ht)
    (more : (it.advance ht).more = true) : (it.advance ht).iter.remaining (it.advance ht).hashtable < it.remaining ht := by
  revert more
  simp only [Iter.advance,placed.started,Bool.false_eq_true,if_false]
  split
  · rename_i down
    simp only [and_eq_true] at down
    rw [wf.chainedOf_eq it.table placed.allocated it.bucket placed.address placed.inside] at down
    have deeper := Chain.lt_childCount_of_chainedAt _ _ down.1
    have started : Iter.fresh {it with posInBucket := L.firstPos, bucket := {it.bucket with depth := it.bucket.depth + 1}} = false :=
      placed.started
    rw [it.remaining_started ht placed.started,Iter.remaining_started ht started]
    dsimp only
    have deepening : ((ht.table it.table).chain it.bucket.index).childCount - it.bucket.depth =
        ((ht.table it.table).chain it.bucket.index).childCount - (it.bucket.depth + 1) + 1 := by omega
    rw [deepening,succ_mul]
    omega
  · split
    · rename_i inside
      have started : Iter.fresh {it with posInBucket := ⟨it.posInBucket.val + 1,inside⟩} = false := placed.started
      rw [it.remaining_started ht placed.started,Iter.remaining_started ht started]
      dsimp only
      omega
    · rename_i level past
      exact leaveIndex_remaining wf placed (unchained_of_past level past) past

/-- A round of the loop that goes on is a step, and leaves less to visit; the last one finds nothing ahead. -/
structure Iter.Advances (ty : HashtableType α κ) (it : Iter L) (ht : Hashtable L α) (round : Advance L α) : Prop where
  onward : round.more = true → Stepped ty ht it round.hashtable round.iter ∧ round.iter.remaining round.hashtable < it.remaining ht
  nothing : round.more = false → ∀ p s, ht.slotAt p = some s → ¬it.Ahead p

theorem beginIteration_spec (wf : ht.WF ty) (fresh : it.fresh = true) (live : it.live = true) :
    it.Advances ty ht (beginIteration it ht) := by
  have pausedWf : ht.hashtablePauseRehashing.WF ty := wf.withPauses _ _
  have table : it.table = 0 := by
    simp only [Iter.fresh,and_eq_true,decide_eq_true_eq] at fresh
    exact fresh.2
  have everything : ∀ p, it.Ahead p := by
    intro p q started
    simp [Iter.position,fresh] at started
  have base : it.base ht = ht.hashtablePauseRehashing := by simp [Iter.base,fresh]
  have first : L.firstPos.val = 0 := rfl
  unfold beginIteration
  dsimp only
  split
  · rename_i null
    refine ⟨by simp,fun _ => ?_⟩
    have empty : ht.table0.buckets = [] := isEmpty_iff.mp null
    have buckets : numBuckets ht.table0.bucketExp = 0 := by rw [← wf.first.length,empty,length_nil]
    have nothing := wf.slots_of_null (by by_contra allocated; exact (numBuckets_pos _ allocated).ne' buckets)
    intro p s held
    have member := (mem_slots ht s).mpr ⟨p,held⟩
    simp [nothing] at member
  · rename_i filled
    refine ⟨fun _ => ?_,by simp⟩
    have allocated : ht.table0.bucketExp ≠ -1 := by
      apply allocated_of_numBuckets_pos
      rw [← wf.first.length]
      exact length_pos_of_ne_nil (fun empty => filled (isEmpty_iff.mpr empty))
    have inside : ht.rehashIdx.getD 0 < numBuckets ht.table0.bucketExp := by
      rcases running : ht.rehashIdx with _ | r
      · exact numBuckets_pos _ allocated
      · exact (wf.running r running).1
    have nextPlaced : Iter.Placed (⟨it.live,it.table,(ht.hashtablePauseRehashing.rehashIdx.getD 0 : Nat),
        ⟨(ht.hashtablePauseRehashing.table it.table).address,ht.hashtablePauseRehashing.rehashIdx.getD 0,0⟩,L.firstPos,
        (ht.hashtablePauseRehashing.table it.table).used⟩ : Iter L) ht.hashtablePauseRehashing := by
      refine ⟨?_,live,rfl,by rw [table]; exact allocated,rfl,by rw [table]; exact inside,fun _ _ => zero_le _⟩
      simp [Iter.fresh]
    refine ⟨⟨base.symm ▸ .refl pausedWf,nextPlaced,?_,?_,?_⟩,?_⟩
    · exact fun p s held _ => ⟨held,everything p⟩
    · intro p s held _
      refine ⟨held,(nextPlaced.reaches_iff p).mpr ?_⟩
      have pending : p.table = 0 → ht.rehashIdx.getD 0 ≤ p.index := by
        intro zero
        rcases running : ht.rehashIdx with _ | r
        · exact zero_le _
        · exact (wf.inPlace p s held).pending zero r running
      have same : ht.hashtablePauseRehashing.rehashIdx = ht.rehashIdx := rfl
      dsimp only
      rw [same]
      omega
    · exact fun p s _ passed => absurd (everything p) passed
    · have arrival := Iter.remaining_first ht.hashtablePauseRehashing nextPlaced.started rfl rfl (nextPlaced.index_lt pausedWf)
      have start : it.remaining ht = ht.positionCount + 1 := by simp [Iter.remaining,fresh]
      have bound := Table.positionsFrom_le (ht.hashtablePauseRehashing.table it.table) (ht.hashtablePauseRehashing.rehashIdx.getD 0)
      have totals : (ht.hashtablePauseRehashing.table it.table).positionsFrom 0 + ht.hashtablePauseRehashing.table1.positionsFrom 0 =
          ht.positionCount := by
        rw [table]
        exact wf.positionCount_eq
      rw [if_pos table] at arrival
      dsimp only at arrival ⊢
      omega

theorem advance_spec (wf : ht.WF ty) (ready : it.Ready ht) :
    it.Advances ty ht (it.advance ht) := by
  rcases ready with ⟨fresh,live,-⟩ | placed
  · have begun : it.advance ht = beginIteration it ht := if_pos fresh
    rw [begun]
    exact beginIteration_spec wf fresh live
  · have progress := advance_remaining wf placed
    by_cases stays : (ht.chainedOf it.bucket && decide (L.entriesPerBucket - 1 ≤ it.posInBucket.val + 1)) = true ∨
        it.posInBucket.val + 1 < L.entriesPerBucket
    · obtain ⟨more,stepped⟩ := advance_within wf placed stays
      exact ⟨fun _ => ⟨stepped,progress more⟩,fun past => absurd (more.symm.trans past) (by simp)⟩
    obtain ⟨level,past⟩ := not_or.mp stays
    have left : it.advance ht = leaveIndex it ht := by
      simp only [Iter.advance,placed.started,Bool.false_eq_true,if_false]
      rw [if_neg level,dif_neg past]
    obtain ⟨_,stepped,nothing⟩ := leaveIndex_spec wf placed (unchained_of_past level past) past
    rw [left] at progress ⊢
    exact ⟨fun more => ⟨stepped more,progress more⟩,nothing⟩

/-- What a call of `hashtableNext` does: it returns the slot under the iterator, or there
was none ahead. -/
inductive Fetched (ty : HashtableType α κ) (ht : Hashtable L α) (it : Iter L) :
    Except (Hashtable L α) (Hashtable L α × Iter L × Option α) → Prop where
  | entry (nextHt : Hashtable L α) (next : Iter L) (p : Position L) (s : Slot α) (stepped : Stepped ty ht it nextHt next)
      (position : next.position = some p) (held : nextHt.slotAt p = some s) : Fetched ty ht it (.ok (nextHt,next,some s.entry))
  | done (nextHt : Hashtable L α) (next : Iter L) (nothing : ∀ p s, ht.slotAt p = some s → ¬it.Ahead p) :
      Fetched ty ht it (.ok (nextHt,next,none))

theorem nextLoop_spec (plain : ty.validateEntry = none) (env : Env) {rounds : Nat}
    (wf : ht.WF ty) (ready : it.Ready ht) (enough : it.remaining ht < rounds) :
    Fetched ty ht it (nextLoop ty env rounds it ht) := by
  induction rounds generalizing it ht with
  | zero => omega
  | succ rounds ih =>
    obtain ⟨onward,nothing⟩ := advance_spec wf ready
    unfold nextLoop
    dsimp only
    rcases more : (it.advance ht).more
    · exact .done _ _ (nothing more)
    simp only [Bool.not_true,Bool.false_eq_true,if_false]
    obtain ⟨stepped,closer⟩ := onward more
    generalize (it.advance ht).hashtable = nextHt at stepped closer
    generalize (it.advance ht).iter = next at stepped closer
    have placed := stepped.placed
    have under := stepped.anchored.wf.slotOf_eq next.table placed.allocated next.bucket placed.address next.posInBucket
    rcases found : nextHt.slotOf next.bucket next.posInBucket with _ | slot
    · -- nothing here: the further rounds start from the same slots ahead
      have vacant : ∀ p, next.position = some p → nextHt.slotAt p = none := by
        intro p here
        rw [placed.position_eq,some.injEq] at here
        rw [← here,← under]
        exact found
      have rest := ih stepped.anchored.wf (Or.inr placed) (by omega)
      generalize nextLoop ty env rounds next nextHt = result at rest
      cases rest with
      | entry lastHt last p s later position held => exact .entry lastHt last p s (stepped.trans vacant later) position held
      | done lastHt last nothing =>
        refine .done lastHt last ?_
        intro p s held ahead
        obtain ⟨still,reaches⟩ := stepped.forth p s held ahead
        rcases reaches with here | later
        · rw [vacant p here] at still
          simp at still
        · exact nothing p s still later
    · dsimp only
      rw [if_pos (by simp [HashtableType.validateElementIfNeeded,plain])]
      exact .entry nextHt next _ slot stepped placed.position_eq (under.symm.trans found)

theorem remaining_le (wf : ht.WF ty) (ready : it.Ready ht) :
    it.remaining ht ≤ ht.positionCount + 1 := by
  rcases ready with ⟨fresh,_⟩ | placed
  · simp [Iter.remaining,fresh]
  have bound := placed.index_lt wf
  have chain : (((ht.table it.table).chain it.bucket.index).childCount - it.bucket.depth) * L.entriesPerBucket ≤
      ((ht.table it.table).chain it.bucket.index).childCount * L.entriesPerBucket := mul_le_mul_right _ (sub_le _ _)
  have tail := Table.positionsFrom_succ bound
  have whole := Table.positionsFrom_le (ht.table it.table) it.bucket.index
  have totals := wf.positionCount_eq
  rw [succ_mul] at tail
  rw [it.remaining_started ht placed.started]
  by_cases zero : it.table = 0
  · rw [if_pos zero]
    rw [zero] at whole tail chain ⊢
    simp only [table_zero] at whole tail chain ⊢
    omega
  have one : it.table = 1 := by omega
  rw [if_neg zero]
  rw [one] at whole tail chain ⊢
  simp only [table_one] at whole tail chain ⊢
  omega

theorem hashtableNext_spec (plain : ty.validateEntry = none) (env : Env)
    (wf : ht.WF ty) (ready : it.Ready ht) : Fetched ty ht it (hashtableNext ty env it ht) := by
  have bound := remaining_le wf ready
  unfold hashtableNext
  simp only [ready.live]
  exact nextLoop_spec plain env wf ready (by omega)

end Rounds

end ValkeyWasm.Hashtable
