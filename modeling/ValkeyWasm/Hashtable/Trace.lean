import ValkeyWasm.Hashtable.Invariant

/-! What the events of a hash table say about the sizes of its tables.
The shape of a hash table is the size of its two tables and whether it is rehashing.
Every operation changes the shape only in ways that its events account for. -/
namespace ValkeyWasm.Hashtable

variable {L : Layout} {α κ : Type*}

structure Shape where
  first : Nat
  second : Nat
  rehashing : Bool
  deriving DecidableEq

def shape (ht : Hashtable L α) : Shape := ⟨numBuckets ht.table0.bucketExp,numBuckets ht.table1.bucketExp,ht.isRehashing⟩

inductive Leads : Shape → List RehashEvent → Shape → Prop where
  | nil (start : Shape) : Leads start [] start
  | started (source target : Nat) (rest : List RehashEvent) (final : Shape) (later : Leads ⟨source,target,true⟩ rest final) :
      Leads ⟨source,0,false⟩ (.started source target::rest) final
  | completed (source target : Nat) (rest : List RehashEvent) (final : Shape) (later : Leads ⟨target,0,false⟩ rest final) :
      Leads ⟨source,target,true⟩ (.completed source target::rest) final
  | aborted (source target : Nat) (rest : List RehashEvent) (final : Shape) (later : Leads ⟨target,source,true⟩ rest final) :
      Leads ⟨source,target,true⟩ (.aborted source target::rest) final

theorem Leads.trans {start middle final : Shape} {earlier later : List RehashEvent} (first : Leads start earlier middle)
    (second : Leads middle later final) : Leads start (earlier ++ later) final := by
  induction first with
  | nil start => exact second
  | started source target rest final _ ih => exact .started source target _ _ (ih second)
  | completed source target rest final _ ih => exact .completed source target _ _ (ih second)
  | aborted source target rest final _ ih => exact .aborted source target _ _ (ih second)

def Traced (ht next : Hashtable L α) : Prop := ∃ events, next.events = ht.events ++ events ∧ Leads ht.shape events next.shape

theorem Traced.trans {ht middle next : Hashtable L α} (first : Traced ht middle) (second : Traced middle next) : Traced ht next := by
  obtain ⟨earlier,logged,leads⟩ := first
  obtain ⟨later,loggedLater,leadsLater⟩ := second
  exact ⟨earlier ++ later,by rw [loggedLater,logged,List.append_assoc],leads.trans leadsLater⟩

structure Quiet (ht next : Hashtable L α) : Prop where
  events : next.events = ht.events
  shape : next.shape = ht.shape

theorem Quiet.refl (ht : Hashtable L α) : Quiet ht ht := ⟨rfl,rfl⟩

theorem Quiet.trans {ht middle next : Hashtable L α} (first : Quiet ht middle) (second : Quiet middle next) : Quiet ht next :=
  ⟨second.events.trans first.events,second.shape.trans first.shape⟩

theorem Quiet.symm {ht next : Hashtable L α} (quiet : Quiet ht next) : Quiet next ht := ⟨quiet.events.symm,quiet.shape.symm⟩

theorem Quiet.traced {ht next : Hashtable L α} (quiet : Quiet ht next) : Traced ht next :=
  ⟨[],by rw [quiet.events,List.append_nil],by rw [quiet.shape]; exact .nil _⟩

section
variable (ht : Hashtable L α)

theorem Traced.refl : Traced ht ht := (Quiet.refl ht).traced

theorem quiet_modifyTable (t : Fin 2) {f : Table L α → Table L α}
    (kept : ∀ table, (f table).bucketExp = table.bucketExp) : Quiet ht (ht.modifyTable t f) := by
  revert t
  refine Fin.forall_fin_two.mpr ⟨⟨rfl,?_⟩,rfl,?_⟩
  · simp [shape,kept,isRehashing]
  · simp [shape,kept,isRehashing]

theorem quiet_pauses : Quiet ht ht.hashtablePauseRehashing ∧ Quiet ht ht.hashtablePauseAutoShrink :=
  ⟨⟨rfl,rfl⟩,rfl,rfl⟩

theorem hashtableEmpty_traced {ty : HashtableType α κ} {ht : Hashtable L α} (wf : ht.WF ty) :
    ∃ events, ht.hashtableEmpty.events = ht.events ++ events ∧
      Leads ht.shape events ⟨numBuckets (ht.table ht.insertTable).bucketExp,0,false⟩ := by
  rcases running : ht.rehashIdx with _ | r
  · refine ⟨[],by simp [hashtableEmpty,isRehashing,running],?_⟩
    simp only [shape,isRehashing,running,insertTable,wf.idle running]
    exact .nil _
  refine ⟨[.completed (numBuckets ht.table0.bucketExp) (numBuckets ht.table1.bucketExp)],
    by simp [hashtableEmpty,isRehashing,running],?_⟩
  simp only [shape,isRehashing,running,insertTable]
  exact .completed _ _ _ _ (.nil _)

theorem WF.silenced {ty : HashtableType α κ} {ht : Hashtable L α} (wf : ht.WF ty) : ({ht with events := []} : Hashtable L α).WF ty :=
  ⟨wf.first,wf.second,wf.idle,wf.running,wf.distinct,wf.owned.first,wf.owned.second,wf.owned.apart⟩

theorem hashtableEmpty_wf (ty : HashtableType α κ) (ht : Hashtable L α) :
    ht.hashtableEmpty.WF ty ∧ ht.hashtableEmpty.slots = 0 ∧ Framed ht ht.hashtableEmpty := by
  have idle : ht.hashtableEmpty.rehashIdx = none := by
    rcases running : ht.rehashIdx with _ | r <;> simp [hashtableEmpty,isRehashing,running]
  have nothing : ht.hashtableEmpty.slots = 0 := by simp [hashtableEmpty,slots,Table.slots,Table.reset]
  refine ⟨⟨Table.reset_wf ty,Table.reset_wf ty,fun _ => rfl,by simp [idle],by simp [nothing],?_⟩,nothing,?_⟩
  · exact ⟨by simp [hashtableEmpty,Table.reset],by simp [hashtableEmpty,Table.reset],by simp [idle]⟩
  · rcases running : ht.rehashIdx with _ | r <;> constructor <;> simp [hashtableEmpty,isRehashing,running]

theorem hashtableEmpty_shape : ht.hashtableEmpty.shape = ⟨0,0,false⟩ := by
  rcases running : ht.rehashIdx with _ | r <;> simp [hashtableEmpty,shape,isRehashing,running,Table.reset,numBuckets]

theorem quiet_incrementUsed (t : Fin 2) : Quiet ht (ht.incrementUsed t) := quiet_modifyTable ht t (fun _ => rfl)

theorem rehashingCompleted_traced (running : ht.isRehashing = true) : Traced ht ht.rehashingCompleted := by
  refine ⟨[.completed (numBuckets ht.table0.bucketExp) (numBuckets ht.table1.bucketExp)],rfl,?_⟩
  simp only [shape,running]
  exact .completed _ _ _ _ (.nil _)

section Rehashing
variable [Inhabited α]

theorem quiet_modifyBucket (p : Position L) (f : Bucket L α → Bucket L α) : Quiet ht (ht.modifyBucket p f) :=
  quiet_modifyTable ht p.table (fun _ => rfl)

theorem quiet_findBucketForInsert (hash : BitVec 64) : Quiet ht (ht.findBucketForInsert hash).1 := by
  unfold findBucketForInsert
  dsimp only
  apply quiet_modifyTable
  exact fun _ => rfl

theorem rehashStepFinalize_traced : Traced ht ht.rehashStepFinalize := by
  unfold rehashStepFinalize
  rcases running : ht.rehashIdx with _ | idx
  · exact .refl ht
  dsimp only
  split
  · refine Traced.trans ?_ (rehashingCompleted_traced _ rfl)
    exact Quiet.traced ⟨rfl,by simp [shape,isRehashing,running,Table.setChain]⟩
  · exact Quiet.traced ⟨rfl,by simp [shape,isRehashing,running,Table.setChain]⟩

end Rehashing

end

/-- Rearranged, and the events account for the new shape. -/
structure Reshaped (ty : HashtableType α κ) (ht next : Hashtable L α) : Prop extends Rearranged ty ht next where
  traced : Traced ht next

variable {ty : HashtableType α κ} {ht middle next : Hashtable L α}

theorem Reshaped.refl (wf : ht.WF ty) : Reshaped ty ht ht := ⟨.refl wf,.refl ht⟩

theorem Reshaped.trans (first : Reshaped ty ht middle) (second : Reshaped ty middle next) : Reshaped ty ht next :=
  ⟨first.toRearranged.trans second.toRearranged,first.traced.trans second.traced⟩

end ValkeyWasm.Hashtable
