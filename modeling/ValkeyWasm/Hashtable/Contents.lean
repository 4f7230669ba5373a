import ValkeyWasm.Hashtable.Resize

/-! What lookup, insertion and deletion do to the contents of a hash table.
Every function of the interface has one lemma that says how the multiset of stored
slots changes; callers never look inside the chains. -/
namespace ValkeyWasm.Hashtable
open Function List Option Multiset Fin

variable {L : Layout} {α κ : Type*} (ht : Hashtable L α) (p : Position L) (s : Slot α)

theorem Chain.usable_of_slotAt (c : Chain L α) (depth : Nat) (p : L.Pos) (s : Slot α) (links : c.LinksFree)
    (held : c.slotAt depth p = some s) (chained : c.chainedAt depth = true) : p ≠ L.lastPos := by
  induction c generalizing depth with
  | last b => simp [chainedAt] at chained
  | link b child ih =>
    cases depth with
    | zero =>
      rintro rfl
      have found : b.slot L.lastPos = some s := held
      rw [links.1] at found
      simp at found
    | succ depth => exact ih depth links.2 held chained

theorem Chain.slotAt_clearPresence (c : Chain L α) (depth : Nat) (p : L.Pos) (i : Nat) (q : L.Pos) :
    (c.modifyBucket depth (·.clearPresence p)).slotAt i q = if i = depth ∧ q = p then none else c.slotAt i q := by
  rw [slotAt,bucketAt_modifyBucket]
  by_cases same : i = depth
  · subst i
    by_cases here : q = p
    · subst q
      cases found : c.bucketAt depth <;> simp [Bucket.slot_clearPresence]
    · cases found : c.bucketAt depth <;> simp [Bucket.slot_clearPresence,here,slotAt,found]
  · simp [same,slotAt]

theorem slotAt_eq_some :
    ht.slotAt p = some s ↔
      ∃ c, (ht.table p.table).buckets[p.index]? = some c ∧ c.slotAt p.depth p.pos = some s := by
  simp [slotAt,bind_eq_some_iff]

theorem entryAt_eq (held : ht.slotAt p = some s) :
    ht.entryAt p = some s.entry := by
  simp [entryAt,held]

theorem table_slots_le (t : Fin 2) : (ht.table t).slots ≤ ht.slots := by
  revert t
  exact forall_fin_two.mpr ⟨le_add_right _ _,le_add_left _ _⟩

theorem mem_slots : s ∈ ht.slots ↔ ∃ p, ht.slotAt p = some s := by
  constructor
  · intro member
    obtain ⟨t,inTable⟩ : ∃ t, s ∈ (ht.table t).slots := exists_fin_two.mpr (mem_add.mp member)
    obtain ⟨index,c,located,inside⟩ := (Table.mem_slots _ s).mp inTable
    obtain ⟨depth,pos,held⟩ := (Chain.mem_slots c s).mp inside
    exact ⟨⟨t,index,depth,pos⟩,(slotAt_eq_some ht _ s).mpr ⟨c,located,held⟩⟩
  · rintro ⟨p,held⟩
    obtain ⟨c,located,inside⟩ := (slotAt_eq_some ht p s).mp held
    have stored : s ∈ (ht.table p.table).slots :=
      (Table.mem_slots _ s).mpr ⟨p.index,c,located,(Chain.mem_slots c s).mpr ⟨p.depth,p.pos,inside⟩⟩
    exact mem_of_le (table_slots_le ht p.table) stored

structure Inserted (ty : HashtableType α κ) (ht : Hashtable L α) (s : Slot α) (next : Hashtable L α) : Prop where
  wf : next.WF ty
  slots : next.slots = s ::ₘ ht.slots
  framed : Framed ht next
  traced : Traced ht next

structure Removed (ty : HashtableType α κ) (ht : Hashtable L α) (s : Slot α) (next : Hashtable L α) : Prop where
  wf : next.WF ty
  slots : ht.slots = s ::ₘ next.slots
  framed : Framed ht next
  traced : Traced ht next

/-- What the removal of a key returns. -/
def Popped (ty : HashtableType α κ) (ht : Hashtable L α) (key : κ) (result : Hashtable L α × Option α) : Prop :=
  (∃ s, ty.entryGetKey s.entry = key ∧ result.2 = some s.entry ∧ Removed ty ht s result.1) ∨
    ((∀ s ∈ ht.slots, ty.entryGetKey s.entry ≠ key) ∧ result.2 = none ∧ Reshaped ty ht result.1)

/-- Where a stored slot may be: in the chain its hash selects, not behind the rehashing
index, and in table 1 only while rehashing. -/
structure InPlace (ty : HashtableType α κ) (ht : Hashtable L α) (p : Position L) (entry : α) : Prop where
  index : p.index = bucketIndex (ty.hashOf entry) (ht.table p.table).bucketExp
  pending : p.table = 0 → ∀ r, ht.rehashIdx = some r → r ≤ p.index
  rehashing : p.table = 1 → ht.isRehashing = true

variable {ty : HashtableType α κ} {ht : Hashtable L α} {s : Slot α}

theorem Inserted.after {before next : Hashtable L α} (inserted : Inserted ty ht s next) (step : Reshaped ty before ht) :
    Inserted ty before s next :=
  ⟨inserted.wf,step.slots ▸ inserted.slots,step.framed.trans inserted.framed,step.traced.trans inserted.traced⟩

theorem Removed.after {before next : Hashtable L α} (removed : Removed ty ht s next) (step : Reshaped ty before ht) :
    Removed ty before s next :=
  ⟨removed.wf,step.slots ▸ removed.slots,step.framed.trans removed.framed,step.traced.trans removed.traced⟩

theorem Removed.trans {middle next : Hashtable L α} (removed : Removed ty ht s middle) (step : Reshaped ty middle next) :
    Removed ty ht s next :=
  ⟨step.wf,step.slots.symm ▸ removed.slots,removed.framed.trans step.framed,removed.traced.trans step.traced⟩

theorem WF.hash_eq (wf : ht.WF ty) (member : s ∈ ht.slots) : s.hash = highBits (ty.hashOf s.entry) := by
  obtain ⟨p,held⟩ := (mem_slots ht s).mp member
  obtain ⟨c,located,inside⟩ := (slotAt_eq_some ht p s).mp held
  exact ((wf.table p.table).placed p.index c located s ((Chain.mem_slots c s).mpr ⟨p.depth,p.pos,inside⟩)).2

theorem WF.inPlace (wf : ht.WF ty) (p : Position L) (s : Slot α)
    (held : ht.slotAt p = some s) : InPlace ty ht p s.entry := by
  obtain ⟨c,located,inside⟩ := (slotAt_eq_some ht p s).mp held
  have stored : s ∈ c.slots := (Chain.mem_slots c s).mpr ⟨p.depth,p.pos,inside⟩
  refine ⟨((wf.table p.table).placed p.index c located s stored).1.symm,?_,?_⟩
  · intro first r running
    by_contra early
    rw [first] at located
    rw [((wf.running r running).2.2.2 p.index c (by omega) located).1] at stored
    simp at stored
  · intro second
    cases running : ht.rehashIdx with
    | none =>
      rw [second,table_one,wf.idle running] at located
      simp [Table.reset] at located
    | some r => simp [isRehashing,running]

theorem WF.modifyTable (wf : ht.WF ty) (t : Fin 2) (f : Table L α → Table L α)
    (nextWf : (f (ht.table t)).WF ty) (exp : (f (ht.table t)).bucketExp = (ht.table t).bucketExp)
    (address : (f (ht.table t)).address = (ht.table t).address)
    (moved : t = 0 → ∀ r, ht.rehashIdx = some r → MovedOut (f (ht.table t)) r) (active : t = 1 → ht.isRehashing = true)
    (distinct : ((ht.modifyTable t f).slots.map (fun s => ty.entryGetKey s.entry)).Nodup) : (ht.modifyTable t f).WF ty := by
  revert nextWf exp address moved active distinct t
  refine forall_fin_two.mpr ⟨?_,?_⟩
  · intro nextWf exp address moved _ distinct
    refine ⟨nextWf,wf.second,wf.idle,?_,distinct,?_⟩
    · intro r running
      obtain ⟨inside,allocated,apart,_⟩ := wf.running r running
      exact ⟨exp ▸ inside,allocated,exp ▸ apart,moved rfl r running⟩
    · exact ⟨fun allocated => address ▸ wf.owned.first (exp ▸ allocated),wf.owned.second,
        fun running => address ▸ wf.owned.apart running⟩
  · intro nextWf exp address _ active distinct
    refine ⟨wf.first,nextWf,?_,?_,distinct,?_⟩
    · intro idle
      have running := active rfl
      simp only [modifyTable_one] at idle
      simp [isRehashing,idle] at running
    · intro r running
      obtain ⟨inside,allocated,apart,before⟩ := wf.running r running
      exact ⟨inside,exp ▸ allocated,exp ▸ apart,before⟩
    · exact ⟨wf.owned.first,fun allocated => address ▸ wf.owned.second (exp ▸ allocated),
        fun running => address ▸ wf.owned.apart running⟩

section
variable (ht : Hashtable L α) (t : Fin 2) (f : Table L α → Table L α)

theorem slots_modifyTable :
    (ht.modifyTable t f).slots + (ht.table t).slots = ht.slots + (f (ht.table t)).slots := by
  revert t
  refine forall_fin_two.mpr ⟨?_,?_⟩
  · simp only [slots,modifyTable_zero,table_zero]
    ac_rfl
  · simp only [slots,modifyTable_one]
    ac_rfl

theorem framed_modifyTable : Framed ht (ht.modifyTable t f) := by
  revert t
  exact forall_fin_two.mpr ⟨⟨rfl,rfl,rfl⟩,⟨rfl,rfl,rfl⟩⟩

theorem table_modifyTable (u : Fin 2) :
    (ht.modifyTable t f).table u = if u = t then f (ht.table t) else ht.table u := by
  revert t u
  simp [forall_fin_two]

theorem rehashIdx_modifyTable :
    (ht.modifyTable t f).rehashIdx = ht.rehashIdx := by
  revert t
  exact forall_fin_two.mpr ⟨rfl,rfl⟩

theorem exp_modifyTable
    (same : ∀ table, (f table).bucketExp = table.bucketExp) : (ht.modifyTable t f).table0.bucketExp = ht.table0.bucketExp := by
  revert t
  exact forall_fin_two.mpr ⟨same _,rfl⟩

theorem modifyTable_same : ht.modifyTable t (fun _ => ht.table t) = ht := by
  revert t
  exact forall_fin_two.mpr ⟨rfl,rfl⟩

end

variable (pauseRehash pauseAutoShrink : Int)

theorem int16_eq {n : Int} (low : -2^15 ≤ n) (high : n < 2^15) : int16 n = n := by
  unfold int16
  rw [Int.bmod_eq_of_le (by omega) (by omega)]

def withPauses (ht : Hashtable L α) : Hashtable L α :=
  {ht with pauseRehash := pauseRehash, pauseAutoShrink := pauseAutoShrink}

@[simp] theorem withPauses_pauseRehash (ht : Hashtable L α) :
    (ht.withPauses pauseRehash pauseAutoShrink).pauseRehash = pauseRehash := rfl

@[simp] theorem withPauses_pauseAutoShrink (ht : Hashtable L α) :
    (ht.withPauses pauseRehash pauseAutoShrink).pauseAutoShrink = pauseAutoShrink := rfl

@[simp] theorem withPauses_safeIterators (ht : Hashtable L α) :
    (ht.withPauses pauseRehash pauseAutoShrink).safeIterators = ht.safeIterators := rfl

@[simp] theorem withPauses_slots (ht : Hashtable L α) :
    (ht.withPauses pauseRehash pauseAutoShrink).slots = ht.slots := rfl

theorem WF.withPauses (wf : ht.WF ty) (pauseRehash pauseAutoShrink : Int) :
    (ht.withPauses pauseRehash pauseAutoShrink).WF ty :=
  ⟨wf.first,wf.second,wf.idle,wf.running,wf.distinct,wf.owned.first,wf.owned.second,wf.owned.apart⟩

/-- The pause counters are not negative and leave room for two more pauses. -/
structure PausesFit (ht : Hashtable L α) : Prop where
  rehash : 0 ≤ ht.pauseRehash
  autoShrink : 0 ≤ ht.pauseAutoShrink
  rehashRoom : ht.pauseRehash + 2 < 2^15
  autoShrinkRoom : ht.pauseAutoShrink + 2 < 2^15

theorem PausesFit.framed {next : Hashtable L α} (fit : ht.PausesFit) (framed : Framed ht next) : next.PausesFit := by
  constructor
  · rw [framed.pauseRehash]; exact fit.rehash
  · rw [framed.pauseAutoShrink]; exact fit.autoShrink
  · rw [framed.pauseRehash]; exact fit.rehashRoom
  · rw [framed.pauseAutoShrink]; exact fit.autoShrinkRoom

theorem hashtablePauseRehashing_eq (fit : ht.PausesFit) :
    ht.hashtablePauseRehashing = ht.withPauses (ht.pauseRehash + 1) (ht.pauseAutoShrink + 1) := by
  obtain ⟨low,lowShrink,room,roomShrink⟩ := fit
  simp only [hashtablePauseRehashing,hashtablePauseAutoShrink,Hashtable.withPauses]
  rw [int16_eq (by omega) (by omega),int16_eq (by omega) (by omega)]

theorem hashtablePauseAutoShrink_eq (low : -2^15 ≤ ht.pauseAutoShrink + 1) (high : ht.pauseAutoShrink + 1 < 2^15) :
    ht.hashtablePauseAutoShrink = ht.withPauses ht.pauseRehash (ht.pauseAutoShrink + 1) := by
  simp only [hashtablePauseAutoShrink,Hashtable.withPauses]
  rw [int16_eq low high]

section Exchange
variable [Inhabited α]

theorem WF.exchangeChain (wf : ht.WF ty) {t : Fin 2} {index : Nat}
    (bound : index < (ht.table t).buckets.length) {c : Chain L α} (links : c.LinksFree)
    (placed : ∀ s ∈ c.slots, Homed ty (ht.table t).bucketExp index s) (used children : Nat)
    (counted : used + ((ht.table t).chain index).slots.card = (ht.table t).used + c.slots.card)
    (linked : children + ((ht.table t).chain index).childCount = (ht.table t).childBuckets + c.childCount)
    (pending : t = 0 → ∀ r, ht.rehashIdx = some r → index < r → c.slots = 0 ∧ c.childCount = 0)
    (distinct : ∀ held, held + ((ht.table t).chain index).slots = ht.slots + c.slots →
      (held.map (fun s => ty.entryGetKey s.entry)).Nodup)
    (next : Hashtable L α)
    (equal : next = ht.modifyTable t (fun _ => ⟨(ht.table t).bucketExp,(ht.table t).buckets.set index c,used,children,(ht.table t).address⟩)) :
    next.WF ty ∧ next.slots + ((ht.table t).chain index).slots = ht.slots + c.slots ∧ Framed ht next := by
  have tableWf := (wf.table t).exchange index bound c links placed used children counted linked
  have exchanged := Table.slots_setChain (ht.table t) index c bound
  have total := slots_modifyTable ht t (fun _ => ⟨(ht.table t).bucketExp,(ht.table t).buckets.set index c,used,children,(ht.table t).address⟩)
  rw [← equal] at total
  have slots : next.slots + ((ht.table t).chain index).slots = ht.slots + c.slots := by
    apply add_right_cancel (b := (ht.table t).slots)
    rw [add_right_comm,total,add_assoc,add_assoc,add_comm c.slots,← exchanged]
    rfl
  refine ⟨?_,slots,equal ▸ framed_modifyTable _ _ _⟩
  rw [equal]
  apply wf.modifyTable t _ tableWf rfl rfl
  · rintro rfl r running i d early located
    have before := (wf.running r running).2.2.2
    simp only [table_zero,getElem?_set] at located
    split at located
    · rename_i here
      subst here
      split at located
      · simp only [some.injEq] at located
        exact located ▸ pending rfl r running early
      · simp at located
    · exact before i d early located
  · rintro rfl
    by_contra idle
    rw [table_one,wf.idle (rehashIdx_eq_none (by simpa using idle))] at bound
    simp [Table.reset] at bound
  · rw [← equal]
    exact distinct next.slots slots

end Exchange

theorem index_bound_of_used (wf : ht.WF ty) (hash : BitVec 64) (t : Fin 2)
    (filled : (ht.table t).used ≠ 0) : bucketIndex hash (ht.table t).bucketExp < (ht.table t).buckets.length := by
  rw [(wf.table t).length]
  apply bucketIndex_lt
  intro null
  rw [(wf.table t).used] at filled
  simp [Table.slots,(wf.table t).buckets_nil null] at filled

theorem WF.size_eq (wf : ht.WF ty) : ht.size = ht.slots.card := by
  rw [size,slots,card_add,wf.first.used,wf.second.used]

theorem WF.slots_eq_zero (wf : ht.WF ty) (vacant : ht.size = 0) : ht.slots = 0 := by rwa [wf.size_eq,card_eq_zero] at vacant

theorem incrementUsed_modifyTable (ht : Hashtable L α) (t : Fin 2) (f : Table L α → Table L α) :
    (ht.modifyTable t f).incrementUsed t = ht.modifyTable t (fun table => {f table with used := (f table).used + 1}) :=
  modifyTable_modifyTable ht t f _

theorem Chain.modifyBucket_modifyBucket (c : Chain L α) (depth : Nat) (f g : Bucket L α → Bucket L α) :
    (c.modifyBucket depth f).modifyBucket depth g = c.modifyBucket depth (g ∘ f) := by
  induction c generalizing depth with
  | last b => cases depth <;> rfl
  | link b child ih => cases depth <;> simp [Chain.modifyBucket,ih]

variable {p : Position L}

section Search
variable [Inhabited α]

theorem searchTable_some {hash : BitVec 64} {matching : Slot α → Bool} {t : Fin 2}
    (bound : (ht.table t).used ≠ 0 → bucketIndex hash (ht.table t).bucketExp < (ht.table t).buckets.length)
    (found : ht.searchTable hash matching t = some p) : ∃ s, ht.slotAt p = some s ∧ matching s = true := by
  unfold searchTable at found
  split at found
  · simp at found
  rename_i filled
  dsimp only at found
  split at found
  · simp at found
  simp only [map_eq_some_iff] at found
  obtain ⟨⟨depth,pos⟩,hit,rfl⟩ := found
  obtain ⟨s,held,accepted⟩ := Chain.findPos_some matching _ depth pos hit
  exact ⟨s,(slotAt_eq_some ht _ s).mpr ⟨_,Table.getElem?_chain _ _ (bound filled),held⟩,accepted⟩

section
variable (wf : ht.WF ty) (hash : BitVec 64) (matching : Slot α → Bool)
include wf hash matching

theorem searchTable_none {t : Fin 2} (missing : ht.searchTable hash matching t = none)
    (member : s ∈ (ht.table t).slots) (same : ty.hashOf s.entry = hash) : matching s = false := by
  obtain ⟨index,c,located,inside⟩ := (Table.mem_slots _ s).mp member
  obtain ⟨depth,pos,held⟩ := (Chain.mem_slots c s).mp inside
  have place := wf.inPlace ⟨t,index,depth,pos⟩ s ((slotAt_eq_some ht _ s).mpr ⟨c,located,held⟩)
  have home : index = bucketIndex hash (ht.table t).bucketExp := same ▸ place.index
  have filled : (ht.table t).used ≠ 0 := by
    rw [(wf.table t).used,Ne,card_eq_zero]
    exact fun none_left => by simp [none_left] at member
  have pending : ¬(t = 0 ∧ ht.alreadyRehashed (bucketIndex hash (ht.table t).bucketExp) = true) := by
    rintro ⟨first,passed⟩
    simp only [alreadyRehashed,Option.any_eq_true,decide_eq_true_eq] at passed
    obtain ⟨r,running,early⟩ := passed
    have later : r ≤ index := place.pending first r running
    omega
  simp only [searchTable,filled,if_false,pending,map_eq_none_iff] at missing
  rw [← home,Table.chain_eq _ index c located] at missing
  exact Chain.findPos_none matching c ((wf.table t).links c (mem_of_getElem? located)) missing s inside

theorem searchTables_some (found : ht.searchTables hash matching = some p) :
    ∃ s, ht.slotAt p = some s ∧ matching s = true := by
  rcases or_eq_some_iff.mp found with first | ⟨_,second⟩
  · exact searchTable_some (index_bound_of_used wf hash 0) first
  · exact searchTable_some (index_bound_of_used wf hash 1) second

theorem searchTables_none (missing : ht.searchTables hash matching = none) (member : s ∈ ht.slots)
    (same : ty.hashOf s.entry = hash) : matching s = false := by
  obtain ⟨first,second⟩ := or_eq_none_iff.mp missing
  rcases mem_add.mp member with here | there
  · exact searchTable_none wf hash matching first here same
  · exact searchTable_none wf hash matching second there same

end

variable [DecidableEq κ]

theorem findBucket_spec (wf : ht.WF ty) (env : Env) (key : κ) :
    Reshaped ty ht (ht.findBucket ty env (ty.hashKey key) key).1 ∧
      (∀ p, (ht.findBucket ty env (ty.hashKey key) key).2 = some p →
        ∃ s, (ht.findBucket ty env (ty.hashKey key) key).1.slotAt p = some s ∧ ty.entryGetKey s.entry = key) ∧
      ((ht.findBucket ty env (ty.hashKey key) key).2 = none →
        ∀ s ∈ ht.slots, ty.entryGetKey s.entry = key → ty.validateElementIfNeeded s.entry = false) := by
  unfold findBucket
  split
  · rename_i vacant
    exact ⟨.refl wf,by simp,by simp [wf.slots_eq_zero vacant]⟩
  have stepped := rehashStepIfPolicy_rearranged wf env .allow
  refine ⟨stepped,?_,?_⟩
  · intro p found
    obtain ⟨s,held,accepted⟩ := searchTables_some stepped.wf _ _ found
    simp only [candidateMatches,Bool.and_eq_true,decide_eq_true_eq] at accepted
    exact ⟨s,held,accepted.1.2⟩
  intro missing s member same
  have stored : s ∈ (ht.rehashStepOnReadIfNeeded ty env).slots := stepped.slots.symm ▸ member
  have hashed : ty.hashOf s.entry = ty.hashKey key := by rw [HashtableType.hashOf,same]
  have rejected := searchTables_none stepped.wf _ _ missing stored hashed
  have byte := stepped.wf.hash_eq stored
  rw [hashed] at byte
  simpa [candidateMatches,byte,same] using rejected

theorem findBucket_cases (wf : ht.WF ty) (plain : ty.validateEntry = none) (env : Env) (key : κ) :
    (∃ next p s, ht.findBucket ty env (ty.hashKey key) key = (next,some p) ∧ Reshaped ty ht next ∧ next.slotAt p = some s ∧
        ty.entryGetKey s.entry = key) ∨
      ∃ next, ht.findBucket ty env (ty.hashKey key) key = (next,none) ∧ Reshaped ty ht next ∧
        ∀ s ∈ ht.slots, ty.entryGetKey s.entry ≠ key := by
  obtain ⟨searched,hit,miss⟩ := findBucket_spec wf env key
  rcases result : ht.findBucket ty env (ty.hashKey key) key with ⟨next,_ | p⟩
  · rw [result] at searched miss
    refine Or.inr ⟨next,rfl,searched,?_⟩
    intro s member same
    have rejected := miss rfl s member same
    simp [HashtableType.validateElementIfNeeded,plain] at rejected
  · rw [result] at searched hit
    obtain ⟨s,held,same⟩ := hit p rfl
    exact Or.inl ⟨next,p,s,rfl,searched,held,same⟩

theorem find_rearranged (wf : ht.WF ty) (env : Env) (key : κ) :
    Reshaped ty ht (ht.find ty env key).1 := by
  unfold find findRef
  split
  · exact .refl wf
  · exact (findBucket_spec wf env key).1

end Search

section Insertion
variable [Inhabited α]

theorem insertSlot_spec (wf : ht.WF ty) (allocated : ht.table0.bucketExp ≠ -1)
    {entry : α} (absent : ∀ s ∈ ht.slots, ty.entryGetKey s.entry ≠ ty.entryGetKey entry) {next : Hashtable L α}
    (inserted : next = ht.modifyTable ht.insertTable
      (fun table => table.insertSlot (bucketIndex (ty.hashOf entry) table.bucketExp) (highBits (ty.hashOf entry)) entry)) :
    Inserted ty ht ⟨highBits (ty.hashOf entry),entry⟩ next := by
  have bound := wf.insertIndex_lt allocated (ty.hashOf entry)
  obtain ⟨tableWf,added⟩ := (wf.table ht.insertTable).insertSlot _ bound (highBits (ty.hashOf entry)) entry ⟨rfl,rfl⟩
  have exchanged := slots_modifyTable ht ht.insertTable
    (fun table => table.insertSlot (bucketIndex (ty.hashOf entry) table.bucketExp) (highBits (ty.hashOf entry)) entry)
  rw [← inserted,added,add_cons,← cons_add] at exchanged
  have slots := add_right_cancel exchanged
  have quiet : Quiet ht next := inserted ▸ quiet_modifyTable ht ht.insertTable fun _ => rfl
  refine ⟨?_,slots,inserted ▸ framed_modifyTable _ _ _,quiet.traced⟩
  rw [inserted]
  apply wf.modifyTable ht.insertTable _ tableWf rfl rfl
  · intro first r running
    simp [insertTable,isRehashing,running] at first
  · intro second
    by_contra idle
    simp [insertTable,idle] at second
  rw [← inserted,slots,Multiset.map_cons,Multiset.nodup_cons]
  refine ⟨?_,wf.distinct⟩
  intro duplicate
  obtain ⟨s,member,equal⟩ := mem_map.mp duplicate
  exact absent s member equal

theorem findBucketForInsert_table (ht : Hashtable L α) (hash : BitVec 64) :
    (ht.findBucketForInsert hash).2.table = ht.insertTable := rfl

theorem insert_eq (wf : ht.WF ty) (env : Env) (hash : BitVec 64) (entry : α) :
    ht.insert ty env hash entry = (ht.prepareInsert ty env).modifyTable (ht.prepareInsert ty env).insertTable
      (fun table => table.insertSlot (bucketIndex hash table.bucketExp) (highBits hash) entry) := by
  obtain ⟨prepared,allocated⟩ := prepareInsert_spec wf env
  have bound := prepared.wf.insertIndex_lt allocated hash
  simp only [insert,findBucketForInsert_modifyBucket _ hash _ bound,findBucketForInsert_table,incrementUsed_modifyTable]
  generalize ht.prepareInsert ty env = middle
  cases running : middle.rehashIdx <;> simp [insertTable,isRehashing,running,Table.insertSlot,findBucketForInsert]

theorem insert_spec (wf : ht.WF ty) (env : Env) {entry : α}
    (absent : ∀ s ∈ ht.slots, ty.entryGetKey s.entry ≠ ty.entryGetKey entry) :
    Inserted ty ht ⟨highBits (ty.hashOf entry),entry⟩ (ht.insert ty env (ty.hashOf entry) entry) := by
  obtain ⟨prepared,allocated⟩ := prepareInsert_spec wf env
  rw [← prepared.slots] at absent
  exact (insertSlot_spec prepared.wf allocated absent (insert_eq wf env (ty.hashOf entry) entry)).after prepared

theorem modifyBucket_modifyBucket (ht : Hashtable L α) (p : Position L) (f g : Bucket L α → Bucket L α) :
    (ht.modifyBucket p f).modifyBucket p g = ht.modifyBucket p (g ∘ f) := by
  simp only [modifyBucket,modifyTable_modifyTable]
  congr 1
  funext table
  simp only [comp_apply,Table.setChain_setChain]
  by_cases bound : p.index < table.buckets.length
  · rw [Table.chain_setChain table p.index _ bound,Chain.modifyBucket_modifyBucket]
  · simp [Table.setChain,set_eq_of_length_le (Nat.le_of_not_lt bound)]

theorem insertAtPosition_silenced (entry : α) (p : Position L) (ht : Hashtable L α) :
    ({ht with events := []} : Hashtable L α).insertAtPosition entry p = {ht.insertAtPosition entry p with events := []} := by
  unfold insertAtPosition modifyBucket
  generalize p.table = t
  revert t
  exact forall_fin_two.mpr ⟨rfl,rfl⟩

variable [DecidableEq κ]

theorem insertTwoPhase_eq (ty : HashtableType α κ) (env : Env) (entry : α) (ht : Hashtable L α) :
    ht.insertTwoPhase ty env entry = ht.addOrFind ty env entry := by
  rcases result : ht.findBucket ty env (ty.hashKey (ty.entryGetKey entry)) (ty.entryGetKey entry) with ⟨searched,_ | p⟩
  · simp only [insertTwoPhase,addOrFind,findPositionForInsert,result,insertAtPosition,modifyBucket_modifyBucket]
    rfl
  · simp [insertTwoPhase,addOrFind,findPositionForInsert,result]

theorem addOrFind_spec (wf : ht.WF ty) (plain : ty.validateEntry = none) (env : Env)
    (entry : α) :
    (∃ s ∈ ht.slots, ty.entryGetKey s.entry = ty.entryGetKey entry ∧ (ht.addOrFind ty env entry).2 = some s.entry ∧
        Reshaped ty ht (ht.addOrFind ty env entry).1) ∨
      ((∀ s ∈ ht.slots, ty.entryGetKey s.entry ≠ ty.entryGetKey entry) ∧ (ht.addOrFind ty env entry).2 = none ∧
        Inserted ty ht ⟨highBits (ty.hashOf entry),entry⟩ (ht.addOrFind ty env entry).1) := by
  rcases findBucket_cases wf plain env (ty.entryGetKey entry) with ⟨next,p,s,result,searched,held,same⟩ | ⟨next,result,searched,absent⟩
  · have member : s ∈ ht.slots := searched.slots ▸ (mem_slots next s).mpr ⟨p,held⟩
    simp only [addOrFind,result]
    exact Or.inl ⟨s,member,same,entryAt_eq next p s held,searched⟩
  · have inserted := insert_spec searched.wf env (searched.slots.symm ▸ absent)
    simp only [addOrFind,result]
    exact Or.inr ⟨absent,trivial,inserted.after searched⟩

end Insertion

section Deletion
variable [Inhabited α]

theorem Table.WF.childCount_le {table : Table L α} (wf : table.WF ty) (index : Nat)
    (bound : index < table.buckets.length) : (table.chain index).childCount ≤ table.childBuckets := by
  have total := Table.childTotal_setChain table index Chain.empty bound
  rw [← wf.children,Chain.empty,Chain.childCount] at total
  omega

theorem located_of_slotAt (held : ht.slotAt p = some s) :
    ∃ c, (ht.table p.table).buckets[p.index]? = some c ∧ c.slotAt p.depth p.pos = some s ∧ p.index < (ht.table p.table).buckets.length ∧
      (ht.table p.table).chain p.index = c := by
  obtain ⟨c,located,inside⟩ := (slotAt_eq_some ht p s).mp held
  exact ⟨c,located,inside,(List.getElem?_eq_some_iff.mp located).1,Table.chain_eq _ p.index c located⟩

theorem quiet_clearPosition (p : Position L) (ht : Hashtable L α) : Quiet ht (ht.clearPosition p) := by
  apply (quiet_modifyBucket ht p (·.clearPresence p.pos)).trans
  unfold clearPosition
  apply quiet_modifyTable
  exact fun _ => rfl

theorem clearPosition_spec (wf : ht.WF ty) (held : ht.slotAt p = some s) : Removed ty ht s (ht.clearPosition p) := by
  obtain ⟨c,located,inside,bound,chain⟩ := located_of_slotAt held
  have place := wf.inPlace p s held
  have tableWf := wf.table p.table
  have removed := Chain.slots_clearPresence c p.depth p.pos s inside
  have lost : ∀ rest : Multiset (Slot α), rest + c.slots = ht.slots + (c.modifyBucket p.depth (·.clearPresence p.pos)).slots →
      ht.slots = s ::ₘ rest := by
    intro rest exchanged
    apply add_right_cancel (b := (c.modifyBucket p.depth (·.clearPresence p.pos)).slots)
    rw [← exchanged,removed,add_cons,cons_add]
  have count : 0 < (ht.table p.table).used := by
    rw [tableWf.used,card_pos_iff_exists_mem]
    exact ⟨s,(Table.mem_slots _ s).mpr ⟨p.index,c,located,(Chain.mem_slots c s).mpr ⟨_,_,inside⟩⟩⟩
  obtain ⟨nextWf,exchanged,framed⟩ := wf.exchangeChain bound
    (Chain.linksFree_clearPresence c p.depth p.pos (tableWf.links c (mem_of_getElem? located)))
    (fun x kept => tableWf.placed p.index c located x (removed ▸ mem_cons_of_mem kept))
    ((ht.table p.table).used - 1) (ht.table p.table).childBuckets
    (by rw [chain,removed,card_cons]; omega) (by rw [chain,Chain.childCount_modifyBucket])
    (fun first r running early => absurd (place.pending first r running) (by omega))
    (by
      intro rest exchanged
      rw [chain] at exchanged
      have distinct := wf.distinct
      rw [lost rest exchanged,Multiset.map_cons] at distinct
      exact (Multiset.nodup_cons.mp distinct).2)
    (ht.clearPosition p)
    (by
      simp only [clearPosition,modifyBucket,decrementUsed,modifyTable_modifyTable]
      apply modifyTable_eq
      rw [← chain]
      rfl)
  rw [chain] at exchanged
  exact ⟨nextWf,lost _ exchanged,framed,(quiet_clearPosition p ht).traced⟩

theorem slotAt_clearPosition_of_ne (ht : Hashtable L α) {q : Position L} (apart : q ≠ p) :
    (ht.clearPosition p).slotAt q = ht.slotAt q := by
  obtain ⟨t,index,depth,pos⟩ := p
  obtain ⟨u,i,d,x⟩ := q
  simp only [slotAt,clearPosition,modifyBucket,decrementUsed,table_modifyTable]
  by_cases tables : u = t
  · subst u
    simp only [if_true,Table.setChain,getElem?_set]
    by_cases indices : index = i
    · subst i
      by_cases bound : index < (ht.table t).buckets.length
      · have moved : ¬(d = depth ∧ x = pos) := fun equal => apart (by rw [equal.1,equal.2])
        simp only [bound,if_true,bind_some,Chain.slotAt_clearPresence,moved,if_false,Table.getElem?_chain _ _ bound]
      · simp [bound]
    · simp [indices]
  · simp [tables]

theorem WF.position_unique (wf : ht.WF ty) (p q : Position L) (s x : Slot α)
    (here : ht.slotAt p = some s) (there : ht.slotAt q = some x) (same : ty.entryGetKey x.entry = ty.entryGetKey s.entry) :
    q = p := by
  by_contra apart
  have left : x ∈ (ht.clearPosition p).slots :=
    (mem_slots _ x).mpr ⟨q,by rw [slotAt_clearPosition_of_ne ht apart]; exact there⟩
  have distinct := wf.distinct
  rw [(clearPosition_spec wf here).slots,Multiset.map_cons,Multiset.nodup_cons] at distinct
  exact distinct.1 (same ▸ mem_map_of_mem (fun s => ty.entryGetKey s.entry) left)

def Table.rechain (table : Table L α) (index : Nat) (g : Chain L α → Chain L α × Nat) : Table L α :=
  {table.setChain index (g (table.chain index)).1 with childBuckets := table.childBuckets - (g (table.chain index)).2}

theorem rechain_rearranged (wf : ht.WF ty) {t : Fin 2} {index : Nat}
    (bound : index < (ht.table t).buckets.length) {g : Chain L α → Chain L α × Nat}
    (spec : Chain.Repacked ((ht.table t).chain index).slots ((ht.table t).chain index).childCount (g ((ht.table t).chain index))) :
    Reshaped ty ht (ht.modifyTable t (·.rechain index g)) := by
  obtain ⟨links,same,count⟩ := spec
  have located := Table.getElem?_chain (ht.table t) index bound
  have enough := (wf.table t).childCount_le index bound
  have kept : ∀ held : Multiset (Slot α),
      held + ((ht.table t).chain index).slots = ht.slots + (g ((ht.table t).chain index)).1.slots → held = ht.slots := by
    intro held exchanged
    rw [same] at exchanged
    exact add_right_cancel exchanged
  obtain ⟨nextWf,exchanged,framed⟩ := wf.exchangeChain bound links
    (by rw [same]; exact (wf.table t).placed index _ located) (ht.table t).used
    ((ht.table t).childBuckets - (g ((ht.table t).chain index)).2) (by rw [same]) (by omega)
    (by
      -- a chain behind the rehashing index is empty and stays so
      rintro rfl r running early
      obtain ⟨vacant,childless⟩ := (wf.running r running).2.2.2 index _ early located
      exact ⟨same.trans vacant,by omega⟩)
    (fun held exchanged => kept held exchanged ▸ wf.distinct) _ (modifyTable_eq ht t (·.rechain index g) rfl)
  refine ⟨⟨nextWf,kept _ exchanged,fun allocated => ?_,framed⟩,?_⟩
  · rwa [exp_modifyTable ht t (·.rechain index g) fun _ => rfl]
  · apply (quiet_modifyTable ht t _).traced
    exact fun _ => rfl

theorem compactBucketChain_rearranged (wf : ht.WF ty) (index : Nat) (t : Fin 2)
    (bound : index < (ht.table t).buckets.length) : Reshaped ty ht (ht.compactBucketChain index t) :=
  rechain_rearranged wf bound
    (Chain.compactBucketChain_spec _ ((wf.table t).links _ (Table.chain_mem _ index bound)))

theorem fillBucketHole_rearranged (wf : ht.WF ty) (p : Position L)
    (bound : p.index < (ht.table p.table).buckets.length)
    (hole : ((ht.table p.table).chain p.index).slotAt p.depth p.pos = none) (usable : p.pos ≠ L.lastPos) :
    Reshaped ty ht (ht.fillBucketHole p) :=
  rechain_rearranged wf bound
    (Chain.fillHoleAt_spec _ p.depth p.pos ((wf.table p.table).links _ (Table.chain_mem _ p.index bound)) hole usable)

theorem table_clearPosition (ht : Hashtable L α) (p : Position L) :
    (ht.clearPosition p).table p.table = {(ht.table p.table).setChain p.index
      (((ht.table p.table).chain p.index).modifyBucket p.depth (·.clearPresence p.pos)) with
      used := (ht.table p.table).used - 1} := by
  simp only [clearPosition,modifyBucket,decrementUsed,table_modifyTable]
  rfl

theorem clearAndFill_spec (wf : ht.WF ty)
    (held : ht.slotAt p = some s) {cleared : Hashtable L α} (buckets : cleared.table p.table = (ht.clearPosition p).table p.table)
    (clearedWf : cleared.WF ty) : Reshaped ty cleared (cleared.fillBucketHoleIfChained p) := by
  obtain ⟨c,located,inside,bound,chain⟩ := located_of_slotAt held
  rw [table_clearPosition,chain] at buckets
  have rest : (cleared.table p.table).chain p.index = c.modifyBucket p.depth (·.clearPresence p.pos) := by
    rw [buckets]
    exact Table.chain_setChain _ _ _ bound
  unfold fillBucketHoleIfChained
  split
  · rename_i chained
    rw [rest,Chain.chainedAt_modifyBucket,Bool.and_eq_true] at chained
    apply fillBucketHole_rearranged clearedWf p
    · rw [buckets]
      simpa [Table.setChain] using bound
    · rw [rest,Chain.slotAt_clearPresence]
      simp
    · exact Chain.usable_of_slotAt c p.depth p.pos s ((wf.table p.table).links c (mem_of_getElem? located)) inside chained.1
  · exact .refl clearedWf

theorem setEntry_spec (wf : ht.WF ty)
    (held : ht.slotAt p = some s) (entry : α) (same : ty.entryGetKey entry = ty.entryGetKey s.entry) :
    (ht.modifyBucket p (·.setEntry p.pos entry)).WF ty ∧
      (∃ rest, ht.slots = s ::ₘ rest ∧ (ht.modifyBucket p (·.setEntry p.pos entry)).slots = ⟨s.hash,entry⟩ ::ₘ rest) ∧
      Framed ht (ht.modifyBucket p (·.setEntry p.pos entry)) := by
  obtain ⟨c,located,inside,bound,chain⟩ := located_of_slotAt held
  have place := wf.inPlace p s held
  have tableWf := wf.table p.table
  have removed := Chain.slots_clearPresence c p.depth p.pos s inside
  have written := Chain.slots_setEntry c p.depth p.pos s entry inside
  have home := tableWf.placed p.index c located
  obtain ⟨rest,whole⟩ : ∃ rest, ht.slots = s ::ₘ rest := exists_cons_of_mem ((mem_slots ht s).mpr ⟨p,held⟩)
  have kept : ∀ next : Multiset (Slot α),
      next + c.slots = ht.slots + (c.modifyBucket p.depth (·.setEntry p.pos entry)).slots → next = ⟨s.hash,entry⟩ ::ₘ rest := by
    intro next exchanged
    apply add_right_cancel (b := c.slots)
    rw [exchanged,whole,written,removed]
    simp only [add_cons,cons_add]
    rw [cons_swap]
  have distinct : ((⟨s.hash,entry⟩ ::ₘ rest).map (fun x => ty.entryGetKey x.entry)).Nodup := by
    have before := wf.distinct
    rw [whole] at before
    simpa [same] using before
  obtain ⟨nextWf,exchanged,framed⟩ := wf.exchangeChain bound
    (Chain.linksFree_setEntry c p.depth p.pos entry (tableWf.links c (mem_of_getElem? located)))
    (by
      intro x member
      rw [written,Multiset.mem_cons] at member
      rcases member with rfl | old
      · have own := home s (removed ▸ mem_cons_self s _)
        simpa [Homed,HashtableType.hashOf,same] using own
      · exact home x (removed ▸ mem_cons_of_mem old))
    (ht.table p.table).used (ht.table p.table).childBuckets
    (by rw [chain,written,removed,card_cons,card_cons]) (by rw [chain,Chain.childCount_modifyBucket])
    (fun first r running early => absurd (place.pending first r running) (by omega))
    (fun next exchanged => kept next (chain ▸ exchanged) ▸ distinct)
    (ht.modifyBucket p (·.setEntry p.pos entry))
    (modifyTable_eq ht p.table _ (by rw [← chain]; rfl))
  rw [chain] at exchanged
  exact ⟨nextWf,⟨rest,whole,kept _ exchanged⟩,framed⟩

theorem quiet_withPauses (ht : Hashtable L α) (rehash autoShrink : Int) : Quiet ht (ht.withPauses rehash autoShrink) := ⟨rfl,rfl⟩

theorem hashtableResumeAutoShrink_rearranged (wf : ht.WF ty) (env : Env)
    (low : -2^15 < ht.pauseAutoShrink) (high : ht.pauseAutoShrink ≤ 2^15) :
    Reshaped ty (ht.withPauses ht.pauseRehash (ht.pauseAutoShrink - 1)) (ht.hashtableResumeAutoShrink ty env) := by
  have resumed := wf.withPauses ht.pauseRehash (ht.pauseAutoShrink - 1)
  simp only [hashtableResumeAutoShrink]
  rw [int16_eq (by omega) (by omega)]
  split
  · exact shrinkIfNeeded_rearranged resumed env
  · exact .refl resumed

theorem hashtableResumeRehashing_eq (env : Env)
    (low : -2^15 < ht.pauseRehash) (high : ht.pauseRehash ≤ 2^15) (paused : 1 < ht.pauseAutoShrink)
    (room : ht.pauseAutoShrink ≤ 2^15) :
    ht.hashtableResumeRehashing ty env = ht.withPauses (ht.pauseRehash - 1) (ht.pauseAutoShrink - 1) := by
  simp only [hashtableResumeRehashing,hashtableResumeAutoShrink,Hashtable.withPauses]
  rw [int16_eq (by omega) (by omega),int16_eq (by omega) (by omega),if_neg (by omega)]

theorem twoPhasePopDelete_eq (wf : ht.WF ty) (fit : ht.PausesFit) (env : Env) (held : ht.slotAt p = some s) :
    ∃ cleared filled, cleared = (ht.hashtablePauseRehashing.clearPosition p).withPauses ht.pauseRehash (ht.pauseAutoShrink + 1) ∧
      filled = cleared.fillBucketHoleIfChained p ∧
      ht.hashtablePauseRehashing.twoPhasePopDelete ty env p = filled.hashtableResumeAutoShrink ty env ∧
      ht.slots = s ::ₘ cleared.slots ∧ cleared.safeIterators = ht.safeIterators ∧ Reshaped ty cleared filled := by
  rw [hashtablePauseRehashing_eq fit]
  obtain ⟨rehashLow,shrinkLow,rehashRoom,shrinkRoom⟩ := fit
  generalize pausedEq : ht.withPauses (ht.pauseRehash + 1) (ht.pauseAutoShrink + 1) = paused
  have pausedWf : paused.WF ty := pausedEq ▸ wf.withPauses _ _
  have pausedHeld : paused.slotAt p = some s := pausedEq ▸ held
  obtain ⟨clearedWf,removed,framed,_⟩ := clearPosition_spec pausedWf pausedHeld
  have rehashCount : (paused.clearPosition p).pauseRehash = ht.pauseRehash + 1 := by rw [framed.pauseRehash,← pausedEq]; rfl
  have shrinkCount : (paused.clearPosition p).pauseAutoShrink = ht.pauseAutoShrink + 1 := by
    rw [framed.pauseAutoShrink,← pausedEq]; rfl
  have resumed : (paused.clearPosition p).hashtablePauseAutoShrink.hashtableResumeRehashing ty env =
      (paused.clearPosition p).withPauses ht.pauseRehash (ht.pauseAutoShrink + 1) := by
    rw [hashtablePauseAutoShrink_eq (by omega) (by omega),hashtableResumeRehashing_eq env
      (by rw [withPauses_pauseRehash]; omega) (by rw [withPauses_pauseRehash]; omega)
      (by rw [withPauses_pauseAutoShrink]; omega) (by rw [withPauses_pauseAutoShrink]; omega),
      withPauses_pauseRehash,withPauses_pauseAutoShrink,rehashCount,shrinkCount,add_sub_cancel_right,add_sub_cancel_right]
    rfl
  refine ⟨_,_,rfl,rfl,by rw [twoPhasePopDelete,resumed],?_,?_,clearAndFill_spec pausedWf pausedHeld rfl (clearedWf.withPauses _ _)⟩
  · rw [withPauses_slots,← removed,← pausedEq,withPauses_slots]
  · rw [withPauses_safeIterators,framed.safeIterators,← pausedEq,withPauses_safeIterators]

theorem twoPhasePopDelete_spec (wf : ht.WF ty) (fit : ht.PausesFit) (env : Env) (held : ht.slotAt p = some s) :
    Removed ty ht s (ht.hashtablePauseRehashing.twoPhasePopDelete ty env p) := by
  have shrinkRoom := fit.autoShrinkRoom
  have shrinkLow := fit.autoShrink
  obtain ⟨cleared,filled,clearedEq,_,deleted,removed,iterators,rearranged⟩ := twoPhasePopDelete_eq wf fit env held
  have rehashCount : filled.pauseRehash = ht.pauseRehash := by rw [rearranged.framed.pauseRehash,clearedEq,withPauses_pauseRehash]
  have shrinkCount : filled.pauseAutoShrink = ht.pauseAutoShrink + 1 := by
    rw [rearranged.framed.pauseAutoShrink,clearedEq,withPauses_pauseAutoShrink]
  have finished := hashtableResumeAutoShrink_rearranged rearranged.wf env (by omega) (by omega)
  rw [deleted]
  refine ⟨finished.wf,?_,⟨?_,?_,?_⟩,?_⟩
  · rw [finished.slots,withPauses_slots,rearranged.slots,removed]
  · rw [finished.framed.pauseRehash,withPauses_pauseRehash,rehashCount]
  · rw [finished.framed.pauseAutoShrink,withPauses_pauseAutoShrink,shrinkCount,add_sub_cancel_right]
  · rw [finished.framed.safeIterators,withPauses_safeIterators,rearranged.framed.safeIterators,iterators]
  · have emptied : Quiet ht cleared :=
      clearedEq ▸ (quiet_pauses ht).1.trans ((quiet_clearPosition p _).trans (quiet_withPauses _ _ _))
    exact emptied.traced.trans (rearranged.traced.trans ((quiet_withPauses filled _ _).traced.trans finished.traced))

variable [DecidableEq κ]

theorem pop_spec (wf : ht.WF ty) (plain : ty.validateEntry = none) (env : Env) (key : κ) :
    Popped ty ht key (ht.pop ty env key) := by
  unfold pop
  split
  · rename_i vacant
    exact Or.inr ⟨by simp [wf.slots_eq_zero vacant],rfl,.refl wf⟩
  rcases findBucket_cases wf plain env key with ⟨next,p,s,result,searched,held,same⟩ | ⟨next,result,searched,absent⟩
  · have cleared := clearPosition_spec searched.wf held
    have filled := clearAndFill_spec searched.wf held rfl cleared.wf
    have shrunk := filled.trans (shrinkIfNeeded_rearranged filled.wf env)
    simp only [result]
    exact Or.inl ⟨s,same,entryAt_eq next p s held,(cleared.trans shrunk).after searched⟩
  · simp only [result]
    exact Or.inr ⟨absent,rfl,searched⟩

theorem popTwoPhase_spec (wf : ht.WF ty) (fit : ht.PausesFit)
    (plain : ty.validateEntry = none) (env : Env) (key : κ) : Popped ty ht key (ht.popTwoPhase ty env key) := by
  by_cases vacant : ht.size = 0
  · simp only [popTwoPhase,twoPhasePopFindRef,vacant]
    exact Or.inr ⟨by simp [wf.slots_eq_zero vacant],rfl,.refl wf⟩
  rcases findBucket_cases wf plain env key with ⟨next,p,s,result,searched,held,same⟩ | ⟨next,result,searched,absent⟩
  · have deleted := twoPhasePopDelete_spec searched.wf (fit.framed searched.framed) env held
    simp only [popTwoPhase,twoPhasePopFindRef,vacant,result]
    exact Or.inl ⟨s,same,entryAt_eq next p s held,deleted.after searched⟩
  · simp only [popTwoPhase,twoPhasePopFindRef,vacant,result]
    exact Or.inr ⟨absent,rfl,searched⟩

end Deletion

section Replacement
variable [Inhabited α] [DecidableEq α]

theorem replaceReallocatedEntry_spec (wf : ht.WF ty) {oldEntry newEntry : α}
    (same : ty.entryGetKey newEntry = ty.entryGetKey oldEntry) :
    (∃ s rest, s.entry = oldEntry ∧ ht.slots = s ::ₘ rest ∧ (ht.replaceReallocatedEntry ty oldEntry newEntry).2 = true ∧
        (ht.replaceReallocatedEntry ty oldEntry newEntry).1.WF ty ∧
        (ht.replaceReallocatedEntry ty oldEntry newEntry).1.slots = ⟨s.hash,newEntry⟩ ::ₘ rest ∧
        Framed ht (ht.replaceReallocatedEntry ty oldEntry newEntry).1) ∨
      ((∀ s ∈ ht.slots, s.entry ≠ oldEntry) ∧ ht.replaceReallocatedEntry ty oldEntry newEntry = (ht,false)) := by
  unfold replaceReallocatedEntry
  dsimp only
  split
  · rename_i p found
    obtain ⟨s,held,accepted⟩ := searchTables_some wf _ _ found
    simp only [Bool.and_eq_true,decide_eq_true_eq] at accepted
    obtain ⟨nextWf,⟨rest,whole,written⟩,framed⟩ := setEntry_spec wf held newEntry (by rw [same,accepted.2])
    exact Or.inl ⟨s,rest,accepted.2,whole,rfl,nextWf,written,framed⟩
  · rename_i missing
    refine Or.inr ⟨?_,rfl⟩
    intro s member equal
    have hashed : ty.hashOf s.entry = ty.hashKey (ty.entryGetKey newEntry) := by rw [equal,same,HashtableType.hashOf]
    have byte := wf.hash_eq member
    have rejected := searchTables_none wf _ _ missing member hashed
    simp [equal,byte,← hashed] at rejected

end Replacement

section Tracing
variable [Inhabited α]

theorem quiet_insertAtPosition (entry : α) (p : Position L) (ht : Hashtable L α) : Quiet ht (ht.insertAtPosition entry p) :=
  (quiet_modifyBucket ht p _).trans (quiet_incrementUsed _ _)

variable [DecidableEq κ]

theorem findPositionForInsert_traced (wf : ht.WF ty) (env : Env) (key : κ) : Traced ht (ht.findPositionForInsert ty env key).1 := by
  have searched := (findBucket_spec wf env key).1
  unfold findPositionForInsert
  rcases result : ht.findBucket ty env (ty.hashKey key) key with ⟨next,_ | p⟩
  · rw [result] at searched
    simp only [result]
    exact searched.traced.trans ((prepareInsert_spec searched.wf env).1.traced.trans
      ((quiet_findBucketForInsert _ _).trans (quiet_modifyBucket _ _ _)).traced)
  · rw [result] at searched
    simp only [result]
    exact searched.traced

end Tracing

end ValkeyWasm.Hashtable
