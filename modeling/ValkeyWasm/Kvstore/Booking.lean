import ValkeyWasm.Kvstore.Run
import Mathlib.Algebra.BigOperators.Fin

/-! The accounts of buckets and the list of rehashing hash tables.
The accounts are compared with the shapes of the hash tables. While the events of an
operation are being told, the shape that the accounts have heard of lags behind the
stored hash table. -/
namespace ValkeyWasm.Kvstore
open Hashtable Function List Option

variable {L : Layout} {b : Nat} {α κ : Type*}

def noShape : Shape := ⟨0,0,false⟩

def shapes (kvs : Kvstore L b α) (didx : Fin (2^b)) : Shape := (kvs.kvstoreGetHashtable didx).elim noShape Hashtable.shape

def Shape.pending (s : Shape) : Nat := if s.rehashing then s.first else 0

theorem sum_update {ι : Type*} [Fintype ι] [DecidableEq ι] {β : Type*} (g : ι → β → Int) (v : ι → β) (d : ι) (x : β) :
    ∑ i, g i (update v d x i) = ∑ i, g i (v i) - g d (v d) + g d x := by
  simp only [apply_update g]
  rw [Finset.sum_update_of_mem (Finset.mem_univ d),
    ← Finset.add_sum_erase Finset.univ (fun i => g i (v i)) (Finset.mem_univ d),Finset.sdiff_singleton_eq_erase]
  ring

/-- The counters of buckets agree with the shapes, up to the two records. -/
structure Accounts (kvs : Kvstore L b α) (shapes : Fin (2^b) → Shape) : Prop where
  buckets : kvs.bucketCount = ∑ i, ((shapes i).first + (shapes i).second : Int) + kvs.releasedBuckets
  overhead : kvs.overheadHashtableRehashing = (∑ i, (Shape.pending (shapes i) : Int) + kvs.strandedBuckets) * bucketSize
  kept : kvs.flags.freeEmptyHashtables = false → kvs.releasedBuckets = 0

/-- The list and the metadata of the hash tables point to each other. -/
structure Listing (kvs : Kvstore L b α) (shapes : Fin (2^b) → Shape) : Prop where
  linked : ∀ n ∈ kvs.rehashing, ∃ held, kvs.hashtables n.value.didx = some held ∧ held.serial = n.value.serial ∧
    held.rehashingNode = some n.node
  listed : ∀ didx held, kvs.hashtables didx = some held → (shapes didx).rehashing = true →
    ∃ n ∈ kvs.rehashing, held.rehashingNode = some n.node ∧ n.value.didx = didx
  unlisted : ∀ didx held, kvs.hashtables didx = some held → (shapes didx).rehashing = false → held.rehashingNode = none
  fresh : ∀ n ∈ kvs.rehashing, n.node < kvs.nextNode
  nodes : (kvs.rehashing.map (·.node)).Nodup

structure Booked (kvs : Kvstore L b α) (shapes : Fin (2^b) → Shape) : Prop where
  accounts : Accounts kvs shapes
  listing : Listing kvs shapes

structure Told (kvs next : Kvstore L b α) : Prop where
  hashtables : ∀ didx, next.kvstoreGetHashtable didx = kvs.kvstoreGetHashtable didx
  flags : next.flags = kvs.flags
  nonEmptyHashtables : next.nonEmptyHashtables = kvs.nonEmptyHashtables
  keyCount : next.keyCount = kvs.keyCount
  hashtableSizeIndex : next.hashtableSizeIndex = kvs.hashtableSizeIndex
  importing : next.importing = kvs.importing
  importingKeyCount : next.importingKeyCount = kvs.importingKeyCount
  resizeCursor : next.resizeCursor = kvs.resizeCursor

theorem Told.refl (kvs : Kvstore L b α) : Told kvs kvs := ⟨fun _ => rfl,rfl,rfl,rfl,rfl,rfl,rfl,rfl⟩

variable {next : Kvstore L b α} {kvs : Kvstore L b α}

theorem Told.trans {middle : Kvstore L b α} (first : Told kvs middle) (second : Told middle next) : Told kvs next :=
  ⟨fun didx => (second.hashtables didx).trans (first.hashtables didx),second.flags.trans first.flags,
    second.nonEmptyHashtables.trans first.nonEmptyHashtables,second.keyCount.trans first.keyCount,
    second.hashtableSizeIndex.trans first.hashtableSizeIndex,second.importing.trans first.importing,
    second.importingKeyCount.trans first.importingKeyCount,second.resizeCursor.trans first.resizeCursor⟩

variable {didx : Fin (2^b)}

theorem get_store (kvs : Kvstore L b α) (didx : Fin (2^b)) (stored : Option (KvstoreHashtable L α)) (i : Fin (2^b)) :
    (update kvs.hashtables didx stored i).map (·.hashtable) = if i = didx then stored.map (·.hashtable) else kvs.kvstoreGetHashtable i := by
  rw [update_apply,apply_ite (Option.map _)]
  rfl

theorem get_update {held next : KvstoreHashtable L α} (present : kvs.hashtables didx = some held)
    (same : next.hashtable = held.hashtable) (i : Fin (2^b)) :
    ((update kvs.hashtables didx (some next)) i).map (·.hashtable) = kvs.kvstoreGetHashtable i := by
  rw [get_store]
  split
  · rename_i here
    simp [here,kvstoreGetHashtable,present,same]
  · rfl

theorem callback_told (didx : Fin (2^b)) (kvs : Kvstore L b α) (event : RehashEvent) : Told kvs (kvs.callback didx event) := by
  cases event with
  | started source target | completed source target =>
    simp only [callback,kvstoreHashtableRehashingStarted,kvstoreHashtableRehashingCompleted]
    split
    · exact .refl kvs
    · rename_i held present
      exact ⟨get_update present rfl,rfl,rfl,rfl,rfl,rfl,rfl,rfl⟩
  | aborted source target => exact ⟨fun _ => rfl,rfl,rfl,rfl,rfl,rfl,rfl,rfl⟩

theorem callbacks_told (didx : Fin (2^b)) (events : List RehashEvent) (kvs : Kvstore L b α) :
    Told kvs (events.foldl (callback didx) kvs) :=
  foldlRecOn events _ (.refl kvs) fun next told event _ => told.trans (callback_told didx next event)

section Events
variable {kvs : Kvstore L b α} {shapes : Fin (2^b) → Shape} {didx : Fin (2^b)} {held : KvstoreHashtable L α}

theorem Accounts.change (accounts : Accounts kvs shapes) (new : Shape)
    (buckets : next.bucketCount - next.releasedBuckets =
      kvs.bucketCount - kvs.releasedBuckets + (new.first + new.second) - ((shapes didx).first + (shapes didx).second))
    (overhead : next.overheadHashtableRehashing = kvs.overheadHashtableRehashing +
      (Shape.pending new - Shape.pending (shapes didx) + (next.strandedBuckets - kvs.strandedBuckets)) * bucketSize)
    (kept : next.flags.freeEmptyHashtables = false → next.releasedBuckets = 0) : Accounts next (update shapes didx new) := by
  refine ⟨?_,?_,kept⟩
  · rw [sum_update (fun _ (s : Shape) => (s.first + s.second : Int))]
    have counted := accounts.buckets
    omega
  · rw [sum_update (fun _ (s : Shape) => (Shape.pending s : Int)),overhead,accounts.overhead]
    ring

theorem Listing.change {after : Fin (2^b) → Shape} (listing : Listing kvs shapes) (didx : Fin (2^b))
    (others : ∀ i, i ≠ didx → next.hashtables i = kvs.hashtables i ∧ after i = shapes i)
    (members : ∀ n, n.value.didx ≠ didx → (n ∈ next.rehashing ↔ n ∈ kvs.rehashing))
    (own : ∀ n ∈ next.rehashing, n.value.didx = didx →
      ∃ held, next.hashtables didx = some held ∧ held.serial = n.value.serial ∧ held.rehashingNode = some n.node)
    (known : ∀ held, next.hashtables didx = some held → if (after didx).rehashing
      then ∃ n ∈ next.rehashing, held.rehashingNode = some n.node ∧ n.value.didx = didx else held.rehashingNode = none)
    (fresh : ∀ n ∈ next.rehashing, n.node < next.nextNode) (nodes : (next.rehashing.map (·.node)).Nodup) : Listing next after := by
  refine ⟨fun n member => ?_,fun i held located running => ?_,fun i held located idle => ?_,fresh,nodes⟩
  · by_cases same : n.value.didx = didx
    · rw [same]
      exact own n member same
    · rw [(others _ same).1]
      exact listing.linked n ((members n same).mp member)
  · by_cases same : i = didx
    · subst same
      simpa [running] using known held located
    rw [(others i same).1] at located
    rw [(others i same).2] at running
    obtain ⟨n,member,node,value⟩ := listing.listed i held located running
    exact ⟨n,(members n (value ▸ same)).mpr member,node,value⟩
  · by_cases same : i = didx
    · subst same
      simpa [idle] using known held located
    · rw [(others i same).1] at located
      rw [(others i same).2] at idle
      exact listing.unlisted i held located idle

theorem Listing.absent (listing : Listing kvs shapes) (idle : (shapes didx).rehashing = false) : ∀ n ∈ kvs.rehashing, n.value.didx ≠ didx := by
  rintro n member rfl
  obtain ⟨held,located,_,node⟩ := listing.linked n member
  rw [listing.unlisted _ held located idle] at node
  cases node

theorem started_booked (booked : Booked kvs shapes) (present : kvs.hashtables didx = some held) {source : Nat} (target : Nat)
    (shape : shapes didx = ⟨source,0,false⟩) :
    Booked (kvs.callback didx (.started source target)) (update shapes didx ⟨source,target,true⟩) := by
  have elsewhere := booked.listing.absent (by rw [shape] : (shapes didx).rehashing = false)
  have fresh := booked.listing.fresh
  simp only [callback,kvstoreHashtableRehashingStarted,present]
  refine ⟨booked.accounts.change _ ?_ ?_ booked.accounts.kept,booked.listing.change didx ?_ ?_ ?_ ?_ ?_ ?_⟩
  · rw [shape]
    ring
  · simp [shape,Shape.pending]
  · exact fun i apart => ⟨update_of_ne apart _ _,update_of_ne apart _ _⟩
  · intro n apart
    simp only [mem_append,mem_singleton,or_iff_left_iff_imp]
    rintro rfl
    exact absurd rfl apart
  · intro n member here
    rcases mem_append.mp member with old | new
    · exact absurd here (elsewhere n old)
    · obtain rfl := mem_singleton.mp new
      exact ⟨_,update_self _ _ _,rfl,rfl⟩
  · intro other located
    simp only [update_self,some.injEq] at located ⊢
    exact ⟨_,mem_append_right _ (mem_singleton_self _),by rw [← located],rfl⟩
  · intro n member
    rcases mem_append.mp member with old | new
    · exact Nat.lt_succ_of_lt (fresh n old)
    · obtain rfl := mem_singleton.mp new
      exact Nat.lt_succ_self _
  · rw [map_append,nodup_append]
    refine ⟨booked.listing.nodes,nodup_singleton _,?_⟩
    intro node old other new
    obtain ⟨n,member,rfl⟩ := mem_map.mp old
    obtain rfl := mem_singleton.mp new
    exact (fresh n member).ne

theorem completed_booked (booked : Booked kvs shapes) (present : kvs.hashtables didx = some held) {source target : Nat}
    (shape : shapes didx = ⟨source,target,true⟩) :
    Booked (kvs.callback didx (.completed source target)) (update shapes didx ⟨target,0,false⟩) := by
  have nodes := booked.listing.nodes
  obtain ⟨own,ownMember,ownNode,ownValue⟩ := booked.listing.listed didx held present (by rw [shape])
  have remaining : ∀ n, n ∈ kvs.rehashing.filter (fun n => decide (held.rehashingNode ≠ some n.node)) ↔
      n ∈ kvs.rehashing ∧ n.value.didx ≠ didx := by
    intro n
    rw [mem_filter,decide_eq_true_iff,ownNode]
    refine and_congr_right fun member => ⟨?_,fun apart same => ?_⟩
    · rintro other rfl
      obtain ⟨again,located,_,node⟩ := booked.listing.linked n member
      rw [present,some.injEq] at located
      rw [← located,ownNode] at node
      exact other node
    · have equal := inj_on_of_nodup_map nodes ownMember member (Option.some.inj same)
      exact apart (equal ▸ ownValue)
  simp only [callback,kvstoreHashtableRehashingCompleted,present]
  refine ⟨booked.accounts.change _ ?_ ?_ booked.accounts.kept,booked.listing.change didx ?_ ?_ ?_ ?_ ?_ ?_⟩
  · rw [shape]
    ring
  · simp [shape,Shape.pending]
    ring
  · exact fun i apart => ⟨update_of_ne apart _ _,update_of_ne apart _ _⟩
  · exact fun n apart => (remaining n).trans (and_iff_left apart)
  · exact fun n member here => absurd here ((remaining n).mp member).2
  · intro other located
    simp only [update_self,some.injEq] at located
    simp [← located]
  · exact fun n member => booked.listing.fresh n ((remaining n).mp member).1
  · exact nodes.sublist (filter_sublist.map _)

theorem aborted_booked (booked : Booked kvs shapes) {source target : Nat} (shape : shapes didx = ⟨source,target,true⟩) :
    Booked (kvs.callback didx (.aborted source target)) (update shapes didx ⟨target,source,true⟩) := by
  obtain ⟨linked,listed,_,fresh,nodes⟩ := booked.listing
  refine ⟨booked.accounts.change _ ?_ ?_ booked.accounts.kept,booked.listing.change didx ?_ ?_ ?_ ?_ fresh nodes⟩
  · simp only [callback,shape]
    ring
  · simp only [callback,shape,Shape.pending,if_true]
    ring
  · exact fun i apart => ⟨rfl,update_of_ne apart _ _⟩
  · exact fun n _ => Iff.rfl
  · rintro n member rfl
    exact linked n member
  · intro held located
    rw [update_self]
    exact listed didx held located (by rw [shape])

theorem callbacks_booked (booked : Booked kvs shapes) {ht : Hashtable L α} (found : kvs.kvstoreGetHashtable didx = some ht) {events : List RehashEvent}
    {final : Shape} (leads : Leads (shapes didx) events final) :
    Booked (events.foldl (callback didx) kvs) (update shapes didx final) := by
  generalize start : shapes didx = first at leads
  induction leads generalizing kvs shapes with
  | nil _ =>
    rw [← start,update_eq_self]
    exact booked
  | started source target rest final _ ih =>
    obtain ⟨held,located,-⟩ := map_eq_some_iff.mp found
    have told := callback_told didx kvs (.started source target)
    have next := ih (started_booked booked located target start) ((told.hashtables didx).trans found) (update_self _ _ _)
    rwa [update_idem] at next
  | completed source target rest final _ ih =>
    obtain ⟨held,located,-⟩ := map_eq_some_iff.mp found
    have told := callback_told didx kvs (.completed source target)
    have next := ih (completed_booked booked located start) ((told.hashtables didx).trans found) (update_self _ _ _)
    rwa [update_idem] at next
  | aborted source target rest final _ ih =>
    have told := callback_told didx kvs (.aborted source target)
    have next := ih (aborted_booked booked start) ((told.hashtables didx).trans found) (update_self _ _ _)
    rwa [update_idem] at next

end Events

section Settling
variable {kvs : Kvstore L b α} {didx : Fin (2^b)}

structure Settled (kvs : Kvstore L b α) (didx : Fin (2^b)) (ht : Option (Hashtable L α)) (next : Kvstore L b α) : Prop where
  hashtables : ∀ i, next.kvstoreGetHashtable i = if i = didx then ht else kvs.kvstoreGetHashtable i
  flags : next.flags = kvs.flags
  nonEmptyHashtables : next.nonEmptyHashtables = kvs.nonEmptyHashtables
  keyCount : next.keyCount = kvs.keyCount
  hashtableSizeIndex : next.hashtableSizeIndex = kvs.hashtableSizeIndex
  importing : next.importing = kvs.importing
  importingKeyCount : next.importingKeyCount = kvs.importingKeyCount
  resizeCursor : next.resizeCursor = kvs.resizeCursor

theorem Settled.trans {first second : Option (Hashtable L α)} {middle : Kvstore L b α} (earlier : Settled kvs didx first middle)
    (later : Settled middle didx second next) : Settled kvs didx second next := by
  refine ⟨?_,later.flags.trans earlier.flags,later.nonEmptyHashtables.trans earlier.nonEmptyHashtables,
    later.keyCount.trans earlier.keyCount,later.hashtableSizeIndex.trans earlier.hashtableSizeIndex,
    later.importing.trans earlier.importing,later.importingKeyCount.trans earlier.importingKeyCount,
    later.resizeCursor.trans earlier.resizeCursor⟩
  intro i
  rw [later.hashtables i,earlier.hashtables i]
  split <;> rfl

theorem settle_settled {old : Hashtable L α} (found : kvs.kvstoreGetHashtable didx = some old) (ht : Hashtable L α) :
    Settled kvs didx (some {ht with events := []}) (kvs.settle didx ht) := by
  obtain ⟨held,located,-⟩ := map_eq_some_iff.mp found
  simp only [settle,located]
  obtain ⟨hashtables,flags,nonEmpty,keyCount,index,importing,importingCount,cursor⟩ := callbacks_told didx ht.events
    {kvs with hashtables := update kvs.hashtables didx (some {held with hashtable := {ht with events := []}})}
  exact ⟨fun i => (hashtables i).trans (get_store kvs didx _ i),flags,nonEmpty,keyCount,index,importing,importingCount,cursor⟩

theorem Settled.elim_eq {ht : Option (Hashtable L α)} (settled : Settled kvs didx ht next) {β : Type*} (d : β) (f : Hashtable L α → β) :
    (fun i => (next.kvstoreGetHashtable i).elim d f) = update (fun i => (kvs.kvstoreGetHashtable i).elim d f) didx (ht.elim d f) := by
  ext i
  rw [settled.hashtables,update_apply]
  split <;> rfl

theorem Settled.shapes_eq {ht : Option (Hashtable L α)} (settled : Settled kvs didx ht next) :
    next.shapes = update kvs.shapes didx (ht.elim noShape Hashtable.shape) := settled.elim_eq noShape Hashtable.shape

theorem stored_booked (booked : Booked kvs kvs.shapes) {held : KvstoreHashtable L α} (located : kvs.hashtables didx = some held)
    (ht : Hashtable L α) :
    Booked {kvs with hashtables := update kvs.hashtables didx (some {held with hashtable := ht})} kvs.shapes := by
  obtain ⟨⟨buckets,overhead,kept⟩,listing⟩ := booked
  refine ⟨⟨buckets,overhead,kept⟩,listing.change didx ?_ ?_ ?_ ?_ listing.fresh listing.nodes⟩
  · exact fun i apart => ⟨update_of_ne apart _ _,rfl⟩
  · exact fun n _ => Iff.rfl
  · rintro n member rfl
    obtain ⟨other,found,serial,node⟩ := listing.linked n member
    rw [located,some.injEq] at found
    subst found
    exact ⟨_,update_self _ _ _,serial,node⟩
  · intro other found
    simp only [update_self,some.injEq] at found
    subst found
    split
    · rename_i running
      exact listing.listed didx held located running
    · rename_i idle
      exact listing.unlisted didx held located (by simpa using idle)

theorem settle_leads (booked : Booked kvs kvs.shapes) {old : Hashtable L α} (found : kvs.kvstoreGetHashtable didx = some old)
    (ht : Hashtable L α) (final : Shape) (leads : Leads (kvs.shapes didx) ht.events final) :
    Booked (kvs.settle didx ht) (update kvs.shapes didx final) := by
  obtain ⟨held,located,-⟩ := map_eq_some_iff.mp found
  simp only [settle,located]
  exact callbacks_booked (stored_booked booked located _) ((get_store ..).trans (if_pos rfl)) leads

theorem settle_booked (booked : Booked kvs kvs.shapes) {old : Hashtable L α} (present : kvs.kvstoreGetHashtable didx = some old)
    (silent : old.events = []) {ht : Hashtable L α} (traced : Traced old ht) : Booked (kvs.settle didx ht) (kvs.settle didx ht).shapes := by
  obtain ⟨events,logged,leads⟩ := traced
  rw [silent] at logged
  rw [(settle_settled present ht).shapes_eq]
  apply settle_leads booked present
  rw [logged]
  simp only [shapes,present]
  exact leads

theorem create_settled (kvs : Kvstore L b α) (didx : Fin (2^b)) :
    Settled kvs didx (some (kvs.createHashtableIfNeeded didx).2) (kvs.createHashtableIfNeeded didx).1 := by
  unfold createHashtableIfNeeded
  split
  · rename_i ht found
    refine ⟨?_,rfl,rfl,rfl,rfl,rfl,rfl,rfl⟩
    intro i
    by_cases same : i = didx
    · subst same
      simpa using found
    · rw [if_neg same]
  · exact ⟨get_store kvs didx _,rfl,rfl,rfl,rfl,rfl,rfl,rfl⟩

theorem create_booked (booked : Booked kvs kvs.shapes) (didx : Fin (2^b)) :
    Booked (kvs.createHashtableIfNeeded didx).1 (kvs.createHashtableIfNeeded didx).1.shapes := by
  have settled := create_settled kvs didx
  rw [settled.shapes_eq]
  unfold createHashtableIfNeeded
  rcases found : kvs.kvstoreGetHashtable didx with _ | ht
  · have before : kvs.shapes didx = noShape := by simp [shapes,found]
    have same : update kvs.shapes didx ((some (create : Hashtable L α)).elim noShape Hashtable.shape) = kvs.shapes := by
      rw [← update_eq_self didx kvs.shapes,update_idem,before]
      rfl
    rw [same]
    obtain ⟨buckets,overhead,kept⟩ := booked.accounts
    have idle : (kvs.shapes didx).rehashing = false := by rw [before]; rfl
    refine ⟨⟨buckets,overhead,kept⟩,booked.listing.change didx ?_ ?_ ?_ ?_ booked.listing.fresh booked.listing.nodes⟩
    · exact fun i apart => ⟨update_of_ne apart _ _,rfl⟩
    · exact fun n _ => Iff.rfl
    · exact fun n member here => absurd here (booked.listing.absent idle n member)
    intro other located
    obtain rfl : (⟨create,kvs.nextSerial,none⟩ : KvstoreHashtable L α) = other := by simpa using located
    rw [idle]
    rfl
  · have same : update kvs.shapes didx ((some ht).elim noShape Hashtable.shape) = kvs.shapes := by
      have here : kvs.shapes didx = (some ht).elim noShape Hashtable.shape := by simp [shapes,found]
      rw [← here,update_eq_self]
    rw [same]
    exact booked

theorem drop_booked {shapes : Fin (2^b) → Shape} (booked : Booked kvs shapes) {n : Nat} (shape : shapes didx = ⟨n,0,false⟩)
    (releases : kvs.flags.freeEmptyHashtables = true) (allocated : Int) :
    Booked {kvs with
      hashtables := update kvs.hashtables didx none
      allocatedHashtables := allocated
      releasedBuckets := kvs.releasedBuckets + n} (update shapes didx noShape) := by
  have absent := booked.listing.absent (by rw [shape] : (shapes didx).rehashing = false)
  refine ⟨booked.accounts.change _ ?_ ?_ (by simp [releases]),booked.listing.change didx ?_ ?_ ?_ ?_ booked.listing.fresh booked.listing.nodes⟩
  · simp [shape,noShape]
    ring
  · simp [shape,Shape.pending,noShape]
  · exact fun i apart => ⟨update_of_ne apart _ _,update_of_ne apart _ _⟩
  · exact fun n _ => Iff.rfl
  · exact fun n member here => absurd here (absent n member)
  · intro other located
    simp at located

theorem free_spec {ty : HashtableType α κ} (booked : Booked kvs kvs.shapes)
    (sound : ∀ ht, kvs.kvstoreGetHashtable didx = some ht → ht.WF ty ∧ ht.events = []) :
    kvs.freeHashtableIfNeeded didx = kvs ∨
      ∃ ht, kvs.kvstoreGetHashtable didx = some ht ∧ ht.size = 0 ∧ ht.isRehashingPaused = false ∧
        Settled kvs didx none (kvs.freeHashtableIfNeeded didx) ∧
        Booked (kvs.freeHashtableIfNeeded didx) (kvs.freeHashtableIfNeeded didx).shapes := by
  unfold freeHashtableIfNeeded
  rcases found : kvs.kvstoreGetHashtable didx with _ | ht
  · exact Or.inl rfl
  dsimp only
  split
  · exact Or.inl rfl
  rename_i releases
  simp only [kvstoreHashtableSize,kvstoreHashtableIsRehashingPaused,found,elim_some,any_some,Bool.or_eq_true,
    bne_iff_ne,ne_eq,not_or,not_not,Bool.not_eq_true] at releases
  obtain ⟨wf,silent⟩ := sound ht found
  have untracked : ({ht with safeIterators := 0} : Hashtable L α).WF ty :=
    ⟨wf.first,wf.second,wf.idle,wf.running,wf.distinct,wf.owned.first,wf.owned.second,wf.owned.apart⟩
  obtain ⟨events,logged,leads⟩ := hashtableEmpty_traced untracked
  have toldBooked := settle_leads booked found ht.hashtableRelease ⟨numBuckets (ht.table ht.insertTable).bucketExp,0,false⟩ (by
    rw [hashtableRelease,logged,silent]
    simp only [shapes,found]
    exact leads)
  have settled := settle_settled found ht.hashtableRelease
  have dropped := drop_booked toldBooked (update_self _ _ _)
    (by rw [settled.flags]; simpa using releases.1.1) ((kvs.settle didx ht.hashtableRelease).allocatedHashtables - 1)
  have outcome : Settled kvs didx none {kvs.settle didx ht.hashtableRelease with
      hashtables := update (kvs.settle didx ht.hashtableRelease).hashtables didx none
      allocatedHashtables := (kvs.settle didx ht.hashtableRelease).allocatedHashtables - 1
      releasedBuckets := (kvs.settle didx ht.hashtableRelease).releasedBuckets + numBuckets (ht.table ht.insertTable).bucketExp} :=
    settled.trans ⟨get_store _ didx none,rfl,rfl,rfl,rfl,rfl,rfl,rfl⟩
  refine Or.inr ⟨ht,rfl,releases.1.2,releases.2,outcome,?_⟩
  rw [outcome.shapes_eq]
  rw [update_idem] at dropped
  exact dropped

end Settling

end ValkeyWasm.Kvstore
