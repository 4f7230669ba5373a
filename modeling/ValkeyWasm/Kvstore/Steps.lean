import ValkeyWasm.Kvstore.Soundness

/-! Every call of a kvstore returns and keeps it sound.
A scan runs with its hash table paused, and its callback may delete from that hash table
and from all others. `kvstoreEmpty` breaks the books in its loop and sets them up again at
its end. -/
namespace ValkeyWasm.Kvstore
open Hashtable Function List Option

variable {L : Layout} {b : Nat} {α κ : Type*}

section Counters
variable {ty : KvstoreType α κ} {paused : Option (Fin (2^b))} {kvs next : Kvstore L b α}

section
variable (sound : Sound ty paused kvs)
include sound

theorem Sound.sameTables (same : SameTables kvs next)
    (counts : ∃ importing, Counts ty next kvs.kvstoreHashtableSize importing) : Sound ty paused next :=
  same.sound sound.small sound.booked ⟨sound.tables,sound.present⟩ counts

theorem isImporting_sound (env : Env) (didx : Fin (2^b)) :
    Sound ty paused (kvs.kvstoreIsImporting ty env didx).1 := by
  obtain ⟨importing,members,visible,hidden⟩ := sound.counts
  have next := (isImporting_spec members env didx).2
  exact sound.sameTables (isImporting_sameTables env didx)
    ⟨importing,next,⟨visible.keyCount,visible.nonEmpty,visible.index⟩,hidden⟩

theorem setIsImporting_sound (env : Env) (didx : Fin (2^b)) (isImporting : Bool)
    (promised : isImporting = true → kvs.kvstoreHashtableSize didx = 0) :
    ∃ final, kvs.kvstoreSetIsImporting ty env didx isImporting = some final ∧ Sound ty paused final := by
  obtain ⟨importing,counts⟩ := sound.counts
  obtain ⟨final,set,finalCounts,same⟩ := setIsImporting_spec counts sound.small env promised
  exact ⟨final,set,sound.sameTables same ⟨_,finalCounts⟩⟩

theorem resizeCursor_sound (cursor : Fin (2^b)) : Sound ty paused {kvs with resizeCursor := cursor} := by
  obtain ⟨importing,members,visible,hidden⟩ := sound.counts
  exact sound.sameTables ⟨rfl,rfl,rfl,rfl,rfl,rfl,rfl,rfl⟩
    ⟨importing,members,⟨visible.keyCount,visible.nonEmpty,visible.index⟩,hidden⟩

end

end Counters

section Emptying
variable {ty : KvstoreType α κ} {kvs : Kvstore L b α}

theorem zero_counts (importing : Simulates ty.intHashtableType 0 kvs.importing (fun _ => none)) (keyCount : kvs.keyCount = 0)
    (nonEmpty : kvs.nonEmptyHashtables = 0) (index : kvs.hashtableSizeIndex = fun _ => 0) (hidden : kvs.importingKeyCount = 0)
    (size : ∀ didx, kvs.kvstoreHashtableSize didx = 0) : Counts ty kvs kvs.kvstoreHashtableSize (fun _ => false) := by
  refine ⟨⟨_,importing,fun _ => rfl⟩,⟨?_,?_,?_⟩,?_⟩
  · simp [keyCount,size]
  · simp [nonEmpty,size]
  · intro _ i _ _
    simp [index,values,size]
  · simp [hidden]

theorem create_sound {flags : KvstoreFlags} (created : kvstoreCreate flags = some kvs) : Sound ty none kvs := by
  unfold kvstoreCreate at created
  split at created
  · simp at created
  rename_i large
  obtain ⟨start,zero⟩ : ∃ start : Kvstore L b α, (⟨flags,fun _ => none,[],indexOf 0,0,0,0,0,fun _ => 0,0,create,0,0,0,0,0⟩ : Kvstore L b α) = start :=
    ⟨_,rfl⟩
  have sound : Sound ty none start := by
    subst zero
    refine ⟨Nat.le_of_not_lt large,by simp [kvstoreGetHashtable],by simp,⟨⟨?_,?_,fun _ => rfl⟩,by simp,by simp,by simp,by simp,by simp⟩,_,
      zero_counts (create_simulates _) rfl rfl rfl rfl (by simp [kvstoreHashtableSize,kvstoreGetHashtable])⟩
    · simp [shapes,kvstoreGetHashtable,noShape]
    · simp [shapes,kvstoreGetHashtable,noShape,Shape.pending]
  rw [zero,some.injEq] at created
  subst created
  split
  · exact sound
  · exact foldlRecOn _ _ sound fun kvs sound didx _ => (sound.create didx).1

theorem callbacks_elsewhere {didx i : Fin (2^b)} (other : i ≠ didx) (events : List RehashEvent) (kvs : Kvstore L b α) :
    (events.foldl (callback didx) kvs).hashtables i = kvs.hashtables i := by
  induction events generalizing kvs with
  | nil => rfl
  | cons event rest ih =>
    rw [foldl_cons,ih]
    cases event with
    | started source target | completed source target =>
      simp only [callback,kvstoreHashtableRehashingStarted,kvstoreHashtableRehashingCompleted]
      split
      · rfl
      · exact update_of_ne other _ _
    | aborted source target => rfl

theorem settle_elsewhere {didx i : Fin (2^b)} (other : i ≠ didx) (ht : Hashtable L α) (kvs : Kvstore L b α) :
    (kvs.settle didx ht).hashtables i = kvs.hashtables i ∧ (kvs.settle didx ht).importing = kvs.importing := by
  unfold settle
  split
  · exact ⟨rfl,rfl⟩
  · exact ⟨(callbacks_elsewhere other _ _).trans (update_of_ne other _ _),(callbacks_told didx _ _).importing⟩

theorem free_elsewhere (kvs : Kvstore L b α) (didx : Fin (2^b)) :
    (∀ i, i ≠ didx → (kvs.freeHashtableIfNeeded didx).hashtables i = kvs.hashtables i) ∧
      (kvs.freeHashtableIfNeeded didx).importing = kvs.importing ∧
      ∀ held, (kvs.freeHashtableIfNeeded didx).hashtables didx = some held → kvs.hashtables didx = some held := by
  unfold freeHashtableIfNeeded
  split
  · exact ⟨fun _ _ => rfl,rfl,fun _ found => found⟩
  rename_i ht found
  split
  · exact ⟨fun _ _ => rfl,rfl,fun _ found => found⟩
  · refine ⟨?_,(settle_settled found _).importing,by simp⟩
    intro i other
    exact (update_of_ne other _ _).trans (settle_elsewhere other _ kvs).1

structure Vacated (ty : HashtableType α κ) (held : KvstoreHashtable L α) : Prop where
  good : Good ty 0 held.hashtable
  size : held.hashtable.size = 0
  shape : held.hashtable.shape = noShape
  unlisted : held.rehashingNode = none

theorem settle_hashtableEmpty {held : KvstoreHashtable L α} {didx : Fin (2^b)} (present : kvs.hashtables didx = some held)
    (good : Good ty.toHashtableType 0 held.hashtable) (unlisted : held.rehashingNode = none) :
    ∃ next, (kvs.settle didx held.hashtable.hashtableEmpty).hashtables didx = some next ∧ Vacated ty.toHashtableType next := by
  obtain ⟨wf,nothing,framed⟩ := hashtableEmpty_wf ty.toHashtableType held.hashtable
  have emptied : Vacated ty.toHashtableType {held with hashtable := {held.hashtable.hashtableEmpty with events := []}} :=
    ⟨good.next wf framed,by rw [size_silenced wf,nothing,Multiset.card_zero],hashtableEmpty_shape held.hashtable,unlisted⟩
  simp only [settle,present]
  rcases running : held.hashtable.isRehashing with _ | _
  · have told : held.hashtable.hashtableEmpty.events = [] := by simp [hashtableEmpty,running,good.silent]
    simp only [told,foldl_nil,update_self]
    exact ⟨_,rfl,emptied⟩
  have told : held.hashtable.hashtableEmpty.events =
      [.completed (numBuckets held.hashtable.table0.bucketExp) (numBuckets held.hashtable.table1.bucketExp)] := by
    simp [hashtableEmpty,running,good.silent]
  simp only [told,foldl_cons,foldl_nil,callback,kvstoreHashtableRehashingCompleted,update_self]
  exact ⟨_,rfl,emptied.good,emptied.size,emptied.shape,rfl⟩

theorem emptyHashtable_spec (tables : ∀ i held, kvs.hashtables i = some held → Good ty.toHashtableType 0 held.hashtable)
    (didx : Fin (2^b)) : (∀ i, i ≠ didx → (emptyHashtable kvs didx).hashtables i = kvs.hashtables i) ∧
      (emptyHashtable kvs didx).importing = kvs.importing ∧
      ∀ held, (emptyHashtable kvs didx).hashtables didx = some held → Vacated ty.toHashtableType held := by
  unfold emptyHashtable
  split
  · rename_i absent
    exact ⟨fun _ _ => rfl,rfl,by simp [absent]⟩
  rename_i held present
  generalize unlinking : ({kvs with hashtables := update kvs.hashtables didx (some {held with rehashingNode := none})} :
    Kvstore L b α) = unlinked
  have here : unlinked.hashtables didx = some {held with rehashingNode := none} := by rw [← unlinking]; exact update_self _ _ _
  obtain ⟨others,importing,kept⟩ := free_elsewhere (unlinked.settle didx held.hashtable.hashtableEmpty) didx
  refine ⟨?_,?_,?_⟩
  · intro i other
    rw [others i other,(settle_elsewhere other _ unlinked).1,← unlinking]
    exact update_of_ne other _ _
  · rw [importing,(settle_settled (map_eq_some_iff.mpr ⟨_,here,rfl⟩) _).importing,← unlinking]
  intro final located
  obtain ⟨next,stored,vacated⟩ := settle_hashtableEmpty here (tables didx held present) rfl
  rw [kept final located,some.injEq] at stored
  exact stored ▸ vacated

theorem emptyAll_spec (indexes : List (Fin (2^b)))
    (tables : ∀ i held, kvs.hashtables i = some held → Good ty.toHashtableType 0 held.hashtable) :
    (indexes.foldl emptyHashtable kvs).importing = kvs.importing ∧
      ∀ i, (i ∈ indexes ∨ ∀ held, kvs.hashtables i = some held → Vacated ty.toHashtableType held) →
        ∀ held, (indexes.foldl emptyHashtable kvs).hashtables i = some held → Vacated ty.toHashtableType held := by
  induction indexes generalizing kvs with
  | nil => exact ⟨rfl,fun i visited => visited.resolve_left not_mem_nil⟩
  | cons didx rest ih =>
    obtain ⟨others,importing,here⟩ := emptyHashtable_spec tables didx
    have nextTables : ∀ i held, (emptyHashtable kvs didx).hashtables i = some held → Good ty.toHashtableType 0 held.hashtable := by
      intro i held located
      by_cases same : i = didx
      · subst same
        exact (here held located).good
      · exact tables i held (others i same ▸ located)
    obtain ⟨restImporting,restVacated⟩ := ih nextTables
    refine ⟨restImporting.trans importing,?_⟩
    intro i visited
    apply restVacated i
    by_cases same : i = didx
    · subst same
      exact Or.inr here
    · rw [others i same]
      exact visited.imp_left (fun member => (mem_cons.mp member).resolve_left same)

theorem empty_sound (sound : Sound ty none kvs) : Sound ty none kvs.kvstoreEmpty := by
  have tables : ∀ i held, kvs.hashtables i = some held → Good ty.toHashtableType 0 held.hashtable := by
    intro i held located
    exact sound.tables i held.hashtable (by rw [kvstoreGetHashtable,located]; rfl)
  obtain ⟨importing,vacated⟩ := emptyAll_spec (List.finRange (2^b)) tables
  have left : ∀ i held, kvs.kvstoreEmpty.hashtables i = some held → Vacated ty.toHashtableType held :=
    fun i => vacated i (Or.inl (mem_finRange i))
  have shapes : ∀ i, kvs.kvstoreEmpty.shapes i = noShape := by
    intro i
    rw [Kvstore.shapes,kvstoreGetHashtable]
    rcases located : kvs.kvstoreEmpty.hashtables i with _ | held
    · rfl
    · exact (left i held located).shape
  have sizes : ∀ i, kvs.kvstoreEmpty.kvstoreHashtableSize i = 0 := by
    intro i
    rw [kvstoreHashtableSize,kvstoreGetHashtable]
    rcases located : kvs.kvstoreEmpty.hashtables i with _ | held
    · rfl
    · exact (left i held located).size
  obtain ⟨_,⟨_,sim,_⟩,_⟩ := sound.counts
  obtain ⟨wf,nothing,framed⟩ := hashtableEmpty_wf ty.intHashtableType kvs.importing
  have forgotten : Simulates ty.intHashtableType 0 kvs.kvstoreEmpty.importing (fun _ => none) := by
    simp only [kvstoreEmpty,importing]
    exact sim.next wf framed (by rw [nothing]; exact ValkeyWasm.Library.KeyedContents.represents_empty _)
  refine ⟨sound.small,?_,by simp,⟨⟨?_,?_,fun _ => rfl⟩,by simp [kvstoreEmpty],?_,?_,by simp [kvstoreEmpty],by simp [kvstoreEmpty]⟩,_,
    zero_counts forgotten rfl rfl rfl rfl sizes⟩
  · intro i ht located
    obtain ⟨held,there,rfl⟩ := map_eq_some_iff.mp located
    exact (left i held there).good
  · simp only [shapes,noShape]
    simp [kvstoreEmpty]
  · simp only [shapes,noShape,Shape.pending]
    simp [kvstoreEmpty]
  · intro i held _ running
    simp [shapes,noShape] at running
  · intro i held located _
    exact (left i held located).unlisted

end Emptying

section Maintenance
variable [Inhabited α] {ty : KvstoreType α κ} {paused : Option (Fin (2^b))} {kvs : Kvstore L b α}

section
variable (sound : Sound ty paused kvs) (env : Env)
include sound env

theorem expandOne_sound (didx : Fin (2^b)) (size : Nat) :
    Sound ty paused (kvs.kvstoreHashtableExpand ty env didx size).1 ∧ Sound ty paused (kvs.kvstoreHashtableTryExpand ty env didx size).1 := by
  obtain ⟨createdSound,good,found⟩ := sound.create didx
  unfold kvstoreHashtableExpand kvstoreHashtableTryExpand
  split
  · exact ⟨sound,sound⟩
  · exact ⟨createdSound.rearranged found (expand_rearranged good.wf env false size),
      createdSound.rearranged found (expand_rearranged good.wf env true size)⟩

theorem expandEach_sound (newsize : Nat) (tryExpand : Bool) (skip : Fin (2^b) → Bool)
    (indexes : List (Fin (2^b))) : Sound ty paused (expandEach ty env newsize tryExpand skip indexes kvs).1 := by
  induction indexes generalizing kvs with
  | nil => exact sound
  | cons didx rest ih =>
    obtain ⟨expanded,tried⟩ := expandOne_sound sound env didx newsize
    unfold expandEach
    dsimp only
    split
    · exact ih sound
    split
    · split
      · exact ih tried
      · exact tried
    · exact ih expanded

theorem expand_sound (newsize : Nat) (tryExpand : Bool) (skip : Fin (2^b) → Bool) :
    Sound ty paused (kvs.kvstoreExpand ty env newsize tryExpand skip).1 := by
  unfold kvstoreExpand
  split
  · exact sound
  · exact expandEach_sound sound env newsize tryExpand skip _

theorem resizeNext_sound : Sound ty paused (kvs.resizeNext ty env) := by
  unfold resizeNext
  split
  · exact resizeCursor_sound sound _
  · rename_i ht found
    have good := sound.tables _ ht found
    exact resizeCursor_sound (sound.rearranged found (rightsizeIfNeeded_rearranged good.wf env)) _

end

theorem resizeMany_sound (env : Env) (rounds : Nat) (sound : Sound ty paused kvs) : Sound ty paused (resizeMany ty env rounds kvs) := by
  induction rounds generalizing kvs with
  | zero => exact sound
  | succ rounds ih => exact ih (resizeNext_sound sound env)

theorem incrementallyRehash_sound (sound : Sound ty paused kvs) (env : Env) (clocks : List (Nat → Bool)) :
    ∃ final, kvs.kvstoreIncrementallyRehash ty env clocks = some final ∧ Sound ty paused final := by
  induction clocks generalizing kvs with
  | nil => exact ⟨kvs,rfl,sound⟩
  | cons elapsed rest ih =>
    unfold kvstoreIncrementallyRehash
    rcases listed : kvs.rehashing with _ | ⟨first,others⟩
    · exact ⟨kvs,rfl,sound⟩
    obtain ⟨held,located,serial,_⟩ := sound.booked.listing.linked first (by rw [listed]; exact mem_cons_self)
    have pointed : kvs.pointee first.value = some held.hashtable := by simp [pointee,located,serial]
    have found : kvs.kvstoreGetHashtable first.value.didx = some held.hashtable := by rw [kvstoreGetHashtable,located]; rfl
    simp only [pointed]
    exact ih (sound.rearranged found (rehashMicroseconds_rearranged (sound.tables _ _ found).wf env elapsed))

end Maintenance

theorem scanNextHashtable_returns (didx : Fin (2^b)) (firstIdx lastIdx : Int) (kvs : Kvstore L b α) :
    ∃ cursor, kvs.scanNextHashtable didx firstIdx lastIdx = some (kvs,cursor) := by
  have searched : ∃ nextdidx, kvs.kvstoreGetNextNonEmptyHashtableIndex didx = some nextdidx := by
    unfold kvstoreGetNextNonEmptyHashtableIndex
    dsimp only
    split
    · exact ⟨_,rfl⟩
    split
    · rename_i inside
      unfold kvstoreFindHashtableIndexByKeyIndex
      rw [if_neg (not_lt.mpr inside)]
      split_ifs <;> exact ⟨_,rfl⟩
    · exact ⟨_,rfl⟩
  obtain ⟨nextdidx,found⟩ := searched
  unfold scanNextHashtable
  rw [found,map_some]
  split_ifs <;> exact ⟨_,rfl⟩

section Scanning
variable [Inhabited α] [DecidableEq κ] {ty : KvstoreType α κ} {kvs next : Kvstore L b α}

structure Scanning (ty : KvstoreType α κ) (didx : Fin (2^b)) (bound : Nat) (run : ScanRun L b α κ) : Prop where
  running : run.aborted = false
  sound : Sound ty (some didx) run.kvs
  shallow : ∀ ht, run.kvs.kvstoreGetHashtable didx = some ht → ht.childBuckets ≤ bound

section
variable {didx : Fin (2^b)} {bound : Nat} {run : ScanRun L b α κ} (scanning : Scanning ty didx bound run)
include didx bound run scanning

theorem act_scanning (r : Removal b κ) :
    Scanning ty didx bound (run.act ty r) := by
  obtain ⟨final,removed,sound,shallower⟩ := remove_sound scanning.sound r
  simp only [ScanRun.act,removed]
  refine ⟨scanning.running,sound,?_⟩
  intro ht found
  obtain ⟨old,was,le⟩ := shallower didx ht rfl found
  exact le.trans (scanning.shallow old was)

theorem visit_scanning (entry : α) :
    Scanning ty didx bound (run.visit ty entry) := by
  have start : Scanning ty didx bound {run with pending := run.pending.tail} := ⟨scanning.running,scanning.sound,scanning.shallow⟩
  exact foldlRecOn _ _ start fun next scanning r _ => act_scanning scanning r

end

theorem scanning_keeps (ty : KvstoreType α κ) (didx : Fin (2^b)) (bound : Nat) :
    (scanHost (L := L) ty didx).Keeps (Scanning ty didx bound) bound := by
  refine ⟨fun run entry scanning => visit_scanning scanning entry,fun run _ _ scanning => scanning,?_,?_⟩
  · intro _ run t index _ scanning _
    obtain ⟨ht,found⟩ := ne_none_iff_exists'.mp (scanning.sound.present didx rfl)
    have wf := (scanning.sound.tables didx ht found).wf
    have compacted := compactBucketChain_any wf index t
    simp only [found,getD_some]
    refine ⟨scanning.running,scanning.sound.rearranged found compacted,?_⟩
    intro other located
    rw [(scanning.sound.settle found compacted.traced).1.hashtables,if_pos rfl,some.injEq] at located
    rw [← located]
    exact (childBuckets_compactBucketChain_le index t ht).trans (scanning.shallow ht found)
  · intro run ref scanning chained
    obtain ⟨ht,found⟩ := ne_none_iff_exists'.mp (scanning.sound.present didx rfl)
    simp only [found,getD_some] at chained
    exact ((scanning.sound.tables didx ht found).wf.depth_lt_childBuckets ref chained).trans_le (scanning.shallow ht found)

section
variable (sound : Sound ty none kvs) (env : Env)
include sound env

theorem hashtableScan_sound {didx : Fin (2^b)} {ht : Hashtable L α}
    (found : kvs.kvstoreGetHashtable didx = some ht) (cursor : BitVec L.sizeBits) (pending : List (List (Removal b κ))) :
    ∃ run next, (scanHost ty didx).hashtableScan ty.toHashtableType env (ht.childBuckets + 1) cursor ⟨kvs,pending,false⟩ = .ok (run,next) ∧
      run.aborted = false ∧ Sound ty none run.kvs := by
  have good := sound.tables didx ht found
  unfold ScanHost.hashtableScan
  simp only [found,getD_some]
  split
  · exact ⟨_,_,rfl,rfl,sound⟩
  rename_i filled
  have pausing : ht.hashtablePauseRehashing = ht.withPauses 1 1 := by
    rw [hashtablePauseRehashing_eq good.pausesFit,good.pauseRehash,good.pauseAutoShrink]
    rfl
  obtain ⟨settled,booked⟩ := sound.settle found (quiet_pauses ht).1.traced
  have pausedGood : Good ty.toHashtableType (pausesOf (some didx) didx) ({ht.hashtablePauseRehashing with events := []} : Hashtable L α) := by
    rw [pausing,pausesOf,if_pos rfl]
    exact ⟨(good.wf.withPauses 1 1).silenced,rfl,rfl,rfl⟩
  have pausedSound : Sound ty (some didx) (kvs.settle didx ht.hashtablePauseRehashing) := by
    refine sound.repaused settled booked pausedGood ?_ (fun i apart => by simp [apart.symm])
    rw [kvstoreHashtableSize,found]
    rfl
  obtain ⟨run,next,emitted,scanning⟩ := ScanHost.emitAll_returns (scanning_keeps (L := L) ty didx ht.childBuckets) ty.toHashtableType
    (ht.childBuckets + 1) (Nat.lt_succ_self _) ht good.wf (good.wf.allocated_of_size filled) cursor
    ⟨kvs.settle didx ht.hashtablePauseRehashing,pending,false⟩
    ⟨rfl,pausedSound,fun other located => by
      rw [settled.hashtables,if_pos rfl,some.injEq] at located
      rw [← located]
      exact le_rfl⟩
  obtain ⟨last,lastFound⟩ := ne_none_iff_exists'.mp (scanning.sound.present didx rfl)
  have lastGood := scanning.sound.tables didx last lastFound
  rw [pausesOf,if_pos rfl] at lastGood
  have resumed := hashtableResumeRehashing_rearranged lastGood.wf env lastGood.pauseRehash lastGood.pauseAutoShrink
  obtain ⟨lastSettled,lastBooked⟩ := scanning.sound.settle lastFound
    ((quiet_withPauses last 0 0).traced.trans resumed.traced)
  simp only [emitted,lastFound]
  refine ⟨_,_,rfl,scanning.running,scanning.sound.repaused lastSettled lastBooked ?_ ?_ (fun i apart => by simp [apart.symm])⟩
  · exact ⟨resumed.wf.silenced,rfl,resumed.framed.pauseRehash,resumed.framed.pauseAutoShrink⟩
  · rw [kvstoreHashtableSize,lastFound,elim_some,size_silenced resumed.wf,resumed.slots,withPauses_slots,lastGood.wf.size_eq]

theorem scanHashtable_sound (didx : Fin (2^b)) (cursor : BitVec 64) (firstIdx lastIdx : Int)
    (skip : Hashtable L α → Bool) (pending : List (List (Removal b κ))) :
    ∃ final next, kvs.scanHashtable ty env didx cursor firstIdx lastIdx skip pending = some (final,next) ∧ Sound ty none final := by
  have skipped : ∀ kvs : Kvstore L b α, Sound ty none kvs →
      ∃ final next, kvs.scanNextHashtable didx firstIdx lastIdx = some (final,next) ∧ Sound ty none final := by
    intro kvs sound
    obtain ⟨next,moved⟩ := scanNextHashtable_returns didx firstIdx lastIdx kvs
    exact ⟨kvs,next,moved,sound⟩
  have asked := isImporting_sound sound env didx
  unfold scanHashtable
  rcases found : kvs.kvstoreGetHashtable didx with _ | ht
  · exact skipped kvs sound
  dsimp only
  split
  · exact skipped kvs sound
  split
  · exact skipped _ asked
  obtain ⟨run,next,scanned,running,runSound⟩ := hashtableScan_sound asked env found (cursor.setWidth L.sizeBits) pending
  have freed := (runSound.free didx).1
  simp only [scanned,running,Bool.false_eq_true,if_false]
  split
  · exact skipped _ freed
  · exact ⟨_,_,rfl,freed⟩

theorem scan_sound (cursor : BitVec 64) (firstIdx lastIdx : Int) (skip : Hashtable L α → Bool)
    (pending : List (List (Removal b κ))) (range : 0 ≤ firstIdx → firstIdx ≤ lastIdx ∧ lastIdx < 2^b) :
    ∃ final next, kvs.kvstoreScan ty env cursor firstIdx lastIdx skip pending = some (final,next) ∧ Sound ty none final := by
  unfold kvstoreScan
  split
  · have inside : ¬(lastIdx < firstIdx ∨ 2^b ≤ lastIdx) := by
      omega
    rw [if_neg inside]
    split
    · exact scanHashtable_sound sound env _ _ _ _ _ _
    · split
      · exact ⟨kvs,0,rfl,sound⟩
      · exact scanHashtable_sound sound env _ _ _ _ _ _
  · exact scanHashtable_sound sound env _ _ _ _ _ _

theorem step_sound {call : Call L b α κ} (promised : kvs.allowed call = true) :
    ∃ final, kvs.step ty env call = some final ∧ Sound ty none final := by
  cases call with
  | find didx key => exact ⟨_,rfl,find_sound sound env didx key⟩
  | add didx entry => exact add_sound sound env didx entry
  | insertTwoPhase didx entry => exact insertTwoPhase_sound sound env didx entry
  | remove call didx key =>
    obtain ⟨final,removed,finalSound,_⟩ := remove_sound sound ⟨call,env,didx,key⟩
    exact ⟨final,removed,finalSound⟩
  | setIsImporting didx isImporting =>
    refine setIsImporting_sound sound env didx isImporting (fun importing => ?_)
    simpa [allowed,importing] using promised
  | scan cursor firstIdx lastIdx skip pending =>
    obtain ⟨final,next,scanned,finalSound⟩ := scan_sound sound env cursor firstIdx lastIdx skip pending (fun ranged => by
      simpa [allowed,not_lt.mpr ranged] using promised)
    exact ⟨final,by rw [step,scanned]; rfl,finalSound⟩
  | empty => exact ⟨_,rfl,empty_sound sound⟩
  | expand newsize tryExpand skip => exact ⟨_,rfl,expand_sound sound env newsize tryExpand skip⟩
  | expandOne didx size tryExpand =>
    refine ⟨_,rfl,?_⟩
    split
    · exact (expandOne_sound sound env didx size).2
    · exact (expandOne_sound sound env didx size).1
  | tryResize limit => exact ⟨_,rfl,resizeMany_sound env _ sound⟩
  | incrementallyRehash clocks => exact incrementallyRehash_sound sound env clocks

end

theorem reachable_sound (reachable : Reachable ty kvs) : Sound ty none kvs := by
  induction reachable with
  | create flags kvs created => exact create_sound created
  | step kvs next env call _ promised stepped sound =>
    obtain ⟨final,done,finalSound⟩ := step_sound sound env promised
    rw [done,some.injEq] at stepped
    exact stepped ▸ finalSound

end Scanning

end ValkeyWasm.Kvstore
