import ValkeyWasm.Kvstore.Counting

/-! What every call of a kvstore keeps true.
Every hash table is well formed and its events have been told, the books and the
counters agree with the hash tables, and only the hash table under a running scan is
paused. From such a state every allowed call returns and leaves such a state. -/
namespace ValkeyWasm.Kvstore
open Hashtable Function Option

variable {L : Layout} {b : Nat} {α κ : Type*}

structure Good (ty : HashtableType α κ) (pauses : Int) (ht : Hashtable L α) : Prop where
  wf : ht.WF ty
  silent : ht.events = []
  pauseRehash : ht.pauseRehash = pauses
  pauseAutoShrink : ht.pauseAutoShrink = pauses

def pausesOf (paused : Option (Fin (2^b))) (didx : Fin (2^b)) : Int := if paused = some didx then 1 else 0

structure Sound (ty : KvstoreType α κ) (paused : Option (Fin (2^b))) (kvs : Kvstore L b α) : Prop where
  small : b ≤ 16
  tables : ∀ didx ht, kvs.kvstoreGetHashtable didx = some ht → Good ty.toHashtableType (pausesOf paused didx) ht
  present : ∀ didx, paused = some didx → kvs.kvstoreGetHashtable didx ≠ none
  booked : Booked kvs kvs.shapes
  counts : ∃ importing, Counts ty kvs kvs.kvstoreHashtableSize importing

variable {ht : Hashtable L α} {ty : HashtableType α κ}

theorem Good.pausesFit {paused : Option (Fin (2^b))} {didx : Fin (2^b)}
    (good : Good ty (pausesOf paused didx) ht) : ht.PausesFit := by
  have rehash := good.pauseRehash
  have autoShrink := good.pauseAutoShrink
  unfold pausesOf at rehash autoShrink
  constructor <;> split at rehash <;> simp_all

theorem Good.paused {paused : Option (Fin (2^b))} {didx : Fin (2^b)} (good : Good ty (pausesOf paused didx) ht)
    (here : paused = some didx) : ht.pauseRehash = 1 ∧ ht.pauseAutoShrink = 1 :=
  ⟨good.pauseRehash.trans (if_pos here),good.pauseAutoShrink.trans (if_pos here)⟩

theorem Good.next {pauses : Int} {next : Hashtable L α} (good : Good ty pauses ht) (wf : next.WF ty)
    (framed : Framed ht next) : Good ty pauses {next with events := []} :=
  ⟨wf.silenced,rfl,framed.pauseRehash.trans good.pauseRehash,framed.pauseAutoShrink.trans good.pauseAutoShrink⟩

theorem size_silenced (wf : ht.WF ty) :
    ({ht with events := []} : Hashtable L α).size = ht.slots.card := wf.size_eq

theorem create_good (ty : HashtableType α κ) : Good ty 0 (create : Hashtable L α) := ⟨create_wf ty,rfl,rfl,rfl⟩

section Settling
variable {ty : KvstoreType α κ} {paused : Option (Fin (2^b))} {kvs next : Kvstore L b α} {didx : Fin (2^b)}

theorem Settled.size_eq {ht : Option (Hashtable L α)} (settled : Settled kvs didx ht next) :
    next.kvstoreHashtableSize = update kvs.kvstoreHashtableSize didx (ht.elim 0 Hashtable.size) := settled.elim_eq 0 Hashtable.size

theorem Settled.counts {ht : Option (Hashtable L α)} (settled : Settled kvs didx ht next) {size : Fin (2^b) → Nat}
    {importing : Fin (2^b) → Bool} (counts : Counts ty kvs size importing) : Counts ty next size importing := by
  obtain ⟨members,⟨keyCount,nonEmpty,index⟩,hidden⟩ := counts
  refine ⟨?_,⟨?_,?_,?_⟩,?_⟩
  · rw [Members,settled.importing]; exact members
  · rw [settled.keyCount]; exact keyCount
  · rw [settled.nonEmptyHashtables]; exact nonEmpty
  · rw [settled.hashtableSizeIndex]; exact index
  · rw [settled.importingKeyCount]; exact hidden

theorem Settled.tables {after : Option (Fin (2^b))} (settled : Settled kvs didx (some ht) next) (sound : Sound ty paused kvs)
    (good : Good ty.toHashtableType (pausesOf after didx) ht) (others : ∀ i, i ≠ didx → (paused = some i ↔ after = some i)) :
    (∀ i other, next.kvstoreGetHashtable i = some other → Good ty.toHashtableType (pausesOf after i) other) ∧
      ∀ i, after = some i → next.kvstoreGetHashtable i ≠ none := by
  constructor
  · intro i other found
    rw [settled.hashtables i] at found
    split at found
    · rename_i same
      subst same
      exact Option.some.inj found ▸ good
    · rename_i apart
      rw [pausesOf,← if_congr (others i apart) rfl rfl]
      exact sound.tables i other found
  · intro i here
    rw [settled.hashtables i]
    split
    · exact some_ne_none _
    · rename_i apart
      exact sound.present i ((others i apart).mpr here)

theorem SameTables.sound (same : SameTables kvs next) (small : b ≤ 16) (booked : Booked kvs kvs.shapes)
    (tables : (∀ i ht, kvs.kvstoreGetHashtable i = some ht → Good ty.toHashtableType (pausesOf paused i) ht) ∧
      ∀ i, paused = some i → kvs.kvstoreGetHashtable i ≠ none)
    (counts : ∃ importing, Counts ty next kvs.kvstoreHashtableSize importing) : Sound ty paused next := by
  have size : next.kvstoreHashtableSize = kvs.kvstoreHashtableSize := congrArg (fun get i => (get i).elim 0 Hashtable.size) same.get
  rw [← same.get] at tables
  exact ⟨small,tables.1,tables.2,same.booked booked,size ▸ counts⟩

section
variable (sound : Sound ty paused kvs)
include sound

theorem Sound.repaused {after : Option (Fin (2^b))} (settled : Settled kvs didx (some ht) next)
    (booked : Booked next next.shapes) (good : Good ty.toHashtableType (pausesOf after didx) ht)
    (same : ht.size = kvs.kvstoreHashtableSize didx) (others : ∀ i, i ≠ didx → (paused = some i ↔ after = some i)) : Sound ty after next := by
  obtain ⟨tables,present⟩ := settled.tables sound good others
  obtain ⟨importing,counts⟩ := sound.counts
  refine ⟨sound.small,tables,present,booked,importing,?_⟩
  rw [settled.size_eq,elim_some,same,update_eq_self]
  exact settled.counts counts

theorem Sound.counted (settled : Settled kvs didx (some ht) next)
    (booked : Booked next next.shapes) (good : Good ty.toHashtableType (pausesOf paused didx) ht) (env : Env) (delta : Int)
    (grown : (ht.size : Int) = kvs.kvstoreHashtableSize didx + delta) :
    ∃ final, next.cumulativeKeyCountAdd ty env didx delta = some final ∧ Sound ty paused final ∧
      ∀ i, final.kvstoreGetHashtable i = next.kvstoreGetHashtable i := by
  have tables := settled.tables sound good (fun _ _ => Iff.rfl)
  obtain ⟨importing,counts⟩ := sound.counts
  have found : next.kvstoreGetHashtable didx = some ht := by rw [settled.hashtables,if_pos rfl]
  obtain ⟨final,added,counted,same⟩ := cumulativeKeyCountAdd_spec (settled.counts counts) sound.small env found grown
  have size : next.kvstoreHashtableSize = update kvs.kvstoreHashtableSize didx ht.size := settled.size_eq
  exact ⟨final,added,same.sound sound.small booked tables ⟨importing,size ▸ counted⟩,congrFun same.get⟩

theorem Sound.create (didx : Fin (2^b)) :
    Sound ty paused (kvs.createHashtableIfNeeded didx).1 ∧
      Good ty.toHashtableType (pausesOf paused didx) (kvs.createHashtableIfNeeded didx).2 ∧
      (kvs.createHashtableIfNeeded didx).1.kvstoreGetHashtable didx = some (kvs.createHashtableIfNeeded didx).2 := by
  have settled := create_settled kvs didx
  have good : Good ty.toHashtableType (pausesOf paused didx) (kvs.createHashtableIfNeeded didx).2 ∧
      (kvs.createHashtableIfNeeded didx).2.size = kvs.kvstoreHashtableSize didx := by
    unfold createHashtableIfNeeded
    rcases found : kvs.kvstoreGetHashtable didx with _ | ht
    · have idle : pausesOf paused didx = 0 := if_neg (fun here => sound.present didx here found)
      rw [idle,kvstoreHashtableSize,found]
      exact ⟨create_good _,rfl⟩
    · rw [kvstoreHashtableSize,found]
      exact ⟨sound.tables didx ht found,rfl⟩
  exact ⟨sound.repaused settled (create_booked sound.booked didx) good.1 good.2 (fun _ _ => Iff.rfl),good.1,
    by rw [settled.hashtables,if_pos rfl]⟩

theorem Sound.free (didx : Fin (2^b)) : Sound ty paused (kvs.freeHashtableIfNeeded didx) ∧
    ∀ i, paused = some i → (kvs.freeHashtableIfNeeded didx).kvstoreGetHashtable i = kvs.kvstoreGetHashtable i := by
  have silent : ∀ ht, kvs.kvstoreGetHashtable didx = some ht → ht.WF ty.toHashtableType ∧ ht.events = [] :=
    fun ht found => ⟨(sound.tables didx ht found).wf,(sound.tables didx ht found).silent⟩
  rcases free_spec sound.booked silent with same | ⟨ht,found,vacant,running,settled,booked⟩
  · rw [same]
    exact ⟨sound,fun _ _ => rfl⟩
  have apart : ∀ i, paused = some i → i ≠ didx := by
    rintro i here rfl
    have pauses := (sound.tables i ht found).pauseRehash
    simp [isRehashingPaused,pauses,pausesOf,here] at running
  obtain ⟨importing,counts⟩ := sound.counts
  have others : ∀ i, paused = some i → (kvs.freeHashtableIfNeeded didx).kvstoreGetHashtable i = kvs.kvstoreGetHashtable i := by
    intro i here
    rw [settled.hashtables,if_neg (apart i here)]
  refine ⟨⟨sound.small,?_,?_,booked,importing,?_⟩,others⟩
  · intro i other located
    rw [settled.hashtables] at located
    split at located
    · simp at located
    · exact sound.tables i other located
  · intro i here
    rw [others i here]
    exact sound.present i here
  · have before : kvs.kvstoreHashtableSize didx = 0 := by rw [kvstoreHashtableSize,found]; exact vacant
    rw [settled.size_eq,elim_none,← before,update_eq_self]
    exact settled.counts counts

variable {after : Hashtable L α} (found : kvs.kvstoreGetHashtable didx = some ht) {s : Slot α}
include found

theorem Sound.settle (traced : Traced ht after) :
    Settled kvs didx (some {after with events := []}) (kvs.settle didx after) ∧ Booked (kvs.settle didx after) (kvs.settle didx after).shapes :=
  ⟨settle_settled found after,settle_booked sound.booked found (sound.tables didx ht found).silent traced⟩

theorem Sound.rearranged (rearranged : Reshaped ty.toHashtableType ht after) :
    Sound ty paused (kvs.settle didx after) := by
  have good := sound.tables didx ht found
  obtain ⟨settled,booked⟩ := sound.settle found rearranged.traced
  refine sound.repaused settled booked (good.next rearranged.wf rearranged.framed) ?_ (fun _ _ => Iff.rfl)
  rw [kvstoreHashtableSize,found,elim_some,good.wf.size_eq,← rearranged.slots,size_silenced rearranged.wf]

theorem Sound.inserted (inserted : Inserted ty.toHashtableType ht s after)
    (settled : Settled kvs didx (some {after with events := []}) next) (booked : Booked next next.shapes) (env : Env) :
    ∃ final, next.cumulativeKeyCountAdd ty env didx 1 = some final ∧ Sound ty paused final := by
  have good := sound.tables didx ht found
  obtain ⟨final,added,finalSound,_⟩ := sound.counted settled booked (good.next inserted.wf inserted.framed) env 1
    (by rw [kvstoreHashtableSize,found,elim_some,good.wf.size_eq,size_silenced inserted.wf,inserted.slots,Multiset.card_cons,Nat.cast_succ])
  exact ⟨final,added,finalSound⟩

theorem Sound.removed (wf : after.WF ty.toHashtableType) (slots : ht.slots = s ::ₘ after.slots) (framed : Framed ht after)
    (settled : Settled kvs didx (some {after with events := []}) next) (booked : Booked next next.shapes) (env : Env) :
    ∃ final, next.countRemoval ty env didx = some final ∧ Sound ty paused final ∧
      ∀ i, paused = some i → final.kvstoreGetHashtable i = next.kvstoreGetHashtable i := by
  have good := sound.tables didx ht found
  obtain ⟨counted,added,countedSound,same⟩ := sound.counted settled booked (good.next wf framed) env (-1) (by
    rw [kvstoreHashtableSize,found,elim_some,good.wf.size_eq,size_silenced wf,slots,Multiset.card_cons,Nat.cast_succ]
    ring)
  obtain ⟨freedSound,kept⟩ := countedSound.free didx
  refine ⟨_,by rw [countRemoval,added]; rfl,freedSound,?_⟩
  intro i here
  rw [kept i here,same i]

end

def Shallower (paused : Option (Fin (2^b))) (kvs final : Kvstore L b α) : Prop :=
  ∀ i ht, paused = some i → final.kvstoreGetHashtable i = some ht →
    ∃ old, kvs.kvstoreGetHashtable i = some old ∧ ht.childBuckets ≤ old.childBuckets

theorem shallower_of_settled {final : Kvstore L b α} {after : Hashtable L α} (found : kvs.kvstoreGetHashtable didx = some ht)
    (settled : Settled kvs didx (some {after with events := []}) next)
    (same : ∀ i, paused = some i → final.kvstoreGetHashtable i = next.kvstoreGetHashtable i)
    (children : paused = some didx → after.childBuckets ≤ ht.childBuckets) : Shallower paused kvs final := by
  intro i other here located
  rw [same i here,settled.hashtables] at located
  split at located
  · rename_i equal
    subst equal
    exact ⟨ht,found,Option.some.inj located ▸ children here⟩
  · exact ⟨other,located,le_rfl⟩

end Settling

section Entries
variable [Inhabited α] [DecidableEq κ] {ty : KvstoreType α κ} {paused : Option (Fin (2^b))} {kvs next : Kvstore L b α}

section
variable (sound : Sound ty paused kvs) (env : Env) (didx : Fin (2^b))
include sound env didx

theorem find_sound (key : κ) :
    Sound ty paused (kvs.kvstoreHashtableFind ty env didx key).1 := by
  unfold kvstoreHashtableFind
  rcases found : kvs.kvstoreGetHashtable didx with _ | ht
  · exact sound
  · exact sound.rearranged found (find_rearranged (sound.tables didx ht found).wf env key)

theorem add_sound (entry : α) :
    ∃ final, (kvs.kvstoreHashtableAdd ty env didx entry).map (·.1) = some final ∧ Sound ty paused final := by
  obtain ⟨createdSound,good,found⟩ := sound.create didx
  unfold kvstoreHashtableAdd
  generalize kvs.createHashtableIfNeeded didx = created at createdSound good found
  rcases addOrFind_spec good.wf ty.plain env entry with ⟨s,_,_,existing,rearranged⟩ | ⟨_,missing,inserted⟩
  · have refused : (created.2.add ty.toHashtableType env entry).2 = false := by simp [add,existing]
    simp only [refused,if_false]
    exact ⟨_,rfl,createdSound.rearranged found rearranged⟩
  have accepted : (created.2.add ty.toHashtableType env entry).2 = true := by simp [add,missing]
  obtain ⟨settled,booked⟩ := createdSound.settle found (show Traced _ (created.2.add ty.toHashtableType env entry).1 from inserted.traced)
  obtain ⟨final,added,finalSound⟩ := createdSound.inserted found inserted settled booked env
  simp only [accepted,added]
  exact ⟨final,rfl,finalSound⟩

theorem insertTwoPhase_sound (entry : α) :
    ∃ final, kvs.insertTwoPhase ty env didx entry = some final ∧ Sound ty paused final := by
  obtain ⟨createdSound,good,found⟩ := sound.create didx
  unfold insertTwoPhase kvstoreHashtableFindPositionForInsert
  generalize kvs.createHashtableIfNeeded didx = created at createdSound good found
  have traced := findPositionForInsert_traced good.wf env (ty.entryGetKey entry)
  have searched := (findBucket_spec good.wf env (ty.entryGetKey entry)).1
  have whole := insertTwoPhase_eq ty.toHashtableType env entry created.2
  rcases prepared : created.2.findPositionForInsert ty.toHashtableType env (ty.entryGetKey entry) with ⟨after,existing | p⟩
  · simp only [prepared] at ⊢
    have same : after = (created.2.findBucket ty.toHashtableType env (ty.hashKey (ty.entryGetKey entry)) (ty.entryGetKey entry)).1 := by
      unfold findPositionForInsert at prepared
      dsimp only at prepared
      split at prepared
      · rename_i next _ result
        rw [result]
        exact (Prod.mk.inj prepared).1.symm
      · simp at prepared
    exact ⟨_,rfl,createdSound.rearranged found (same ▸ searched)⟩
  · simp only [prepared] at traced ⊢
    obtain ⟨settled,booked⟩ := createdSound.settle found traced
    simp only [Hashtable.insertTwoPhase,prepared] at whole
    rcases addOrFind_spec good.wf ty.plain env entry with ⟨s,_,_,existing,_⟩ | ⟨_,_,inserted⟩
    · rw [← whole] at existing
      simp at existing
    rw [← whole] at inserted
    have stored : (created.1.settle didx after).kvstoreGetHashtable didx = some {after with events := []} := by
      rw [settled.hashtables,if_pos rfl]
    have again := settle_settled stored (({after with events := []} : Hashtable L α).insertAtPosition entry p)
    have rebooked := settle_booked booked stored rfl (quiet_insertAtPosition entry p {after with events := []}).traced
    rw [insertAtPosition_silenced] at again rebooked
    obtain ⟨final,added,finalSound⟩ := createdSound.inserted found inserted (settled.trans again) rebooked env
    refine ⟨final,?_,finalSound⟩
    simp only [kvstoreHashtableInsertAtPosition,stored,insertAtPosition_silenced]
    exact added

theorem pop_sound (key : κ) :
    ∃ final, (kvs.kvstoreHashtablePop ty env didx key).map (·.1) = some final ∧ Sound ty paused final ∧ Shallower paused kvs final := by
  unfold kvstoreHashtablePop
  rcases found : kvs.kvstoreGetHashtable didx with _ | ht
  · exact ⟨kvs,rfl,sound,fun i other _ located => ⟨other,located,le_rfl⟩⟩
  have good := sound.tables didx ht found
  have children : paused = some didx → (ht.pop ty.toHashtableType env key).1.childBuckets ≤ ht.childBuckets := by
    intro here
    obtain ⟨rehash,autoShrink⟩ := good.paused here
    exact (childBuckets_pop good.wf ty.plain env key (by omega) (by omega)).le
  rcases pop_spec good.wf ty.plain env key with ⟨s,_,popped,removed⟩ | ⟨_,missing,rearranged⟩
  · obtain ⟨settled,booked⟩ := sound.settle found removed.traced
    obtain ⟨final,counted,finalSound,same⟩ := sound.removed found removed.wf removed.slots removed.framed settled booked env
    simp only [popped,counted]
    exact ⟨final,rfl,finalSound,shallower_of_settled found settled same children⟩
  · simp only [missing]
    have settled := (sound.settle found rearranged.traced).1
    exact ⟨_,rfl,sound.rearranged found rearranged,shallower_of_settled found settled (fun _ _ => rfl) children⟩

end

theorem kvstoreHashtableDelete_eq (ty : KvstoreType α κ) (env : Env) (didx : Fin (2^b)) (key : κ) (kvs : Kvstore L b α) :
    (kvs.kvstoreHashtableDelete ty env didx key).map (·.1) = (kvs.kvstoreHashtablePop ty env didx key).map (·.1) := by
  unfold kvstoreHashtableDelete kvstoreHashtablePop
  rcases kvs.kvstoreGetHashtable didx with _ | ht
  · rfl
  · dsimp only [delete]
    split <;> simp [comp_def]

theorem twoPhasePopFindRef_cases {ty : HashtableType α κ} (wf : ht.WF ty) (env : Env) (key : κ) :
    ∃ searched, Reshaped ty ht searched ∧ (ht.pauseRehash ≠ 0 → searched = ht) ∧
      (ht.twoPhasePopFindRef ty env key = (searched,none) ∨
        ∃ p s, searched.slotAt p = some s ∧ ht.twoPhasePopFindRef ty env key = (searched.hashtablePauseRehashing,some p)) := by
  unfold twoPhasePopFindRef
  split
  · exact ⟨ht,.refl wf,fun _ => rfl,Or.inl rfl⟩
  obtain ⟨rearranged,hit,_⟩ := findBucket_spec wf env key
  have same := findBucket_paused ty env (ty.hashKey key) key ht
  rcases result : ht.findBucket ty env (ty.hashKey key) key with ⟨searched,_ | p⟩
  · rw [result] at rearranged same
    exact ⟨searched,rearranged,same,Or.inl rfl⟩
  · rw [result] at rearranged same hit
    obtain ⟨s,held,_⟩ := hit p rfl
    exact ⟨searched,rearranged,same,Or.inr ⟨p,s,held,rfl⟩⟩

theorem popTwoPhase_sound (sound : Sound ty paused kvs) (env : Env) (didx : Fin (2^b)) (key : κ) :
    ∃ final, kvs.popTwoPhase ty env didx key = some final ∧ Sound ty paused final ∧ Shallower paused kvs final := by
  unfold popTwoPhase kvstoreHashtableTwoPhasePopFindRef
  rcases found : kvs.kvstoreGetHashtable didx with _ | ht
  · exact ⟨kvs,rfl,sound,fun i other _ located => ⟨other,located,le_rfl⟩⟩
  have good := sound.tables didx ht found
  obtain ⟨searched,rearranged,same,missing | ⟨p,s,held,located⟩⟩ := twoPhasePopFindRef_cases good.wf env key
  · simp only [missing]
    refine ⟨_,rfl,sound.rearranged found rearranged,?_⟩
    refine shallower_of_settled found (sound.settle found rearranged.traced).1 (fun _ _ => rfl) (fun here => ?_)
    rw [same (by rw [(good.paused here).1]; exact one_ne_zero)]
  simp only [located]
  obtain ⟨settled,booked⟩ := sound.settle found (rearranged.traced.trans (quiet_pauses searched).1.traced)
  -- between the phases the hash table is paused once more
  have stored : (kvs.settle didx searched.hashtablePauseRehashing).kvstoreGetHashtable didx =
      some ({searched with events := []} : Hashtable L α).hashtablePauseRehashing := by
    rw [settled.hashtables,if_pos rfl]
    rfl
  have between := good.next rearranged.wf rearranged.framed
  have wf := between.wf
  have fit := between.pausesFit
  generalize silent : ({searched with events := []} : Hashtable L α) = quiet at stored between wf fit
  have slots : quiet.slots = ht.slots := by rw [← silent]; exact rearranged.slots
  have holds : quiet.slotAt p = some s := by rw [← silent]; exact held
  have framed : Framed ht quiet := by rw [← silent]; exact ⟨rearranged.framed.1,rearranged.framed.2,rearranged.framed.3⟩
  have again := settle_settled stored (quiet.hashtablePauseRehashing.twoPhasePopDelete ty.toHashtableType env p)
  have removed := twoPhasePopDelete_spec wf fit env holds
  have rebooked := settle_booked booked stored (by rw [← silent]; rfl) ((quiet_pauses quiet).1.symm.traced.trans removed.traced)
  obtain ⟨final,counted,finalSound,kept⟩ := sound.removed found removed.wf (slots ▸ removed.slots) (framed.trans removed.framed)
    (settled.trans again) rebooked env
  refine ⟨final,by simp only [kvstoreHashtableTwoPhasePopDelete,stored]; exact counted,finalSound,?_⟩
  refine shallower_of_settled found (settled.trans again) kept (fun here => ?_)
  obtain ⟨rehash,autoShrink⟩ := between.paused here
  rw [childBuckets_twoPhasePopDelete wf fit env holds (by omega) (by omega),← silent,
    same (by rw [(good.paused here).1]; exact one_ne_zero)]
  exact le_rfl

theorem remove_sound (sound : Sound ty paused kvs) (r : Removal b κ) :
    ∃ final, kvs.remove ty r = some final ∧ Sound ty paused final ∧ Shallower paused kvs final := by
  obtain ⟨call,env,didx,key⟩ := r
  cases call with
  | pop => exact pop_sound sound env didx key
  | delete =>
    rw [remove,kvstoreHashtableDelete_eq]
    exact pop_sound sound env didx key
  | twoPhasePop => exact popTwoPhase_sound sound env didx key

end Entries

end ValkeyWasm.Kvstore
