import ValkeyWasm.Streams.Pending

/-! The commands on one group: reads, acknowledgements, claims, and the creation and deletion of consumers. -/

namespace ValkeyWasm.Streams
open Function List Option Nat AList Library.Loops

open Library.Dictionary

variable {N : Type} [DecidableEq N] {cg cg' cg'' : StreamCG N} {h h' h'' : Heap N}

/-! ## Consumers that come -/

variable {name : N}

theorem evolves_createConsumer (agree : Agree cg h) (fresh : h.Fresh) (absent : cg.consumers.lookup name = none)
    (now : Int) : Evolves cg h { cg with consumers := cg.consumers.insert name h.next }
      { h.setConsumer h.next (some ⟨name,∅,now,-1⟩) with next := h.next + 1 } := by
  have views : ∀ a id, (h.setConsumer h.next (some ⟨name,∅,now,-1⟩)).pelOf a id = if a = h.next then none else h.pelOf a id :=
    fun a id => pelOf_setConsumer h.next a _ id h
  have old : ∀ name' c, cg.consumers.lookup name' = some c → c ≠ h.next := by
    intro name' c member same
    exact absurd (agree.belowConsumers name' c member) (same ▸ lt_irrefl _)
  refine ⟨⟨?_,?_,?_,agree.distinct,?_,?_⟩,?_,le_succ _,fun id n found => .inl ⟨id,found⟩,?_,fun _ _ _ => rfl,?_⟩
  · intro id n found
    obtain ⟨name',c,nack,member,holds,stored,back⟩ := agree.record id n found
    refine ⟨name',c,nack,(lookup_insert_new absent).mpr (.inr member),?_,stored,back⟩
    exact (views c id).trans (by rw [if_neg (old name' c member),holds])
  · intro name' c id n member holds
    have holds := (views c id).symm.trans holds
    rcases (lookup_insert_new absent).mp member with ⟨-,rfl⟩ | member
    · rw [if_pos rfl] at holds
      cases holds
    · rw [if_neg (old name' c member)] at holds
      exact agree.held name' c id n member holds
  · intro name' c member
    refine (nameOf_setConsumer h.next c _ h).trans ?_
    rcases (lookup_insert_new absent).mp member with ⟨rfl,rfl⟩ | member
    · rw [if_pos rfl]
    · rw [if_neg (old name' c member),agree.named name' c member]
  · exact fun id n found => (agree.below id n found).trans (lt_succ_self _)
  · intro name' c member
    rcases (lookup_insert_new absent).mp member with ⟨-,rfl⟩ | member
    · exact lt_succ_self _
    · exact (agree.belowConsumers name' c member).trans (lt_succ_self _)
  · intro a above
    have bound : h.next < a := above
    exact ⟨(fresh a bound.le).1,(update_of_ne (ne_of_gt bound) _ _).trans (fresh a bound.le).2⟩
  · intro name' c member
    rcases (lookup_insert_new absent).mp member with ⟨-,rfl⟩ | member
    · exact .inr le_rfl
    · exact .inl ⟨name',member⟩
  · exact fun c bound _ => update_of_ne (Nat.ne_of_lt bound) _ _

theorem evolves_streamCreateConsumer (agree : Agree cg h) (fresh : h.Fresh) (now : Int) (name : N) :
    Evolves cg h (streamCreateConsumer now name cg h).2.1 (streamCreateConsumer now name cg h).2.2 := by
  unfold streamCreateConsumer
  cases found : cg.consumers.lookup name with
  | some c => exact .refl agree fresh
  | none => exact evolves_createConsumer agree fresh found now

theorem evolves_seeConsumer (agree : Agree cg h) (fresh : h.Fresh) (now : Int) (name : N) :
    ∃ c cg' h', seeConsumer now name cg h = some (c,cg',h') ∧ Evolves cg h cg' h' ∧ Seated cg' h' name c := by
  unfold seeConsumer
  cases found : cg.consumers.lookup name with
  | some c =>
    have seated : Seated cg h name c := ⟨agree,fresh,found⟩
    obtain ⟨h',run,kept⟩ := keeps_updateConsumer seated (fun k => { k with seenTime := now }) (fun _ => rfl) (fun _ => rfl)
    refine ⟨c,cg,h',?_,kept.toEvolves,kept.seated seated⟩
    simp [run]
  | none =>
    have created := evolves_createConsumer agree fresh found now
    have seated : Seated _ _ name h.next := ⟨created.agree,created.fresh,lookup_insert _⟩
    obtain ⟨h',run,kept⟩ := keeps_updateConsumer seated (fun k => { k with seenTime := now }) (fun _ => rfl) (fun _ => rfl)
    refine ⟨h.next,_,h',?_,created.trans kept.toEvolves,kept.seated seated⟩
    simp [streamCreateConsumer,found,run]

/-! ## Reads -/

variable {id : StreamID} {c : Nat}

theorem keeps_redeliver (seated : Seated cg h name c) {n : Nat} (holds : h.pelOf c id = some n) (now : Int) (entries : List StreamID) :
    ∃ h', redeliver now entries c h id = some h' ∧ Keeps cg h cg h' ∧ ∀ a id', h'.pelOf a id' = h.pelOf a id' := by
  have ⟨agree,fresh,member⟩ := seated
  obtain ⟨found,nack,stored,back⟩ := agree.held name c id n member holds
  obtain ⟨consumer,kept,-⟩ := agree.exists_consumer member
  rw [pelOf_of_stored kept] at holds
  unfold redeliver
  split
  · refine ⟨h.setNack n (some { nack with deliveryTime := now, deliveryCount := nack.deliveryCount + 1 }),?_,
      keeps_moved seated found stored ⟨⟨_,update_self ..,back⟩,?_,fun _ => rfl,le_refl _,?_,?_,
        fun _ _ _ => rfl,fun _ _ _ => rfl,fresh_setNack⟩,fun _ _ => rfl⟩
    · simp only [kept,holds,stored,bind_eq_bind,bind_some]
    · exact fun a other => update_of_ne other _ _
    · exact (pelOf_of_stored kept id).trans holds
    · intro a other
      rw [back,if_neg fun equal => other (Option.some.inj equal).symm]
      rfl
  · exact ⟨h,rfl,.refl agree fresh,fun _ _ => rfl⟩

theorem keeps_history (seated : Seated cg h name c) (now : Int) (entries : List StreamID) {ids : List StreamID}
    (holds : ∀ id ∈ ids, ∃ n, h.pelOf c id = some n) :
    ∃ h', ids.foldlM (redeliver now entries c) h = some h' ∧ Keeps cg h cg h' ∧ ∀ a id', h'.pelOf a id' = h.pelOf a id' := by
  refine foldlM_keeps (fun h' => Keeps cg h cg h' ∧ ∀ a id', h'.pelOf a id' = h.pelOf a id') (fun h1 id inside before => ?_)
    ⟨.refl seated.agree seated.fresh,fun _ _ => rfl⟩
  obtain ⟨kept,same⟩ := before
  obtain ⟨n,held⟩ := holds id inside
  obtain ⟨h2,run,next,same'⟩ := keeps_redeliver (kept.seated seated) (by rw [same,held]) now entries
  exact ⟨h2,run,kept.trans next,fun a id' => (same' a id').trans (same a id')⟩

theorem mem_raxKeys {pel : Pel} : id ∈ raxKeys pel ↔ ∃ n, pel.lookup id = some n := by
  unfold raxKeys
  rw [mem_insertionSort,← AList.mem_keys,← lookup_isSome,isSome_iff_exists]

theorem mem_of_mem_rangeFrom {start : StreamID} {count : Nat} {ids : List StreamID} (member : id ∈ rangeFrom start count ids) :
    id ∈ ids := by
  unfold rangeFrom at member
  split at member
  · exact mem_of_mem_filter member
  · exact mem_of_mem_filter (mem_of_mem_take member)

theorem evolves_readGroup (agree : Agree cg h) (fresh : h.Fresh) (now : Int) (entries : List StreamID) (gt : StreamID) (name : N)
    (count : Nat) (noack : Bool) :
    ∃ cg' h', readGroup now entries gt name count noack cg h = some (cg',h') ∧ Evolves cg h cg' h' := by
  obtain ⟨c,cg1,h1,run,seen,seated⟩ := evolves_seeConsumer agree fresh now name
  obtain ⟨consumer,kept,-⟩ := seen.agree.exists_consumer seated.member
  unfold readGroup
  simp only [run]
  split
  · -- the history of the consumer
    have holds : ∀ id ∈ rangeFrom (streamIncrID gt) count (raxKeys consumer.pel), ∃ n, h1.pelOf c id = some n := by
      intro id inside
      rw [pelOf_of_stored kept]
      exact mem_raxKeys.mp (mem_of_mem_rangeFrom inside)
    obtain ⟨h2,run',history,-⟩ := keeps_history seated now entries holds
    refine ⟨cg1,h2,?_,seen.trans history.toEvolves⟩
    simp [streamReplyWithRangeFromConsumerPEL,kept,run']
  · split
    · obtain ⟨⟨cg2,h2⟩,run',delivered⟩ := keeps_streamReplyWithRange seated now entries (streamIncrID cg.lastId) count noack
      exact ⟨cg2,h2,run',seen.trans delivered.toEvolves⟩
    · exact ⟨cg1,h1,rfl,seen⟩

/-! ## Acknowledgements and claims -/

theorem evolves_acknowledge (agree : Agree cg h) (fresh : h.Fresh) (acknowledged : Nat) (id : StreamID) :
    ∃ count cg' h', acknowledge (acknowledged,cg,h) id = some (count,cg',h') ∧ Keeps cg h cg' h' := by
  unfold acknowledge
  cases found : cg.pel.lookup id with
  | none => exact ⟨acknowledged,cg,h,by simp [found],.refl agree fresh⟩
  | some n =>
    obtain ⟨cg',h',run,kept⟩ := keeps_releaseNACK agree fresh found
    exact ⟨acknowledged + 1,cg',h',by simp only [found,run,map_some],kept⟩

/-- The group evolves to what the command gives back beside its reply. -/
def Yields {R : Type} (cg : StreamCG N) (h : Heap N) (result : Option (R × StreamCG N × Heap N)) : Prop :=
  ∃ s, result = some s ∧ Evolves cg h s.2.1 s.2.2

theorem Yields.snd {R : Type} {result : Option (R × StreamCG N × Heap N)} (yields : Yields cg h result) :
    ∃ cg' h', result.map Prod.snd = some (cg',h') ∧ Evolves cg h cg' h' := by
  obtain ⟨s,rfl,evolves⟩ := yields
  exact ⟨s.2.1,s.2.2,rfl,evolves⟩

theorem evolves_xack (agree : Agree cg h) (fresh : h.Fresh) (ids : List StreamID) : Yields cg h (ids.foldlM acknowledge (0,cg,h)) := by
  refine foldlM_keeps (fun s : Nat × StreamCG N × Heap N => Evolves cg h s.2.1 s.2.2) (fun s id _ before => ?_) (.refl agree fresh)
  obtain ⟨count,cg',h',run,next⟩ := evolves_acknowledge before.agree before.fresh s.1 id
  exact ⟨(count,cg',h'),run,before.trans next.toEvolves⟩

section
variable (seated : Seated cg h name c)
include seated

theorem keeps_transfer {n : Nat} (found : cg.pel.lookup id = some n) (time : Int) (recount : UInt64 → UInt64) :
    ∃ h', transfer id n c time recount h = some h' ∧ Keeps cg h cg h' := by
  have ⟨agree,fresh,member⟩ := seated
  obtain ⟨owner,o,nack,memberOwner,holds,stored,back⟩ := agree.record id n found
  obtain ⟨consumer,kept,-⟩ := agree.exists_consumer member
  obtain ⟨h',run,moved⟩ := moved_transfer stored kept
    (fun o' same => by
      obtain rfl : o = o' := Option.some.inj (back.symm.trans same)
      obtain ⟨k,there,-⟩ := agree.exists_consumer memberOwner
      exact ⟨k,there⟩)
    (fun same => by
      rw [← Option.some.inj (back.symm.trans same)]
      exact holds) time recount
  exact ⟨h',run,keeps_moved seated found stored moved⟩

theorem keeps_force (absent : cg.pel.lookup id = none) (now time : Int) (recount : UInt64 → UInt64) :
    ∃ h', transfer id h.next c time recount (streamCreateNACK now none h) = some h' ∧
      Keeps cg h { cg with pel := cg.pel.insert id h.next } h' := by
  obtain ⟨agree,fresh,member⟩ := seated
  obtain ⟨consumer,kept,-⟩ := agree.exists_consumer member
  have stored : (streamCreateNACK now none h).nacks h.next = some ⟨now,1,none⟩ := update_self ..
  have kept1 : (streamCreateNACK now none h).consumers c = some consumer := kept
  obtain ⟨h',run,moved⟩ : ∃ h', transfer id h.next c time recount (streamCreateNACK now none h) = some h' ∧
      Moved id h.next c none (streamCreateNACK now none h) h' :=
    moved_transfer stored kept1 nofun nofun time recount
  have above : h.next < h'.next := moved.next
  refine ⟨h',run,evolves_put agree member (some h.next) ?_ (fun id' => lookup_insert_eq cg.pel id id' h.next) rfl moved.names ?_ ?_ ?_
    above.le (moved.fresh (fresh_streamCreateNACK now none fresh) (lt_succ_self _)),rfl⟩
  · rintro _ ⟨⟩
    exact ⟨.inr (le_refl _),above,moved.record⟩
  · intro name' a member' id'
    by_cases same : id' = id
    · rw [if_pos same,same]
      by_cases mine : a = c
      · rw [if_pos mine,mine,moved.mine]
      · rw [if_neg mine,moved.elsewhere a mine]
        exact agree.absent member' absent
    · rw [if_neg same,moved.views a id' same]
      rfl
  · intro a other _
    have apart : a ≠ h.next := fun same => other (same ▸ rfl)
    exact (moved.nacks a apart).trans (update_of_ne apart _ _)
  · exact fun a foreign => moved.frame a (fun same => foreign name (same ▸ member)) (by simp)

theorem keeps_claim
    (now minidle : Int) (options : ClaimOptions) (entries claimed : List StreamID) (id : StreamID) :
    ∃ claimed' cg' h', claim now minidle options entries c (claimed,cg,h) id = some (claimed',cg',h') ∧ Keeps cg h cg' h' := by
  have ⟨agree,fresh,_⟩ := seated
  unfold claim
  dsimp only
  cases found : cg.pel.lookup id with
  | none =>
    split
    · exact ⟨claimed,cg,h,rfl,.refl agree fresh⟩
    dsimp only
    split
    · obtain ⟨h1,run,forced⟩ := keeps_force seated found now (options.deliveryTimeAt now) options.recount
      obtain ⟨h2,run',active⟩ := keeps_setActive (forced.seated seated) now
      have stored : (streamCreateNACK now none h).nacks h.next = some ⟨now,1,none⟩ := update_self ..
      refine ⟨claimed ++ [id],_,h2,?_,forced.trans active⟩
      simp only [claimPending,stored,bind_eq_bind,bind_some,isSome_none,Bool.false_eq_true,false_and,
        if_false,run,run']
    · exact ⟨claimed,cg,h,rfl,.refl agree fresh⟩
  | some n =>
    split
    · obtain ⟨cg1,h1,run,released⟩ := keeps_releaseNACK agree fresh found
      exact ⟨claimed,cg1,h1,by simp only [run,map_some],released⟩
    obtain ⟨-,-,nack,-,-,stored,-⟩ := agree.record id n found
    simp only [claimPending,stored,bind_eq_bind,bind_some]
    split
    · exact ⟨claimed,cg,h,rfl,.refl agree fresh⟩
    · obtain ⟨h1,run,moved⟩ := keeps_transfer seated found (options.deliveryTimeAt now) options.recount
      obtain ⟨h2,run',active⟩ := keeps_setActive (moved.seated seated) now
      exact ⟨claimed ++ [id],cg,h2,by simp only [run,run',bind_some],moved.trans active⟩

end

theorem evolves_xclaim (agree : Agree cg h) (fresh : h.Fresh) (now : Int) (entries : List StreamID) (name : N) (minidle : Int)
    (ids : List StreamID) (options : ClaimOptions) : Yields cg h (xclaim now entries name minidle ids options cg h) := by
  obtain ⟨cg1,position,kept⟩ := keeps_position agree fresh options.lastId
  obtain ⟨c,cg2,h2,run,seen,seated⟩ := evolves_seeConsumer kept.agree kept.fresh now name
  have claims : ∃ s, ids.foldlM (claim now (if minidle < 0 then 0 else minidle) options entries c) ([],cg2,h2) = some s ∧
      Keeps cg2 h2 s.2.1 s.2.2 := by
    refine foldlM_keeps (fun s : List StreamID × StreamCG N × Heap N => Keeps cg2 h2 s.2.1 s.2.2) (fun s id _ kept => ?_)
      (.refl seen.agree seen.fresh)
    obtain ⟨claimed,cg',h',run,next⟩ := keeps_claim (kept.seated seated) now _ options entries s.1 id
    exact ⟨(claimed,cg',h'),run,kept.trans next⟩
  obtain ⟨s,run',claims⟩ := claims
  refine ⟨s,?_,(kept.toEvolves.trans seen).trans claims.toEvolves⟩
  unfold xclaim
  simp only [position,run]
  exact run'

theorem keeps_autoClaimLoop (now minidle : Int) (justid : Bool) (entries : List StreamID) (attempts : Nat) :
    ∀ (count : Nat) (a : AutoClaim N), Seated a.cg a.heap name c → ∃ a', autoClaimLoop now minidle justid entries c attempts count a = some a' ∧ Keeps a.cg a.heap a'.cg a'.heap := by
  induction attempts with
  | zero =>
    intro count a seated
    exact ⟨a,by cases count <;> rfl,.refl seated.agree seated.fresh⟩
  | succ attempts ih =>
    intro count a seated
    have ⟨agree,fresh,_⟩ := seated
    cases count with
    | zero => exact ⟨a,rfl,.refl agree fresh⟩
    | succ count =>
      unfold autoClaimLoop
      cases next : raxNext a.cg.pel a.admitted with
      | none => exact ⟨a,rfl,.refl agree fresh⟩
      | some id =>
        obtain ⟨n,found⟩ := mem_raxKeys.mp (mem_of_find?_eq_some next)
        obtain ⟨-,-,nack,-,-,stored,-⟩ := agree.record id n found
        simp only [found,bind_eq_bind,bind_some]
        split
        · obtain ⟨cg1,h1,run,released⟩ := keeps_releaseNACK agree fresh found
          simp only [run]
          obtain ⟨a',loop,rest⟩ := ih count
            { a with deleted := a.deleted ++ [id], admitted := fun other => streamCompareID id other ≤ 0, cg := cg1, heap := h1 }
            (released.seated seated)
          exact ⟨a',loop,released.trans rest⟩
        · simp only [stored,bind_some]
          split
          · exact ih (count + 1) { a with admitted := fun other => streamCompareID id other < 0 } seated
          obtain ⟨h1,run,moved⟩ := keeps_transfer seated found now (fun count => if justid then count else count + 1)
          obtain ⟨h2,run',active⟩ := keeps_setActive (moved.seated seated) now
          simp only [run,run',bind_some]
          obtain ⟨a',loop,rest⟩ := ih count
            { a with claimed := a.claimed ++ [id], admitted := fun other => streamCompareID id other < 0, heap := h2 }
            ((moved.trans active).seated seated)
          exact ⟨a',loop,(moved.trans active).trans rest⟩

theorem evolves_xautoclaim (agree : Agree cg h) (fresh : h.Fresh) (now : Int) (entries : List StreamID) (name : N) (minidle : Int)
    (start : StreamID) (count : Nat) (justid : Bool) : Yields cg h (xautoclaim now entries name minidle start count justid cg h) := by
  obtain ⟨c,cg1,h1,run,seen,seated⟩ := evolves_seeConsumer agree fresh now name
  obtain ⟨a,loop,kept⟩ := keeps_autoClaimLoop now (if minidle < 0 then 0 else minidle) justid entries (count * 10) count
    { claimed := [], deleted := [], admitted := fun id => streamCompareID start id ≤ 0, cg := cg1, heap := h1 }
    seated
  refine ⟨(((raxNext a.cg.pel a.admitted).getD ⟨0,0⟩,a.claimed,a.deleted),a.cg,a.heap),?_,seen.trans kept.toEvolves⟩
  unfold xautoclaim
  simp [run,loop]

end ValkeyWasm.Streams
