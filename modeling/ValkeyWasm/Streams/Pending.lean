import ValkeyWasm.Streams.Agreement

/-! Delivery, acknowledgement and claims keep the pending lists of a group and of its consumers in agreement. -/

namespace ValkeyWasm.Streams
open Function Option Nat AList Library.Loops

open Heap

variable {N : Type} [DecidableEq N] {cg cg' cg'' : StreamCG N} {h h' h'' : Heap N}

structure Keeps (cg : StreamCG N) (h : Heap N) (cg' : StreamCG N) (h' : Heap N) : Prop extends Evolves cg h cg' h' where
  consumers : cg'.consumers = cg.consumers

theorem Keeps.refl (agree : Agree cg h) (fresh : h.Fresh) : Keeps cg h cg h := ⟨.refl agree fresh,rfl⟩

theorem Keeps.trans (first : Keeps cg h cg' h') (second : Keeps cg' h' cg'' h'') : Keeps cg h cg'' h'' :=
  ⟨first.toEvolves.trans second.toEvolves,second.consumers.trans first.consumers⟩

theorem keeps_lastId (agree : Agree cg h) (fresh : h.Fresh) (id : StreamID) : Keeps cg h { cg with lastId := id } h :=
  ⟨evolves_touch agree rfl rfl rfl (fun _ => rfl) (fun _ _ => rfl) (fun _ _ => rfl) rfl fresh,rfl⟩

theorem keeps_position (agree : Agree cg h) (fresh : h.Fresh) (id : StreamID) :
    ∃ cg', (if streamCompareID id cg.lastId > 0 then { cg with lastId := id } else cg) = cg' ∧ Keeps cg h cg' h := by
  split
  · exact ⟨_,rfl,keeps_lastId agree fresh id⟩
  · exact ⟨_,rfl,.refl agree fresh⟩

variable {c : Nat} {name : N}

theorem Keeps.seated (keeps : Keeps cg h cg' h') (seated : Seated cg h name c) : Seated cg' h' name c :=
  ⟨keeps.agree,keeps.fresh,by rw [keeps.consumers,seated.member]⟩

theorem keeps_updateConsumer (seated : Seated cg h name c) (f : StreamConsumer N → StreamConsumer N)
    (sameName : ∀ k, (f k).name = k.name) (samePel : ∀ k, (f k).pel = k.pel) :
    ∃ h', h.updateConsumer c f = some h' ∧ Keeps cg h cg h' := by
  obtain ⟨agree,fresh,member⟩ := seated
  obtain ⟨consumer,stored,-⟩ := agree.exists_consumer member
  obtain ⟨h',run,rewritten⟩ := rewritten_updateConsumer stored f (sameName consumer)
  refine ⟨h',run,evolves_touch agree rfl rfl rewritten.nacks rewritten.names ?_ ?_ rewritten.next (rewritten.fresh fresh),rfl⟩
  · intro a id
    rw [rewritten.pelOf,samePel]
    by_cases same : a = c
    · rw [if_pos same,same,pelOf,stored,bind_some]
    · rw [if_neg same]
  · exact fun a foreign => rewritten.others a fun same => foreign name (same ▸ member)

theorem keeps_setActive (seated : Seated cg h name c) (now : Int) : ∃ h', setActive now c h = some h' ∧ Keeps cg h cg h' :=
  keeps_updateConsumer seated _ (fun _ => rfl) (fun _ => rfl)

/-! ## Release -/

theorem lookup_erase_eq {κ V : Type} [DecidableEq κ] (map : AList fun _ : κ => V) (k k' : κ) :
    (map.erase k).lookup k' = if k' = k then none else map.lookup k' := by
  by_cases same : k' = k
  · rw [if_pos same,same,lookup_erase]
  · rw [if_neg same,lookup_erase_ne same]

theorem lookup_insert_eq {κ V : Type} [DecidableEq κ] (map : AList fun _ : κ => V) (k k' : κ) (v : V) :
    (map.insert k v).lookup k' = if k' = k then some v else map.lookup k' := by
  by_cases same : k' = k
  · rw [if_pos same,same,lookup_insert]
  · rw [if_neg same,lookup_insert_ne same]

variable {consumer : StreamConsumer N} {id : StreamID} {n : Nat}

section Lists
omit [DecidableEq N]

theorem pelOf_of_stored (stored : h.consumers c = some consumer) (id : StreamID) :
    h.pelOf c id = consumer.pel.lookup id := by rw [pelOf,stored,bind_some]

theorem insertPending_spec (stored : h.consumers c = some consumer) (id : StreamID)
    (n : Nat) : ∃ h', h.insertPending c id n = some h' ∧
      Rewritten c (fun id' => if id' = id then some n else h.pelOf c id') h h' := by
  obtain ⟨h',run,rewritten⟩ := rewritten_updateConsumer stored (fun k => { k with pel := k.pel.insert id n }) rfl
  refine ⟨h',run,?_⟩
  simpa [lookup_insert_eq,pelOf_of_stored stored] using rewritten

/-- The ID is out of the list of the owner, if there is one. -/
structure Detached (id : StreamID) (owner : Option Nat) (h h' : Heap N) : Prop where
  nacks : h'.nacks = h.nacks
  next : h'.next = h.next
  names : ∀ a, h'.nameOf a = h.nameOf a
  pelOf : ∀ a id', h'.pelOf a id' = if owner = some a ∧ id' = id then none else h.pelOf a id'
  others : ∀ a, owner ≠ some a → h'.consumers a = h.consumers a
  exists_iff : ∀ a, (h'.consumers a).isSome = (h.consumers a).isSome
  fresh : h.Fresh → h'.Fresh

theorem detached_none : Detached id none h h :=
  ⟨rfl,rfl,fun _ => rfl,fun _ _ => by simp,fun _ _ => rfl,fun _ => rfl,fun fresh => fresh⟩

theorem removePending_spec (stored : h.consumers c = some consumer) (id : StreamID) :
    ∃ h', h.removePending c id = some h' ∧ Detached id (some c) h h' := by
  obtain ⟨h',run,rewritten⟩ := rewritten_updateConsumer stored (fun k => { k with pel := k.pel.erase id }) rfl
  refine ⟨h',run,rewritten.nacks,rewritten.next,rewritten.names,fun a id' => ?_,fun a other => rewritten.others a fun same => other (same ▸ rfl),
    rewritten.exists_iff,rewritten.fresh⟩
  rw [rewritten.pelOf,lookup_erase_eq]
  by_cases mine : a = c
  · simp [mine,pelOf_of_stored stored]
  · have apart : some c ≠ some a := fun equal => mine (Option.some.inj equal).symm
    rw [if_neg mine,if_neg fun both => apart both.1]

end Lists

theorem keeps_releaseNACK (agree : Agree cg h) (fresh : h.Fresh)
    (found : cg.pel.lookup id = some n) : ∃ cg' h', releaseNACK id n cg h = some (cg',h') ∧ Keeps cg h cg' h' := by
  obtain ⟨name,c,nack,member,holds,stored,back⟩ := agree.record id n found
  obtain ⟨consumer,kept,-⟩ := agree.exists_consumer member
  obtain ⟨h1,run,removed⟩ := removePending_spec kept id
  have still : h1.nacks n = some nack := by rw [removed.nacks,stored]
  refine ⟨{ cg with pel := cg.pel.erase id },h1.setNack n none,?_,?_,rfl⟩
  · unfold releaseNACK streamFreeNACK
    simp [stored,back,run,still]
  refine evolves_put agree member none nofun (lookup_erase_eq cg.pel id) rfl removed.names ?_ ?_ ?_ removed.next.ge
    (fresh_setNack (removed.fresh fresh) (removed.next ▸ agree.below id n found))
  · intro name' a member' id'
    refine (removed.pelOf a id').trans ?_
    rw [ite_self]
    by_cases same : id' = id
    · rw [if_pos same,same]
      split
      · rfl
      rename_i foreign
      cases other : h.pelOf a id with
      | none => rfl
      | some n' => exact absurd ⟨congrArg some (agree.owner member' other member holds).1.symm,rfl⟩ foreign
    · rw [if_neg same,if_neg fun both => same both.2]
  · intro a _ other
    have apart : a ≠ n := fun same => other (same ▸ found)
    exact (update_of_ne apart _ _).trans (by rw [removed.nacks])
  · exact fun a foreign => removed.others a fun same => foreign name (Option.some.inj same ▸ member)

/-! ## A record that goes to another consumer -/

/-- The record `n` of the ID went from `owner` to the consumer `c`. -/
structure Moved (id : StreamID) (n c : Nat) (owner : Option Nat) (h h' : Heap N) : Prop where
  record : ∃ nack, h'.nacks n = some nack ∧ nack.consumer = some c
  nacks : ∀ a, a ≠ n → h'.nacks a = h.nacks a
  names : ∀ a, h'.nameOf a = h.nameOf a
  next : h.next ≤ h'.next
  mine : h'.pelOf c id = some n
  elsewhere : ∀ a, a ≠ c → h'.pelOf a id = if owner = some a then none else h.pelOf a id
  views : ∀ a id', id' ≠ id → h'.pelOf a id' = h.pelOf a id'
  frame : ∀ a, a ≠ c → owner ≠ some a → h'.consumers a = h.consumers a
  fresh : h.Fresh → n < h.next → h'.Fresh

theorem exists_of_isSome_eq {A B : Type} {old : Option A} {new : Option B} {a : A} (same : new.isSome = old.isSome) (stored : old = some a) :
    ∃ b, new = some b := by
  rw [stored] at same
  exact isSome_iff_exists.mp same

omit [DecidableEq N] in
theorem moved_of_rewritten {owner : Option Nat} {h1 h2 h3 : Heap N} (removed : Detached id owner h h1)
    (record : ∃ nack, h2 = h1.setNack n (some nack))
    (inserted : Rewritten c (fun id' => if id' = id then some n else h2.pelOf c id') h2 h3)
    (final : ∃ nack, h' = h3.setNack n (some nack) ∧ nack.consumer = some c) : Moved id n c owner h h' := by
  obtain ⟨nack,rfl⟩ := record
  obtain ⟨nack',rfl,back⟩ := final
  obtain ⟨nacks,next,names,views,frame,-,fresh⟩ := removed
  have pelOf3 : ∀ a id', (h3.setNack n (some nack')).pelOf a id' =
      if a = c then if id' = id then some n else h1.pelOf c id' else h1.pelOf a id' := fun a id' => inserted.pelOf a id'
  refine ⟨⟨nack',update_self ..,back⟩,?_,?_,?_,?_,?_,?_,?_,?_⟩
  · intro a other
    refine (update_of_ne other _ _).trans ?_
    rw [inserted.nacks]
    refine (update_of_ne other _ _).trans ?_
    rw [nacks]
  · exact fun a => (inserted.names a).trans (names a)
  · exact (inserted.next.trans next).ge
  · rw [pelOf3,if_pos rfl,if_pos rfl]
  · intro a other
    rw [pelOf3,if_neg other,views]
    simp [and_true]
  · intro a id' other
    rw [pelOf3]
    by_cases same : a = c
    · rw [if_pos same,if_neg other,views,if_neg fun both => other both.2,same]
    · rw [if_neg same,views,if_neg fun both => other both.2]
  · intro a other foreign
    exact (inserted.others a other).trans (frame a foreign)
  · intro before bound
    have bound1 : n < h1.next := next ▸ bound
    have fresh2 : (h1.setNack n (some nack)).Fresh := fresh_setNack (fresh before) bound1
    refine fresh_setNack (inserted.fresh fresh2) ?_
    rw [inserted.next]
    exact bound1

variable {nack : StreamNACK}

omit [DecidableEq N] in
theorem moved_transfer
    (stored : h.nacks n = some nack) (target : h.consumers c = some consumer)
    (previous : ∀ o, nack.consumer = some o → ∃ k, h.consumers o = some k)
    (mine : nack.consumer = some c → h.pelOf c id = some n) (time : Int) (recount : UInt64 → UInt64) :
    ∃ h', transfer id n c time recount h = some h' ∧ Moved id n c nack.consumer h h' := by
  unfold transfer
  simp only [stored,bind_eq_bind,bind_some]
  by_cases same : nack.consumer = some c
  · -- the consumer has it already
    simp only [leaveOwner,if_pos same]
    refine ⟨_,rfl,⟨_,update_self ..,same⟩,fun a other => update_of_ne other _ _,fun _ => rfl,le_refl _,mine same,
      fun a other => ?_,fun _ _ _ => rfl,fun _ _ _ => rfl,fun fresh bound => fresh_setNack fresh bound⟩
    rw [same,if_neg fun equal => other (Option.some.inj equal).symm]
    rfl
  · obtain ⟨h1,run1,removed⟩ : ∃ h1, leaveOwner id c nack.consumer h = some h1 ∧ Detached id nack.consumer h h1 := by
      unfold leaveOwner
      rw [if_neg same]
      cases owner : nack.consumer with
      | none => exact ⟨h,rfl,detached_none⟩
      | some o =>
        obtain ⟨k,kept⟩ := previous o owner
        exact removePending_spec kept id
    obtain ⟨k,kept⟩ := exists_of_isSome_eq (removed.exists_iff c) target
    set h2 := h1.setNack n (some { nack with deliveryTime := time, deliveryCount := recount nack.deliveryCount }) with hh2
    obtain ⟨h3,run3,inserted⟩ := insertPending_spec (show h2.consumers c = some k from kept) id n
    have record : h3.nacks n = some { nack with deliveryTime := time, deliveryCount := recount nack.deliveryCount } := by
      rw [inserted.nacks]
      exact update_self ..
    refine ⟨h3.setNack n (some ⟨time,recount nack.deliveryCount,some c⟩),?_,?_⟩
    · simp [run1,if_neg same,← hh2,run3,record]
    · exact moved_of_rewritten removed ⟨_,rfl⟩ inserted ⟨_,rfl,rfl⟩

omit [DecidableEq N] in
theorem moved_reassign {o : Nat} {owner : StreamConsumer N}
    (found : cg.pel.lookup id = some n) (stored : h.nacks n = some nack) (back : nack.consumer = some o)
    (previous : h.consumers o = some owner) (target : h.consumers c = some consumer) (now : Int) :
    ∃ h', reassign now c id cg h = some h' ∧ Moved id n c (some o) h h' := by
  obtain ⟨h1,run1,removed⟩ := removePending_spec previous id
  obtain ⟨k,kept⟩ := exists_of_isSome_eq (removed.exists_iff c) target
  obtain ⟨h3,run3,inserted⟩ := insertPending_spec (show (h1.setNack n (some ⟨now,1,some c⟩)).consumers c = some k from kept) id n
  have record : h3.nacks n = some ⟨now,1,some c⟩ := by
    rw [inserted.nacks]
    exact update_self ..
  refine ⟨h3,?_,?_⟩
  · unfold reassign
    simp [found,stored,back,run1,run3]
  have unchanged : h3 = h3.setNack n (some ⟨now,1,some c⟩) := by
    unfold setNack
    rw [← record,update_eq_self]
  exact moved_of_rewritten removed ⟨_,rfl⟩ inserted ⟨_,unchanged,rfl⟩

theorem keeps_moved (seated : Seated cg h name c) (found : cg.pel.lookup id = some n) (stored : h.nacks n = some nack)
    (moved : Moved id n c nack.consumer h h') : Keeps cg h cg h' := by
  obtain ⟨agree,fresh,member⟩ := seated
  obtain ⟨owner,o,nack',memberOwner,holds,stored',back⟩ := agree.record id n found
  obtain rfl : nack = nack' := Option.some.inj (stored.symm.trans stored')
  have below := agree.below id n found
  have same : ∀ id', cg.pel.lookup id' = if id' = id then some n else cg.pel.lookup id' := by
    intro id'
    split
    · rename_i same
      rw [same,found]
    · rfl
  refine ⟨evolves_put agree member (some n) ?_ same rfl moved.names ?_ ?_ ?_ moved.next (moved.fresh fresh below),rfl⟩
  · rintro _ ⟨⟩
    exact ⟨.inl found,below.trans_le moved.next,moved.record⟩
  · intro name' a member' id'
    by_cases same : id' = id
    · rw [if_pos same,same]
      by_cases mine : a = c
      · rw [if_pos mine,mine,moved.mine]
      rw [if_neg mine,moved.elsewhere a mine,back]
      by_cases old : a = o
      · rw [if_pos (congrArg some old.symm)]
      rw [if_neg fun equal => old (Option.some.inj equal).symm]
      cases other : h.pelOf a id with
      | none => rfl
      | some n' => exact absurd (agree.owner member' other memberOwner holds).1 old
    · rw [if_neg same,moved.views a id' same]
  · exact fun a other _ => moved.nacks a fun same => other (same ▸ rfl)
  · intro a foreign
    refine moved.frame a (fun same => foreign name (same ▸ member)) ?_
    rw [back]
    exact fun equal => foreign owner (Option.some.inj equal ▸ memberOwner)

/-! ## Delivery -/

/-- A record that is created for the consumer and freed again leaves an entry in the list of the consumer at most. -/
structure Drafted (id : StreamID) (c : Nat) (h h' : Heap N) : Prop where
  nacks : h'.nacks = h.nacks
  names : ∀ a, h'.nameOf a = h.nameOf a
  next : h.next ≤ h'.next
  views : ∀ a id', ¬(a = c ∧ id' = id) → h'.pelOf a id' = h.pelOf a id'
  others : ∀ a, a ≠ c → h'.consumers a = h.consumers a
  fresh : h.Fresh → h'.Fresh

section
omit [DecidableEq N]

theorem Drafted.exists_consumer (drafted : Drafted id c h h') {a : Nat} (stored : h.consumers a = some consumer) :
    ∃ consumer', h'.consumers a = some consumer' := by
  have named := drafted.names a
  rw [nameOf,nameOf,stored] at named
  obtain ⟨consumer',there,-⟩ := map_eq_some_iff.mp named
  exact ⟨consumer',there⟩

theorem Drafted.moved {o : Nat} (drafted : Drafted id c h h') (moved : Moved id n c (some o) h' h'') : Moved id n c (some o) h h'' where
  record := moved.record
  nacks a other := by rw [moved.nacks a other,drafted.nacks]
  names a := (moved.names a).trans (drafted.names a)
  next := drafted.next.trans moved.next
  mine := moved.mine
  elsewhere a other := by rw [moved.elsewhere a other,drafted.views a id fun both => other both.1]
  views a id' other := by rw [moved.views a id' other,drafted.views a id' fun both => other both.2]
  frame a other foreign := (moved.frame a other foreign).trans (drafted.others a other)
  fresh before bound := moved.fresh (drafted.fresh before) (bound.trans_le drafted.next)

theorem drafted_of_rewritten {pel : StreamID → Option Nat} (rewritten : Rewritten c pel h h')
    (views : ∀ id', id' ≠ id → pel id' = h.pelOf c id') : Drafted id c h { h' with next := h.next + 1 } where
  nacks := rewritten.nacks
  names := rewritten.names
  next := le_succ _
  views a id' other := by
    refine (rewritten.pelOf a id').trans ?_
    by_cases mine : a = c
    · rw [if_pos mine,views id' fun same => other ⟨mine,same⟩,mine]
    · rw [if_neg mine]
  others := rewritten.others
  fresh before a above := rewritten.fresh before a (rewritten.next ▸ le_of_succ_le above)

theorem setNack_streamCreateNACK (fresh : h.Fresh) (now : Int) (owner : Option Nat) :
    (streamCreateNACK now owner h).setNack h.next none = { h with next := h.next + 1 } := by
  simp only [streamCreateNACK,setNack,update_idem]
  rw [← (fresh h.next (le_refl _)).1,update_eq_self]

theorem drafted_streamFreeNACK (fresh : h.Fresh) (kept : h.consumers c = some consumer) (now : Int) (id : StreamID) :
    ∃ h', streamFreeNACK h.next (if (consumer.pel.lookup id).isNone
        then (streamCreateNACK now (some c) h).setConsumer c (some { consumer with pel := consumer.pel.insert id h.next })
        else streamCreateNACK now (some c) h) = some h' ∧ Drafted id c h h' := by
  have created : (streamCreateNACK now (some c) h).nacks h.next = some ⟨now,1,some c⟩ := update_self ..
  have freed := setNack_streamCreateNACK fresh now (some c)
  split
  · obtain ⟨h1,run,rewritten⟩ := insertPending_spec kept id h.next
    have same : h.setConsumer c (some { consumer with pel := consumer.pel.insert id h.next }) = h1 := by
      rw [insertPending,updateConsumer,kept] at run
      exact Option.some.inj run
    refine ⟨{ h1 with next := h.next + 1 },?_,drafted_of_rewritten rewritten fun id' other => if_neg other⟩
    rw [← same]
    change Option.map _ ((streamCreateNACK now (some c) h).nacks h.next) = _
    rw [created]
    exact congrArg (fun h2 : Heap N => some (h2.setConsumer c (some { consumer with pel := consumer.pel.insert id h.next }))) freed
  · refine ⟨{ h with next := h.next + 1 },?_,rfl,fun _ => rfl,le_succ _,fun _ _ _ => rfl,fun _ _ => rfl,?_⟩
    · rw [streamFreeNACK,created,map_some,freed]
    · exact fun before a above => before a (le_of_succ_le above)

end

section
variable (seated : Seated cg h name c) (now : Int)
include seated now

theorem keeps_createPending (id : StreamID) :
    ∃ cg' h', createPending now c id cg h = some (cg',h') ∧ Keeps cg h cg' h' := by
  have ⟨agree,fresh,member⟩ := seated
  obtain ⟨consumer,kept,-⟩ := agree.exists_consumer member
  have stored : (streamCreateNACK now (some c) h).consumers c = some consumer := kept
  unfold createPending
  simp only [stored,bind_eq_bind,bind_some]
  cases found : cg.pel.lookup id with
  | none =>
    have absent : consumer.pel.lookup id = none := by rw [← pelOf_of_stored kept id,agree.absent member found]
    simp only [absent,isNone_none,if_true]
    obtain ⟨h1,run,inserted⟩ := insertPending_spec stored id h.next
    have same : (streamCreateNACK now (some c) h).setConsumer c (some { consumer with pel := consumer.pel.insert id h.next }) = h1 := by
      rw [insertPending,updateConsumer,stored] at run
      exact Option.some.inj run
    rw [same]
    have next : h1.next = h.next + 1 := inserted.next
    refine ⟨_,_,rfl,evolves_put agree member (some h.next) ?_ (fun id' => lookup_insert_eq cg.pel id id' h.next) rfl inserted.names ?_ ?_ ?_
      (next ▸ le_succ _) (inserted.fresh (fresh_streamCreateNACK now (some c) fresh)),rfl⟩
    · rintro _ ⟨⟩
      refine ⟨.inr (le_refl _),next ▸ lt_succ_self _,⟨now,1,some c⟩,?_,rfl⟩
      rw [inserted.nacks]
      exact update_self ..
    · intro name' a member' id'
      rw [inserted.pelOf]
      by_cases mine : a = c
      · rw [if_pos mine,if_pos mine,mine]
        rfl
      rw [if_neg mine,if_neg mine]
      change h.pelOf a id' = _
      by_cases same : id' = id
      · rw [if_pos same,same,agree.absent member' found]
      · rw [if_neg same]
    · intro a other _
      have apart : a ≠ h.next := fun same => other (same ▸ rfl)
      rw [inserted.nacks]
      exact update_of_ne apart _ _
    · exact fun a foreign => inserted.others a fun same => foreign name (same ▸ member)
  | some n =>
    obtain ⟨owner,o,nack,memberOwner,-,record,back⟩ := agree.record id n found
    obtain ⟨ownerRecord,keptOwner,-⟩ := agree.exists_consumer memberOwner
    obtain ⟨h1,freed,drafted⟩ := drafted_streamFreeNACK fresh kept now id
    obtain ⟨k,kept1⟩ := drafted.exists_consumer kept
    obtain ⟨k',keptOwner1⟩ := drafted.exists_consumer keptOwner
    obtain ⟨h2,run,moved⟩ := moved_reassign found (by rw [drafted.nacks,record]) back keptOwner1 kept1 now
    refine ⟨cg,h2,?_,keeps_moved seated found record (back ▸ drafted.moved moved)⟩
    simp only [isNone_some,Bool.false_eq_true,if_false,freed,run,bind_some]

theorem keeps_deliver (noack : Bool) (id : StreamID) : ∃ cg' h', deliver now c noack (cg,h) id = some (cg',h') ∧ Keeps cg h cg' h' := by
  obtain ⟨cg1,position,kept⟩ := keeps_position seated.agree seated.fresh id
  unfold deliver
  simp only [position]
  cases noack with
  | true => exact ⟨cg1,h,rfl,kept⟩
  | false =>
    obtain ⟨cg2,h2,run,created⟩ := keeps_createPending (kept.seated seated) now id
    obtain ⟨h3,run',active⟩ := keeps_setActive ((kept.trans created).seated seated) now
    refine ⟨cg2,h3,?_,(kept.trans created).trans active⟩
    simp [run,run',bind_some]

end

theorem keeps_streamReplyWithRange (seated : Seated cg h name c) (now : Int) (entries : List StreamID) (start : StreamID) (count : Nat)
    (noack : Bool) : ∃ state, streamReplyWithRange now entries start count c noack (cg,h) = some state ∧ Keeps cg h state.1 state.2 := by
  refine foldlM_keeps (fun s : StreamCG N × Heap N => Keeps cg h s.1 s.2) (fun s id _ kept => ?_) (.refl seated.agree seated.fresh)
  obtain ⟨cg',h',run,next⟩ := keeps_deliver (kept.seated seated) now noack id
  exact ⟨(cg',h'),run,kept.trans next⟩

end ValkeyWasm.Streams
