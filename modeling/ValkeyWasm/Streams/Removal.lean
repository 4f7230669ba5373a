import ValkeyWasm.Streams.Claims

/-! Deletion of a consumer and of a whole group: every record is freed once. -/

namespace ValkeyWasm.Streams
open Function List AList Library.Loops

open Heap Library.Dictionary

variable {N : Type} [DecidableEq N] {cg cg' : StreamCG N} {h h' : Heap N}

/-! ## Deletion of a consumer -/

/-- The IDs are out of the list of the group and their records freed; the consumers are as they were. -/
structure Dropped (ids : List StreamID) (cg : StreamCG N) (h : Heap N) (cg' : StreamCG N) (h' : Heap N) : Prop where
  pel : ∀ id, cg'.pel.lookup id = if id ∈ ids then none else cg.pel.lookup id
  names : cg'.consumers = cg.consumers
  nacks : ∀ a, (∀ id ∈ ids, cg.pel.lookup id ≠ some a) → h'.nacks a = h.nacks a
  freed : ∀ a, h.nacks a = none → h'.nacks a = none
  consumers : h'.consumers = h.consumers
  next : h'.next = h.next

variable {consumer : StreamConsumer N} {id : StreamID}

omit [DecidableEq N] in
theorem dropped_step {n : Nat} {nack : StreamNACK}
    (held : consumer.pel.lookup id = some n) (found : cg.pel.lookup id = some n) (stored : h.nacks n = some nack) :
    ∃ cg' h', dropPending consumer (cg,h) id = some (cg',h') ∧ Dropped [id] cg h cg' h' := by
  refine ⟨{ cg with pel := cg.pel.erase id },h.setNack n none,?_,?_,rfl,?_,?_,rfl,rfl⟩
  · unfold dropPending streamFreeNACK
    simp [held,stored]
  · intro id'
    simp only [mem_singleton]
    exact lookup_erase_eq cg.pel id id'
  · intro a other
    have apart : a ≠ n := fun same => other id mem_cons_self (same ▸ found)
    exact update_of_ne apart _ _
  intro a gone
  by_cases same : a = n
  · subst same
    exact update_self ..
  · exact (update_of_ne same _ _).trans gone

variable {ids : List StreamID}

section
omit [DecidableEq N]

theorem Dropped.append {cg'' : StreamCG N} {h'' : Heap N}
    (first : Dropped ids cg h cg' h') (second : Dropped [id] cg' h' cg'' h'') : Dropped (ids ++ [id]) cg h cg'' h'' := by
  refine ⟨?_,second.names.trans first.names,?_,fun a gone => second.freed a (first.freed a gone),
    second.consumers.trans first.consumers,second.next.trans first.next⟩
  · intro id'
    rw [second.pel,first.pel]
    by_cases last : id' = id
    · simp [last]
    · simp [last]
  · intro a other
    rw [second.nacks,first.nacks]
    · exact fun id' member => other id' (mem_append_left _ member)
    intro id' member found
    rw [first.pel] at found
    split at found
    · cases found
    · exact other id' (mem_append_right ids member) found

theorem dropped_foldlM (consumer : StreamConsumer N) (nodup : ids.Nodup)
    (there : ∀ id ∈ ids, ∃ n nack, consumer.pel.lookup id = some n ∧ cg.pel.lookup id = some n ∧ h.nacks n = some nack)
    (distinct : ∀ id id' n, cg.pel.lookup id = some n → cg.pel.lookup id' = some n → id = id') :
    ∃ state, ids.foldlM (dropPending consumer) (cg,h) = some state ∧ Dropped ids cg h state.1 state.2 := by
  refine foldlM_invariant (fun done (s : StreamCG N × Heap N) => Dropped done cg h s.1 s.2) (fun done id rest ⟨cg1,h1⟩ whole dropped => ?_)
    ⟨by simp,rfl,fun _ _ => rfl,fun _ gone => gone,rfl,rfl⟩
  have apart : id ∉ done := fun member => by
    rw [whole] at nodup
    exact (nodup_append.mp nodup).2.2 id member id mem_cons_self rfl
  obtain ⟨n,nack,held,found,stored⟩ := there id (by simp [whole])
  have still : cg1.pel.lookup id = some n := by rw [dropped.pel,if_neg apart,found]
  have record : h1.nacks n = some nack := by
    rw [dropped.nacks n,stored]
    exact fun id' member clash => apart (distinct id id' n found clash ▸ member)
  obtain ⟨cg2,h2,run,last⟩ := dropped_step held still record
  exact ⟨(cg2,h2),run,dropped.append last⟩

theorem Dropped.fresh (dropped : Dropped ids cg h cg' h') (fresh : h.Fresh) : h'.Fresh := by
  intro a above
  rw [dropped.next] at above
  exact ⟨dropped.freed a (fresh a above).1,by rw [dropped.consumers,(fresh a above).2]⟩

end

theorem nodup_raxKeys (pel : Pel) : (raxKeys pel).Nodup := by
  exact (perm_insertionSort _ _).nodup_iff.mpr pel.keys_nodup

theorem evolves_removed (agree : Agree cg h) (fresh : h.Fresh) {name : N} {c : Nat} {cg1 : StreamCG N}
    {h1 : Heap N} (member : cg.consumers.lookup name = some c) (kept : h.consumers c = some consumer)
    (dropped : Dropped (raxKeys consumer.pel) cg h cg1 h1) :
    Evolves cg h { cg1 with consumers := cg1.consumers.erase name } (h1.setConsumer c none) := by
  have holds : ∀ id n, consumer.pel.lookup id = some n ↔ h.pelOf c id = some n := fun id n => by rw [pelOf_of_stored kept]
  have names : ∀ name' c', (cg1.consumers.erase name).lookup name' = some c' →
      cg.consumers.lookup name' = some c' ∧ c' ≠ c := by
    intro name' c' after
    rw [dropped.names] at after
    obtain ⟨other,before⟩ := lookup_erase_some.mp after
    refine ⟨before,?_⟩
    rintro rfl
    exact other (agree.names before member)
  have views : ∀ a id, a ≠ c → (h1.setConsumer c none).pelOf a id = h.pelOf a id := by
    intro a id other
    unfold pelOf setConsumer
    dsimp only
    rw [update_of_ne other,dropped.consumers]
  have pel : ∀ id n, cg1.pel.lookup id = some n → cg.pel.lookup id = some n ∧ h.pelOf c id = none := by
    intro id n after
    rw [dropped.pel] at after
    split at after
    · cases after
    rename_i outside
    refine ⟨after,?_⟩
    cases held : h.pelOf c id with
    | none => rfl
    | some n' => exact absurd (mem_raxKeys.mpr ⟨n',(holds id n').mpr held⟩) outside
  -- a record that is still in the list of the group is not freed
  have records : ∀ id n, cg1.pel.lookup id = some n → h1.nacks n = h.nacks n := by
    intro id n after
    obtain ⟨before,notHeld⟩ := pel id n after
    apply dropped.nacks
    intro id' inside clash
    obtain rfl := agree.distinct id' id n clash before
    obtain ⟨n',held⟩ := mem_raxKeys.mp inside
    rw [holds,notHeld] at held
    cases held
  refine ⟨⟨?_,?_,?_,?_,?_,?_⟩,?_,dropped.next.ge,?_,?_,?_,?_⟩
  · intro id n after
    obtain ⟨before,notHeld⟩ := pel id n after
    obtain ⟨name',c',nack,member',held,stored,back⟩ := agree.record id n before
    have other : c' ≠ c := by
      rintro rfl
      rw [notHeld] at held
      cases held
    refine ⟨name',c',nack,?_,?_,?_,back⟩
    · have apart : name' ≠ name := by
        rintro rfl
        exact other (Option.some.inj (member'.symm.trans member))
      exact lookup_erase_some.mpr ⟨apart,by rw [dropped.names,member']⟩
    · rw [views c' id other,held]
    · exact (records id n after).trans stored
  · intro name' c' id n after held
    obtain ⟨member',other⟩ := names name' c' after
    rw [views c' id other] at held
    obtain ⟨before,nack,stored,back⟩ := agree.held name' c' id n member' held
    have still : cg1.pel.lookup id = some n := by
      rw [dropped.pel,if_neg,before]
      intro inside
      obtain ⟨n',mine⟩ := mem_raxKeys.mp inside
      exact other (agree.owner member' held member ((holds id n').mp mine)).1
    exact ⟨still,nack,(records id n still).trans stored,back⟩
  · intro name' c' after
    obtain ⟨member',other⟩ := names name' c' after
    have named := agree.named name' c' member'
    unfold nameOf setConsumer at *
    dsimp only
    rw [update_of_ne other,dropped.consumers,named]
  · exact fun id1 id2 n one two => agree.distinct id1 id2 n (pel id1 n one).1 (pel id2 n two).1
  · intro id n after
    change n < h1.next
    rw [dropped.next]
    exact agree.below id n (pel id n after).1
  · intro name' c' after
    change c' < h1.next
    rw [dropped.next]
    exact agree.belowConsumers name' c' (names name' c' after).1
  · intro a above
    have old := dropped.fresh fresh a above
    refine ⟨old.1,?_⟩
    by_cases same : a = c
    · rw [same]
      exact update_self ..
    · exact (update_of_ne same _ _).trans old.2
  · exact fun id n after => .inl ⟨id,(pel id n after).1⟩
  · exact fun name' c' after => .inl ⟨name',(names name' c' after).1⟩
  · intro n _ foreign
    exact dropped.nacks n fun id _ => foreign id
  · intro c' _ foreign
    have other : c' ≠ c := fun same => foreign name (same ▸ member)
    exact (update_of_ne other _ _).trans (by rw [dropped.consumers])

theorem evolves_delConsumer (agree : Agree cg h) (fresh : h.Fresh) (name : N) : Yields cg h (delConsumer name cg h) := by
  unfold delConsumer
  cases member : cg.consumers.lookup name with
  | none => exact ⟨(0,cg,h),rfl,.refl agree fresh⟩
  | some c =>
    obtain ⟨consumer,kept,named⟩ := agree.exists_consumer member
    obtain ⟨⟨cg1,h1⟩,run,dropped⟩ := dropped_foldlM consumer (nodup_raxKeys _) (by
      intro id inside
      obtain ⟨n,held⟩ := mem_raxKeys.mp inside
      obtain ⟨found,nack,stored,-⟩ := agree.held name c id n member (by rw [pelOf_of_stored kept,held])
      exact ⟨n,nack,held,found,stored⟩) agree.distinct
    have still : h1.consumers c = some consumer := by rw [dropped.consumers,kept]
    refine ⟨(consumer.pel.keys.length,{ cg1 with consumers := cg1.consumers.erase name },h1.setConsumer c none),?_,
      evolves_removed agree fresh member kept dropped⟩
    simp [kept,streamDelConsumer,run,streamFreeConsumer,still,named]

/-! ## A group that is freed -/

section
omit [DecidableEq N]

theorem freeEach_spec {V W : Type} {free : Nat → Heap N → Option (Heap N)} {view : Heap N → Nat → Option V} {rest : Heap N → W}
    (step : ∀ h a v, view h a = some v →
      ∃ h', free a h = some h' ∧ rest h' = rest h ∧ view h' = update (view h) a none) {addresses : List Nat}
    (h : Heap N) (nodup : addresses.Nodup) (there : ∀ a ∈ addresses, ∃ v, view h a = some v) :
    ∃ h', addresses.foldlM (fun h a => free a h) h = some h' ∧ rest h' = rest h ∧
      ∀ a, view h' a = if a ∈ addresses then none else view h a := by
  refine foldlM_invariant (fun done h' => rest h' = rest h ∧ ∀ a, view h' a = if a ∈ done then none else view h a)
    (fun done a others h1 whole before => ?_) ⟨rfl,by simp⟩
  obtain ⟨same,views⟩ := before
  have apart : a ∉ done := fun member => by
    rw [whole] at nodup
    exact (nodup_append.mp nodup).2.2 a member a mem_cons_self rfl
  obtain ⟨v,stored⟩ := there a (by simp [whole])
  obtain ⟨h2,run,same',freed⟩ := step h1 a v (by rw [views,if_neg apart,stored])
  refine ⟨h2,run,same'.trans same,fun b => ?_⟩
  rw [freed,update_apply,views]
  by_cases equal : b = a
  · simp [equal]
  · simp [equal]

theorem streamFreeNACK_spec (h : Heap N) (n : Nat) (nack : StreamNACK) (stored : h.nacks n = some nack) :
    ∃ h', streamFreeNACK n h = some h' ∧ (h'.consumers,h'.next) = (h.consumers,h.next) ∧
      h'.nacks = update h.nacks n none :=
  ⟨h.setNack n none,by rw [streamFreeNACK,stored]; rfl,rfl,rfl⟩

theorem streamFreeConsumer_spec (h : Heap N) (c : Nat) (consumer : StreamConsumer N) (stored : h.consumers c = some consumer) :
    ∃ h', streamFreeConsumer c h = some h' ∧ (h'.nacks,h'.next) = (h.nacks,h.next) ∧
      h'.consumers = update h.consumers c none :=
  ⟨h.setConsumer c none,by rw [streamFreeConsumer,stored]; rfl,rfl,rfl⟩

end

theorem nodup_values {κ : Type} [DecidableEq κ] (map : AList fun _ : κ => Nat)
    (distinct : ∀ k k' v, map.lookup k = some v → map.lookup k' = some v → k = k') :
    (map.entries.map fun entry => entry.2).Nodup := by
  have nodup : map.entries.Nodup := map.nodupKeys.nodup
  refine List.Nodup.map_on (fun entry member entry' member' same => ?_) nodup
  obtain ⟨k,v⟩ := entry
  obtain ⟨k',v'⟩ := entry'
  obtain rfl : v = v' := same
  obtain rfl := distinct k k' v (mem_lookup_iff.mpr member) (mem_lookup_iff.mpr member')
  rfl

/-- A group that is freed: its records and consumers are gone, everything else is as it was. -/
structure Freed (cg : StreamCG N) (h h' : Heap N) : Prop where
  next : h'.next = h.next
  fresh : h'.Fresh
  nacks : ∀ n, (∀ id, cg.pel.lookup id ≠ some n) → h'.nacks n = h.nacks n
  consumers : ∀ c, (∀ name, cg.consumers.lookup name ≠ some c) → h'.consumers c = h.consumers c

theorem freed_streamFreeCG (agree : Agree cg h) (fresh : h.Fresh) : ∃ h', streamFreeCG cg h = some h' ∧ Freed cg h h' := by
  obtain ⟨h1,run,kept,nacks⟩ := freeEach_spec streamFreeNACK_spec h
    (nodup_values cg.pel agree.distinct) (by
      intro n member
      obtain ⟨⟨id,n'⟩,inside,rfl⟩ := mem_map.mp member
      obtain ⟨-,-,nack,-,-,stored,-⟩ := agree.record id n' (mem_lookup_iff.mpr inside)
      exact ⟨nack,stored⟩)
  obtain ⟨consumers,next⟩ := Prod.mk.inj kept
  obtain ⟨h2,run',kept',consumers'⟩ := freeEach_spec streamFreeConsumer_spec h1
    (nodup_values cg.consumers fun name name' c one two => agree.names one two) (by
      intro c member
      obtain ⟨⟨name,c'⟩,inside,rfl⟩ := mem_map.mp member
      obtain ⟨consumer,stored,-⟩ := agree.exists_consumer (mem_lookup_iff.mpr inside)
      exact ⟨consumer,by rw [consumers,stored]⟩)
  obtain ⟨nacks',next'⟩ := Prod.mk.inj kept'
  have nacksOf : ∀ n, h2.nacks n = if n ∈ cg.pel.entries.map (fun entry => entry.2) then none else h.nacks n :=
    fun n => by rw [nacks',nacks]
  have consumersOf : ∀ c, h2.consumers c = if c ∈ cg.consumers.entries.map (fun entry => entry.2) then none else h.consumers c :=
    fun c => by rw [consumers',consumers]
  refine ⟨h2,?_,next'.trans next,?_,?_,?_⟩
  · unfold streamFreeCG
    rw [foldlM_map] at run run'
    rw [run]
    exact run'
  · intro a above
    rw [next',next] at above
    obtain ⟨none,gone⟩ := fresh a above
    refine ⟨?_,?_⟩
    · rw [nacksOf,none,ite_self]
    · rw [consumersOf,gone,ite_self]
  · intro n foreign
    rw [nacksOf,if_neg]
    intro member
    obtain ⟨⟨id,n'⟩,inside,rfl⟩ := mem_map.mp member
    exact foreign id (mem_lookup_iff.mpr inside)
  · intro c foreign
    rw [consumersOf,if_neg]
    intro member
    obtain ⟨⟨name,c'⟩,inside,rfl⟩ := mem_map.mp member
    exact foreign name (mem_lookup_iff.mpr inside)

end ValkeyWasm.Streams
