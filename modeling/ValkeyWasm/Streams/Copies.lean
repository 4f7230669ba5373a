import ValkeyWasm.Streams.Removal

/-! The copy of a group: new records for all pending entries, which the copies of the consumers take over. -/

namespace ValkeyWasm.Streams
open Function List Option Nat AList Library.Loops

open Heap Library.Dictionary

variable {N : Type} [DecidableEq N] {cg : StreamCG N} {h h0 h1 h' : Heap N}

structure Extends (h h' : Heap N) : Prop where
  next : h.next ≤ h'.next
  nacks : ∀ a < h.next, h'.nacks a = h.nacks a
  consumers : ∀ a < h.next, h'.consumers a = h.consumers a

omit [DecidableEq N] in
theorem Extends.refl (h : Heap N) : Extends h h := ⟨le_refl _,fun _ _ => rfl,fun _ _ => rfl⟩

omit [DecidableEq N] in
theorem Extends.trans {h'' : Heap N} (first : Extends h h') (second : Extends h' h'') : Extends h h'' :=
  ⟨first.next.trans second.next,fun a bound => (second.nacks a (bound.trans_le first.next)).trans (first.nacks a bound),
    fun a bound => (second.consumers a (bound.trans_le first.next)).trans (first.consumers a bound)⟩

/-! ## Records -/

structure CopiedRecords (h0 : Heap N) (done : List StreamID) (pel : Pel) (h : Heap N) : Prop where
  ext : Extends h0 h
  fresh : h.Fresh
  covers : ∀ id, (∃ n, pel.lookup id = some n) ↔ id ∈ done
  above : ∀ id n, pel.lookup id = some n → h0.next ≤ n ∧ n < h.next
  stored : ∀ id n, pel.lookup id = some n → ∃ nack, h.nacks n = some nack
  distinct : ∀ id id' n, pel.lookup id = some n → pel.lookup id' = some n → id = id'

variable {pel : Pel} {id : StreamID}

theorem CopiedRecords.dupNACK {done : List StreamID} {n : Nat} (copied : CopiedRecords h0 done pel h)
    (agree : Agree cg h0) (found : cg.pel.lookup id = some n) :
    ∃ pel' h', dupNACK cg (pel,h) id = some (pel',h') ∧ CopiedRecords h0 (done ++ [id]) pel' h' := by
  obtain ⟨-,-,nack,-,-,stored,-⟩ := agree.record id n found
  have still : h.nacks n = some nack := by rw [copied.ext.nacks n (agree.below id n found),stored]
  refine ⟨pel.insert id h.next,(streamCreateNACK nack.deliveryTime none h).setNack h.next
    (some ⟨nack.deliveryTime,nack.deliveryCount,none⟩),?_,?_⟩
  · unfold Streams.dupNACK
    simp [found,still]
  have others : ∀ a, a ≠ h.next → ((streamCreateNACK nack.deliveryTime none h).setNack h.next
      (some ⟨nack.deliveryTime,nack.deliveryCount,none⟩)).nacks a = h.nacks a := by
    intro a other
    exact (update_of_ne other _ _).trans (update_of_ne other _ _)
  refine ⟨copied.ext.trans ⟨le_succ _,fun a bound => others a (Nat.ne_of_lt bound),fun _ _ => rfl⟩,?_,?_,?_,?_,?_⟩
  · exact fresh_setNack (fresh_streamCreateNACK _ none copied.fresh) (lt_succ_self _)
  · intro id'
    simp only [lookup_insert_eq,mem_append,← copied.covers]
    by_cases same : id' = id
    · simp [same]
    · simp [same]
  · intro id' n' after
    rcases lookup_insert_some.mp after with ⟨-,rfl⟩ | ⟨-,before⟩
    · exact ⟨copied.ext.next,lt_succ_self _⟩
    · exact ⟨(copied.above id' n' before).1,(copied.above id' n' before).2.trans (lt_succ_self _)⟩
  · intro id' n' after
    rcases lookup_insert_some.mp after with ⟨-,rfl⟩ | ⟨-,before⟩
    · exact ⟨_,update_self ..⟩
    · obtain ⟨nack',stored'⟩ := copied.stored id' n' before
      exact ⟨nack',(others n' (Nat.ne_of_lt (copied.above id' n' before).2)).trans stored'⟩
  · intro id1 id2 n' one two
    rcases lookup_insert_some.mp one with ⟨rfl,rfl⟩ | ⟨-,one⟩
    · rcases lookup_insert_some.mp two with ⟨rfl,-⟩ | ⟨-,two⟩
      · rfl
      · exact absurd (copied.above id2 h.next two).2 (lt_irrefl _)
    · rcases lookup_insert_some.mp two with ⟨-,rfl⟩ | ⟨-,two⟩
      · exact absurd (copied.above id1 h.next one).2 (lt_irrefl _)
      · exact copied.distinct id1 id2 n' one two

theorem copiedRecords_foldlM (agree : Agree cg h) (fresh : h.Fresh) :
    ∃ state, (raxKeys cg.pel).foldlM (dupNACK cg) (∅,h) = some state ∧ CopiedRecords h (raxKeys cg.pel) state.1 state.2 := by
  refine foldlM_invariant (fun done (s : Pel × Heap N) => CopiedRecords h done s.1 s.2) (fun done id rest ⟨pel,h1⟩ whole copied => ?_) ?_
  · obtain ⟨n,found⟩ := mem_raxKeys.mp (show id ∈ raxKeys cg.pel by simp [whole])
    obtain ⟨pel2,h2,run,copied2⟩ := copied.dupNACK agree found
    exact ⟨(pel2,h2),run,copied2⟩
  · refine ⟨.refl h,fresh,?_,?_,?_,?_⟩
    all_goals simp [lookup_empty]

/-! ## Consumers -/

structure TakenOver (pel : Pel) (c : Nat) (ids : List StreamID) (h h' : Heap N) : Prop where
  next : h'.next = h.next
  names : ∀ a, h'.nameOf a = h.nameOf a
  others : ∀ a, a ≠ c → h'.consumers a = h.consumers a
  views : ∀ id, h'.pelOf c id = if id ∈ ids then pel.lookup id else h.pelOf c id
  nacks : ∀ a, (∀ id ∈ ids, pel.lookup id ≠ some a) → h'.nacks a = h.nacks a
  owned : ∀ id ∈ ids, ∀ n, pel.lookup id = some n → ∃ nack, h'.nacks n = some nack ∧ nack.consumer = some c
  stored : ∀ a, (h'.nacks a).isSome = (h.nacks a).isSome
  exists_iff : ∀ a, (h'.consumers a).isSome = (h.consumers a).isSome

omit [DecidableEq N] in
theorem takenOver_nil (pel : Pel) (c : Nat) (h : Heap N) : TakenOver pel c [] h h :=
  ⟨rfl,fun _ => rfl,fun _ _ => rfl,by simp,fun _ _ => rfl,by simp,fun _ => rfl,fun _ => rfl⟩

variable {c : Nat}

omit [DecidableEq N] in
theorem takenOver_step {n : Nat} {nack : StreamNACK} {consumer : StreamConsumer N}
    (found : pel.lookup id = some n) (record : h.nacks n = some nack) (there : h.consumers c = some consumer) :
    ∃ h', dupPending pel c h id = some h' ∧ TakenOver pel c [id] h h' := by
  obtain ⟨h',run,inserted⟩ := insertPending_spec
    (show (h.setNack n (some { nack with consumer := some c })).consumers c = some consumer from there) id n
  refine ⟨h',?_,inserted.next,inserted.names,inserted.others,?_,?_,?_,?_,inserted.exists_iff⟩
  · unfold dupPending
    simp [found,record,run]
  · intro id'
    rw [inserted.pelOf]
    by_cases same : id' = id
    · subst same
      simp [found]
    · simp only [same,mem_singleton]
      rfl
  · intro a other
    have apart : a ≠ n := fun same => other id mem_cons_self (same ▸ found)
    rw [inserted.nacks]
    exact update_of_ne apart _ _
  · intro id' member n' found'
    rw [mem_singleton.mp member] at found'
    obtain rfl : n = n' := Option.some.inj (found.symm.trans found')
    refine ⟨{ nack with consumer := some c },?_,rfl⟩
    rw [inserted.nacks]
    exact update_self ..
  · intro a
    rw [inserted.nacks]
    by_cases same : a = n
    · subst same
      simp [setNack,record]
    · simp [setNack,same]

section
variable (distinct : ∀ id id' n, pel.lookup id = some n → pel.lookup id' = some n → id = id') {ids : List StreamID}
include distinct

omit [DecidableEq N] in
theorem TakenOver.append (first : TakenOver pel c ids h h1) (second : TakenOver pel c [id] h1 h') :
    TakenOver pel c (ids ++ [id]) h h' := by
  refine ⟨second.next.trans first.next,fun a => (second.names a).trans (first.names a),
    fun a other => (second.others a other).trans (first.others a other),?_,?_,?_,
    fun a => (second.stored a).trans (first.stored a),fun a => (second.exists_iff a).trans (first.exists_iff a)⟩
  · intro id'
    rw [second.views,first.views]
    by_cases last : id' = id
    · simp [last]
    · simp [last]
  · intro a other
    rw [second.nacks a fun id' member => other id' (mem_append_right ids member)]
    exact first.nacks a fun id' member => other id' (mem_append_left _ member)
  · intro id' member n found
    by_cases last : id' ∈ [id]
    · exact second.owned id' last n found
    -- the record of an earlier ID is not touched again
    obtain ⟨nack,record,back⟩ := first.owned id' ((mem_append.mp member).resolve_right last) n found
    refine ⟨nack,?_,back⟩
    rw [second.nacks n,record]
    exact fun id'' member' clash => last (distinct id' id'' n found clash ▸ member')

omit [DecidableEq N] in
theorem takenOver_foldlM {consumer : StreamConsumer N} (kept : h.consumers c = some consumer)
    (records : ∀ id ∈ ids, ∃ n nack, pel.lookup id = some n ∧ h.nacks n = some nack) :
    ∃ h', ids.foldlM (dupPending pel c) h = some h' ∧ TakenOver pel c ids h h' := by
  refine foldlM_invariant (fun done h' => TakenOver pel c done h h') (fun done id rest h1 whole taken => ?_) (takenOver_nil pel c h)
  obtain ⟨n,nack,found,record⟩ := records id (by simp [whole])
  obtain ⟨nack',record'⟩ := exists_of_isSome_eq (taken.stored n) record
  obtain ⟨consumer',kept'⟩ := exists_of_isSome_eq (taken.exists_iff c) kept
  obtain ⟨h2,run,last⟩ := takenOver_step found record' kept'
  exact ⟨h2,run,taken.append distinct last⟩

end

structure CopyOf (h0 : Heap N) (pel : Pel) (h : Heap N) (name : N) (c c' : Nat) : Prop where
  above : h0.next ≤ c'
  below : c' < h.next
  named : h.nameOf c' = some name
  views : ∀ id, h.pelOf c' id = if (h0.pelOf c id).isSome then pel.lookup id else none
  owned : ∀ id n, (h0.pelOf c id).isSome → pel.lookup id = some n → ∃ nack, h.nacks n = some nack ∧ nack.consumer = some c'

structure CopiedConsumers (h0 : Heap N) (pel : Pel) (done : List (Sigma fun _ : N => Nat)) (consumers : AList fun _ : N => Nat)
    (h : Heap N) : Prop where
  ext : Extends h0 h
  fresh : h.Fresh
  copies : ∀ name c, ⟨name,c⟩ ∈ done → ∃ c', consumers.lookup name = some c' ∧ CopyOf h0 pel h name c c'
  only : ∀ name c', consumers.lookup name = some c' → ∃ c, ⟨name,c⟩ ∈ done
  above : ∀ id n, pel.lookup id = some n → h0.next ≤ n ∧ n < h.next
  stored : ∀ id n, pel.lookup id = some n → ∃ nack, h.nacks n = some nack

theorem CopiedConsumers.dupConsumer {done : List (Sigma fun _ : N => Nat)} {consumers : AList fun _ : N => Nat}
    (copied : CopiedConsumers h0 pel done consumers h) (agree : Agree cg h0)
    (distinct : ∀ id id' n, pel.lookup id = some n → pel.lookup id' = some n → id = id')
    (covers : ∀ id n, cg.pel.lookup id = some n → ∃ n', pel.lookup id = some n')
    (members : ∀ name c, ⟨name,c⟩ ∈ done → cg.consumers.lookup name = some c)
    {name : N} (member : cg.consumers.lookup name = some c) (newName : ∀ c, ⟨name,c⟩ ∉ done) :
    ∃ consumers' h', dupConsumer pel (consumers,h) ⟨name,c⟩ = some (consumers',h') ∧
      CopiedConsumers h0 pel (done ++ [⟨name,c⟩]) consumers' h' := by
  obtain ⟨consumer,kept,named⟩ := agree.exists_consumer member
  have bound := agree.belowConsumers name c member
  have kept1 : h.consumers c = some consumer := by rw [copied.ext.consumers c bound,kept]
  have holds : ∀ id n, consumer.pel.lookup id = some n ↔ h0.pelOf c id = some n := fun id n => by rw [pelOf_of_stored kept]
  set h1 : Heap N := { h.setConsumer h.next (some { consumer with pel := ∅ }) with next := h.next + 1 } with hh1
  have newConsumer : h1.consumers h.next = some { consumer with pel := ∅ } := update_self ..
  obtain ⟨h2,run,taken⟩ := takenOver_foldlM distinct newConsumer (by
    intro id inside
    obtain ⟨n,held⟩ := mem_raxKeys.mp inside
    obtain ⟨n',found⟩ := covers id n (agree.held name c id n member ((holds id n).mp held)).1
    obtain ⟨nack,record⟩ := copied.stored id n' found
    exact ⟨n',nack,found,record⟩)
  have old : ∀ a, a ≠ h.next → h2.consumers a = h.consumers a :=
    fun a other => (taken.others a other).trans (update_of_ne other _ _)
  have inIds : ∀ id, id ∈ raxKeys consumer.pel ↔ (h0.pelOf c id).isSome := by
    intro id
    rw [mem_raxKeys,isSome_iff_exists]
    simp [holds]
  have oldNacks : ∀ a < h0.next, h2.nacks a = h.nacks a := by
    intro a below
    refine taken.nacks a fun id _ found => ?_
    exact absurd below (not_lt.mpr (copied.above id a found).1)
  have nextEq : h2.next = h.next + 1 := taken.next
  refine ⟨consumers.insert name h.next,h2,?_,?_,?_,?_,?_,?_,?_⟩
  · unfold Streams.dupConsumer
    rw [kept1]
    change ((raxKeys consumer.pel).foldlM (dupPending pel h.next) h1).bind
      (fun h2 => some (consumers.insert consumer.name h.next,h2)) = _
    rw [run,bind_some,named]
  · refine ⟨copied.ext.next.trans (by rw [nextEq]; exact le_succ _),fun a below => ?_,fun a below => ?_⟩
    · rw [oldNacks a below,copied.ext.nacks a below]
    · rw [old a (Nat.ne_of_lt (below.trans_le copied.ext.next)),copied.ext.consumers a below]
  · intro a aboveNext
    rw [nextEq] at aboveNext
    obtain ⟨none,gone⟩ := copied.fresh a (le_of_succ_le aboveNext)
    refine ⟨?_,(old a (ne_of_gt aboveNext)).trans gone⟩
    have same := taken.stored a
    change (h2.nacks a).isSome = (h.nacks a).isSome at same
    rw [none] at same
    exact isNone_iff_eq_none.mp (isSome_eq_false_iff.mp same)
  · intro name' c' inside
    rw [mem_append,mem_singleton] at inside
    rcases inside with before | now
    · -- an earlier copy: its consumer and its records are left alone
      have other : name' ≠ name := by
        rintro rfl
        exact newName c' before
      obtain ⟨copy,there,copyOf⟩ := copied.copies name' c' before
      have apart : copy ≠ h.next := Nat.ne_of_lt copyOf.below
      refine ⟨copy,lookup_insert_some.mpr (.inr ⟨other,there⟩),copyOf.above,copyOf.below.trans (by rw [nextEq]; exact lt_succ_self _),?_,?_,?_⟩
      · rw [nameOf,old copy apart]
        exact copyOf.named
      · intro id
        rw [pelOf,old copy apart]
        exact copyOf.views id
      intro id n held found
      obtain ⟨nack,record,back⟩ := copyOf.owned id n held found
      refine ⟨nack,?_,back⟩
      rw [taken.nacks n]
      · exact record
      intro id' member' clash
      obtain rfl := distinct id id' n found clash
      obtain ⟨m,mine⟩ := isSome_iff_exists.mp ((inIds id).mp member')
      obtain ⟨m',theirs⟩ := isSome_iff_exists.mp held
      have same := (agree.owner member mine (members name' c' before) theirs).1
      exact other (agree.names (same ▸ members name' c' before) member)
    · obtain ⟨rfl,same⟩ := Sigma.mk.inj now
      obtain rfl : c' = c := eq_of_heq same
      refine ⟨h.next,lookup_insert _,copied.ext.next,by rw [nextEq]; exact lt_succ_self _,?_,?_,?_⟩
      · rw [taken.names,nameOf,newConsumer]
        exact congrArg some named
      · intro id
        rw [taken.views]
        simp only [inIds]
        split
        · rfl
        · rw [pelOf,newConsumer]
          rfl
      · intro id n held found
        exact taken.owned id ((inIds id).mpr held) n found
  · intro name' c' after
    rcases lookup_insert_some.mp after with ⟨rfl,-⟩ | ⟨-,before⟩
    · exact ⟨c,by simp⟩
    · obtain ⟨c'',before⟩ := copied.only name' c' before
      exact ⟨c'',mem_append_left _ before⟩
  · intro id n found
    rw [nextEq]
    exact ⟨(copied.above id n found).1,(copied.above id n found).2.trans (lt_succ_self _)⟩
  · intro id n found
    obtain ⟨nack,record⟩ := copied.stored id n found
    exact exists_of_isSome_eq (taken.stored n) record

theorem copiedConsumers_foldlM (agree : Agree cg h0)
    (distinct : ∀ id id' n, pel.lookup id = some n → pel.lookup id' = some n → id = id')
    (covers : ∀ id n, cg.pel.lookup id = some n → ∃ n', pel.lookup id = some n') (start : CopiedConsumers h0 pel [] ∅ h) :
    ∃ state, cg.consumers.entries.foldlM (dupConsumer pel) (∅,h) = some state ∧
      CopiedConsumers h0 pel cg.consumers.entries state.1 state.2 := by
  refine foldlM_invariant (fun done (s : (AList fun _ : N => Nat) × Heap N) => CopiedConsumers h0 pel done s.1 s.2)
    (fun done ⟨name,c⟩ rest ⟨consumers,h1⟩ whole copied => ?_) start
  have members : ∀ name' c', ⟨name',c'⟩ ∈ done ++ ⟨name,c⟩ :: rest → cg.consumers.lookup name' = some c' :=
    fun name' c' member => mem_lookup_iff.mpr (whole ▸ member)
  have newName : ∀ c', (⟨name,c'⟩ : Sigma fun _ : N => Nat) ∉ done := by
    intro c' before
    have keys := cg.consumers.nodupKeys
    rw [whole] at keys
    unfold List.NodupKeys List.keys at keys
    rw [map_append] at keys
    exact (nodup_append.mp keys).2.2 name (mem_map.mpr ⟨_,before,rfl⟩) name mem_cons_self rfl
  obtain ⟨consumers2,h2,run,copied2⟩ := copied.dupConsumer agree distinct covers
    (fun name' c' before => members name' c' (mem_append_left _ before)) (members name c (by simp)) newName
  exact ⟨(consumers2,h2),run,copied2⟩

theorem evolves_dupGroup (agree : Agree cg h) (fresh : h.Fresh) :
    ∃ cg' h', dupGroup cg h = some (cg',h') ∧ Evolves ⟨cg.lastId,∅,∅⟩ h cg' h' := by
  obtain ⟨⟨pel,h1⟩,run,records⟩ := copiedRecords_foldlM agree fresh
  have covers : ∀ id n, cg.pel.lookup id = some n → ∃ n', pel.lookup id = some n' :=
    fun id n found => (records.covers id).mpr (mem_raxKeys.mpr ⟨n,found⟩)
  have begin : CopiedConsumers h pel [] (∅ : AList fun _ : N => Nat) h1 := by
    refine ⟨records.ext,records.fresh,?_,?_,records.above,records.stored⟩
    all_goals simp [lookup_empty]
  obtain ⟨⟨consumers,h2⟩,run',copied⟩ := copiedConsumers_foldlM agree records.distinct covers begin
  have copy : ∀ name c', consumers.lookup name = some c' →
      ∃ c, cg.consumers.lookup name = some c ∧ CopyOf h pel h2 name c c' := by
    intro name c' there
    obtain ⟨c,member⟩ := copied.only name c' there
    obtain ⟨c'',there',copyOf⟩ := copied.copies name c member
    obtain rfl : c' = c'' := Option.some.inj (there.symm.trans there')
    exact ⟨c,mem_lookup_iff.mpr member,copyOf⟩
  refine ⟨⟨cg.lastId,pel,consumers⟩,h2,?_,⟨?_,?_,?_,records.distinct,?_,?_⟩,copied.fresh,copied.ext.next,?_,?_,?_,?_⟩
  · unfold dupGroup
    simp [run,run']
  · intro id n found
    obtain ⟨m,before⟩ := mem_raxKeys.mp ((records.covers id).mp ⟨n,found⟩)
    obtain ⟨name,c,-,member,held,-,-⟩ := agree.record id m before
    obtain ⟨c',there,copyOf⟩ := copied.copies name c (mem_lookup_iff.mp member)
    have holds : (h.pelOf c id).isSome := by rw [held]; rfl
    obtain ⟨nack,record,back⟩ := copyOf.owned id n holds found
    exact ⟨name,c',nack,there,by rw [copyOf.views,if_pos holds,found],record,back⟩
  · intro name c' id n there held
    obtain ⟨c,-,copyOf⟩ := copy name c' there
    rw [copyOf.views] at held
    split at held
    · rename_i holds
      exact ⟨held,copyOf.owned id n holds held⟩
    · cases held
  · intro name c' there
    obtain ⟨c,-,copyOf⟩ := copy name c' there
    exact copyOf.named
  · exact fun id n found => (copied.above id n found).2
  · intro name c' there
    obtain ⟨c,-,copyOf⟩ := copy name c' there
    exact copyOf.below
  · exact fun id n found => .inr (copied.above id n found).1
  · intro name c' there
    obtain ⟨c,-,copyOf⟩ := copy name c' there
    exact .inr copyOf.above
  · exact fun n bound _ => copied.ext.nacks n bound
  · exact fun c bound _ => copied.ext.consumers c bound

end ValkeyWasm.Streams
