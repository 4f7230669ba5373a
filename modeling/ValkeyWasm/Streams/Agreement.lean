import ValkeyWasm.Library.Loops
import ValkeyWasm.Streams.Groups

/-! What the pending lists of a group and of its consumers have in common, and how one group changes while the
records and consumers of the others stay as they are. -/

namespace ValkeyWasm.Streams
open Function Option

open Heap

variable {N : Type}

def Heap.pelOf (h : Heap N) (c : Nat) (id : StreamID) : Option Nat := (h.consumers c).bind fun consumer => consumer.pel.lookup id

def Heap.nameOf (h : Heap N) (c : Nat) : Option N := (h.consumers c).map StreamConsumer.name

def Heap.Fresh (h : Heap N) : Prop := ∀ a, h.next ≤ a → h.nacks a = none ∧ h.consumers a = none

variable [DecidableEq N]

structure Agree (cg : StreamCG N) (h : Heap N) : Prop where
  record : ∀ id n, cg.pel.lookup id = some n → ∃ name c nack, cg.consumers.lookup name = some c ∧ h.pelOf c id = some n ∧
    h.nacks n = some nack ∧ nack.consumer = some c
  held : ∀ name c id n, cg.consumers.lookup name = some c → h.pelOf c id = some n →
    cg.pel.lookup id = some n ∧ ∃ nack, h.nacks n = some nack ∧ nack.consumer = some c
  named : ∀ name c, cg.consumers.lookup name = some c → h.nameOf c = some name
  distinct : ∀ id id' n, cg.pel.lookup id = some n → cg.pel.lookup id' = some n → id = id'
  below : ∀ id n, cg.pel.lookup id = some n → n < h.next
  belowConsumers : ∀ name c, cg.consumers.lookup name = some c → c < h.next

/-- A group and the heap before and after a change that belongs to this group alone. -/
structure Evolves (cg : StreamCG N) (h : Heap N) (cg' : StreamCG N) (h' : Heap N) : Prop where
  agree : Agree cg' h'
  fresh : h'.Fresh
  next : h.next ≤ h'.next
  ownNacks : ∀ id n, cg'.pel.lookup id = some n → (∃ id', cg.pel.lookup id' = some n) ∨ h.next ≤ n
  ownConsumers : ∀ name c, cg'.consumers.lookup name = some c → (∃ name', cg.consumers.lookup name' = some c) ∨ h.next ≤ c
  frameNacks : ∀ n < h.next, (∀ id, cg.pel.lookup id ≠ some n) → h'.nacks n = h.nacks n
  frameConsumers : ∀ c < h.next, (∀ name, cg.consumers.lookup name ≠ some c) → h'.consumers c = h.consumers c

structure Seated (cg : StreamCG N) (h : Heap N) (name : N) (c : Nat) : Prop where
  agree : Agree cg h
  fresh : h.Fresh
  member : cg.consumers.lookup name = some c

variable {cg cg' cg'' : StreamCG N} {h h' h'' : Heap N}

theorem Evolves.refl (agree : Agree cg h) (fresh : h.Fresh) : Evolves cg h cg h :=
  ⟨agree,fresh,le_refl _,fun id _ found => .inl ⟨id,found⟩,fun name _ found => .inl ⟨name,found⟩,fun _ _ _ => rfl,fun _ _ _ => rfl⟩

theorem Evolves.trans (first : Evolves cg h cg' h') (second : Evolves cg' h' cg'' h'') : Evolves cg h cg'' h'' := by
  refine ⟨second.agree,second.fresh,first.next.trans second.next,?_,?_,?_,?_⟩
  · intro id n found
    rcases second.ownNacks id n found with ⟨id',before⟩ | above
    · exact first.ownNacks id' n before
    · exact .inr (first.next.trans above)
  · intro name c found
    rcases second.ownConsumers name c found with ⟨name',before⟩ | above
    · exact first.ownConsumers name' c before
    · exact .inr (first.next.trans above)
  · intro n bound foreign
    rw [second.frameNacks n (bound.trans_le first.next),first.frameNacks n bound foreign]
    intro id found
    rcases first.ownNacks id n found with ⟨id',before⟩ | above
    · exact foreign id' before
    · exact absurd bound (not_lt.mpr above)
  · intro c bound foreign
    rw [second.frameConsumers c (bound.trans_le first.next),first.frameConsumers c bound foreign]
    intro name found
    rcases first.ownConsumers name c found with ⟨name',before⟩ | above
    · exact foreign name' before
    · exact absurd bound (not_lt.mpr above)

variable {c : Nat} {name : N}

theorem Agree.names (agree : Agree cg h) {name' : N} (first : cg.consumers.lookup name = some c)
    (second : cg.consumers.lookup name' = some c) : name = name' :=
  Option.some.inj ((agree.named name c first).symm.trans (agree.named name' c second))

theorem Agree.exists_consumer (agree : Agree cg h) (member : cg.consumers.lookup name = some c) :
    ∃ consumer, h.consumers c = some consumer ∧ consumer.name = name := by
  have named := agree.named name c member
  exact map_eq_some_iff.mp named

variable {id : StreamID} {n : Nat}

section
variable (agree : Agree cg h) (member : cg.consumers.lookup name = some c)
include agree member

theorem Agree.owner {name' : N} {c' n' : Nat} (holds : h.pelOf c id = some n)
    (member' : cg.consumers.lookup name' = some c') (holds' : h.pelOf c' id = some n') : c = c' ∧ n = n' := by
  obtain ⟨found,nack,record,back⟩ := agree.held name c id n member holds
  obtain ⟨found',nack',record',back'⟩ := agree.held name' c' id n' member' holds'
  obtain rfl : n = n' := Option.some.inj (found.symm.trans found')
  obtain rfl : nack = nack' := Option.some.inj (record.symm.trans record')
  exact ⟨Option.some.inj (back.symm.trans back'),rfl⟩

theorem Agree.absent
    (absent : cg.pel.lookup id = none) : h.pelOf c id = none := by
  cases holds : h.pelOf c id with
  | none => rfl
  | some n =>
    have found := (agree.held name c id n member holds).1
    rw [absent] at found
    cases found

/-- The records of one ID change: it gets the record `value` in the lists of the group and of the consumer `c`, or loses it. -/
theorem evolves_put (value : Option Nat)
    (record : ∀ n, value = some n → (cg.pel.lookup id = some n ∨ h.next ≤ n) ∧ n < h'.next ∧
      ∃ nack, h'.nacks n = some nack ∧ nack.consumer = some c)
    (pel : ∀ id', cg'.pel.lookup id' = if id' = id then value else cg.pel.lookup id')
    (consumers : cg'.consumers = cg.consumers)
    (names : ∀ a, h'.nameOf a = h.nameOf a)
    (views : ∀ name a, cg.consumers.lookup name = some a → ∀ id',
      h'.pelOf a id' = if id' = id then if a = c then value else none else h.pelOf a id')
    (others : ∀ a, value ≠ some a → cg.pel.lookup id ≠ some a → h'.nacks a = h.nacks a)
    (frame : ∀ a, (∀ name, cg.consumers.lookup name ≠ some a) → h'.consumers a = h.consumers a)
    (next : h.next ≤ h'.next) (fresh : h'.Fresh) : Evolves cg h cg' h' := by
  -- another ID has another record
  have apart : ∀ id' n, id' ≠ id → cg.pel.lookup id' = some n → value ≠ some n ∧ cg.pel.lookup id ≠ some n := by
    intro id' n other found
    have differ : cg.pel.lookup id ≠ some n := fun same => other (agree.distinct id' id n found same)
    refine ⟨fun same => ?_,differ⟩
    rcases (record n same).1 with before | above
    · exact differ before
    · exact absurd (agree.below id' n found) (not_lt.mpr above)
  have cases_pel : ∀ id' n, cg'.pel.lookup id' = some n → id' = id ∧ value = some n ∨ id' ≠ id ∧ cg.pel.lookup id' = some n := by
    intro id' n found
    rw [pel] at found
    by_cases same : id' = id
    · exact .inl ⟨same,by rwa [if_pos same] at found⟩
    · exact .inr ⟨same,by rwa [if_neg same] at found⟩
  refine ⟨⟨?_,?_,?_,?_,?_,?_⟩,fresh,next,?_,?_,?_,fun c' _ foreign => frame c' foreign⟩
  · intro id' n found
    rw [consumers]
    rcases cases_pel id' n found with ⟨rfl,same⟩ | ⟨other,before⟩
    · obtain ⟨-,-,nack,stored,back⟩ := record n same
      exact ⟨name,c,nack,member,by rw [views name c member,if_pos rfl,if_pos rfl,same],stored,back⟩
    · obtain ⟨name',c',nack,member',holds,stored,back⟩ := agree.record id' n before
      obtain ⟨new,old⟩ := apart id' n other before
      exact ⟨name',c',nack,member',by rw [views name' c' member',if_neg other,holds],by rw [others n new old,stored],back⟩
  · intro name' c' id' n member' holds
    rw [consumers] at member'
    rw [views name' c' member'] at holds
    rw [pel]
    by_cases same : id' = id
    · rw [if_pos same] at holds ⊢
      by_cases mine : c' = c
      · rw [if_pos mine] at holds
        exact ⟨holds,mine ▸ (record n holds).2.2⟩
      · rw [if_neg mine] at holds
        cases holds
    · rw [if_neg same] at holds ⊢
      obtain ⟨found,nack,stored,back⟩ := agree.held name' c' id' n member' holds
      obtain ⟨new,old⟩ := apart id' n same found
      exact ⟨found,nack,(others n new old).trans stored,back⟩
  · intro name' c' member'
    rw [consumers] at member'
    rw [names]
    exact agree.named name' c' member'
  · intro id1 id2 n first second
    rcases cases_pel id1 n first with ⟨one,same⟩ | ⟨one,before⟩
    · rcases cases_pel id2 n second with ⟨two,_⟩ | ⟨two,after⟩
      · rw [one,two]
      · exact absurd same (apart id2 n two after).1
    · rcases cases_pel id2 n second with ⟨_,same⟩ | ⟨_,after⟩
      · exact absurd same (apart id1 n one before).1
      · exact agree.distinct id1 id2 n before after
  · intro id' n found
    rcases cases_pel id' n found with ⟨_,same⟩ | ⟨_,before⟩
    · exact (record n same).2.1
    · exact (agree.below id' n before).trans_le next
  · intro name' c' member'
    rw [consumers] at member'
    exact (agree.belowConsumers name' c' member').trans_le next
  · intro id' n found
    rcases cases_pel id' n found with ⟨_,same⟩ | ⟨_,before⟩
    · exact (record n same).1.imp_left fun before => ⟨id,before⟩
    · exact .inl ⟨id',before⟩
  · intro name' c' member'
    rw [consumers] at member'
    exact .inl ⟨name',member'⟩
  · intro n bound foreign
    apply others n _ (foreign id)
    intro same
    rcases (record n same).1 with before | above
    · exact foreign id before
    · exact absurd bound (not_lt.mpr above)

end

theorem evolves_touch (agree : Agree cg h) (pel : cg'.pel = cg.pel) (consumers : cg'.consumers = cg.consumers)
    (nacks : h'.nacks = h.nacks) (names : ∀ a, h'.nameOf a = h.nameOf a) (views : ∀ a id, h'.pelOf a id = h.pelOf a id)
    (frame : ∀ a, (∀ name, cg.consumers.lookup name ≠ some a) → h'.consumers a = h.consumers a)
    (next : h'.next = h.next) (fresh : h'.Fresh) : Evolves cg h cg' h' := by
  refine ⟨⟨?_,?_,?_,?_,?_,?_⟩,fresh,next.ge,?_,?_,fun n _ _ => by rw [nacks],fun c _ foreign => frame c foreign⟩
  · rw [pel,consumers,nacks]
    simp only [views]
    exact agree.record
  · rw [pel,consumers,nacks]
    simp only [views]
    exact agree.held
  · rw [consumers]
    simp only [names]
    exact agree.named
  · rw [pel]
    exact agree.distinct
  · rw [pel,next]
    exact agree.below
  · rw [consumers,next]
    exact agree.belowConsumers
  · rw [pel]
    exact fun id n found => .inl ⟨id,found⟩
  · rw [consumers]
    exact fun name c found => .inl ⟨name,found⟩

/-! ## The operations of the heap -/

omit [DecidableEq N] in
theorem pelOf_setConsumer (c a : Nat) (consumer : StreamConsumer N) (id : StreamID) (h : Heap N) :
    (h.setConsumer c (some consumer)).pelOf a id = if a = c then consumer.pel.lookup id else h.pelOf a id := by
  unfold pelOf setConsumer
  by_cases same : a = c
  · simp [same]
  · simp [same]

omit [DecidableEq N] in
theorem nameOf_setConsumer (c a : Nat) (consumer : StreamConsumer N) (h : Heap N) :
    (h.setConsumer c (some consumer)).nameOf a = if a = c then some consumer.name else h.nameOf a := by
  unfold nameOf setConsumer
  by_cases same : a = c
  · simp [same]
  · simp [same]

/-- A consumer whose record was replaced by one of the same name, with the list given. -/
structure Rewritten (c : Nat) (pel : StreamID → Option Nat) (h h' : Heap N) : Prop where
  nacks : h'.nacks = h.nacks
  next : h'.next = h.next
  names : ∀ a, h'.nameOf a = h.nameOf a
  pelOf : ∀ a id, h'.pelOf a id = if a = c then pel id else h.pelOf a id
  others : ∀ a, a ≠ c → h'.consumers a = h.consumers a
  exists_iff : ∀ a, (h'.consumers a).isSome = (h.consumers a).isSome

section
omit [DecidableEq N]

theorem rewritten_updateConsumer {consumer : StreamConsumer N} (stored : h.consumers c = some consumer)
    (f : StreamConsumer N → StreamConsumer N) (name : (f consumer).name = consumer.name) :
    ∃ h', h.updateConsumer c f = some h' ∧ Rewritten c (fun id => (f consumer).pel.lookup id) h h' := by
  refine ⟨h.setConsumer c (some (f consumer)),by rw [updateConsumer,stored]; rfl,rfl,rfl,?_,?_,?_,?_⟩
  · intro a
    rw [nameOf_setConsumer]
    by_cases same : a = c
    · rw [if_pos same,same,nameOf,stored,map_some,name]
    · rw [if_neg same]
  · exact fun a id => pelOf_setConsumer c a _ id h
  · exact fun a other => update_of_ne other _ _
  · intro a
    by_cases same : a = c
    · subst same
      simp [setConsumer,stored]
    · simp [setConsumer,same]

theorem Rewritten.fresh {pel : StreamID → Option Nat} (rewritten : Rewritten c pel h h') (fresh : h.Fresh) :
    h'.Fresh := by
  intro a above
  rw [rewritten.next] at above
  obtain ⟨none,gone⟩ := fresh a above
  refine ⟨by rw [rewritten.nacks,none],?_⟩
  have same := rewritten.exists_iff a
  rw [gone] at same
  exact isSome_eq_false_iff.mp same |> isNone_iff_eq_none.mp

theorem fresh_setNack {nack : Option StreamNACK} (fresh : h.Fresh) (bound : n < h.next) : (h.setNack n nack).Fresh := by
  intro a above
  have other : a ≠ n := fun same => absurd bound (not_lt.mpr (same ▸ above))
  exact ⟨(update_of_ne other _ _).trans (fresh a above).1,(fresh a above).2⟩

theorem fresh_streamCreateNACK (now : Int) (consumer : Option Nat) (fresh : h.Fresh) :
    (streamCreateNACK now consumer h).Fresh := by
  intro a above
  have bound : h.next < a := above
  have other : a ≠ h.next := ne_of_gt bound
  exact ⟨(update_of_ne other _ _).trans (fresh a bound.le).1,(fresh a bound.le).2⟩

end

end ValkeyWasm.Streams
