import ValkeyWasm.Blocked.Commands
import ValkeyWasm.Library.Dictionary

/-! Blocking a client: the lists it joins, and the blocking commands. -/

namespace ValkeyWasm.Blocked
open Function List Option

open Library.Dictionary

variable {C K E : Type} {dbnum : Nat}

def Covered (s : Server C K E dbnum) : Prop := ∀ c db key, Servable s c db key → s.dbReadyKeys db key = true

structure SameKeys (s t : Server C K E dbnum) : Prop where
  now : t.now = s.now
  keys : t.keys = s.keys
  dbReadyKeys : t.dbReadyKeys = s.dbReadyKeys
  readyKeys : t.readyKeys = s.readyKeys

theorem SameKeys.refl (s : Server C K E dbnum) : SameKeys s s := ⟨rfl,rfl,rfl,rfl⟩

variable {s t : Server C K E dbnum} {u : Server C K E dbnum}

theorem SameKeys.trans (first : SameKeys s t) (second : SameKeys t u) : SameKeys s u :=
  ⟨second.now.trans first.now,second.keys.trans first.keys,second.dbReadyKeys.trans first.dbReadyKeys,
    second.readyKeys.trans first.readyKeys⟩

theorem SameKeys.visible (same : SameKeys s t) (db : Fin dbnum) (key : K) :
    Blocked.visible t db key = Blocked.visible s db key := visible_congr same.now (by rw [same.keys])

theorem SameKeys.queued (same : SameKeys s t) {pending : List (Fin dbnum × K)}
    (queued : Queued pending s) : Queued pending t := queued.congr same.dbReadyKeys same.readyKeys

variable {c : C}

theorem SameKeys.servable (same : SameKeys s t) (client : t.clients c = s.clients c)
    {db : Fin dbnum} {key : K} (servable : Servable t c db key) : Servable s c db key := by
  unfold Servable at servable ⊢
  rwa [client,same.visible] at servable

structure Issued [DecidableEq K] (c : C) (s t : Server C K E dbnum) : Prop where
  waits : Waits t
  others : ∀ c', c' ≠ c → t.clients c' = s.clients c'
  ready : ∀ db key, s.dbReadyKeys db key = true → t.dbReadyKeys db key = true
  servable : ∀ c' db key, Servable t c' db key → Servable s c' db key ∨ t.dbReadyKeys db key = true
  queued : ∀ pending, Queued pending s → Queued pending t

theorem Quiet.issued [DecidableEq K] (quiet : Quiet s t) (waits : Waits s) (c : C) : Issued c s t :=
  ⟨quiet.waits waits,fun c' _ => by rw [quiet.clients],quiet.ready,quiet.servable,quiet.queued⟩

theorem Issued.covered [DecidableEq K] (issued : Issued c s t) (covered : Covered s) :
    Covered t := by
  intro c' db key servable
  rcases issued.servable c' db key servable with before | ready
  · exact issued.ready db key (covered c' db key before)
  · exact ready

variable [DecidableEq C]

theorem setClient_clients (c c' : C) (client : Client K dbnum) (s : Server C K E dbnum) :
    (s.setClient c client).clients c' = if c' = c then client else s.clients c' := by
  simp only [Server.setClient,update_apply]

variable [DecidableEq K]

omit [DecidableEq C] in
theorem setWaiting_waiting (db db' : Fin dbnum) (key key' : K) (l : List C) (s : Server C K E dbnum) :
    (s.setWaiting db key l).waiting db' key' = if db' = db ∧ key' = key then l else s.waiting db' key' := by
  unfold Server.waiting Server.setWaiting
  rw [lookup_file]
  split
  · by_cases empty : l = [] <;> simp [empty]
  · rfl

/-! ## Blocking -/

structure Joined (c : C) (l : List K) (s t : Server C K E dbnum) : Prop where
  same : SameKeys s t
  counts : t.blockedClientsByType = s.blockedClientsByType
  client : t.clients c = { s.clients c with keys := l }
  others : ∀ c', c' ≠ c → t.clients c' = s.clients c'
  waiting : ∀ db key, t.waiting db key =
    if db = (s.clients c).db ∧ key ∈ l then s.waiting db key ++ [c] else s.waiting db key
  nodup : l.Nodup

theorem Joined.blockForKey {l : List K} (joined : Joined c l s t) (key : K) :
    Joined c (if key ∈ l then l else l ++ [key]) s (blockForKey c false t key) := by
  have keys : (t.clients c).keys = l := by rw [joined.client]
  have db : (t.clients c).db = (s.clients c).db := by rw [joined.client]
  unfold Blocked.blockForKey
  dsimp only
  rw [keys]
  by_cases already : key ∈ l
  · rw [if_pos already,if_pos already]
    exact joined
  rw [if_neg already,if_neg already]
  refine ⟨⟨joined.same.now,joined.same.keys,joined.same.dbReadyKeys,joined.same.readyKeys⟩,joined.counts,?_,?_,?_,?_⟩
  · change (Server.setClient c _ _).clients c = _
    rw [setClient_clients,if_pos rfl,joined.client]
  · intro c' other
    rw [setClient_clients,if_neg other]
    exact joined.others c' other
  · intro db' key'
    change (Server.setWaiting _ key _ t).waiting db' key' = _
    rw [setWaiting_waiting,db,joined.waiting,joined.waiting]
    by_cases here : db' = (s.clients c).db
    · by_cases same : key' = key
      · subst same
        simp [here,already]
      · simp [here,same]
    · simp [here]
  · exact nodup_append.mpr ⟨joined.nodup,nodup_singleton key,by
      intro a member b single same
      rw [mem_singleton] at single
      exact already (single ▸ same ▸ member)⟩

theorem joined_blockForKeys (keys : List K) : ∀ (l : List K) (t : Server C K E dbnum),
    Joined c l s t → ∃ l', Joined c l' s (keys.foldl (blockForKey c false) t) ∧ ∀ key, key ∈ l' ↔ key ∈ l ∨ key ∈ keys := by
  induction keys with
  | nil => exact fun l t joined => ⟨l,joined,by simp⟩
  | cons key rest ih =>
    intro l t joined
    obtain ⟨l',joined',members⟩ := ih _ _ (joined.blockForKey key)
    refine ⟨l',joined',fun k => ?_⟩
    rw [members,mem_cons]
    by_cases already : key ∈ l
    · rw [if_pos already]
      constructor
      · tauto
      rintro (before | rfl | after)
      · exact .inl before
      · exact .inl already
      · exact .inr after
    · rw [if_neg already,mem_append,mem_singleton]
      tauto

theorem counted_insert (waits : Waits s) (idle : (s.clients c).btype = none)
    (btype b : BlockedType) {clients : C → Client K dbnum} (mine : (clients c).btype = some btype)
    (others : ∀ c', c' ≠ c → (clients c').btype = (s.clients c').btype) :
    ∃ l : List C, l.Nodup ∧ (∀ c', c' ∈ l ↔ (clients c').btype = some b) ∧
      update s.blockedClientsByType btype (s.blockedClientsByType btype + 1) b = l.length := by
  obtain ⟨l,nodup,members,length⟩ := waits.counted b
  have outside : c ∉ l := by
    rw [members,idle]
    exact nofun
  by_cases same : b = btype
  · subst same
    refine ⟨c :: l,nodup_cons.mpr ⟨outside,nodup⟩,fun c' => ?_,by simp [length]⟩
    by_cases here : c' = c
    · subst here
      simp [mine]
    · simp [here,members,others c' here]
  · refine ⟨l,nodup,fun c' => ?_,by rw [update_of_ne same,length]⟩
    by_cases here : c' = c
    · subst here
      simp only [outside,mine,some.injEq,false_iff]
      exact fun equal => same equal.symm
    · rw [members,others c' here]

def enrolled (command : BlockingCommand K) (l : List K) (client : Client K dbnum) : Client K dbnum :=
  { client with btype := some command.btype, keys := l, unblockOnNokey := false, command := some command }

variable {command : BlockingCommand K}

section
variable (waits : Waits s) (idle : (s.clients c).btype = none) (absent : ∀ key ∈ command.keys, visible s (s.clients c).db key = none)
include waits idle absent

theorem issued_enrolled
    {l : List K} (distinct : l.Nodup) (members : ∀ key ∈ l, key ∈ command.keys) (same : SameKeys s u)
    (counts : u.blockedClientsByType =
      update s.blockedClientsByType command.btype (s.blockedClientsByType command.btype + 1))
    (mine : u.clients c = enrolled command l (s.clients c)) (others : ∀ c', c' ≠ c → u.clients c' = s.clients c')
    (waiting : ∀ db key, u.waiting db key =
      if db = (s.clients c).db ∧ key ∈ l then s.waiting db key ++ [c] else s.waiting db key) : Issued c s u := by
  have outside : ∀ db key, c ∉ s.waiting db key := by
    intro db key member
    rw [waits.waiting,waits.idle c idle] at member
    cases member.2
  refine ⟨?_,others,?_,?_,fun pending => same.queued⟩
  · refine waits.change c others (fun db key c' other => ?_) (fun db key => ?_) (fun db key => ?_) ?_ fun b => ?_
    · rw [waiting]
      split
      · simp [other]
      · rfl
    · rw [waiting,mine]
      split
      · rename_i place
        simp [place.1,place.2,enrolled]
      rename_i place
      simp only [outside,false_iff]
      rintro ⟨rfl,inside⟩
      exact place ⟨rfl,inside⟩
    · rw [waiting]
      split
      · refine nodup_append.mpr ⟨waits.nodup db key,nodup_singleton c,?_⟩
        intro a member b single equal
        rw [mem_singleton] at single
        exact outside db key (single ▸ equal ▸ member)
      · exact waits.nodup db key
    · rw [mine]
      exact ⟨distinct,fun none_ => absurd none_ (Option.some_ne_none _),rfl,fun b blocked => ⟨command,rfl,Option.some.inj blocked,members⟩⟩
    · rw [counts]
      exact counted_insert waits idle command.btype b (by rw [mine,enrolled]) fun c' other => by rw [others c' other]
  · intro db key ready
    rw [same.dbReadyKeys]
    exact ready
  · intro c' db key servable
    by_cases here : c' = c
    · subst here
      obtain ⟨place,member,entry,sees,-⟩ := servable
      rw [mine] at place member
      have gone := absent key (members key member)
      rw [same.visible,← place,enrolled,gone] at sees
      cases sees
    · exact .inl (same.servable (others c' here) servable)

theorem issued_blockForKeys :
    Issued c s (blockForKeys c command.btype command.keys false command s) := by
  have start : Joined c [] s s := by
    refine ⟨.refl s,rfl,?_,fun _ _ => rfl,by simp,nodup_nil⟩
    rw [← waits.idle c idle]
  obtain ⟨l,joined,members⟩ := joined_blockForKeys command.keys [] s start
  unfold blockForKeys
  generalize command.keys.foldl (blockForKey c false) s = t at joined ⊢
  apply issued_enrolled waits idle absent joined.nodup
  · exact fun key inside => ((members key).mp inside).resolve_left not_mem_nil
  · exact ⟨joined.same.now,joined.same.keys,joined.same.dbReadyKeys,joined.same.readyKeys⟩
  · rw [← joined.counts]
  · refine (setClient_clients c c _ t).trans ?_
    rw [if_pos rfl,joined.client]
    rfl
  · intro c' other
    refine (setClient_clients c c' _ t).trans ?_
    rw [if_neg other]
    exact joined.others c' other
  · exact joined.waiting

end

omit [DecidableEq C] in
theorem popFirst_spec (want : ObjType) (db : Fin dbnum) (side : ListEnd) (count : Nat) (keys : List K) :
    ∀ s : Server C K E dbnum, ∃ served t, popFirst want db side count keys s = (served,t) ∧ Quiet s t ∧
      (served = false → ∀ key, visible t db key = visible s db key) ∧
      (served = false → ∀ key ∈ keys, visible s db key = none) := by
  induction keys with
  | nil => exact fun s => ⟨false,s,rfl,.refl s,fun _ _ => rfl,by simp⟩
  | cons key rest ih =>
    intro s
    obtain ⟨found,t,run,look⟩ := lookupKey_cases db key s
    unfold popFirst
    simp only [run]
    cases found with
    | none =>
      obtain ⟨served,u,run',quiet,same,absent⟩ := ih t
      refine ⟨served,u,run',look.quiet.trans quiet,fun no k => (same no k).trans (look.visible db k),fun no k member => ?_⟩
      rcases mem_cons.mp member with rfl | member
      · exact look.sees.symm
      · exact (look.visible db k).symm.trans (absent no k member)
    | some entry =>
      dsimp only
      split
      · exact ⟨true,_,rfl,look.quiet.trans (quiet_updateValue look.visible_eq fun v changed => change_type changed),
          by simp,by simp⟩
      · exact ⟨true,t,rfl,look.quiet,by simp,by simp⟩

/-- A blocking command run by a client that waits for nothing: it is quiet, or the keys of the command are absent and
the client starts to wait. -/
theorem runBlocking_cases (waits : Waits s) (idle : (s.clients c).btype = none)
    (command : BlockingCommand K) (denyBlocking : Bool) :
    Quiet s (runBlocking c command denyBlocking s) ∨ denyBlocking = false ∧
      (∀ key ∈ command.keys, visible s (s.clients c).db key = none) ∧ Issued c s (runBlocking c command denyBlocking s) := by
  have blocks : ∀ t, Quiet s t → (∀ key ∈ command.keys, visible s (s.clients c).db key = none) →
      (∀ key, visible t (s.clients c).db key = visible s (s.clients c).db key) →
      Issued c s (blockForKeys c command.btype command.keys false command t) := by
    intro t quiet absent same
    have waits' := quiet.waits waits
    have idle' : (t.clients c).btype = none := by rw [quiet.clients,idle]
    have absent' : ∀ key ∈ command.keys, visible t (t.clients c).db key = none := by
      intro key member
      rw [quiet.clients,same]
      exact absent key member
    have issued := issued_blockForKeys waits' idle' absent'
    refine ⟨issued.waits,?_,fun db key ready => issued.ready db key (quiet.ready db key ready),?_,
      fun pending before => issued.queued pending (quiet.queued pending before)⟩
    · intro c' other
      rw [issued.others c' other,quiet.clients]
    intro c' db key servable
    rcases issued.servable c' db key servable with before | ready
    · exact (quiet.servable c' db key before).imp_right (issued.ready db key)
    · exact .inr ready
  have pops : ∀ want side count u, blockingPop want command.btype c command.keys side count denyBlocking command s = u →
      Quiet s u ∨ denyBlocking = false ∧ (∀ key ∈ command.keys, visible s (s.clients c).db key = none) ∧ Issued c s u := by
    rintro want side count _ rfl
    obtain ⟨served,t,run,quiet,same,absent⟩ := popFirst_spec want (s.clients c).db side count command.keys s
    simp only [blockingPop,run]
    cases served with
    | true => exact .inl quiet
    | false =>
      cases denyBlocking with
      | true => exact .inl quiet
      | false => exact .inr ⟨rfl,absent rfl,blocks t quiet (absent rfl) (same rfl)⟩
  cases command with
  | pop keys side count => exact pops .list side count _ rfl
  | zpop keys side count => exact pops .zset side count _ rfl
  | move src dst wherefrom whereto =>
    obtain ⟨found,t,run,look⟩ := lookupKey_cases (s.clients c).db src s
    simp only [runBlocking,blmoveGenericCommand,run]
    cases found with
    | none =>
      cases denyBlocking with
      | true => exact .inl look.quiet
      | false =>
        have absent : ∀ key ∈ (BlockingCommand.move src dst wherefrom whereto).keys, visible s (s.clients c).db key = none := by
          intro key member
          rw [mem_singleton.mp member]
          exact look.sees.symm
        exact .inr ⟨rfl,absent,blocks t look.quiet absent (look.visible _)⟩
    | some entry =>
      left
      dsimp only
      split
      · exact look.quiet.trans (quiet_lmoveGenericCommand (look.quiet.waits waits) _ src dst wherefrom whereto)
      · exact look.quiet

end ValkeyWasm.Blocked
