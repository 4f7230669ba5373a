import ValkeyWasm.Blocked.Serving

/-! Runs of client commands: when the ready keys have been worked off, no client waits for a key that can serve it. -/

namespace ValkeyWasm.Blocked
open List Option Bool

variable {C K E : Type} {dbnum : Nat} [DecidableEq C] [DecidableEq K]

/-- The command stores a list or a sorted set in the place of a key that exists and for which a client waits with
that type. `dbSetValue` signals the deletion of the old value and not the new one. -/
def overtakes (c : C) (command : Command K E dbnum) (s : Server C K E dbnum) : Bool :=
  match command with
  | .store sources dst result => storeOvertakes (s.clients c).db sources dst result s
  | _ => false

def execSpares (c : C) : List (Command K E dbnum) → Server C K E dbnum → Bool
  | [],_ => true
  | command :: rest,s => !overtakes c command s && execSpares c rest (call c command true s)

def stepSpares (s : Server C K E dbnum) : Step C K E dbnum → Bool
  | .command c command => (s.clients c).btype.isSome || !overtakes c command s
  | .exec c commands => (s.clients c).btype.isSome || execSpares c commands s
  | _ => true

def scriptSpares [NeZero dbnum] : List (Step C K E dbnum) → Server C K E dbnum → Bool
  | [],_ => true
  | step :: rest,s => stepSpares s step && (perform s step).all (scriptSpares rest)

/-- No client waits as one of a list for a key that holds a list, or as one of a sorted set for one that holds it. -/
def NoneWaits (s : Server C K E dbnum) : Prop :=
  ∀ c, ∀ key ∈ (s.clients c).keys, ∀ entry, visible s (s.clients c).db key = some entry →
    ¬((s.clients c).btype = some .list ∧ entry.value.type = .list) ∧
      ¬((s.clients c).btype = some .zset ∧ entry.value.type = .zset)

structure Settled (s : Server C K E dbnum) : Prop where
  waits : Waits s
  queued : Queued [] s
  readyKeys : s.readyKeys = []
  served : ∀ c db key, ¬Servable s c db key

variable {s : Server C K E dbnum}

omit [DecidableEq C] in
theorem Settled.noneWaits (settled : Settled s) : NoneWaits s := by
  intro c key member entry sees
  constructor
  · rintro ⟨blocked,type⟩
    exact settled.served c _ key ⟨rfl,member,entry,sees,by rw [blocked,type]; rfl⟩
  · rintro ⟨blocked,type⟩
    exact settled.served c _ key ⟨rfl,member,entry,sees,by rw [blocked,type]; rfl⟩

omit [DecidableEq C] in
theorem Settled.covered (settled : Settled s) : Covered s :=
  fun c db key servable => absurd servable (settled.served c db key)

omit [DecidableEq C] in
theorem settled_initial [NeZero dbnum] (now : Int) : Settled (Server.initial now : Server C K E dbnum) := by
  refine ⟨⟨?_,fun _ _ => nodup_nil,fun _ => nodup_nil,fun _ _ => rfl,fun _ => ⟨[],nodup_nil,?_,rfl⟩,
    fun _ => rfl,nofun⟩,⟨fun _ _ => ?_,nodup_nil⟩,rfl,?_⟩
  · intro db key c
    exact ⟨nofun,fun ⟨_,member⟩ => (by cases member)⟩
  · intro c
    exact ⟨nofun,nofun⟩
  · exact ⟨nofun,nofun⟩
  · rintro c db key ⟨-,member,-⟩
    cases member

omit [DecidableEq K] in
theorem servable_setClient {c : C} {client : Client K dbnum} (keys : client.keys = []) {c' : C}
    {db : Fin dbnum} {key : K} (servable : Servable (s.setClient c client) c' db key) : Servable s c' db key := by
  by_cases here : c' = c
  · obtain ⟨-,member,-⟩ := servable
    rw [here,setClient_clients,if_pos rfl,keys] at member
    cases member
  · have same : SameKeys s (s.setClient c client) := ⟨rfl,rfl,rfl,rfl⟩
    exact same.servable (by rw [setClient_clients,if_neg here]) servable

theorem call_issued (waits : Waits s) {c : C} (idle : (s.clients c).btype = none)
    {command : Command K E dbnum} (spared : overtakes c command s = false) (denyBlocking : Bool) :
    Issued c s (call c command denyBlocking s) ∧
      (denyBlocking = true → ((call c command denyBlocking s).clients c).btype = none) := by
  have quietly : ∀ t, Quiet s t → Issued c s t ∧ (denyBlocking = true → (t.clients c).btype = none) :=
    fun t quiet => ⟨quiet.issued waits c,fun _ => by rw [quiet.clients,idle]⟩
  cases command with
  | push key elements side xx => exact quietly _ (quiet_pushGenericCommand waits _ key elements side xx)
  | zadd key add => exact quietly _ (quiet_zaddGenericCommand waits _ key add)
  | set key nx xx keepttl expire => exact quietly _ (quiet_setGenericCommand waits _ key nx xx keepttl expire)
  | del keys => exact quietly _ (quiet_delGenericCommand _ keys s)
  | remove key keep => exact quietly _ (quiet_removeElements _ key keep s)
  | lmove src dst wherefrom whereto => exact quietly _ (quiet_lmoveGenericCommand waits _ src dst wherefrom whereto)
  | rename src dst nx => exact quietly _ (quiet_renameGenericCommand waits _ src dst nx)
  | move key dst => exact quietly _ (quiet_moveCommand waits _ dst key)
  | copy src dst target replace => exact quietly _ (quiet_copyCommand waits _ target src dst replace)
  | restore key payload ttl absttl replace => exact quietly _ (quiet_restoreCommand waits _ key payload ttl absttl replace)
  | store sources dst result => exact quietly _ (quiet_storeCommand waits spared)
  | swapdb id1 id2 order => exact quietly _ (quiet_dbSwapDatabases waits id1 id2 order)
  | select target =>
    have keys := waits.idle c idle
    have changed : call c (.select target) denyBlocking s = s.setClient c { s.clients c with db := target } := rfl
    rw [changed]
    refine ⟨⟨waits_setClient waits idle idle keys (waits.nokey c),fun c' other => ?_,fun _ _ => id,
      fun c' db key servable => .inl (servable_setClient (by exact keys) servable),fun _ queued => queued.congr rfl rfl⟩,fun _ => ?_⟩
    · rw [setClient_clients,if_neg other]
    · rw [setClient_clients,if_pos rfl]
      exact idle
  | blocking command =>
    rcases runBlocking_cases waits idle command denyBlocking with quiet | ⟨deny,-,issued⟩
    · exact quietly _ quiet
    · refine ⟨issued,fun same => ?_⟩
      rw [deny] at same
      cases same

theorem exec_issued {c : C} {commands : List (Command K E dbnum)} : ∀ s : Server C K E dbnum, Waits s →
    (s.clients c).btype = none → execSpares c commands s = true → Covered s → Queued [] s →
    let t := commands.foldl (fun t command => call c command true t) s
    Waits t ∧ Covered t ∧ Queued [] t := by
  induction commands with
  | nil => exact fun s waits _ _ covered queued => ⟨waits,covered,queued⟩
  | cons command rest ih =>
    intro s waits idle spared covered queued
    simp only [execSpares,and_eq_true,Bool.not_eq_true'] at spared
    obtain ⟨issued,still⟩ := call_issued waits idle spared.1 true
    exact ih _ issued.waits (still rfl) spared.2 (issued.covered covered) (issued.queued [] queued)

theorem settled_handle (waits : Waits s) (covered : Covered s) (queued : Queued [] s) :
    ∃ t, handleClientsBlockedOnKeys s = some t ∧ Settled t := by
  obtain ⟨t,handled,waits',queued',empty,served⟩ := handleClientsBlockedOnKeys_serves waits covered queued
  exact ⟨t,handled,waits',queued',empty,served⟩

theorem settled_unblock (settled : Settled s) (c : C) :
    ∃ t, (if (s.clients c).btype.isSome then unblockClient c s else some s) = some t ∧ Settled t ∧
      (t.clients c).btype = none := by
  cases blocked : (s.clients c).btype with
  | none => exact ⟨s,rfl,settled,blocked⟩
  | some btype =>
    obtain ⟨t,unblock,left⟩ := left_unblockClient settled.waits blocked
    refine ⟨t,unblock,⟨left.waits settled.waits blocked,left.same.queued settled.queued,?_,?_⟩,?_⟩
    · rw [left.same.readyKeys,settled.readyKeys]
    · exact fun c' db key servable => settled.served c' db key (left.servable servable)
    · rw [left.client,discharged]

theorem perform_settled [NeZero dbnum] (settled : Settled s) {step : Step C K E dbnum}
    (spared : stepSpares s step = true) : ∃ t, perform s step = some t ∧ Settled t := by
  cases step with
  | command c command =>
    cases blocked : (s.clients c).btype with
    | some btype => exact ⟨s,by simp [perform,blocked],settled⟩
    | none =>
      simp only [perform,blocked,isSome_none,false_eq_true,if_false]
      simp only [stepSpares,blocked,isSome_none,Bool.false_or,Bool.not_eq_true'] at spared
      obtain ⟨issued,-⟩ := call_issued settled.waits blocked spared false
      exact settled_handle issued.waits (issued.covered settled.covered) (issued.queued [] settled.queued)
  | exec c commands =>
    cases blocked : (s.clients c).btype with
    | some btype => exact ⟨s,by simp [perform,blocked],settled⟩
    | none =>
      simp only [perform,blocked,isSome_none,false_eq_true,if_false]
      simp only [stepSpares,blocked,isSome_none,Bool.false_or] at spared
      obtain ⟨waits,covered,queued⟩ := exec_issued s settled.waits blocked spared settled.covered settled.queued
      exact settled_handle waits covered queued
  | timeout c =>
    obtain ⟨t,unblock,settled',-⟩ := settled_unblock settled c
    exact ⟨t,unblock,settled'⟩
  | disconnect c =>
    obtain ⟨t,unblock,settled',idle⟩ := settled_unblock settled c
    refine ⟨t.setClient c .initial,?_,?_,settled'.queued.congr rfl rfl,settled'.readyKeys,?_⟩
    · simp only [perform,unblock,map_some]
    · exact waits_setClient settled'.waits idle rfl rfl rfl
    · exact fun c' db key servable => settled'.served c' db key (servable_setClient rfl servable)
  | tick ms =>
    obtain ⟨waiting,nodup,nodup_keys,idle,counted,nokey,command⟩ := settled.waits
    refine ⟨_,rfl,⟨waiting,nodup,nodup_keys,idle,counted,nokey,command⟩,settled.queued.congr rfl rfl,settled.readyKeys,?_⟩
    rintro c db key ⟨place,member,entry,sees,type⟩
    refine settled.served c db key ⟨place,member,entry,?_,type⟩
    unfold visible at sees ⊢
    rw [filter_eq_some_iff] at sees ⊢
    refine ⟨sees.1,?_⟩
    have later := sees.2
    simp only [timestampIsExpired,Bool.not_eq_true',and_eq_false_iff,decide_eq_false_iff_not] at later ⊢
    omega

theorem run_settled [NeZero dbnum] {steps : List (Step C K E dbnum)} : ∀ s : Server C K E dbnum, Settled s →
    scriptSpares steps s = true → ∃ t, run steps s = some t ∧ Settled t := by
  induction steps with
  | nil => exact fun s settled _ => ⟨s,rfl,settled⟩
  | cons step rest ih =>
    intro s settled spared
    simp only [scriptSpares,and_eq_true] at spared
    obtain ⟨t,performed,settled'⟩ := perform_settled settled spared.1
    rw [performed,all_some] at spared
    obtain ⟨u,later,settled''⟩ := ih t settled' spared.2
    refine ⟨u,?_,settled''⟩
    unfold run at later ⊢
    rw [foldlM_cons,performed]
    exact later

theorem no_client_waits_on_servable_key [NeZero dbnum] (now : Int) (steps : List (Step C K E dbnum))
    (spared : scriptSpares steps (Server.initial now) = true) :
    ∃ t, run steps (Server.initial now) = some t ∧ t.readyKeys = [] ∧ NoneWaits t := by
  obtain ⟨t,performed,settled⟩ := run_settled _ (settled_initial now) spared
  exact ⟨t,performed,settled.readyKeys,settled.noneWaits⟩

/-- Two elements pushed for a client that waits, after the key was a string and was deleted. -/
def servedRun : List (Step Bool Unit Nat 1) :=
  [.command true (.blocking (.pop [()] .head 1)),.command false (.set () false false false none),.command false (.del [()]),
    .command false (.store [] () fun _ => some (.list ⟨[1,2],by decide⟩))]

theorem no_client_waits_on_servable_key_stored :
    ∃ t, run servedRun (Server.initial 0) = some t ∧ t.readyKeys = [] ∧ NoneWaits t :=
  no_client_waits_on_servable_key 0 servedRun (by decide +kernel)

/-- The same without the deletion: the list takes the place of the string and the client is not told. -/
def overtakenRun : List (Step Bool Unit Nat 1) :=
  [.command true (.blocking (.pop [()] .head 1)),.command false (.set () false false false none),
    .command false (.store [] () fun _ => some (.list ⟨[1,2],by decide⟩))]

theorem overtaken_client_waits :
    ∃ t, run overtakenRun (Server.initial 0) = some t ∧ t.readyKeys = [] ∧ ¬NoneWaits t := by
  have waits : (run overtakenRun (Server.initial 0)).any (fun t => decide (t.readyKeys = []) &&
      decide ((t.clients true).btype = some .list) && decide (() ∈ (t.clients true).keys) &&
        (visible t (t.clients true).db ()).any fun entry => decide (entry.value.type = .list)) = true := by decide +kernel
  obtain ⟨t,performed,facts⟩ := (Option.any_eq_true _ _).mp waits
  simp only [and_eq_true,decide_eq_true_eq,Option.any_eq_true] at facts
  obtain ⟨⟨⟨empty,blocked⟩,member⟩,entry,sees,type⟩ := facts
  exact ⟨t,performed,empty,fun none => (none true () member entry sees).1 ⟨blocked,type⟩⟩

end ValkeyWasm.Blocked
