import ValkeyWasm.Blocking.Bookkeeping

/-! Unblocking: the entries of a client are released one by one while its dictionary of keys still names them, then
the flags, the counters and the timeout table are brought up to date. -/

namespace ValkeyWasm.Blocking
open Function List Option AList
open Blocked (ObjType BlockedType getBlockedTypeByType)
open Library.Counting

variable {C K D : Type} [LinearOrder C]

namespace Server
variable {s t u : Server C K D} {c : C}

structure Unblocked (c : C) (s t : Server C K D) : Prop where
  client : t.clients c = { s.clients c with
    keys := ∅, blocked := false, btype := none, unblockOnNokey := false, inToTable := false }
  others : Others c s t
  table : t.clientsTimeoutTable = if (s.clients c).inToTable then
    s.clientsTimeoutTable.erase (toLex ((s.clients c).timeout,c)) else s.clientsTimeoutTable
  ready : SameReady s t

theorem timed_erased (timed : Timed s) (free : (t.clients c).blocked = false) (flag : (t.clients c).inToTable = false)
    (others : Others c s t)
    (table : ∀ timeout other, toLex (timeout,other) ∈ t.clientsTimeoutTable ↔
      other ≠ c ∧ toLex (timeout,other) ∈ s.clientsTimeoutTable) : Timed t := by
  apply timed.change others
  · exact fun timeout other differ => (table timeout other).trans (and_iff_right differ)
  · simp [table,free]
  · simp [free,flag]

theorem mem_erase_own (timed : Timed s) (c : C) (timeout : Nat) (other : C) :
    toLex (timeout,other) ∈ s.clientsTimeoutTable.erase (toLex ((s.clients c).timeout,c)) ↔
      other ≠ c ∧ toLex (timeout,other) ∈ s.clientsTimeoutTable := by
  rw [Finset.mem_erase]
  by_cases same : other = c
  · subst same
    constructor
    · rintro ⟨differ,member⟩
      exact absurd (by rw [((timed.table timeout other).mp member).2.1]) differ
    · exact fun both => absurd rfl both.1
  · have differ : toLex (timeout,other) ≠ toLex ((s.clients c).timeout,c) :=
      fun equal => same (congrArg (fun entry => (ofLex entry).2) equal)
    simp [same]

theorem Unblocked.timed (unblocked : Unblocked c s t) (timed : Timed s) : Timed t := by
  apply timed_erased timed (by rw [unblocked.client]) (by rw [unblocked.client]) unblocked.others
  intro timeout other
  rw [unblocked.table]
  split
  · exact mem_erase_own timed c timeout other
  rename_i unflagged
  constructor
  · intro member
    refine ⟨?_,member⟩
    rintro rfl
    have entry := (timed.table timeout other).mp member
    exact unflagged ((timed.flag other).mpr ⟨entry.1,entry.2.1 ▸ entry.2.2⟩)
  · exact fun both => both.2

theorem mem_of_firstTimeout {entry : Nat ×ₗ C} (first : s.firstTimeout = some entry) : entry ∈ s.clientsTimeoutTable :=
  (Finset.mem_sort (· ≤ ·)).mp (mem_of_mem_head? first)

theorem firstTimeout_of_empty (empty : s.clientsTimeoutTable.card = 0) : s.firstTimeout = none := by
  unfold firstTimeout
  rw [Finset.card_eq_zero.mp empty]
  simp

variable [DecidableEq K] [DecidableEq D]

theorem releaseBlockedEntry_filed {waits : C → K → Option Nat} (filed : Filed s.home waits s.flags s.dbs s.nextNode)
    {key : K} {pos : Nat} (waiting : waits c key = some pos) (removeKey : Bool) :
    ∃ dbs, releaseBlockedEntry c removeKey s key pos =
        some (s.refiled c dbs (if removeKey then (s.clients c).keys.erase key else (s.clients c).keys) s.nextNode) ∧
      (∀ d, (dbs d).readyKeys = (s.dbs d).readyKeys) ∧
      Filed s.home (revise waits c key none) s.flags dbs s.nextNode := by
  obtain ⟨db,released,ready,moved⟩ := filed.release waiting
  refine ⟨update s.dbs (s.home c) db,?_,?_,moved⟩
  · have step : (s.dbs (s.clients c).db).release key pos (s.clients c).unblockOnNokey = some db := released
    unfold releaseBlockedEntry
    rw [step]
    cases removeKey <;> simp [setDb,setClient,refiled,home]
  intro d
  by_cases at_home : d = s.home c
  · subst at_home
    rw [update_self]
    exact ready
  · rw [update_of_ne at_home]

theorem release_loop {entries : List (Sigma fun _ : K => Nat)} {waits : C → K → Option Nat}
    (nodup : (entries.map Sigma.fst).Nodup) (filed : Filed s.home waits s.flags s.dbs s.nextNode)
    (inside : ∀ entry ∈ entries, waits c entry.1 = some entry.2) :
    ∃ dbs waits', entries.foldlM (fun s entry => releaseBlockedEntry c false s entry.1 entry.2) s =
        some (s.refiled c dbs (s.clients c).keys s.nextNode) ∧
      (∀ d, (dbs d).readyKeys = (s.dbs d).readyKeys) ∧ Filed s.home waits' s.flags dbs s.nextNode ∧
      (∀ other, other ≠ c → waits' other = waits other) ∧
      ∀ key, waits' c key = if key ∈ entries.map Sigma.fst then none else waits c key := by
  induction entries generalizing s waits with
  | nil =>
    refine ⟨s.dbs,waits,?_,fun _ => rfl,filed,fun _ _ => rfl,fun key => by simp⟩
    rw [refiled_same]
    rfl
  | cons entry entries ih =>
    obtain ⟨absent,nodup⟩ := nodup_cons.mp nodup
    obtain ⟨dbs,step,ready,moved⟩ := releaseBlockedEntry_filed filed (inside entry mem_cons_self) false
    have remain : ∀ other ∈ entries, revise waits c entry.1 none c other.1 = some other.2 := by
      intro other member
      have differ : other.1 ≠ entry.1 := fun same => absent (same ▸ mem_map_of_mem member)
      rw [revise,if_neg (fun both => differ both.2)]
      exact inside other (mem_cons_of_mem _ member)
    have keys : ((s.refiled c dbs (s.clients c).keys s.nextNode).clients c).keys = (s.clients c).keys := by
      simp [refiled]
    rw [← home_refiled s c dbs (s.clients c).keys s.nextNode,
      ← flags_refiled s c dbs (s.clients c).keys s.nextNode] at moved
    obtain ⟨dbs',waits',loop,ready',filed',others,own⟩ := ih nodup moved remain
    rw [keys,refiled_refiled] at loop
    rw [home_refiled,flags_refiled] at filed'
    refine ⟨dbs',waits',?_,fun d => (ready' d).trans (ready d),filed',?_,?_⟩
    · rw [foldlM_cons,step]
      exact loop
    · intro other differ
      rw [others other differ]
      funext key
      rw [revise,if_neg (fun both => differ both.1)]
    intro key
    rw [own key]
    by_cases same : key = entry.1
    · simp [same,revise]
    · simp only [map_cons,mem_cons,same,revise,and_false,if_false,false_or]

theorem unblockClientWaitingData_filed (filed : Filed s.home s.waits s.flags s.dbs s.nextNode) (c : C) :
    ∃ dbs, s.unblockClientWaitingData c = some (s.refiled c dbs ∅ s.nextNode) ∧
      (∀ d, (dbs d).readyKeys = (s.dbs d).readyKeys) ∧
      Filed s.home (s.refiled c dbs ∅ s.nextNode).waits s.flags dbs s.nextNode := by
  have inside : ∀ entry ∈ (s.clients c).keys.entries, s.waits c entry.1 = some entry.2 :=
    fun entry member => mem_lookup_iff.mpr member
  obtain ⟨dbs,waits',loop,ready,filed',others,own⟩ :=
    release_loop (c := c) (s.clients c).keys.keys_nodup filed inside
  refine ⟨dbs,?_,ready,?_⟩
  · unfold unblockClientWaitingData
    rw [loop]
    simp [refiled,setClient]
  have emptied : (s.refiled c dbs ∅ s.nextNode).waits = waits' := by
    rw [waits_refiled,update_eq_iff]
    refine ⟨?_,fun other differ => (others other differ).symm⟩
    funext key
    rw [own key]
    split
    · rfl
    · rename_i missing
      exact (lookup_eq_none.mpr fun member => missing (mem_keys.mp member)).symm
  rw [emptied]
  exact filed'

def cleared (s : Server C K D) (c : C) (btype : BlockedType) : Server C K D :=
  { s.setClient c { s.clients c with blocked := false, btype := none, unblockOnNokey := false } with
    blockedClients := s.blockedClients - 1
    blockedClientsByType := Function.update s.blockedClientsByType btype (s.blockedClientsByType btype - 1) }

section
variable (core : Core s)
include core

theorem core_cleared {dbs : D → Database C K} {btype : BlockedType}
    (typed : (s.clients c).btype = some btype)
    (filed : Filed s.home (s.refiled c dbs ∅ s.nextNode).waits s.flags dbs s.nextNode) :
    s.blockedClients ≠ 0 ∧ s.blockedClientsByType btype ≠ 0 ∧
      Core ((s.refiled c dbs ∅ s.nextNode).cleared c btype) := by
  have blocked : (s.clients c).blocked = true := by
    rw [(core.sound c).typed,typed]
    rfl
  have others : Others c s ((s.refiled c dbs ∅ s.nextNode).cleared c btype) := (others_refiled s c dbs ∅ s.nextNode).setClient _
  have client : ((s.refiled c dbs ∅ s.nextNode).cleared c btype).clients c =
      { s.clients c with keys := ∅, blocked := false, btype := none, unblockOnNokey := false } := by
    simp [cleared,refiled]
  obtain ⟨some_typed,fewer⟩ := (core.byType btype).remove (c := c)
    (q := fun other => (((s.refiled c dbs ∅ s.nextNode).cleared c btype).clients other).btype = some btype) typed (by simp [client])
    fun c' differ => by rw [others c' differ]
  obtain ⟨some_blocked,fewer_all⟩ := core.all.remove (c := c)
    (q := fun other => (((s.refiled c dbs ∅ s.nextNode).cleared c btype).clients other).blocked = true) blocked (by simp [client])
    fun c' differ => by rw [others c' differ]
  refine ⟨some_blocked,some_typed,core.change others ?_ ?_ ?_ fewer_all⟩
  · rw [client]
    exact ⟨rfl,by simp,fun _ => ⟨rfl,rfl⟩⟩
  · rw [waits_refiled] at filed
    rw [others.home (by rw [client]),others.waits,others.flags,client]
    apply filed.congr_flag
    intro other key pos waiting
    have differ : other ≠ c := by
      rintro rfl
      simp at waiting
    exact update_of_ne differ _ _
  · intro other
    change Numbers _ (update s.blockedClientsByType btype (s.blockedClientsByType btype - 1) other)
    by_cases same : other = btype
    · subst same
      rw [update_self]
      exact fewer
    · rw [update_of_ne same]
      exact (core.byType other).keep (c := c) (by simp [client,typed,Ne.symm same]) fun c' differ => by rw [others c' differ]

theorem core_removeClient (c : C) : Core (s.removeClientFromTimeoutTable c) := by
  unfold removeClientFromTimeoutTable
  split
  · refine core.congr (c := c) ?_ ?_ (fun _ => rfl) (fun _ => rfl) rfl rfl rfl
    · exact (Others.refl c s).setClient _
    · simp only [setClient_self]
      exact ⟨rfl,rfl,rfl,rfl,rfl⟩
  · exact core

theorem unblockClient_unblocked (blocked : (s.clients c).blocked = true) :
    ∃ t, s.unblockClient c = some t ∧ Core t ∧ Unblocked c s t := by
  obtain ⟨btype,typed⟩ : ∃ btype, (s.clients c).btype = some btype :=
    isSome_iff_exists.mp ((core.sound c).typed.symm.trans blocked)
  obtain ⟨dbs,released,ready,filed⟩ := unblockClientWaitingData_filed core.filed c
  obtain ⟨some_blocked,some_typed,core'⟩ := core_cleared core typed filed
  refine ⟨((s.refiled c dbs ∅ s.nextNode).cleared c btype).removeClientFromTimeoutTable c,?_,core_removeClient core' c,?_⟩
  · have counters : ¬((s.refiled c dbs ∅ s.nextNode).blockedClients = 0 ∨
        (s.refiled c dbs ∅ s.nextNode).blockedClientsByType btype = 0) := by
      rintro (zero | zero)
      · exact some_blocked zero
      · exact some_typed zero
    have keyed := (core.sound c).keyed
    unfold unblockClient
    rw [typed] at keyed ⊢
    rw [released]
    cases btype with
    | module => exact absurd rfl keyed
    | _ => exact if_neg counters
  · by_cases flagged : (s.clients c).inToTable
    all_goals
      constructor
      · simp [removeClientFromTimeoutTable,cleared,refiled,flagged]
      · intro other differ
        simp [removeClientFromTimeoutTable,cleared,refiled,setClient,flagged,differ]
      · simp [removeClientFromTimeoutTable,cleared,refiled,setClient,flagged]
      constructor
      · simp [removeClientFromTimeoutTable,cleared,refiled,setClient,flagged]
      · intro d
        simp [removeClientFromTimeoutTable,cleared,refiled,setClient,flagged,ready d]

theorem unblockClient_changed (timed : Timed s) (blocked : (s.clients c).blocked = true) :
    ∃ t, s.unblockClient c = some t ∧ Changed c s t ∧ Unblocked c s t := by
  obtain ⟨t,done,core',unblocked⟩ := unblockClient_unblocked core blocked
  exact ⟨t,done,⟨core',unblocked.timed timed,unblocked.others⟩,unblocked⟩

theorem unblockClientOnError_changed (timed : Timed s) (blocked : (s.clients c).blocked = true) :
    ∃ t, s.unblockClientOnError c = some t ∧ Changed c s t ∧ SameReady s t := by
  have core' : Core (s.setClient c { s.clients c with pendingCommand := false }) := core.setClient ⟨rfl,rfl,rfl,rfl,rfl⟩
  have timed' : Timed (s.setClient c { s.clients c with pendingCommand := false }) := timed.setClient rfl (.inl rfl) rfl
  obtain ⟨t,done,changed,unblocked⟩ := unblockClient_changed core' timed' (c := c) (by simpa using blocked)
  exact ⟨t,done,⟨changed.core,changed.timed,((Others.refl c s).setClient _).trans changed.others⟩,
    ⟨unblocked.ready.list,unblocked.ready.sets⟩⟩

theorem freeClient_changed (timed : Timed s) (c : C) :
    ∃ t, s.freeClient c = some t ∧ Changed c s t ∧ SameReady s t := by
  -- once it is not blocked, a client is as good as a new one
  have renewed : ∀ u : Server C K D, Core u → Timed u → (u.clients c).blocked = false →
      Core (u.setClient c (.initial (u.clients c).db)) ∧ Timed (u.setClient c (.initial (u.clients c).db)) := by
    intro u core timed free
    have untyped : (u.clients c).btype = none := by simpa [free] using (core.sound c).typed
    have idle := (core.sound c).idle free
    constructor
    · exact core.setClient ⟨rfl,free.symm,untyped.symm,idle.2.symm,idle.1.symm⟩
    refine timed.setClient free.symm (.inr free) ?_
    have flag := timed.flag c
    simp only [free,Bool.false_eq_true,false_and,iff_false,Bool.not_eq_true] at flag
    exact flag.symm
  unfold freeClient
  by_cases blocked : (s.clients c).blocked = true
  · obtain ⟨t,done,changed,unblocked⟩ := unblockClient_changed core timed blocked
    have free : (t.clients c).blocked = false := by rw [unblocked.client]
    have after := renewed t changed.core changed.timed free
    rw [if_pos blocked,done]
    exact ⟨_,rfl,⟨after.1,after.2,changed.others.setClient _⟩,unblocked.ready.trans ⟨rfl,fun _ => rfl⟩⟩
  · have free : (s.clients c).blocked = false := by simpa using blocked
    have after := renewed s core timed free
    rw [if_neg blocked]
    exact ⟨_,rfl,⟨after.1,after.2,(Others.refl c s).setClient _⟩,⟨rfl,fun _ => rfl⟩⟩

/-- One round of the loop: the flag goes first, the entry of the table last. -/
theorem timeout_round {now : Nat} {entry : Nat ×ₗ C} (timed : Timed s)
    (member : entry ∈ s.clientsTimeoutTable) (passed : (ofLex entry).1 < now) :
    ∃ t, (s.setClient (ofLex entry).2
        { s.clients (ofLex entry).2 with inToTable := false }).checkBlockedClientTimeout (ofLex entry).2 now = some t ∧
      t.clientsTimeoutTable = s.clientsTimeoutTable ∧
      Core { t with clientsTimeoutTable := t.clientsTimeoutTable.erase entry } ∧
      Timed { t with clientsTimeoutTable := t.clientsTimeoutTable.erase entry } ∧ SameReady s t := by
  obtain ⟨timeout,c⟩ := entry
  obtain ⟨blocked,own,nonzero⟩ := (timed.table timeout c).mp member
  subst own
  have core₁ : Core ((s.setClient c { s.clients c with inToTable := false }).setClient c
      { (s.setClient c { s.clients c with inToTable := false }).clients c with pendingCommand := false }) := by
    apply (core.setClient _).setClient
    · exact ⟨rfl,rfl,rfl,rfl,rfl⟩
    · exact ⟨rfl,rfl,rfl,rfl,rfl⟩
  obtain ⟨t,done,core',unblocked⟩ := unblockClient_unblocked (c := c) core₁ (by simpa using blocked)
  have table : t.clientsTimeoutTable = s.clientsTimeoutTable := by
    have := unblocked.table
    simpa [setClient] using this
  refine ⟨t,?_,table,?_,?_,⟨unblocked.ready.list,unblocked.ready.sets⟩⟩
  · have due : ((s.setClient c { s.clients c with inToTable := false }).clients c).blocked = true ∧
        ((s.setClient c { s.clients c with inToTable := false }).clients c).timeout ≠ 0 ∧
        ((s.setClient c { s.clients c with inToTable := false }).clients c).timeout < now := by
      rw [setClient_self]
      exact ⟨blocked,nonzero,passed⟩
    change checkBlockedClientTimeout (s.setClient c { s.clients c with inToTable := false }) c now = some t
    unfold checkBlockedClientTimeout
    rw [if_pos due]
    exact done
  · exact core'.congr (Others.refl c t) ⟨rfl,rfl,rfl,rfl,rfl⟩ (fun _ => rfl) (fun _ => rfl) rfl rfl rfl
  · apply timed_erased timed
    · rw [unblocked.client]
    · rw [unblocked.client]
    · exact (((Others.refl c s).setClient _).setClient _).trans unblocked.others
    · intro time other
      rw [table]
      exact mem_erase_own timed c time other

end

theorem timeoutLoop_kept (now : Nat) {rounds : Nat} (core : Core s) (timed : Timed s)
    (enough : s.clientsTimeoutTable.card ≤ rounds) :
    ∃ t, timeoutLoop now rounds s = some t ∧ Core t ∧ Timed t ∧ SameReady s t := by
  induction rounds generalizing s with
  | zero =>
    have first := firstTimeout_of_empty (Nat.le_zero.mp enough)
    exact ⟨s,by simp [timeoutLoop,first],core,timed,.refl s⟩
  | succ rounds ih =>
    cases first : s.firstTimeout with
    | none => exact ⟨s,by simp [timeoutLoop,first],core,timed,.refl s⟩
    | some entry =>
      by_cases future : now ≤ (ofLex entry).1
      · exact ⟨s,by simp [timeoutLoop,first,future],core,timed,.refl s⟩
      have member := mem_of_firstTimeout first
      obtain ⟨t,done,table,core',timed',ready⟩ := timeout_round core timed member (Nat.lt_of_not_le future)
      have fewer : (t.clientsTimeoutTable.erase entry).card ≤ rounds := by
        rw [table,Finset.card_erase_of_mem member]
        omega
      obtain ⟨u,loop,kept⟩ := ih core' timed' fewer
      refine ⟨u,?_,kept.1,kept.2.1,ready.trans ⟨kept.2.2.list,kept.2.2.sets⟩⟩
      rw [timeoutLoop,first]
      dsimp only
      rw [if_neg future,done]
      exact loop

end Server

end ValkeyWasm.Blocking
