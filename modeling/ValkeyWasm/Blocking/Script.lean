import ValkeyWasm.Blocking.Release

/-! Signals, the visits of the clients of a ready key, and whole runs of the server. The iterator over the clients of a
key is safe because a visit changes the entries of the visited client only. -/

namespace ValkeyWasm.Blocking
open Function List Option Nat AList Server
open Blocked (ObjType BlockedType getBlockedTypeByType)
open Library.Counting

section
variable {C K D : Type} [LinearOrder C] [DecidableEq K] [DecidableEq D]

namespace Server
variable {s t u : Server C K D} {c : C}

structure Kept (s : Server C K D) (taken : List (D × K)) : Prop where
  core : Core s
  timed : Timed s
  ready : Ready s taken

omit [LinearOrder C] in
theorem Core.setReadyKeys (core : Core s) (d : D) (keys : Finset K) : Core (s.setDb d { s.dbs d with readyKeys := keys }) := by
  refine core.congr_dbs rfl ?_ ?_ rfl rfl rfl
  · intro d'
    by_cases here : d' = d
    · subst here
      simp [setDb]
    · simp [setDb,here]
  · intro d'
    by_cases here : d' = d
    · subst here
      simp [setDb]
    · simp [setDb,here]

variable {taken : List (D × K)}

omit [LinearOrder C] in
theorem signal_kept (kept : Kept s taken) (signal : Signal K D) :
    Kept (s.signalKeyAsReadyLogic signal) taken ∧ (s.signalKeyAsReadyLogic signal).clients = s.clients := by
  unfold signalKeyAsReadyLogic
  split
  · exact ⟨kept,rfl⟩
  split
  · exact ⟨kept,rfl⟩
  split
  · exact ⟨kept,rfl⟩
  split
  · exact ⟨kept,rfl⟩
  rename_i absent
  refine ⟨⟨?_,?_,?_⟩,rfl⟩
  · have grown := kept.core.setReadyKeys signal.db (insert signal.key (s.dbs signal.db).readyKeys)
    exact grown.congr_dbs rfl (fun _ => rfl) (fun _ => rfl) rfl rfl rfl
  · exact ⟨kept.timed.table,kept.timed.flag⟩
  constructor
  · have fresh : (signal.db,signal.key) ∉ taken ++ s.readyKeys :=
      fun member => absent ((kept.ready.mem_iff signal.db signal.key).mpr member)
    rw [← append_assoc]
    exact kept.ready.nodup.append (nodup_singleton _) (disjoint_singleton.mpr fresh)
  intro d key
  change key ∈ (update s.dbs signal.db _ d).readyKeys ↔
    (d,key) ∈ taken ++ (s.readyKeys ++ [(signal.db,signal.key)])
  rw [← append_assoc,mem_append,← kept.ready.mem_iff d key]
  by_cases here : d = signal.db
  · subst here
    simp [or_comm]
  · simp [here]

omit [LinearOrder C] in
theorem signals_kept (signals : List (Signal K D)) (kept : Kept s taken) :
    Kept (signals.foldl signalKeyAsReadyLogic s) taken ∧ (signals.foldl signalKeyAsReadyLogic s).clients = s.clients := by
  induction signals generalizing s with
  | nil => exact ⟨kept,rfl⟩
  | cons signal signals ih =>
    obtain ⟨next,same⟩ := signal_kept kept signal
    obtain ⟨last,rest⟩ := ih next
    exact ⟨last,rest.trans same⟩

structure Visited (c : C) (taken : List (D × K)) (s t : Server C K D) : Prop where
  kept : Kept t taken
  others : Others c s t

theorem Visited.setClient (visited : Visited c taken s t) {client : Client K D}
    (alike : Alike (t.clients c) client) (timeout : client.timeout = (t.clients c).timeout)
    (flag : client.inToTable = (t.clients c).inToTable) : Visited c taken s (t.setClient c client) where
  kept := ⟨visited.kept.core.setClient alike,visited.kept.timed.setClient alike.blocked (.inl timeout) flag,
    visited.kept.ready.congr ⟨rfl,fun _ => rfl⟩⟩
  others := visited.others.setClient client

theorem reexecute_visited (kept : Kept s taken) (free : (s.clients c).blocked = false)
    (visit : Visit K D) :
    ∃ t, s.reexecute c visit = some t ∧ Visited c taken s t ∧ (visit.signals = [] → t.readyKeys = s.readyKeys) := by
  have start : Visited c taken s
      (s.setClient c { s.clients c with pendingCommand := false, reexecutingCommand := true }) :=
    Visited.setClient ⟨kept,fun _ _ => rfl⟩ ⟨rfl,rfl,rfl,rfl,rfl⟩ rfl rfl
  have still_free : ((s.setClient c
      { s.clients c with pendingCommand := false, reexecutingCommand := true }).clients c).blocked = false := by
    simpa using free
  have quiet : visit.signals = [] → (visit.signals.foldl signalKeyAsReadyLogic
      (s.setClient c { s.clients c with pendingCommand := false, reexecutingCommand := true })).readyKeys = s.readyKeys := by
    intro none_signalled
    rw [none_signalled]
    rfl
  unfold reexecute
  generalize s.setClient c { s.clients c with pendingCommand := false, reexecutingCommand := true } = u
    at start still_free quiet ⊢
  obtain ⟨signalled,same⟩ := signals_kept visit.signals start.kept
  dsimp only
  generalize visit.signals.foldl signalKeyAsReadyLogic u = v at signalled same quiet ⊢
  have visited : Visited c taken s v := ⟨signalled,fun other differ => same ▸ start.others other differ⟩
  cases visit.outcome with
  | replied => exact ⟨_,rfl,visited.setClient ⟨rfl,rfl,rfl,rfl,rfl⟩ rfl rfl,quiet⟩
  | blocked request =>
    obtain ⟨changed,ready⟩ := blockForKeys_changed signalled.core signalled.timed (by rw [same]; exact still_free) request
    have blocked : Visited c taken s (v.blockForKeys c request) :=
      ⟨⟨changed.core,changed.timed,signalled.ready.congr ready⟩,visited.others.trans changed.others⟩
    exact ⟨_,rfl,blocked.setClient ⟨rfl,rfl,rfl,rfl,rfl⟩ rfl rfl,fun silent => ready.list.trans (quiet silent)⟩
  | freed =>
    obtain ⟨t,done,changed,ready⟩ := freeClient_changed signalled.core signalled.timed c
    exact ⟨t,done,⟨⟨changed.core,changed.timed,signalled.ready.congr ready⟩,visited.others.trans changed.others⟩,
      fun silent => ready.list.trans (quiet silent)⟩

variable {key : K}

theorem unblockClientOnKey_visited (kept : Kept s taken) {pos : Nat}
    (waiting : s.waits c key = some pos) (visit : Visit K D) :
    ∃ t, s.unblockClientOnKey c key visit = some t ∧ Visited c taken s t ∧
      (visit.signals = [] → t.readyKeys = s.readyKeys) := by
  obtain ⟨dbs,released,ready,filed⟩ := releaseBlockedEntry_filed kept.core.filed waiting true
  have blocked : (s.clients c).blocked = true := by
    by_contra free
    rw [kept.core.waits_none (by simpa using free)] at waiting
    cases waiting
  have others := others_refiled s c dbs ((s.clients c).keys.erase key) s.nextNode
  have client : (s.refiled c dbs ((s.clients c).keys.erase key) s.nextNode).clients c =
      { s.clients c with keys := (s.clients c).keys.erase key } := by
    simp [refiled]
  have core : Core (s.refiled c dbs ((s.clients c).keys.erase key) s.nextNode) := by
    obtain ⟨typed,keyed,-⟩ := kept.core.sound c
    refine kept.core.remain others ?_ (by rw [client]) ?_ rfl rfl
    · rw [client]
      exact ⟨typed,keyed,fun free => by simp [blocked] at free⟩
    rw [home_refiled,flags_refiled,waits_refiled,s.update_waits c key none]
    · exact filed
    intro key'
    by_cases same : key' = key
    · subst same
      simp
    · simp [same]
  have timed : Timed (s.refiled c dbs ((s.clients c).keys.erase key) s.nextNode) := by
    have changed : Timed (s.setClient c { s.clients c with keys := (s.clients c).keys.erase key }) :=
      kept.timed.setClient rfl (.inl rfl) rfl
    exact ⟨changed.table,changed.flag⟩
  obtain ⟨t,done,changed,unblocked⟩ := unblockClient_changed (c := c) core timed (by simpa [client] using blocked)
  have same_ready : SameReady s t :=
    SameReady.trans (t := s.refiled c dbs ((s.clients c).keys.erase key) s.nextNode) ⟨rfl,ready⟩ unblocked.ready
  have after : Kept t taken := ⟨changed.core,changed.timed,kept.ready.congr same_ready⟩
  have others := others.trans changed.others
  have typed : ¬(((s.refiled c dbs ((s.clients c).keys.erase key) s.nextNode).clients c).btype = none ∨
      ((s.refiled c dbs ((s.clients c).keys.erase key) s.nextNode).clients c).btype = some .module) := by
    rintro (untyped | module)
    · have := (core.sound c).typed
      rw [untyped,client] at this
      simp [blocked] at this
    · exact (core.sound c).keyed module
  unfold unblockClientOnKey
  rw [show (s.clients c).keys.lookup key = some pos from waiting,bind_some,released,bind_some]
  simp only [if_true] at typed ⊢
  rw [if_neg typed,done,bind_some]
  split
  · obtain ⟨v,again,visited,quiet⟩ := reexecute_visited after (by rw [unblocked.client]) visit
    exact ⟨v,again,⟨visited.kept,others.trans visited.others⟩,fun silent => (quiet silent).trans same_ready.list⟩
  · exact ⟨t,rfl,⟨after,others⟩,fun _ => same_ready.list⟩

def Used (s t : Server C K D) (before after : List (Visit K D)) : Prop :=
  after.length < before.length ∨ after.length = before.length ∧ t.readyKeys = s.readyKeys

omit [LinearOrder C] [DecidableEq K] [DecidableEq D] in
theorem Used.trans {first second third : List (Visit K D)} (one : Used s t first second) (two : Used t u second third) :
    Used s u first third := by
  rcases one with less | ⟨same,ready⟩
  · left
    rcases two with less' | ⟨same',_⟩
    · exact lt_trans less' less
    · exact same' ▸ less
  · rcases two with less' | ⟨same',ready'⟩
    · exact .inl (same ▸ less')
    · exact .inr ⟨same'.trans same,ready'.trans ready⟩

theorem visitClient_visited (kept : Kept s taken) {pos : Nat}
    (waiting : s.waits c key = some pos) (visits : List (Visit K D)) :
    ∃ t visits', s.visitClient key c visits = some (t,visits') ∧ Visited c taken s t ∧ Used s t visits visits' := by
  cases visits with
  | nil =>
    rw [visitClient]
    split
    · obtain ⟨t,done,visited,quiet⟩ := unblockClientOnKey_visited kept waiting ⟨none,[],.replied⟩
      rw [done]
      exact ⟨t,[],rfl,visited,.inr ⟨rfl,quiet rfl⟩⟩
    · exact ⟨s,[],rfl,⟨kept,fun _ _ => rfl⟩,.inr ⟨rfl,rfl⟩⟩
  | cons visit visits =>
    rw [visitClient]
    split
    · obtain ⟨t,done,visited,_⟩ := unblockClientOnKey_visited kept waiting visit
      rw [done]
      exact ⟨t,visits,rfl,visited,.inl (lt_succ_self _)⟩
    · exact ⟨s,visits,rfl,⟨kept,fun _ _ => rfl⟩,.inl (lt_succ_self _)⟩

section
omit [LinearOrder C]

theorem listNext_found {l : List (Node C)} {node : Node C} (member : node ∈ l) (distinct : (l.map Node.address).Nodup) :
    ∃ next, listNext l node.address = some (node,next) ∧
      ∀ address, next = some address → ∃ other ∈ l, other.address = address ∧ other ≠ node := by
  induction l with
  | nil => cases member
  | cons first rest ih =>
    obtain ⟨absent,distinct⟩ := nodup_cons.mp distinct
    by_cases same : first.address = node.address
    · have here : node = first := by
        rcases mem_cons.mp member with equal | inside
        · exact equal
        · exact absurd (same ▸ mem_map_of_mem inside) absent
      subst here
      refine ⟨rest.head?.map Node.address,by rw [listNext,if_pos rfl],?_⟩
      intro address saved
      obtain ⟨other,head,equal⟩ := map_eq_some_iff.mp saved
      have inside : other ∈ rest := mem_of_mem_head? head
      refine ⟨other,mem_cons_of_mem _ inside,equal,?_⟩
      rintro rfl
      exact absent (mem_map_of_mem inside)
    · have inside : node ∈ rest := by
        rcases mem_cons.mp member with equal | inside
        · exact absurd (equal ▸ rfl) same
        · exact inside
      obtain ⟨next,found,after⟩ := ih inside distinct
      refine ⟨next,by rw [listNext,if_neg same,found],?_⟩
      intro address saved
      obtain ⟨other,inside,rest⟩ := after address saved
      exact ⟨other,mem_cons_of_mem _ inside,rest⟩

theorem Core.waits_of_mem (core : Core s) {d : D} {node : Node C} (member : node ∈ (s.dbs d).waiting key) :
    s.home node.value = d ∧ s.waits node.value key = some node.address := by
  have listed := ((core.filed d).listed key node).mp member
  unfold view at listed
  split at listed
  · rename_i here
    exact ⟨here,listed⟩
  · cases listed

theorem Core.mem_of_waits (core : Core s) (node : Node C)
    (waiting : s.waits node.value key = some node.address) : node ∈ (s.dbs (s.home node.value)).waiting key :=
  ((core.filed (s.home node.value)).listed key node).mpr ((Filed.view_self node.value key).trans waiting)

end

theorem visitLoop_kept (d : D) (key : K) (count : Nat) (next : Option Nat) (kept : Kept s taken)
    (alive : ∀ address, next = some address → ∃ node ∈ (s.dbs d).waiting key, node.address = address)
    (visits : List (Visit K D)) :
    ∃ t visits', visitLoop d key count next s visits = some (t,visits') ∧ Kept t taken ∧ Used s t visits visits' := by
  induction count generalizing s next visits with
  | zero =>
    cases next with
    | none => exact ⟨s,visits,rfl,kept,.inr ⟨rfl,rfl⟩⟩
    | some address =>
      obtain ⟨node,member,rfl⟩ := alive address rfl
      obtain ⟨next,found,_⟩ := listNext_found member ((kept.core.filed d).distinct key)
      rw [visitLoop,found]
      exact ⟨s,visits,rfl,kept,.inr ⟨rfl,rfl⟩⟩
  | succ count ih =>
    cases next with
    | none => exact ⟨s,visits,rfl,kept,.inr ⟨rfl,rfl⟩⟩
    | some address =>
      obtain ⟨node,member,rfl⟩ := alive address rfl
      obtain ⟨next,found,after⟩ := listNext_found member ((kept.core.filed d).distinct key)
      obtain ⟨-,waiting⟩ := kept.core.waits_of_mem member
      obtain ⟨t,visits',done,visited,used⟩ := visitClient_visited kept waiting visits
      have still : ∀ address, next = some address → ∃ node ∈ (t.dbs d).waiting key, node.address = address := by
        intro address saved
        obtain ⟨other,inside,equal,differ⟩ := after address saved
        obtain ⟨other_home,other_waiting⟩ := kept.core.waits_of_mem inside
        have apart : other.value ≠ node.value := by
          intro same
          rw [same] at other_waiting
          cases other
          cases node
          simp_all
        refine ⟨other,?_,equal⟩
        have unchanged := visited.others other.value apart
        have home : t.home other.value = d := by
          rw [← other_home,home,unchanged]
          rfl
        rw [← home]
        apply visited.kept.core.mem_of_waits other
        rw [← other_waiting,waits,unchanged]
        rfl
      obtain ⟨u,visits'',loop,kept',used'⟩ := ih next visited.kept still visits'
      refine ⟨u,visits'',?_,kept',used.trans used'⟩
      rw [visitLoop,found,bind_some,done]
      exact loop

theorem handleClientsBlockedOnKey_kept (kept : Kept s taken) (d : D) (key : K)
    (visits : List (Visit K D)) :
    ∃ t visits', s.handleClientsBlockedOnKey d key visits = some (t,visits') ∧ Kept t taken ∧ Used s t visits visits' := by
  unfold handleClientsBlockedOnKey
  split
  · exact ⟨s,visits,rfl,kept,.inr ⟨rfl,rfl⟩⟩
  rename_i clients found
  apply visitLoop_kept d key clients.length _ kept
  intro address head
  obtain ⟨node,first,equal⟩ := map_eq_some_iff.mp head
  refine ⟨node,?_,equal⟩
  rw [Database.waiting_of_lookup found]
  exact mem_of_mem_head? first

theorem serveReadyKeys_kept (taken : List (D × K)) (kept : Kept s taken) (visits : List (Visit K D)) :
    ∃ t visits', serveReadyKeys taken s visits = some (t,visits') ∧ Kept t [] ∧ Used s t visits visits' := by
  induction taken generalizing s visits with
  | nil => exact ⟨s,visits,rfl,kept,.inr ⟨rfl,rfl⟩⟩
  | cons rl rest ih =>
    obtain ⟨d,key⟩ := rl
    have popped : Kept (s.setDb d { s.dbs d with readyKeys := (s.dbs d).readyKeys.erase key }) rest := by
      obtain ⟨absent,nodup⟩ := nodup_cons.mp kept.ready.nodup
      refine ⟨kept.core.setReadyKeys d _,⟨kept.timed.table,kept.timed.flag⟩,nodup,?_⟩
      intro d' key'
      change key' ∈ (update s.dbs d _ d').readyKeys ↔ (d',key') ∈ rest ++ s.readyKeys
      have before := kept.ready.mem_iff d' key'
      by_cases here : d' = d
      · subst here
        rw [update_self,Finset.mem_erase,before]
        by_cases same : key' = key
        · subst same
          simpa using absent
        · simp [same]
      · rw [update_of_ne here,before]
        simp [here]
    obtain ⟨t,visits',served,kept',used⟩ := handleClientsBlockedOnKey_kept popped d key visits
    obtain ⟨u,visits'',loop,kept'',used'⟩ := ih kept' visits'
    refine ⟨u,visits'',?_,kept'',Used.trans (show Used s t visits visits' from used) used'⟩
    rw [serveReadyKeys,served]
    exact loop

theorem readyLoop_kept (rounds : Nat) (kept : Kept s []) (visits : List (Visit K D)) (enough : visits.length < rounds) :
    ∃ t, readyLoop rounds s visits = some t ∧ Kept t [] := by
  induction rounds generalizing s visits with
  | zero => exact absurd enough (not_lt_zero _)
  | succ rounds ih =>
    rw [readyLoop]
    split
    · exact ⟨s,rfl,kept⟩
    have taken : Kept { s with readyKeys := [] } s.readyKeys := by
      refine ⟨kept.core.congr_dbs rfl (fun _ => rfl) (fun _ => rfl) rfl rfl rfl,
        ⟨kept.timed.table,kept.timed.flag⟩,?_⟩
      constructor
      · simpa using kept.ready.nodup
      · simpa using kept.ready.mem_iff
    obtain ⟨t,visits',served,kept',used⟩ := serveReadyKeys_kept s.readyKeys taken visits
    rw [served,bind_some]
    rcases used with less | ⟨_,idle⟩
    · exact ih kept' visits' (by omega)
    refine ⟨t,?_,kept'⟩
    have nothing : t.readyKeys = [] := idle
    cases rounds with
    | zero => rw [readyLoop,if_pos nothing]
    | succ rounds => rw [readyLoop,if_pos nothing]

theorem perform_kept (kept : Kept s []) (event : Event C K D) : ∃ t, perform s event = some t ∧ Kept t [] := by
  cases event with
  | select c db =>
    rw [perform]
    split
    · exact ⟨s,rfl,kept⟩
    rename_i unblocked
    have free : (s.clients c).blocked = false := by simpa using unblocked
    refine ⟨_,rfl,?_,kept.timed.setClient rfl (.inl rfl) rfl,kept.ready.congr ⟨rfl,fun _ => rfl⟩⟩
    have others : Others c s (s.setClient c { s.clients c with db := db }) := (Others.refl c s).setClient _
    obtain ⟨typed,keyed,idle⟩ := kept.core.sound c
    refine kept.core.remain others (by rw [setClient_self]; exact ⟨typed,keyed,idle⟩) (by rw [setClient_self]) ?_ rfl rfl
    have waits : (s.setClient c { s.clients c with db := db }).waits = s.waits := by
      rw [others.waits,setClient_self]
      exact update_eq_self c s.waits
    have flags : (s.setClient c { s.clients c with db := db }).flags = s.flags := by
      rw [others.flags,setClient_self]
      exact update_eq_self c s.flags
    rw [waits,flags]
    -- a client that waits for nothing may be in any database
    apply kept.core.filed.congr_home
    intro other key pos waiting
    have differ : other ≠ c := by
      rintro rfl
      rw [kept.core.waits_none free] at waiting
      cases waiting
    rw [home,others other differ]
    rfl
  | blockForKeys c request =>
    rw [perform]
    split
    · exact ⟨s,rfl,kept⟩
    · rename_i unblocked
      obtain ⟨changed,ready⟩ := blockForKeys_changed kept.core kept.timed (c := c) (by simpa using unblocked) request
      exact ⟨_,rfl,changed.core,changed.timed,kept.ready.congr ready⟩
  | signalKeyAsReady signal => exact ⟨_,rfl,(signal_kept kept signal).1⟩
  | handleClientsBlockedOnKeys visits => exact readyLoop_kept _ kept visits (lt_succ_self _)
  | handleBlockedClientsTimeout now =>
    obtain ⟨t,done,core,timed,ready⟩ := timeoutLoop_kept now kept.core kept.timed (le_refl _)
    exact ⟨t,done,core,timed,kept.ready.congr ready⟩
  | unblockClientOnError c =>
    rw [perform]
    split
    · rename_i blocked
      obtain ⟨t,done,changed,ready⟩ := unblockClientOnError_changed kept.core kept.timed blocked
      exact ⟨t,done,changed.core,changed.timed,kept.ready.congr ready⟩
    · exact ⟨s,rfl,kept⟩
  | freeClient c =>
    obtain ⟨t,done,changed,ready⟩ := freeClient_changed kept.core kept.timed c
    exact ⟨t,done,changed.core,changed.timed,kept.ready.congr ready⟩

theorem run_kept (events : List (Event C K D)) (kept : Kept s []) : ∃ t, run s events = some t ∧ Kept t [] := by
  induction events generalizing s with
  | nil => exact ⟨s,rfl,kept⟩
  | cons event events ih =>
    obtain ⟨t,done,kept'⟩ := perform_kept kept event
    obtain ⟨u,rest,last⟩ := ih kept'
    refine ⟨u,?_,last⟩
    rw [run,done]
    exact rest

omit [LinearOrder C] in
theorem initial_kept (home : C → D) : Kept (initial home : Server C K D) [] where
  core :=
    { filed := by
        intro d
        have unlisted : view (initial home : Server C K D).home (initial home : Server C K D).waits d =
            fun _ _ => none := by
          funext c key
          have none_waits : (initial home : Server C K D).waits c key = none := lookup_empty key
          rw [view,none_waits,ite_self]
        rw [unlisted]
        constructor
        · simp [Database.waiting,initial]
        · simp [initial]
        · simp [Database.waiting,initial]
        · simp [Database.waiting,initial,positive]
        · simp [Database.waiting,initial]
      sound := fun _ => ⟨rfl,nofun,fun _ => ⟨rfl,rfl⟩⟩
      byType := fun _ => (Numbers.none C).congr fun c => by simp [initial,Client.initial]
      all := (Numbers.none C).congr fun c => by simp [initial,Client.initial] }
  timed := ⟨fun timeout c => by simp [initial,Client.initial],fun c => by simp [initial,Client.initial]⟩
  ready := ⟨nodup_nil,fun d key => by simp [initial]⟩

/-- What the five structures say of the same waits. -/
structure Consistent (s : Server C K D) : Prop where
  once : ∀ c d key, ((s.dbs d).waiting key).countP (fun node => node.value = c) =
    if (s.clients c).db = d ∧ key ∈ (s.clients c).keys then 1 else 0
  node : ∀ c key address, (s.clients c).keys.lookup key = some address →
    ⟨address,c⟩ ∈ (s.dbs (s.clients c).db).waiting key
  addresses : ∀ d key, (((s.dbs d).waiting key).map Node.address).Nodup
  nonempty : ∀ d key, (s.dbs d).blockingKeys.lookup key ≠ some []
  nokey : ∀ d key, (s.dbs d).blockingKeysUnblockOnNokey.lookup key =
    positive (((s.dbs d).waiting key).countP fun node => (s.clients node.value).unblockOnNokey)
  ready : ∀ d key, s.readyKeys.count (d,key) = if key ∈ (s.dbs d).readyKeys then 1 else 0
  timeouts : ∀ timeout c, toLex (timeout,c) ∈ s.clientsTimeoutTable ↔
    (s.clients c).blocked = true ∧ (s.clients c).timeout = timeout ∧ timeout ≠ 0
  byType : ∀ btype, Numbers (fun c => (s.clients c).blocked = true ∧ (s.clients c).btype = some btype)
    (s.blockedClientsByType btype)
  all : Numbers (fun c => (s.clients c).blocked = true) s.blockedClients

theorem Core.countP_waiting (core : Core s) (c : C) (d : D) (key : K) :
    ((s.dbs d).waiting key).countP (fun node => node.value = c) =
      if (s.clients c).db = d ∧ key ∈ (s.clients c).keys then 1 else 0 := by
  have values := (core.filed d).values_nodup key
  have counted : ((s.dbs d).waiting key).countP (fun node => node.value = c) =
      (((s.dbs d).waiting key).map Node.value).count c := by
    rw [List.count,countP_map]
    refine countP_congr fun node _ => ?_
    simp
  have occurs : c ∈ ((s.dbs d).waiting key).map Node.value ↔ (s.clients c).db = d ∧ key ∈ (s.clients c).keys := by
    constructor
    · intro member
      obtain ⟨node,inside,rfl⟩ := mem_map.mp member
      obtain ⟨at_home,waiting⟩ := core.waits_of_mem inside
      exact ⟨at_home,lookup_isSome.mp (isSome_iff_exists.mpr ⟨_,waiting⟩)⟩
    · rintro ⟨rfl,member⟩
      obtain ⟨address,waiting⟩ := isSome_iff_exists.mp (lookup_isSome.mpr member)
      exact mem_map.mpr ⟨⟨address,c⟩,core.mem_of_waits ⟨address,c⟩ waiting,rfl⟩
  rw [counted,List.Nodup.count values]
  simp only [occurs]

theorem Kept.consistent (kept : Kept s []) : Consistent s where
  once := kept.core.countP_waiting
  node c key address waiting := kept.core.mem_of_waits ⟨address,c⟩ waiting
  addresses d := (kept.core.filed d).distinct
  nonempty d := (kept.core.filed d).nonempty
  nokey d := (kept.core.filed d).counted
  ready d key := by
    have nodup : s.readyKeys.Nodup := kept.ready.nodup
    have same : key ∈ (s.dbs d).readyKeys ↔ (d,key) ∈ s.readyKeys := kept.ready.mem_iff d key
    rw [List.Nodup.count nodup]
    simp only [same]
  timeouts := kept.timed.table
  byType btype := by
    apply (kept.core.byType btype).congr
    intro c
    rw [(kept.core.sound c).typed]
    constructor
    · exact fun both => both.2
    · intro typed
      exact ⟨by rw [typed]; rfl,typed⟩
  all := kept.core.all

end Server

/-- Whatever happens to the server, no assertion fails, no freed node is followed, every loop ends, and the records of
the clients that wait agree. -/
theorem blocking_records_agree (home : C → D) (events : List (Event C K D)) :
    ∃ s, run (initial home) events = some s ∧ s.Consistent := by
  obtain ⟨s,done,kept⟩ := run_kept events (initial_kept home)
  exact ⟨s,done,kept.consistent⟩

end

end ValkeyWasm.Blocking
