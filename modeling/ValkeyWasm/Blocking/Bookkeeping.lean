import ValkeyWasm.Blocking.Enrolled
import ValkeyWasm.Library.Counting

/-! The records of all databases together: filing a client under its keys and releasing it keep the lists, the counts
by type and the timeout table in step with the clients. -/

namespace ValkeyWasm.Blocking
open Function List
open Blocked (ObjType BlockedType getBlockedTypeByType)
open Library.Counting

variable {C K D : Type}

section Filed
variable {home : C → D} {waits : C → K → Option Nat} {flag : C → Bool} {dbs : D → Database C K} {next : Nat} [DecidableEq D]

def view (home : C → D) (waits : C → K → Option Nat) (d : D) : C → K → Option Nat :=
  fun c key => if home c = d then waits c key else none

theorem Filed.view_self (c : C) (key : K) : view home waits (home c) c key = waits c key := if_pos rfl

variable {home' : C → D}

theorem Filed.view_congr_home (same : ∀ c key pos, waits c key = some pos → home' c = home c) (d : D) :
    view home' waits d = view home waits d := by
  funext c key
  unfold view
  cases waiting : waits c key with
  | none => simp
  | some pos => rw [same c key pos waiting]

variable [DecidableEq K]

def Filed (home : C → D) (waits : C → K → Option Nat) (flag : C → Bool) (dbs : D → Database C K) (next : Nat) : Prop :=
  ∀ d, Enrolled (view home waits d) flag (dbs d) next

namespace Filed

section
variable (filed : Filed home waits flag dbs next)
include filed

theorem congr_home
    (same : ∀ c key pos, waits c key = some pos → home' c = home c) : Filed home' waits flag dbs next := by
  intro d
  rw [view_congr_home same]
  exact filed d

theorem congr_flag {flag' : C → Bool}
    (same : ∀ c key pos, waits c key = some pos → flag' c = flag c) : Filed home waits flag' dbs next := by
  intro d
  apply (filed d).congr_flag
  intro c key pos waiting
  unfold view at waiting
  split at waiting
  · exact same c key pos waiting
  · cases waiting

theorem congr_dbs {dbs' : D → Database C K}
    (lists : ∀ d, (dbs' d).blockingKeys = (dbs d).blockingKeys)
    (counts : ∀ d, (dbs' d).blockingKeysUnblockOnNokey = (dbs d).blockingKeysUnblockOnNokey) :
    Filed home waits flag dbs' next :=
  fun d => (filed d).congr_db (lists d) (counts d)

end

variable [LinearOrder C]

theorem view_revise_self (c : C) (key : K) (entry : Option Nat) :
    view home (revise waits c key entry) (home c) = revise (view home waits (home c)) c key entry := by
  funext c' key'
  by_cases same : c' = c ∧ key' = key
  · obtain ⟨rfl,rfl⟩ := same
    simp [view,revise]
  · simp [view,revise,same]

theorem view_revise_ne {c : C} {d : D} (key : K) (entry : Option Nat) (differ : home c ≠ d) :
    view home (revise waits c key entry) d = view home waits d := by
  funext c' key'
  unfold view revise
  by_cases same : c' = c
  · subst same
    rw [if_neg differ,if_neg differ]
  · simp [same]

variable {key : K}

section
variable (filed : Filed home waits flag dbs next)
include filed

theorem revised {c : C} {entry : Option Nat} {db : Database C K}
    {later : Nat} (le : next ≤ later) (here : Enrolled (revise (view home waits (home c)) c key entry) flag db later) :
    Filed home (revise waits c key entry) flag (update dbs (home c) db) later := by
  intro d
  by_cases at_home : d = home c
  · subst at_home
    rw [update_self,view_revise_self]
    exact here
  · rw [update_of_ne at_home,view_revise_ne key entry (Ne.symm at_home)]
    exact (filed d).mono le

theorem enlist {c : C} {nokey : Bool} (absent : waits c key = none)
    (marked : flag c = nokey) :
    Filed home (revise waits c key (some next)) flag
      (update dbs (home c) ((dbs (home c)).enlist key ⟨next,c⟩ nokey)) (next + 1) := by
  apply filed.revised (Nat.le_succ next)
  exact (filed (home c)).enlist ((view_self c key).trans absent) marked

theorem release {c : C} {pos : Nat} (waiting : waits c key = some pos) :
    ∃ db, (dbs (home c)).release key pos (flag c) = some db ∧ db.readyKeys = (dbs (home c)).readyKeys ∧
      Filed home (revise waits c key none) flag (update dbs (home c) db) next := by
  obtain ⟨db,released,ready,enrolled⟩ := (filed (home c)).release ((view_self c key).trans waiting)
  exact ⟨db,released,ready,filed.revised (Nat.le_refl next) enrolled⟩

end

end Filed

end Filed

namespace Server
variable {s t u : Server C K D} {c : C}

def home (s : Server C K D) (c : C) : D := (s.clients c).db

def flags (s : Server C K D) (c : C) : Bool := (s.clients c).unblockOnNokey

structure Sound (client : Client K D) : Prop where
  typed : client.blocked = client.btype.isSome
  keyed : client.btype ≠ some .module
  idle : client.blocked = false → client.keys = ∅ ∧ client.unblockOnNokey = false

structure Timed (s : Server C K D) : Prop where
  table : ∀ timeout c, toLex (timeout,c) ∈ s.clientsTimeoutTable ↔
    (s.clients c).blocked = true ∧ (s.clients c).timeout = timeout ∧ timeout ≠ 0
  flag : ∀ c, (s.clients c).inToTable = true ↔ (s.clients c).blocked = true ∧ (s.clients c).timeout ≠ 0

/-- The keys of `db->ready_keys` are those of `server.ready_keys` and of the nodes `handleClientsBlockedOnKeys` took
and has still to serve. -/
structure Ready (s : Server C K D) (taken : List (D × K)) : Prop where
  nodup : (taken ++ s.readyKeys).Nodup
  mem_iff : ∀ d key, key ∈ (s.dbs d).readyKeys ↔ (d,key) ∈ taken ++ s.readyKeys

structure SameReady (s t : Server C K D) : Prop where
  list : t.readyKeys = s.readyKeys
  sets : ∀ d, (t.dbs d).readyKeys = (s.dbs d).readyKeys

theorem SameReady.refl (s : Server C K D) : SameReady s s := ⟨rfl,fun _ => rfl⟩

theorem SameReady.trans (first : SameReady s t) (second : SameReady t u) : SameReady s u :=
  ⟨second.list.trans first.list,fun d => (second.sets d).trans (first.sets d)⟩

theorem Ready.congr {taken : List (D × K)} (ready : Ready s taken) (same : SameReady s t) : Ready t taken where
  nodup := same.list ▸ ready.nodup
  mem_iff d key := by
    rw [same.list,same.sets]
    exact ready.mem_iff d key

def Others (c : C) (s t : Server C K D) : Prop := ∀ other, other ≠ c → t.clients other = s.clients other

theorem Others.refl (c : C) (s : Server C K D) : Others c s s := fun _ _ => rfl

theorem Others.trans (first : Others c s t) (second : Others c t u) : Others c s u :=
  fun other differ => (second other differ).trans (first other differ)

structure Alike (x y : Client K D) : Prop where
  db : y.db = x.db
  blocked : y.blocked = x.blocked
  btype : y.btype = x.btype
  unblockOnNokey : y.unblockOnNokey = x.unblockOnNokey
  keys : y.keys = x.keys

section
variable [DecidableEq K]

def waits (s : Server C K D) (c : C) (key : K) : Option Nat := (s.clients c).keys.lookup key

variable [DecidableEq D]

structure Core (s : Server C K D) : Prop where
  filed : Filed s.home s.waits s.flags s.dbs s.nextNode
  sound : ∀ c, Sound (s.clients c)
  byType : ∀ btype, Numbers (fun c => (s.clients c).btype = some btype) (s.blockedClientsByType btype)
  all : Numbers (fun c => (s.clients c).blocked = true) s.blockedClients

theorem Core.change (core : Core s) (others : Others c s t) (sound : Sound (t.clients c))
    (filed : Filed t.home t.waits t.flags t.dbs t.nextNode)
    (byType : ∀ btype, Numbers (fun other => (t.clients other).btype = some btype) (t.blockedClientsByType btype))
    (all : Numbers (fun other => (t.clients other).blocked = true) t.blockedClients) : Core t where
  filed := filed
  sound other := by
    by_cases same : other = c
    · rw [same]
      exact sound
    · rw [others other same]
      exact core.sound other
  byType := byType
  all := all

theorem Core.remain (core : Core s) (others : Others c s t) (sound : Sound (t.clients c)) (btype : (t.clients c).btype = (s.clients c).btype)
    (filed : Filed t.home t.waits t.flags t.dbs t.nextNode) (byType : t.blockedClientsByType = s.blockedClientsByType)
    (all : t.blockedClients = s.blockedClients) : Core t := by
  apply core.change others sound filed
  · intro type
    rw [byType]
    apply (core.byType type).keep (c := c) (by rw [btype])
    exact fun other differ => by rw [others other differ]
  · rw [all]
    apply core.all.keep (c := c) (by rw [sound.typed,btype,(core.sound c).typed])
    exact fun other differ => by rw [others other differ]

theorem Core.congr_dbs (core : Core s) (clients : t.clients = s.clients) (lists : ∀ d, (t.dbs d).blockingKeys = (s.dbs d).blockingKeys)
    (counts : ∀ d, (t.dbs d).blockingKeysUnblockOnNokey = (s.dbs d).blockingKeysUnblockOnNokey)
    (next : t.nextNode = s.nextNode) (byType : t.blockedClientsByType = s.blockedClientsByType)
    (all : t.blockedClients = s.blockedClients) : Core t := by
  obtain ⟨filed,sound,types,total⟩ := core
  unfold home waits flags at filed
  rw [← clients,← next] at filed
  rw [← clients] at sound total
  rw [← clients,← byType] at types
  exact ⟨filed.congr_dbs lists counts,sound,types,all ▸ total⟩

theorem Core.waits_none (core : Core s) (free : (s.clients c).blocked = false) (key : K) : s.waits c key = none := by
  unfold waits
  rw [((core.sound c).idle free).1]
  exact AList.lookup_empty key

end

variable [LinearOrder C]

@[simp] theorem setClient_self (s : Server C K D) (c : C) (client : Client K D) :
    (s.setClient c client).clients c = client := by
  simp [setClient]

theorem setClient_ne (s : Server C K D) {c other : C} (client : Client K D) (differ : other ≠ c) :
    (s.setClient c client).clients other = s.clients other := by
  simp [setClient,differ]

theorem Others.setClient (others : Others c s t) (client : Client K D) : Others c s (t.setClient c client) :=
  fun other differ => (setClient_ne t client differ).trans (others other differ)

theorem Others.home (others : Others c s t) (own : (t.clients c).db = (s.clients c).db) : t.home = s.home := by
  funext other
  by_cases same : other = c
  · rw [same]
    exact own
  · rw [Server.home,others other same]
    rfl

theorem Others.flags (others : Others c s t) : t.flags = update s.flags c (t.clients c).unblockOnNokey :=
  eq_update_iff.mpr ⟨rfl,fun other differ => by rw [Server.flags,others other differ]; rfl⟩

variable [DecidableEq K] in
theorem Others.waits (others : Others c s t) : t.waits = update s.waits c (t.clients c).keys.lookup :=
  eq_update_iff.mpr ⟨rfl,fun other differ => funext fun key => by rw [Server.waits,others other differ]; rfl⟩

theorem Timed.change (timed : Timed s) (others : Others c s t)
    (table : ∀ timeout other, other ≠ c → (toLex (timeout,other) ∈ t.clientsTimeoutTable ↔ toLex (timeout,other) ∈ s.clientsTimeoutTable))
    (own : ∀ timeout, toLex (timeout,c) ∈ t.clientsTimeoutTable ↔
      (t.clients c).blocked = true ∧ (t.clients c).timeout = timeout ∧ timeout ≠ 0)
    (flag : (t.clients c).inToTable = true ↔ (t.clients c).blocked = true ∧ (t.clients c).timeout ≠ 0) : Timed t := by
  constructor
  · intro timeout other
    by_cases same : other = c
    · rw [same]
      exact own timeout
    · rw [others other same,table timeout other same]
      exact timed.table timeout other
  · intro other
    by_cases same : other = c
    · rw [same]
      exact flag
    · rw [others other same]
      exact timed.flag other

variable {client : Client K D}

theorem Timed.setClient (timed : Timed s) (blocked : client.blocked = (s.clients c).blocked)
    (timeout : client.timeout = (s.clients c).timeout ∨ (s.clients c).blocked = false)
    (flag : client.inToTable = (s.clients c).inToTable) : Timed (s.setClient c client) := by
  apply timed.change ((Others.refl c s).setClient client) (fun _ _ _ => Iff.rfl)
  · intro time
    have entry := timed.table time c
    rw [setClient_self,blocked]
    rcases timeout with equal | free
    · rw [equal]
      exact entry
    · simp only [free,Bool.false_eq_true,false_and] at entry ⊢
      exact entry
  · have own := timed.flag c
    rw [setClient_self,blocked,flag]
    rcases timeout with equal | free
    · rw [equal]
      exact own
    · simpa [free] using own

def refiled (s : Server C K D) (c : C) (dbs : D → Database C K) (keys : AList fun _ : K => Nat) (next : Nat) :
    Server C K D :=
  { s.setClient c { s.clients c with keys := keys } with dbs := dbs, nextNode := next }

theorem refiled_refiled (s : Server C K D) (c : C) (dbs dbs' : D → Database C K) (keys keys' : AList fun _ : K => Nat)
    (next next' : Nat) : (s.refiled c dbs keys next).refiled c dbs' keys' next' = s.refiled c dbs' keys' next' := by
  simp [refiled,setClient]

theorem refiled_same (s : Server C K D) (c : C) : s.refiled c s.dbs (s.clients c).keys s.nextNode = s := by
  simp [refiled,setClient]

section
variable (s : Server C K D) (c : C) (dbs : D → Database C K) (keys : AList fun _ : K => Nat) (next : Nat)

theorem others_refiled :
    Others c s (s.refiled c dbs keys next) := (Others.refl c s).setClient _

theorem home_refiled :
    (s.refiled c dbs keys next).home = s.home := (others_refiled s c dbs keys next).home (by simp [refiled])

theorem flags_refiled :
    (s.refiled c dbs keys next).flags = s.flags := by
  rw [(others_refiled s c dbs keys next).flags]
  simp [refiled,flags]

variable [DecidableEq K] in
theorem waits_refiled :
    (s.refiled c dbs keys next).waits = update s.waits c keys.lookup := by
  rw [(others_refiled s c dbs keys next).waits]
  simp [refiled]

end

def enrolled (s : Server C K D) (c : C) (btype : BlockedType) (nokey : Bool) : Server C K D :=
  { s.setClient c { s.clients c with
      unblockOnNokey := nokey, pendingCommand := true, blocked := true, btype := some btype } with
    blockedClients := s.blockedClients + 1
    blockedClientsByType := Function.update s.blockedClientsByType btype (s.blockedClientsByType btype + 1) }

theorem timed_addClient (timed : Timed s) (free : (s.clients c).blocked = false) (others : Others c s t)
    (table : t.clientsTimeoutTable = s.clientsTimeoutTable)
    (blocked : (t.clients c).blocked = true) (flag : (t.clients c).inToTable = false) :
    Timed (t.addClientToTimeoutTable c) := by
  have absent : ∀ timeout, toLex (timeout,c) ∉ s.clientsTimeoutTable := by
    intro timeout member
    simp [((timed.table timeout c).mp member).1] at free
  unfold addClientToTimeoutTable
  split
  · rename_i zero
    apply timed.change others (fun _ _ _ => by rw [table])
    · intro timeout
      rw [table]
      have distinct : (t.clients c).timeout = timeout → ¬timeout ≠ 0 := fun equal => by simp [← equal,zero]
      exact ⟨fun member => absurd member (absent timeout),fun entry => absurd entry.2.2 (distinct entry.2.1)⟩
    · simp [flag,zero]
  · rename_i nonzero
    rw [if_neg (table ▸ absent _)]
    refine Timed.change (c := c) timed ?_ ?_ ?_ ?_
    · exact others.setClient _
    · intro timeout other differ
      have apart : toLex (timeout,other) ≠ toLex ((t.clients c).timeout,c) :=
        fun equal => differ (congrArg (fun entry => (ofLex entry).2) equal)
      simp only [Finset.mem_insert,table,apart,false_or]
    · intro timeout
      simp only [Finset.mem_insert,table,setClient_self,blocked,absent,or_false,true_and]
      constructor
      · intro equal
        have first := congrArg (fun entry => (ofLex entry).1) equal
        exact ⟨first.symm,fun zero => nonzero (first.symm.trans zero)⟩
      · intro entry
        rw [entry.1]
    · simp [blocked,nonzero]

theorem Others.addClient (others : Others c s t) : Others c s (t.addClientToTimeoutTable c) := by
  unfold addClientToTimeoutTable
  split
  · exact others
  · split
    · exact others
    · exact others.setClient _

theorem sameReady_addClient (s : Server C K D) (c : C) : SameReady s (s.addClientToTimeoutTable c) := by
  unfold addClientToTimeoutTable
  split
  · exact .refl s
  · split
    · exact .refl s
    · exact ⟨rfl,fun _ => rfl⟩

variable [DecidableEq K]

theorem update_waits (s : Server C K D) (c : C) (key : K) (entry : Option Nat) {keys : AList fun _ : K => Nat}
    (lookup : ∀ key', keys.lookup key' = if key' = key then entry else (s.clients c).keys.lookup key') :
    update s.waits c keys.lookup = revise s.waits c key entry := by
  apply Eq.symm
  rw [eq_update_iff]
  constructor
  · funext key'
    simp [revise,lookup,waits]
  · intro other differ
    funext key'
    simp [revise,differ]

variable [DecidableEq D]

theorem Core.congr (core : Core s) (others : Others c s t) (alike : Alike (s.clients c) (t.clients c))
    (lists : ∀ d, (t.dbs d).blockingKeys = (s.dbs d).blockingKeys)
    (counts : ∀ d, (t.dbs d).blockingKeysUnblockOnNokey = (s.dbs d).blockingKeysUnblockOnNokey)
    (next : t.nextNode = s.nextNode) (byType : t.blockedClientsByType = s.blockedClientsByType)
    (all : t.blockedClients = s.blockedClients) : Core t := by
  obtain ⟨typed,keyed,idle⟩ := core.sound c
  obtain ⟨db,blocked,btype,nokey,keys⟩ := alike
  refine core.remain others ⟨by rw [blocked,btype,typed],by rw [btype]; exact keyed,by rw [blocked,keys,nokey]; exact idle⟩ btype ?_ byType all
  have waits : t.waits = s.waits := by
    rw [others.waits,keys]
    exact update_eq_self c s.waits
  have flags : t.flags = s.flags := by
    rw [others.flags,nokey]
    exact update_eq_self c s.flags
  rw [others.home db,waits,flags,next]
  exact core.filed.congr_dbs lists counts

theorem Core.setClient (core : Core s) (alike : Alike (s.clients c) client) :
    Core (s.setClient c client) :=
  core.congr ((Others.refl c s).setClient client) (by rwa [setClient_self]) (fun _ => rfl) (fun _ => rfl) rfl rfl rfl

variable {nokey : Bool}

theorem blockForKey_filed {flag : C → Bool} (filed : Filed s.home s.waits flag s.dbs s.nextNode)
    (marked : flag c = nokey) (key : K) :
    ∃ dbs keys next, blockForKey c nokey s key = s.refiled c dbs keys next ∧ SameReady s (s.refiled c dbs keys next) ∧
      Filed s.home (s.refiled c dbs keys next).waits flag dbs next := by
  unfold blockForKey
  split
  · refine ⟨s.dbs,(s.clients c).keys,s.nextNode,(refiled_same s c).symm,?_,?_⟩
    · rw [refiled_same]
      exact SameReady.refl s
    · rw [refiled_same]
      exact filed
  · rename_i missing
    have absent : s.waits c key = none := by simpa [waits] using missing
    refine ⟨update s.dbs (s.home c) ((s.dbs (s.home c)).enlist key ⟨s.nextNode,c⟩ nokey),
      (s.clients c).keys.insert key s.nextNode,s.nextNode + 1,rfl,⟨rfl,?_⟩,?_⟩
    · intro d
      change (update s.dbs (s.home c) _ d).readyKeys = (s.dbs d).readyKeys
      by_cases at_home : d = s.home c
      · subst at_home
        rw [update_self]
        rfl
      · rw [update_of_ne at_home]
    · rw [waits_refiled,s.update_waits c key (some s.nextNode)]
      · exact filed.enlist absent marked
      intro key'
      by_cases same : key' = key
      · subst same
        simp
      · simp [same]

theorem blockForKeys_loop {flag : C → Bool} (keys : List K)
    (filed : Filed s.home s.waits flag s.dbs s.nextNode) (marked : flag c = nokey) :
    ∃ dbs own next, keys.foldl (blockForKey c nokey) s = s.refiled c dbs own next ∧
      SameReady s (s.refiled c dbs own next) ∧ Filed s.home (s.refiled c dbs own next).waits flag dbs next := by
  induction keys generalizing s with
  | nil =>
    refine ⟨s.dbs,(s.clients c).keys,s.nextNode,(refiled_same s c).symm,?_,?_⟩
    · rw [refiled_same]
      exact SameReady.refl s
    · rw [refiled_same]
      exact filed
  | cons key keys ih =>
    obtain ⟨dbs,own,next,step,ready,moved⟩ := blockForKey_filed filed marked key
    rw [← home_refiled s c dbs own next] at moved
    obtain ⟨dbs',own',next',loop,ready',moved'⟩ := ih moved
    rw [refiled_refiled] at loop ready' moved'
    rw [home_refiled] at moved'
    exact ⟨dbs',own',next',by rw [foldl_cons,step,loop],ready.trans ready',moved'⟩

theorem core_enrolled {dbs : D → Database C K} {own : AList fun _ : K => Nat} {next : Nat} {btype : BlockedType} (core : Core s) (free : (s.clients c).blocked = false) (keyed : btype ≠ .module)
    (filed : Filed s.home (s.refiled c dbs own next).waits (update s.flags c nokey) dbs next) :
    Core ((s.refiled c dbs own next).enrolled c btype nokey) := by
  have untyped : (s.clients c).btype = none := by simpa [free] using (core.sound c).typed
  have others : Others c s ((s.refiled c dbs own next).enrolled c btype nokey) := (others_refiled s c dbs own next).setClient _
  have client : ((s.refiled c dbs own next).enrolled c btype nokey).clients c = { s.clients c with
      keys := own, unblockOnNokey := nokey, pendingCommand := true, blocked := true, btype := some btype } := by
    simp [enrolled,refiled]
  apply core.change others
  · rw [client]
    exact ⟨rfl,by simpa using keyed,nofun⟩
  · rw [waits_refiled] at filed
    rw [others.home (by rw [client]),others.waits,others.flags,client]
    exact filed
  · intro other
    change Numbers _ (update s.blockedClientsByType btype (s.blockedClientsByType btype + 1) other)
    by_cases same : other = btype
    · subst same
      rw [update_self]
      exact (core.byType other).add (c := c) (by simp [untyped]) (by rw [client]) fun c' differ => by rw [others c' differ]
    · rw [update_of_ne same]
      exact (core.byType other).keep (c := c) (by simp [client,untyped,Ne.symm same]) fun c' differ => by rw [others c' differ]
  · exact core.all.add (c := c) (by simp [free]) (by rw [client]) fun c' differ => by rw [others c' differ]

theorem core_addClient (core : Core s) (c : C) : Core (s.addClientToTimeoutTable c) := by
  unfold addClientToTimeoutTable
  split
  · exact core
  · split
    · exact core
    · exact core.congr ((Others.refl c s).setClient _) (by rw [setClient_self]; exact ⟨rfl,rfl,rfl,rfl,rfl⟩) (fun _ => rfl) (fun _ => rfl) rfl rfl rfl

structure Changed (c : C) (s t : Server C K D) : Prop where
  core : Core t
  timed : Timed t
  others : Others c s t

theorem blockForKeys_changed (core : Core s) (timed : Timed s) (free : (s.clients c).blocked = false)
    (request : Request K) :
    Changed c s (s.blockForKeys c request) ∧ SameReady s (s.blockForKeys c request) := by
  -- the timeout is set or kept; either way only that field of the client changes
  obtain ⟨timeout,start⟩ : ∃ timeout, (if (s.clients c).reexecutingCommand then s
      else s.setClient c { s.clients c with timeout := request.timeout }) =
      s.setClient c { s.clients c with timeout := timeout } := by
    split
    · exact ⟨(s.clients c).timeout,by simp [Server.setClient]⟩
    · exact ⟨request.timeout,rfl⟩
  unfold blockForKeys
  simp only [start]
  have core₁ : Core (s.setClient c { s.clients c with timeout := timeout }) := core.setClient ⟨rfl,rfl,rfl,rfl,rfl⟩
  have timed₁ : Timed (s.setClient c { s.clients c with timeout := timeout }) := timed.setClient rfl (.inr free) rfl
  have others₁ : Others c s (s.setClient c { s.clients c with timeout := timeout }) := (Others.refl c s).setClient _
  have free₁ : ((s.setClient c { s.clients c with timeout := timeout }).clients c).blocked = false := by simpa using free
  have ready₁ : SameReady s (s.setClient c { s.clients c with timeout := timeout }) := ⟨rfl,fun _ => rfl⟩
  generalize s.setClient c { s.clients c with timeout := timeout } = u at core₁ timed₁ others₁ free₁ ready₁ ⊢
  have filed : Filed u.home u.waits (update u.flags c request.unblockOnNokey) u.dbs u.nextNode := by
    apply core₁.filed.congr_flag
    intro other key pos waiting
    have differ : other ≠ c := by
      rintro rfl
      rw [core₁.waits_none free₁] at waiting
      cases waiting
    exact update_of_ne differ _ _
  obtain ⟨dbs,own,next,loop,ready,moved⟩ := blockForKeys_loop request.keys filed (update_self _ _ _)
  rw [loop]
  have added : ∀ v : Server C K D, v = (u.refiled c dbs own next).enrolled c request.btype request.unblockOnNokey →
      Changed c s (v.addClientToTimeoutTable c) ∧ SameReady s (v.addClientToTimeoutTable c) := by
    rintro v rfl
    have others : Others c u ((u.refiled c dbs own next).enrolled c request.btype request.unblockOnNokey) :=
      (others_refiled u c dbs own next).setClient _
    have unflagged : (u.clients c).inToTable = false := by
      have := timed₁.flag c
      simpa [free₁] using this
    refine ⟨⟨core_addClient (core_enrolled core₁ free₁ request.keyed moved) c,?_,(others₁.trans others).addClient⟩,?_⟩
    · exact timed_addClient timed₁ free₁ others rfl (by simp [enrolled]) (by simp [enrolled,refiled,unflagged])
    · have placed : SameReady (u.refiled c dbs own next)
          ((u.refiled c dbs own next).enrolled c request.btype request.unblockOnNokey) := ⟨rfl,fun _ => rfl⟩
      exact (ready₁.trans (ready.trans placed)).trans (sameReady_addClient _ c)
  apply added
  simp [enrolled,Server.setClient]

end Server

end ValkeyWasm.Blocking
