import ValkeyWasm.Blocked.Blocked

/-! The lists of waiting clients, the counters and the clients' own keys agree (`Waits`); and what a command that
does not block may do to them (`Quiet`): a client that becomes servable on a key finds the key signalled. -/

namespace ValkeyWasm.Blocked
open Function List Option

variable {C K E : Type} {dbnum : Nat}

def BlockingCommand.btype : BlockingCommand K → BlockedType
  | .pop _ _ _ => .list
  | .move _ _ _ _ => .list
  | .zpop _ _ _ => .zset

def BlockingCommand.keys : BlockingCommand K → List K
  | .pop keys _ _ => keys
  | .move src _ _ _ => [src]
  | .zpop keys _ _ => keys

structure Waits [DecidableEq K] (s : Server C K E dbnum) : Prop where
  waiting : ∀ db key c, c ∈ s.waiting db key ↔ (s.clients c).db = db ∧ key ∈ (s.clients c).keys
  nodup : ∀ db key, (s.waiting db key).Nodup
  nodup_keys : ∀ c, (s.clients c).keys.Nodup
  idle : ∀ c, (s.clients c).btype = none → (s.clients c).keys = []
  counted : ∀ b, ∃ l : List C, l.Nodup ∧ (∀ c, c ∈ l ↔ (s.clients c).btype = some b) ∧ s.blockedClientsByType b = l.length
  nokey : ∀ c, (s.clients c).unblockOnNokey = false
  command : ∀ c b, (s.clients c).btype = some b →
    ∃ command, (s.clients c).command = some command ∧ command.btype = b ∧ ∀ key ∈ (s.clients c).keys, key ∈ command.keys

def Servable (s : Server C K E dbnum) (c : C) (db : Fin dbnum) (key : K) : Prop :=
  (s.clients c).db = db ∧ key ∈ (s.clients c).keys ∧
    ∃ entry, visible s db key = some entry ∧ getBlockedTypeByType entry.value.type = (s.clients c).btype

/-- The keys flagged in the databases are those queued, in the server's list or in the one being worked off. -/
structure Queued (pending : List (Fin dbnum × K)) (s : Server C K E dbnum) : Prop where
  flagged : ∀ db key, s.dbReadyKeys db key = true ↔ (db,key) ∈ s.readyKeys ++ pending
  nodup : (s.readyKeys ++ pending).Nodup

variable {s t : Server C K E dbnum}

theorem Queued.congr {pending : List (Fin dbnum × K)} (queued : Queued pending s)
    (dbReadyKeys : t.dbReadyKeys = s.dbReadyKeys) (readyKeys : t.readyKeys = s.readyKeys) : Queued pending t := by
  constructor
  · rw [dbReadyKeys,readyKeys]
    exact queued.flagged
  · rw [readyKeys]
    exact queued.nodup

structure Quiet (s t : Server C K E dbnum) : Prop where
  now : t.now = s.now
  clients : t.clients = s.clients
  blockingKeys : t.blockingKeys = s.blockingKeys
  counts : t.blockedClientsByType = s.blockedClientsByType
  ready : ∀ db key, s.dbReadyKeys db key = true → t.dbReadyKeys db key = true
  servable : ∀ c db key, Servable t c db key → Servable s c db key ∨ t.dbReadyKeys db key = true
  queued : ∀ pending, Queued pending s → Queued pending t

theorem Quiet.refl (s : Server C K E dbnum) : Quiet s s :=
  ⟨rfl,rfl,rfl,rfl,fun _ _ => id,fun _ _ _ => .inl,fun _ => id⟩

theorem Quiet.trans {u : Server C K E dbnum} (first : Quiet s t) (second : Quiet t u) : Quiet s u where
  now := second.now.trans first.now
  clients := second.clients.trans first.clients
  blockingKeys := second.blockingKeys.trans first.blockingKeys
  counts := second.counts.trans first.counts
  ready db key before := second.ready db key (first.ready db key before)
  servable c db key after := by
    rcases second.servable c db key after with between | ready
    · exact (first.servable c db key between).imp_right (second.ready db key)
    · exact .inr ready
  queued pending before := second.queued pending (first.queued pending before)

variable [DecidableEq K]

theorem Waits.congr (waits : Waits s) (clients : t.clients = s.clients) (rows : t.waiting = s.waiting)
    (counts : t.blockedClientsByType = s.blockedClientsByType) : Waits t := by
  constructor <;> simp only [clients,rows,counts]
  exacts [waits.waiting,waits.nodup,waits.nodup_keys,waits.idle,waits.counted,waits.nokey,waits.command]

theorem Quiet.waiting (quiet : Quiet s t) : t.waiting = s.waiting := by
  unfold Server.waiting
  rw [quiet.blockingKeys]

theorem Quiet.waits (quiet : Quiet s t) (waits : Waits s) : Waits t := waits.congr quiet.clients quiet.waiting quiet.counts

/-- What `Waits` asks of a client alone. -/
structure Client.Fine (client : Client K dbnum) : Prop where
  nodup : client.keys.Nodup
  idle : client.btype = none → client.keys = []
  nokey : client.unblockOnNokey = false
  command : ∀ b, client.btype = some b →
    ∃ command, client.command = some command ∧ command.btype = b ∧ ∀ key ∈ client.keys, key ∈ command.keys

theorem Waits.change (waits : Waits s) (c : C) (others : ∀ c', c' ≠ c → t.clients c' = s.clients c')
    (rows : ∀ db key c', c' ≠ c → (c' ∈ t.waiting db key ↔ c' ∈ s.waiting db key))
    (mine : ∀ db key, c ∈ t.waiting db key ↔ (t.clients c).db = db ∧ key ∈ (t.clients c).keys)
    (nodup : ∀ db key, (t.waiting db key).Nodup) (fine : (t.clients c).Fine)
    (counted : ∀ b, ∃ l : List C, l.Nodup ∧ (∀ c', c' ∈ l ↔ (t.clients c').btype = some b) ∧ t.blockedClientsByType b = l.length) :
    Waits t := by
  have each : ∀ c', (t.clients c').Fine := by
    intro c'
    by_cases here : c' = c
    · exact here ▸ fine
    · rw [others c' here]
      exact ⟨waits.nodup_keys c',waits.idle c',waits.nokey c',waits.command c'⟩
  refine ⟨fun db key c' => ?_,nodup,fun c' => (each c').nodup,fun c' => (each c').idle,counted,fun c' => (each c').nokey,
    fun c' => (each c').command⟩
  by_cases here : c' = c
  · exact here ▸ mine db key
  · rw [rows db key c' here,others c' here]
    exact waits.waiting db key c'

theorem Waits.counted_congr (waits : Waits s) {c : C} (others : ∀ c', c' ≠ c → t.clients c' = s.clients c')
    (mine : (t.clients c).btype = (s.clients c).btype) (counts : t.blockedClientsByType = s.blockedClientsByType) (b : BlockedType) :
    ∃ l : List C, l.Nodup ∧ (∀ c', c' ∈ l ↔ (t.clients c').btype = some b) ∧ t.blockedClientsByType b = l.length := by
  have same : ∀ c', (t.clients c').btype = (s.clients c').btype := by
    intro c'
    by_cases here : c' = c
    · rw [here,mine]
    · rw [others c' here]
  simp only [same,counts]
  exact waits.counted b

/-! ## Signals -/

section
variable (db : Fin dbnum) (key : K) (s : Server C K E dbnum)

theorem queueReadyKey_ready (db' : Fin dbnum) (key' : K) :
    (queueReadyKey db key s).dbReadyKeys db' key' = true ↔ (db' = db ∧ key' = key) ∨ s.dbReadyKeys db' key' = true := by
  unfold queueReadyKey
  split
  · rename_i already
    constructor
    · exact .inr
    · rintro (⟨rfl,rfl⟩ | before)
      · exact already
      · exact before
  · rcases eq_or_ne db' db with rfl | other
    · rcases eq_or_ne key' key with rfl | otherKey
      · simp
      · simp [otherKey]
    · simp [other]

theorem quiet_queueReadyKey : Quiet s (queueReadyKey db key s) := by
  have ready := queueReadyKey_ready db key s
  refine ⟨?_,?_,?_,?_,fun db' key' before => (ready db' key').mpr (.inr before),?_,?_⟩
  · unfold queueReadyKey; split <;> rfl
  · unfold queueReadyKey; split <;> rfl
  · unfold queueReadyKey; split <;> rfl
  · unfold queueReadyKey; split <;> rfl
  · intro c db' key' servable
    refine .inl ?_
    unfold queueReadyKey at servable
    split at servable <;> exact servable
  intro pending queued
  by_cases already : s.dbReadyKeys db key = true
  · unfold queueReadyKey
    rw [if_pos already]
    exact queued
  have readyKeys : (queueReadyKey db key s).readyKeys = s.readyKeys ++ [(db,key)] := by
    unfold queueReadyKey
    rw [if_neg already]
  have absent : (db,key) ∉ s.readyKeys ++ pending := fun member => already ((queued.flagged db key).mpr member)
  constructor
  · intro db' key'
    rw [ready,readyKeys,queued.flagged]
    simp only [mem_append,mem_singleton,Prod.mk.injEq]
    tauto
  · rw [readyKeys,append_assoc]
    exact nodup_middle.mpr (nodup_cons.mpr ⟨absent,queued.nodup⟩)

theorem quiet_signal (type : ObjType) (deleted : Bool) : Quiet s (signalKeyAsReadyLogic db key type deleted s) := by
  unfold signalKeyAsReadyLogic
  split
  · exact .refl s
  split
  · exact .refl s
  split
  · split
    · exact .refl s
    · exact quiet_queueReadyKey db key s
  · split
    · exact .refl s
    · exact quiet_queueReadyKey db key s

end

theorem signal_keys (db : Fin dbnum) (key : K) (type : ObjType) (deleted : Bool) (s : Server C K E dbnum) :
    (signalKeyAsReadyLogic db key type deleted s).keys = s.keys := by
  unfold signalKeyAsReadyLogic queueReadyKey
  split_ifs <;> first | rfl | (split <;> first | rfl | (split_ifs <;> rfl))

variable {db : Fin dbnum} {key : K}

theorem ready_of_signal (waits : Waits s) {c : C} {type : ObjType}
    (here : (s.clients c).db = db) (member : key ∈ (s.clients c).keys)
    (type_eq : getBlockedTypeByType type = (s.clients c).btype) :
    (signalKeyAsReady db key type s).dbReadyKeys db key = true := by
  have blocked : (s.clients c).btype ≠ none := by
    intro idle
    rw [waits.idle c idle] at member
    cases member
  obtain ⟨b,hb⟩ := ne_none_iff_exists'.mp blocked
  obtain ⟨l,-,members,length⟩ := waits.counted b
  have positive : s.blockedClientsByType b ≠ 0 := by
    rw [length]
    exact Nat.pos_iff_ne_zero.mp (length_pos_of_mem ((members c).mpr hb))
  have listed : (s.blockingKeys db).lookup key ≠ none := by
    intro absent
    have inside := (waits.waiting db key c).mpr ⟨here,member⟩
    rw [Server.waiting,absent] at inside
    cases inside
  rw [hb] at type_eq
  unfold signalKeyAsReady signalKeyAsReadyLogic
  simp only [type_eq,positive,false_and,if_false,Bool.false_eq_true,listed]
  exact (queueReadyKey_ready db key s db key).mpr (.inl ⟨rfl,rfl⟩)

/-! ## Contents -/

theorem setKey_keys (db db' : Fin dbnum) (key key' : K) (entry : Option (Entry E)) (s : Server C K E dbnum) :
    (s.setKey db key entry).keys db' key' = if db' = db ∧ key' = key then entry else s.keys db' key' := by
  unfold Server.setKey
  rcases eq_or_ne db' db with rfl | other
  · simp [update_apply]
  · simp [other]

omit [DecidableEq K] in
theorem visible_congr (now : t.now = s.now)
    (keys : t.keys db key = s.keys db key) : visible t db key = visible s db key := by
  unfold visible
  rw [now,keys]

theorem visible_setKey_other {db' : Fin dbnum} {key' : K} (other : ¬(db' = db ∧ key' = key)) (entry : Option (Entry E))
    (s : Server C K E dbnum) : visible (s.setKey db key entry) db' key' = visible s db' key' := by
  have same : (s.setKey db key entry).keys db' key' = s.keys db' key' := by rw [setKey_keys,if_neg other]
  unfold visible
  rw [same]
  rfl

theorem quiet_setKey {entry : Option (Entry E)}
    (calm : ∀ c, Servable (s.setKey db key entry) c db key → Servable s c db key) : Quiet s (s.setKey db key entry) := by
  refine ⟨rfl,rfl,rfl,rfl,fun _ _ => id,fun c db' key' servable => .inl ?_,fun _ queued => queued.congr rfl rfl⟩
  by_cases place : db' = db ∧ key' = key
  · obtain ⟨rfl,rfl⟩ := place
    exact calm c servable
  · obtain ⟨here,member,found,sees,type⟩ := servable
    exact ⟨here,member,found,(visible_setKey_other place entry s).symm.trans sees,type⟩

theorem quiet_delete (db : Fin dbnum) (key : K) (s : Server C K E dbnum) : Quiet s (s.setKey db key none) := by
  apply quiet_setKey
  rintro c ⟨-,-,found,sees,-⟩
  simp [visible,setKey_keys] at sees

theorem quiet_dbDelete (db : Fin dbnum) (key : K) (s : Server C K E dbnum) : Quiet s (dbDelete db key s) := by
  unfold dbDelete
  split
  · exact .refl s
  · exact (quiet_signal db key s _ true).trans (quiet_delete db key _)

theorem dbDelete_keys (db db' : Fin dbnum) (key key' : K) (s : Server C K E dbnum) :
    (dbDelete db key s).keys db' key' = if db' = db ∧ key' = key then none else s.keys db' key' := by
  unfold dbDelete
  split
  · rename_i absent
    split
    · rename_i place
      rw [place.1,place.2,absent]
    · rfl
  · rw [setKey_keys,signalDeletedKeyAsReady,signal_keys]

theorem quiet_dbAdd (waits : Waits s) (db : Fin dbnum) (key : K) (entry : Entry E) :
    Quiet s (dbAdd db key entry s) := by
  have signalled := quiet_signal db key (s.setKey db key (some entry)) entry.value.type false
  refine ⟨signalled.now,signalled.clients,signalled.blockingKeys,signalled.counts,signalled.ready,?_,
    fun pending queued => signalled.queued pending (queued.congr rfl rfl)⟩
  intro c db' key' servable
  rcases signalled.servable c db' key' servable with before | ready
  · by_cases place : db' = db ∧ key' = key
    · right
      obtain ⟨rfl,rfl⟩ := place
      obtain ⟨here,member,found,sees,type⟩ := before
      have same : found = entry := by
        unfold visible at sees
        rw [setKey_keys,if_pos ⟨rfl,rfl⟩,filter_eq_some_iff] at sees
        exact (Option.some.inj sees.1).symm
      subst same
      have waits' : Waits (s.setKey db' key' (some found)) :=
        ⟨waits.waiting,waits.nodup,waits.nodup_keys,waits.idle,waits.counted,waits.nokey,waits.command⟩
      exact ready_of_signal waits' here member type
    · left
      obtain ⟨here,member,found,sees,type⟩ := before
      exact ⟨here,member,found,(visible_setKey_other place (some entry) s).symm.trans sees,type⟩
  · exact .inr ready

theorem dbAdd_keys (db db' : Fin dbnum) (key key' : K) (entry : Entry E) (s : Server C K E dbnum) :
    (dbAdd db key entry s).keys db' key' = if db' = db ∧ key' = key then some entry else s.keys db' key' := by
  unfold dbAdd
  rw [signalKeyAsReady,signal_keys,setKey_keys]

/-- No client waits for the key with the type of the value that is put in the place of another. -/
def Spares (s : Server C K E dbnum) (db : Fin dbnum) (key : K) (value : Value E) : Prop :=
  ∀ c ∈ s.waiting db key, getBlockedTypeByType value.type ≠ (s.clients c).btype

theorem quiet_dbSetValue (waits : Waits s) {old : Entry E}
    {value : Value E} (spared : Spares s db key value) : Quiet s (dbSetValue db key old value s) := by
  have signalled := quiet_signal db key s old.value.type true
  refine signalled.trans (quiet_setKey ?_)
  rintro c ⟨here,member,found,sees,type⟩
  have clients := signalled.clients
  unfold visible at sees
  rw [setKey_keys,if_pos ⟨rfl,rfl⟩,filter_eq_some_iff] at sees
  obtain ⟨rfl,-⟩ : _ = found ∧ _ := ⟨Option.some.inj sees.1,sees.2⟩
  change ((signalKeyAsReadyLogic db key old.value.type true s).clients c).db = db at here
  change key ∈ ((signalKeyAsReadyLogic db key old.value.type true s).clients c).keys at member
  change _ = ((signalKeyAsReadyLogic db key old.value.type true s).clients c).btype at type
  rw [clients] at here member type
  exact absurd type (spared c ((waits.waiting db key c).mpr ⟨here,member⟩))

theorem quiet_updateValue {entry : Entry E} {value : Option (Value E)}
    (sees : visible s db key = some entry) (same : ∀ v, value = some v → v.type = entry.value.type) :
    Quiet s (updateValue db key entry value s) := by
  cases value with
  | none => exact quiet_dbDelete db key s
  | some v =>
    refine quiet_setKey ?_
    rintro c ⟨here,member,found,sees',type⟩
    refine ⟨here,member,entry,sees,?_⟩
    unfold visible at sees'
    rw [setKey_keys,if_pos ⟨rfl,rfl⟩,filter_eq_some_iff] at sees'
    obtain rfl := Option.some.inj sees'.1
    rw [← same v rfl]
    exact type

/-! ## Looking up -/

structure LookedUp (db : Fin dbnum) (key : K) (s : Server C K E dbnum) (found : Option (Entry E)) (t : Server C K E dbnum) :
    Prop where
  quiet : Quiet s t
  sees : found = visible s db key
  visible : ∀ db' key', Blocked.visible t db' key' = Blocked.visible s db' key'
  stored : t.keys db key = found
  others : ∀ db' key', ¬(db' = db ∧ key' = key) → t.keys db' key' = s.keys db' key'

theorem lookupKey_spec (db : Fin dbnum) (key : K) (s : Server C K E dbnum) :
    LookedUp db key s (lookupKey db key s).1 (lookupKey db key s).2 := by
  unfold lookupKey
  split
  · rename_i absent
    refine ⟨.refl s,?_,fun _ _ => rfl,absent,fun _ _ _ => rfl⟩
    simp [visible,absent]
  rename_i entry stored
  split
  · rename_i expired
    have quiet := quiet_dbDelete db key s
    refine ⟨quiet,?_,fun db' key' => ?_,?_,fun db' key' other => ?_⟩
    · simp [visible,stored,Option.filter,expired]
    · by_cases place : db' = db ∧ key' = key
      · obtain ⟨rfl,rfl⟩ := place
        simp [visible,dbDelete_keys,stored,Option.filter,expired]
      · refine visible_congr quiet.now ?_
        rw [dbDelete_keys,if_neg place]
    · rw [dbDelete_keys,if_pos ⟨rfl,rfl⟩]
    · rw [dbDelete_keys,if_neg other]
  · rename_i valid
    refine ⟨.refl s,?_,fun _ _ => rfl,stored,fun _ _ _ => rfl⟩
    simp [visible,stored,Option.filter,valid]

end ValkeyWasm.Blocked
