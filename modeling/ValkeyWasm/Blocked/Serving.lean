import ValkeyWasm.Blocked.Blocking

/-! Releasing a client, and the loop that serves the clients of the keys that are ready. -/

namespace ValkeyWasm.Blocked
open Function List Option

variable {C K E : Type} {dbnum : Nat} [DecidableEq C] [DecidableEq K]

/-! ## Release -/

structure Parted (c : C) (l : List K) (s t : Server C K E dbnum) : Prop where
  same : SameKeys s t
  counts : t.blockedClientsByType = s.blockedClientsByType
  clients : t.clients = s.clients
  waiting : ∀ db key, t.waiting db key =
    if db = (s.clients c).db ∧ key ∈ l then (s.waiting db key).erase c else s.waiting db key

variable {s : Server C K E dbnum} {c : C} {key : K}

theorem parted_releaseBlockedEntry (nokey : (s.clients c).unblockOnNokey = false)
    (member : c ∈ s.waiting (s.clients c).db key) : ∃ t, releaseBlockedEntry c key s = some t ∧ Parted c [key] s t := by
  unfold releaseBlockedEntry
  dsimp only
  rw [if_pos member,nokey]
  have waiting : ∀ db' key', (s.setWaiting (s.clients c).db key ((s.waiting (s.clients c).db key).erase c)).waiting db' key' =
      if db' = (s.clients c).db ∧ key' ∈ [key] then (s.waiting db' key').erase c else s.waiting db' key' := by
    intro db' key'
    rw [setWaiting_waiting]
    simp only [mem_singleton]
    by_cases place : db' = (s.clients c).db ∧ key' = key
    · rw [if_pos place,if_pos place,place.1,place.2]
    · rw [if_neg place,if_neg place]
  split
  · exact ⟨_,rfl,⟨rfl,rfl,rfl,rfl⟩,rfl,rfl,waiting⟩
  · exact ⟨_,rfl,⟨rfl,rfl,rfl,rfl⟩,rfl,rfl,waiting⟩

variable {t : Server C K E dbnum}

theorem Parted.cons {l : List K} {u : Server C K E dbnum} (first : Parted c [key] s t)
    (second : Parted c l t u) (apart : key ∉ l) : Parted c (key :: l) s u := by
  refine ⟨first.same.trans second.same,second.counts.trans first.counts,second.clients.trans first.clients,fun db' key' => ?_⟩
  rw [second.waiting,first.waiting,first.clients]
  by_cases here : db' = (s.clients c).db
  · by_cases same : key' = key
    · subst same
      simp [here,apart]
    · simp [here,same]
  · simp [here]

theorem parted_release {c : C} {l : List K} : ∀ s : Server C K E dbnum, (s.clients c).unblockOnNokey = false → l.Nodup →
    (∀ key ∈ l, c ∈ s.waiting (s.clients c).db key) →
    ∃ t, l.foldlM (fun t key => releaseBlockedEntry c key t) s = some t ∧ Parted c l s t := by
  induction l with
  | nil => exact fun s _ _ _ => ⟨s,rfl,.refl s,rfl,rfl,by simp⟩
  | cons key rest ih =>
    intro s nokey nodup member
    obtain ⟨apart,distinct⟩ := nodup_cons.mp nodup
    obtain ⟨t,step,first⟩ := parted_releaseBlockedEntry nokey (member key mem_cons_self)
    obtain ⟨u,fold,second⟩ := ih t (by rw [first.clients,nokey]) distinct (by
      intro other inside
      have elsewhere : ¬((s.clients c).db = (s.clients c).db ∧ other ∈ [key]) :=
        fun place => apart (mem_singleton.mp place.2 ▸ inside)
      rw [first.clients,first.waiting,if_neg elsewhere]
      exact member other (mem_cons_of_mem key inside))
    refine ⟨u,?_,first.cons second apart⟩
    rw [foldlM_cons,step]
    exact fold

def discharged (client : Client K dbnum) : Client K dbnum :=
  { client with btype := none, keys := [], unblockOnNokey := false }

structure Left (c : C) (btype : BlockedType) (s t : Server C K E dbnum) : Prop where
  same : SameKeys s t
  client : t.clients c = discharged (s.clients c)
  others : ∀ c', c' ≠ c → t.clients c' = s.clients c'
  waiting : ∀ db key, t.waiting db key = (s.waiting db key).erase c
  counts : t.blockedClientsByType = Function.update s.blockedClientsByType btype (s.blockedClientsByType btype - 1)

variable {btype : BlockedType}

theorem counted_erase (waits : Waits s)
    (blocked : (s.clients c).btype = some btype) (b : BlockedType) {clients : C → Client K dbnum}
    (mine : (clients c).btype = none) (others : ∀ c', c' ≠ c → (clients c').btype = (s.clients c').btype) :
    ∃ l : List C, l.Nodup ∧ (∀ c', c' ∈ l ↔ (clients c').btype = some b) ∧
      update s.blockedClientsByType btype (s.blockedClientsByType btype - 1) b = l.length := by
  obtain ⟨l,nodup,members,length⟩ := waits.counted b
  refine ⟨l.erase c,nodup.erase c,fun c' => ?_,?_⟩
  · rw [nodup.mem_erase_iff,members]
    by_cases here : c' = c
    · subst here
      simp [mine]
    · rw [others c' here]
      exact ⟨And.right,fun equal => ⟨here,equal⟩⟩
  · by_cases same : b = btype
    · subst same
      rw [update_self,length_erase_of_mem ((members c).mpr blocked),length]
    · rw [update_of_ne same,length,erase_of_not_mem]
      rw [members,blocked]
      exact fun equal => same (Option.some.inj equal).symm

theorem Left.waits (left : Left c btype s t) (before : Waits s)
    (blocked : (s.clients c).btype = some btype) : Waits t := by
  refine before.change c left.others (fun db key c' other => ?_) (fun db key => ?_) (fun db key => ?_) ?_ fun b => ?_
  · rw [left.waiting,(before.nodup db key).mem_erase_iff]
    exact and_iff_right other
  · simp [left.waiting,left.client,discharged,(before.nodup db key).not_mem_erase]
  · rw [left.waiting]
    exact (before.nodup db key).erase c
  · rw [left.client]
    exact ⟨nodup_nil,fun _ => rfl,rfl,fun _ typed => absurd typed.symm (Option.some_ne_none _)⟩
  · rw [left.counts]
    exact counted_erase before blocked b (by rw [left.client,discharged]) fun c' other => by rw [left.others c' other]

theorem left_unblockClient (waits : Waits s)
    (blocked : (s.clients c).btype = some btype) : ∃ t, unblockClient c s = some t ∧ Left c btype s t := by
  obtain ⟨t,fold,parted⟩ := parted_release s (waits.nokey c) (waits.nodup_keys c)
    fun key member => (waits.waiting _ key c).mpr ⟨rfl,member⟩
  have step : unblockClientWaitingData c s = some (t.setClient c { t.clients c with keys := [] }) := by
    unfold unblockClientWaitingData
    rw [fold]
    rfl
  unfold unblockClient
  rw [blocked,step]
  refine ⟨_,rfl,⟨parted.same.now,parted.same.keys,parted.same.dbReadyKeys,parted.same.readyKeys⟩,?_,?_,?_,?_⟩
  · refine (setClient_clients c c _ _).trans ?_
    rw [if_pos rfl,setClient_clients,if_pos rfl,parted.clients]
    rfl
  · intro c' other
    refine (setClient_clients c c' _ _).trans ?_
    rw [if_neg other,setClient_clients,if_neg other,parted.clients]
  · intro db key
    refine (parted.waiting db key).trans ?_
    split
    · rfl
    rename_i outside
    rw [erase_of_not_mem]
    rw [waits.waiting]
    exact fun inside => outside ⟨inside.1.symm,inside.2⟩
  · exact congrArg (fun counts => update counts btype (counts btype - 1)) parted.counts

variable {db : Fin dbnum}

theorem Left.servable (left : Left c btype s t) {c' : C}
    (servable : Servable t c' db key) : Servable s c' db key := by
  by_cases here : c' = c
  · obtain ⟨-,member,-⟩ := servable
    rw [here,left.client] at member
    cases member
  · exact left.same.servable (left.others c' here) servable

/-! ## Serving one client -/

omit [DecidableEq C] in
theorem btype_of_waits (waits : Waits s)
    (blocked : (s.clients c).btype = some btype) : btype = .list ∨ btype = .zset := by
  obtain ⟨command,-,rfl,-⟩ := waits.command c btype blocked
  cases command with
  | pop => exact .inl rfl
  | move => exact .inl rfl
  | zpop => exact .inr rfl

omit [DecidableEq C] in
theorem blockedClients_lt (waits : Waits s)
    (blocked : (s.clients c).btype = some btype)
    (counts : t.blockedClientsByType = update s.blockedClientsByType btype (s.blockedClientsByType btype - 1)) :
    blockedClients t < blockedClients s := by
  have positive : 0 < s.blockedClientsByType btype := by
    obtain ⟨l,-,members,length⟩ := waits.counted btype
    rw [length]
    exact length_pos_of_mem ((members c).mpr blocked)
  unfold blockedClients
  rw [counts]
  rcases btype_of_waits waits blocked with rfl | rfl
  · rw [update_self,update_of_ne (by decide)]
    omega
  · rw [update_self,update_of_ne (by decide)]
    omega

structure Served (c : C) (s t : Server C K E dbnum) : Prop where
  waits : Waits t
  keys : (t.clients c).keys = []
  ready : ∀ db key, s.dbReadyKeys db key = true → t.dbReadyKeys db key = true
  servable : ∀ c' db key, Servable t c' db key → Servable s c' db key ∨ t.dbReadyKeys db key = true
  queued : ∀ pending, Queued pending s → Queued pending t
  waiting : ∀ db key, t.waiting db key = (s.waiting db key).erase c
  fewer : blockedClients t < blockedClients s

theorem waits_parted (waits : Waits s) (parted : Parted c [key] s t)
    (member : key ∈ (s.clients c).keys) :
    Waits (t.setClient c { t.clients c with keys := (t.clients c).keys.erase key }) := by
  have mine : (t.setClient c { t.clients c with keys := (t.clients c).keys.erase key }).clients c =
      { s.clients c with keys := (s.clients c).keys.erase key } := by
    rw [setClient_clients,if_pos rfl,parted.clients]
  have others : ∀ c', c' ≠ c →
      (t.setClient c { t.clients c with keys := (t.clients c).keys.erase key }).clients c' = s.clients c' := by
    intro c' other
    rw [setClient_clients,if_neg other,parted.clients]
  have waiting : ∀ db' key', (t.setClient c { t.clients c with keys := (t.clients c).keys.erase key }).waiting db' key' =
    if db' = (s.clients c).db ∧ key' ∈ [key] then (s.waiting db' key').erase c else s.waiting db' key' := parted.waiting
  have counts : (t.setClient c { t.clients c with keys := (t.clients c).keys.erase key }).blockedClientsByType =
    s.blockedClientsByType := parted.counts
  generalize t.setClient c { t.clients c with keys := (t.clients c).keys.erase key } = u at mine others waiting counts ⊢
  refine waits.change c others (fun db' key' c' other => ?_) (fun db' key' => ?_) (fun db' key' => ?_) ?_ (waits.counted_congr others (by rw [mine]) counts)
  · rw [waiting]
    split
    · rw [(waits.nodup db' key').mem_erase_iff]
      exact and_iff_right other
    · rfl
  · rw [waiting,mine,(waits.nodup_keys c).mem_erase_iff]
    split
    · rename_i place
      rw [(waits.nodup db' key').mem_erase_iff]
      simp [mem_singleton.mp place.2]
    rename_i place
    rw [waits.waiting]
    constructor
    · rintro ⟨rfl,inside⟩
      exact ⟨rfl,fun same => place ⟨rfl,mem_singleton.mpr same⟩,inside⟩
    · exact fun inside => ⟨inside.1,inside.2.2⟩
  · rw [waiting]
    split
    · exact (waits.nodup db' key').erase c
    · exact waits.nodup db' key'
  · rw [mine]
    refine ⟨(waits.nodup_keys c).erase key,fun none => ?_,waits.nokey c,fun b blocked => ?_⟩
    · rw [waits.idle c none] at member
      cases member
    · obtain ⟨command,has,type,inside⟩ := waits.command c b blocked
      exact ⟨command,has,type,fun k member => inside k (mem_of_mem_erase member)⟩

theorem waits_setClient (waits : Waits s) (idle : (s.clients c).btype = none)
    {client : Client K dbnum} (btype : client.btype = none) (keys : client.keys = []) (nokey : client.unblockOnNokey = false) :
    Waits (s.setClient c client) := by
  have mine : (s.setClient c client).clients c = client := by rw [setClient_clients,if_pos rfl]
  have others : ∀ c', c' ≠ c → (s.setClient c client).clients c' = s.clients c' := by
    intro c' other
    rw [setClient_clients,if_neg other]
  have outside : ∀ db key, c ∉ s.waiting db key := by
    intro db key member
    rw [waits.waiting,waits.idle c idle] at member
    cases member.2
  refine waits.change c others (fun db key c' _ => Iff.rfl) (fun db key => ?_) waits.nodup ?_ (waits.counted_congr others (by rw [mine,btype,idle]) rfl)
  · rw [mine,keys]
    exact ⟨fun member => absurd member (outside db key),fun ⟨_,member⟩ => (by cases member)⟩
  rw [mine]
  refine ⟨?_,fun _ => keys,nokey,fun b blocked => ?_⟩
  · rw [keys]
    exact nodup_nil
  · rw [btype] at blocked
    cases blocked

theorem served_unblockClientOnKey (waits : Waits s)
    (member : c ∈ s.waiting db key) (blocked : (s.clients c).btype = some btype)
    (present : visible s db key ≠ none) : ∃ t, unblockClientOnKey c key s = some t ∧ Served c s t := by
  obtain ⟨rfl,inside⟩ := (waits.waiting db key c).mp member
  obtain ⟨command,has,-,wanted⟩ := waits.command c btype blocked
  obtain ⟨t,release,parted⟩ := parted_releaseBlockedEntry (waits.nokey c) member
  have waits' := waits_parted waits parted inside
  set t' := t.setClient c { t.clients c with keys := (t.clients c).keys.erase key } with ht'
  have mine : t'.clients c = { s.clients c with keys := (s.clients c).keys.erase key } := by
    rw [ht',setClient_clients,if_pos rfl,parted.clients]
  have others : ∀ c', c' ≠ c → t'.clients c' = s.clients c' := by
    intro c' other
    rw [ht',setClient_clients,if_neg other,parted.clients]
  have blocked' : (t'.clients c).btype = some btype := by rw [mine,blocked]
  obtain ⟨u,unblock,left⟩ := left_unblockClient waits' blocked'
  have idle : (u.clients c).btype = none := by rw [left.client,discharged]
  have waits'' : Waits (u.setClient c { u.clients c with command := none }) := by
    apply waits_setClient (left.waits waits' blocked') idle
    · exact idle
    · rw [left.client,discharged]
    · rw [left.client,discharged]
  set v := u.setClient c { u.clients c with command := none } with hv
  have step : unblockClientOnKey c key s = some (runBlocking c command false v) := by
    have has' : (t.clients c).command = some command := by rw [parted.clients,has]
    change (releaseBlockedEntry c key s).bind (fun t => (t.clients c).command.bind fun command =>
      (unblockClient c (t.setClient c { t.clients c with keys := (t.clients c).keys.erase key })).bind fun u =>
        some (runBlocking c command false (u.setClient c { u.clients c with command := none }))) = _
    rw [release,bind_some,has',bind_some,unblock,bind_some]
  have mine' : v.clients c = { discharged (t'.clients c) with command := none } := by
    rw [hv,setClient_clients,if_pos rfl,left.client]
  have others' : ∀ c', c' ≠ c → v.clients c' = s.clients c' := by
    intro c' other
    rw [hv,setClient_clients,if_neg other,left.others c' other,others c' other]
  have same : SameKeys s v := by
    have before : SameKeys s t' := ⟨parted.same.now,parted.same.keys,parted.same.dbReadyKeys,parted.same.readyKeys⟩
    have after : SameKeys u v := ⟨rfl,rfl,rfl,rfl⟩
    exact (before.trans left.same).trans after
  have place : (v.clients c).db = (s.clients c).db := by rw [mine',discharged,mine]
  have quiet : Quiet v (runBlocking c command false v) := by
    rcases runBlocking_cases waits'' (c := c) (by rw [mine',discharged]) command false with quiet | ⟨-,absent,-⟩
    · exact quiet
    exfalso
    apply present
    rw [← same.visible,← place]
    exact absent key (wanted key inside)
  refine ⟨_,step,quiet.waits waits'',?_,?_,?_,?_,?_,?_⟩
  · rw [quiet.clients,mine',discharged]
  · intro db' key' ready
    apply quiet.ready
    rw [same.dbReadyKeys]
    exact ready
  · intro c' db' key' servable
    rcases quiet.servable c' db' key' servable with before | ready
    · by_cases here : c' = c
      · obtain ⟨-,none,-⟩ := before
        rw [here,mine',discharged] at none
        cases none
      · exact .inl (same.servable (others' c' here) before)
    · exact .inr ready
  · intro pending queued
    exact quiet.queued pending (same.queued queued)
  · intro db' key'
    rw [quiet.waiting]
    refine (left.waiting db' key').trans ?_
    change (t.waiting db' key').erase c = _
    rw [parted.waiting]
    split
    · exact erase_of_not_mem ((waits.nodup db' key').not_mem_erase)
    · rfl
  · have counts : t'.blockedClientsByType = s.blockedClientsByType := parted.counts
    apply blockedClients_lt waits blocked
    rw [quiet.counts,← counts]
    exact left.counts

theorem serveReceiver_cases (waits : Waits s)
    (member : c ∈ s.waiting db key) :
    (serveReceiver db key c s = some s ∧ ¬Servable s c db key) ∨ ∃ t, serveReceiver db key c s = some t ∧ Served c s t := by
  have inside := ((waits.waiting db key c).mp member).2
  unfold serveReceiver
  simp only [waits.nokey c,Bool.or_false]
  cases sees : visible s db key with
  | none =>
    refine .inl ⟨by simp,?_⟩
    rintro ⟨-,-,entry,found,-⟩
    rw [sees] at found
    cases found
  | some entry =>
    simp only [any_some,decide_eq_true_eq]
    by_cases fits : getBlockedTypeByType entry.value.type = (s.clients c).btype
    · right
      rw [if_pos fits]
      have blocked : ∃ btype, (s.clients c).btype = some btype := by
        cases type : (s.clients c).btype with
        | none =>
          rw [waits.idle c type] at inside
          cases inside
        | some btype => exact ⟨btype,rfl⟩
      obtain ⟨btype,blocked⟩ := blocked
      exact served_unblockClientOnKey waits member blocked (by rw [sees]; exact nofun)
    · left
      rw [if_neg fits]
      refine ⟨rfl,?_⟩
      rintro ⟨-,-,other,found,type⟩
      obtain rfl : entry = other := Option.some.inj (sees.symm.trans found)
      exact fits type

/-! ## The walk over the clients of a key -/

/-- Every key that can serve a client is signalled, except that the clients `rest` may still be served by the key. -/
def CoveredBut (db : Fin dbnum) (key : K) (rest : List C) (s : Server C K E dbnum) : Prop :=
  ∀ c db' key', Servable s c db' key' → s.dbReadyKeys db' key' = true ∨ db' = db ∧ key' = key ∧ c ∈ rest

def Fewer (s t : Server C K E dbnum) : Prop :=
  t.readyKeys = s.readyKeys ∧ blockedClients t = blockedClients s ∨ blockedClients t < blockedClients s

omit [DecidableEq C] [DecidableEq K] in
theorem Fewer.trans {u : Server C K E dbnum} (first : Fewer s t) (second : Fewer t u) : Fewer s u := by
  rcases first with ⟨same,count⟩ | less
  · unfold Fewer
    rw [← same,← count]
    exact second
  right
  rcases second with ⟨-,count⟩ | less'
  · exact count ▸ less
  · exact Nat.lt_trans less' less

theorem dropWhile_upto {done rest : List C} (nodup : (done ++ c :: rest).Nodup) :
    (done ++ c :: rest).dropWhile (· ≠ c) = c :: rest := by
  rw [dropWhile_append_of_pos]
  · simp
  · intro a member
    have apart := (nodup_append.mp nodup).2.2 a member c mem_cons_self
    simpa using apart

theorem serveLoop_progress (db : Fin dbnum) (key : K) (rest : List C) : ∀ (done : List C) (s : Server C K E dbnum),
    Waits s → s.waiting db key = done ++ rest → CoveredBut db key rest s →
    ∃ t, serveLoop db key rest.length rest.head? s = some t ∧ Waits t ∧ Covered t ∧ Fewer s t ∧
      ∀ pending, Queued pending s → Queued pending t := by
  induction rest with
  | nil =>
    intro done s waits _ covered
    refine ⟨s,rfl,waits,fun c db' key' servable => ?_,.inl ⟨rfl,rfl⟩,fun _ => id⟩
    rcases covered c db' key' servable with ready | ⟨-,-,member⟩
    · exact ready
    · cases member
  | cons c rest ih =>
    intro done s waits cut covered
    have nodup : (done ++ c :: rest).Nodup := cut ▸ waits.nodup db key
    have member : c ∈ s.waiting db key := by simp [cut]
    have found : (s.waiting db key).dropWhile (· ≠ c) = c :: rest := by
      rw [cut]
      exact dropWhile_upto nodup
    have unfolded : serveLoop db key (c :: rest).length (c :: rest).head? s =
        (serveReceiver db key c s).bind (serveLoop db key rest.length rest.head?) := by
      rw [length_cons,head?_cons,serveLoop,found]
      rfl
    rw [unfolded]
    rcases serveReceiver_cases waits member with ⟨step,unservable⟩ | ⟨t,step,served⟩
    · rw [step,bind_some]
      apply ih (done ++ [c]) s waits (by rw [cut]; simp)
      intro c' db' key' servable
      rcases covered c' db' key' servable with ready | ⟨rfl,rfl,inside⟩
      · exact .inl ready
      right
      rcases mem_cons.mp inside with rfl | inside
      · exact absurd servable unservable
      · exact ⟨rfl,rfl,inside⟩
    · rw [step,bind_some]
      obtain ⟨u,walk,waits',all,fewer,queued⟩ := ih done t served.waits (by
        rw [served.waiting,cut]
        exact erase_append_right _ (fun inside => (nodup_append.mp nodup).2.2 c inside c mem_cons_self rfl)
          |>.trans (by rw [erase_cons_head])) (by
        intro c' db' key' servable
        rcases served.servable c' db' key' servable with before | ready
        · rcases covered c' db' key' before with ready | ⟨rfl,rfl,inside⟩
          · exact .inl (served.ready db' key' ready)
          right
          rcases mem_cons.mp inside with rfl | inside
          · obtain ⟨-,waitsFor,-⟩ := servable
            rw [served.keys] at waitsFor
            cases waitsFor
          · exact ⟨rfl,rfl,inside⟩
        · exact .inl ready)
      exact ⟨u,walk,waits',all,.trans (.inr served.fewer) fewer,fun pending before => queued pending (served.queued pending before)⟩

/-! ## The keys that are ready -/

theorem handleReadyKeys_progress {pending : List (Fin dbnum × K)} : ∀ s : Server C K E dbnum, Waits s → Covered s →
    Queued pending s → ∃ t, handleReadyKeys pending s = some t ∧ Waits t ∧ Covered t ∧ Queued [] t ∧ Fewer s t := by
  induction pending with
  | nil => exact fun s waits covered queued => ⟨s,rfl,waits,covered,queued,.inl ⟨rfl,rfl⟩⟩
  | cons ready rest ih =>
    obtain ⟨db,key⟩ := ready
    intro s waits covered queued
    have distinct := nodup_cons.mp (nodup_middle.mp queued.nodup)
    set s' : Server C K E dbnum :=
      { s with dbReadyKeys := update s.dbReadyKeys db (update (s.dbReadyKeys db) key false) } with hs'
    have flags : ∀ db' key', s'.dbReadyKeys db' key' = true ↔ s.dbReadyKeys db' key' = true ∧ ¬(db' = db ∧ key' = key) := by
      intro db' key'
      rw [hs']
      by_cases here : db' = db
      · subst here
        by_cases same : key' = key
        · subst same
          simp
        · simp [same]
      · simp [here]
    have waits' : Waits s' := waits.congr rfl rfl rfl
    have queued' : Queued rest s' := by
      refine ⟨fun db' key' => ?_,distinct.2⟩
      rw [flags,queued.flagged]
      constructor
      · rintro ⟨member,other⟩
        simp only [mem_append,mem_cons,Prod.mk.injEq] at member ⊢
        tauto
      intro member
      refine ⟨?_,?_⟩
      · simp only [mem_append,mem_cons,Prod.mk.injEq] at member ⊢
        tauto
      · rintro ⟨rfl,rfl⟩
        exact distinct.1 member
    have covered' : CoveredBut db key (s'.waiting db key) s' := by
      intro c db' key' servable
      have before : Servable s c db' key' := servable
      by_cases place : db' = db ∧ key' = key
      · right
        refine ⟨place.1,place.2,?_⟩
        rw [waits'.waiting,← place.1,← place.2]
        exact ⟨servable.1,servable.2.1⟩
      · exact .inl ((flags db' key').mpr ⟨covered c db' key' before,place⟩)
    obtain ⟨t,walk,after,all,fewer,queue⟩ := serveLoop_progress db key (s'.waiting db key) [] s' waits' rfl covered'
    obtain ⟨u,loop,waits'',covered'',queued'',fewer'⟩ := ih t after all (queue rest queued')
    refine ⟨u,?_,waits'',covered'',queued'',Fewer.trans fewer fewer'⟩
    change (handleClientsBlockedOnKey db key s').bind (handleReadyKeys rest) = some u
    unfold handleClientsBlockedOnKey
    rw [walk]
    exact loop

theorem handleLoop_covers {rounds : Nat} : ∀ s : Server C K E dbnum, Waits s → Covered s → Queued [] s →
    s.readyKeys = [] ∨ blockedClients s < rounds →
    ∃ t, handleLoop rounds s = some t ∧ Waits t ∧ Covered t ∧ Queued [] t ∧ t.readyKeys = [] := by
  induction rounds with
  | zero =>
    intro s waits covered queued enough
    have empty : s.readyKeys = [] := enough.resolve_right (Nat.not_lt_zero _)
    unfold handleLoop
    rw [if_pos empty]
    exact ⟨s,rfl,waits,covered,queued,empty⟩
  | succ rounds ih =>
    intro s waits covered queued enough
    unfold handleLoop
    by_cases empty : s.readyKeys = []
    · rw [if_pos empty]
      exact ⟨s,rfl,waits,covered,queued,empty⟩
    rw [if_neg empty]
    have waits' : Waits { s with readyKeys := [] } := waits.congr rfl rfl rfl
    have queued' : Queued s.readyKeys { s with readyKeys := [] } := by
      constructor
      · intro db key
        have flagged := queued.flagged db key
        rw [append_nil] at flagged
        exact flagged
      · have nodup := queued.nodup
        rw [append_nil] at nodup
        exact nodup
    obtain ⟨t,pass,after,covered',queued'',fewer⟩ := handleReadyKeys_progress _ waits' covered queued'
    have left : t.readyKeys = [] ∨ blockedClients t < rounds := by
      rcases fewer with ⟨same,-⟩ | less
      · exact .inl same
      have start : blockedClients s < rounds + 1 := enough.resolve_left empty
      have same : blockedClients { s with readyKeys := [] } = blockedClients s := rfl
      right
      omega
    obtain ⟨u,loop,final⟩ := ih t after covered' queued'' left
    refine ⟨u,?_,final⟩
    simp only [pass]
    exact loop

theorem handleClientsBlockedOnKeys_serves (waits : Waits s) (covered : Covered s)
    (queued : Queued [] s) : ∃ t, handleClientsBlockedOnKeys s = some t ∧ Waits t ∧ Queued [] t ∧ t.readyKeys = [] ∧
      ∀ c db key, ¬Servable t c db key := by
  obtain ⟨t,loop,waits',covered',queued',empty⟩ := handleLoop_covers s waits covered queued
    (.inr (Nat.lt_succ_self _))
  refine ⟨t,loop,waits',queued',empty,fun c db key servable => ?_⟩
  have ready := (queued'.flagged db key).mp (covered' c db key servable)
  rw [empty] at ready
  cases ready

end ValkeyWasm.Blocked
