import ValkeyWasm.Library.Loops
import ValkeyWasm.Pubsub.Subscriptions

/-! Whole runs of a server: the records stay in step, so a message reaches exactly the subscribed clients, and the
replies of PUBSUB are right unless they are read from the wrong words of a table in the middle of a rehash. -/

namespace ValkeyWasm.Pubsub
open Function List Option
open Hashtable (Layout HashtableType Env)
open Library.Counting

def received {C N : Type} [DecidableEq C] (c : C) (deliveries : Multiset (C × Push N)) : Multiset (Push N) :=
  (deliveries.filter fun delivery => delivery.1 = c).map Prod.snd

section
variable {L : Layout} {C N : Type} [DecidableEq C] {hash : C → BitVec 64}

theorem received_add (c : C) (first second : Multiset (C × Push N)) :
    received c (first + second) = received c first + received c second := by
  rw [received,Multiset.filter_add,Multiset.map_add]
  rfl

theorem received_sum {α : Type} (c : C) (sent : α → Multiset (C × Push N)) (list : List α) :
    received c (list.map sent).sum = (list.map fun a => received c (sent a)).sum := by
  induction list with
  | nil => rfl
  | cons head tail ih => rw [map_cons,sum_cons,received_add,ih,map_cons,sum_cons]

theorem received_sendEach {clients : Hashtable L C} {p : C → Bool} (holds : Holds hash clients p) (c : C) (sent : Push N) :
    received c (sendEach clients sent) = if p c then {sent} else 0 := by
  obtain ⟨distinct,member⟩ := holds.entries
  have each : sendEach clients sent = (clients.slots.map (·.entry)).map fun client => (client,sent) := by
    rw [Multiset.map_map]
    rfl
  rw [received,each,Multiset.filter_map,Multiset.map_map]
  change ((clients.slots.map (·.entry)).filter fun client => client = c).map (fun _ => sent) = _
  rw [Multiset.filter_eq',Multiset.count_eq_of_nodup distinct]
  by_cases selected : p c = true
  · rw [if_pos ((member c).mpr selected),if_pos selected]
    rfl
  · rw [if_neg (fun inside => selected ((member c).mp inside)),if_neg selected]
    rfl

end

section
variable {L : Layout} {C N : Type} [DecidableEq N] {hash : C → BitVec 64}

structure Consistent (hash : C → BitVec 64) (s : Server L C N) : Prop where
  recorded : ∀ kind, Recorded hash (s.subscribers kind) (fun c => (s.clients c).subscriptions kind)
  counted : Numbers (fun c => (s.clients c).pubsub = true) s.pubsubClients

namespace Consistent
variable {s : Server L C N}

variable (hash) in
theorem initial (flags : C → Bool × Bool) : Consistent hash (Server.initial flags : Server L C N) where
  recorded _ := Recorded.initial
  counted := (Numbers.none C).congr fun c => by simp [Server.initial]

theorem push (consistent : Consistent hash s) (c : C) (sent : Push N) : Consistent hash (s.push c sent) :=
  ⟨consistent.recorded,consistent.counted⟩

theorem publish (consistent : Consistent hash s) (stringmatch : N → N → Bool) (channel message : N) (sharded : Bool) :
    Consistent hash (s.pubsubPublishMessage stringmatch channel message sharded).1 :=
  ⟨consistent.recorded,consistent.counted⟩

variable [DecidableEq C]

omit [DecidableEq N] in
theorem subscriptions_setClient (s : Server L C N) (c : C) (client : Client N) (kind : Kind) :
    (fun other => ((s.setClient c client).clients other).subscriptions kind) =
      update (fun other => (s.clients other).subscriptions kind) c (client.subscriptions kind) :=
  comp_update (fun client : Client N => client.subscriptions kind) s.clients c client

variable {c : C} {client : Client N}

theorem recorded_setClient (consistent : Consistent hash s)
    (subscriptions : client.subscriptions = (s.clients c).subscriptions) (kind : Kind) :
    Recorded hash (s.subscribers kind) fun other => ((s.setClient c client).clients other).subscriptions kind := by
  rw [subscriptions_setClient,subscriptions,update_eq_self]
  exact consistent.recorded kind

omit [DecidableEq N] in
theorem pubsub_setClient (s : Server L C N) (client : Client N) (other : C) (differ : other ≠ c) :
    ((s.setClient c client).clients other).pubsub = true ↔ (s.clients other).pubsub = true := by
  simp [Server.setClient,differ]

section

variable (consistent : Consistent hash s)
include consistent

theorem setClient
    (subscriptions : client.subscriptions = (s.clients c).subscriptions) (flag : client.pubsub = (s.clients c).pubsub) :
    Consistent hash (s.setClient c client) where
  recorded := consistent.recorded_setClient subscriptions
  counted := by
    apply consistent.counted.keep ?_ (pubsub_setClient s client)
    simp [Server.setClient,flag]

theorem changed {kind : Kind} {tables : AList fun _ : N => Hashtable L C} {names : List N}
    (recorded : Recorded hash tables (update (fun other => (s.clients other).subscriptions kind) c names)) :
    Consistent hash ((s.setSubscribers kind tables).setClient c ((s.clients c).withSubscriptions kind names)) where
  recorded other := by
    rw [subscriptions_setClient]
    change Recorded hash (update s.subscribers kind tables other)
      (update (fun client => (s.clients client).subscriptions other) c
        (update (s.clients c).subscriptions kind names other))
    by_cases equal : other = kind
    · subst equal
      rw [update_self,update_self]
      exact recorded
    · rw [update_of_ne equal,update_of_ne equal,update_eq_self]
      exact consistent.recorded other
  counted := by
    apply consistent.counted.keep ?_ (pubsub_setClient (s.setSubscribers kind tables) _)
    simp [Server.setClient,Client.withSubscriptions]

theorem mark (c : C) : Consistent hash (s.markClientAsPubSub c) := by
  unfold Server.markClientAsPubSub
  split
  · exact consistent
  · rename_i clear
    refine ⟨consistent.recorded_setClient rfl,consistent.counted.add clear ?_ (pubsub_setClient s _)⟩
    simp [Server.setClient]

theorem unmark (c : C) :
    ∃ t, s.unmarkClientAsPubSub c = some t ∧ Consistent hash t ∧ (t.clients c).subscriptions = (s.clients c).subscriptions := by
  unfold Server.unmarkClientAsPubSub
  split
  · rename_i flagged
    obtain ⟨positive,counted⟩ := consistent.counted.remove flagged (by simp [Server.setClient])
      (pubsub_setClient s {s.clients c with pubsub := false})
    rw [if_neg positive]
    refine ⟨_,rfl,⟨consistent.recorded_setClient rfl,counted⟩,?_⟩
    simp [Server.setClient]
  · exact ⟨s,rfl,consistent,rfl⟩

end

variable [Inhabited C]

theorem subscribe (consistent : Consistent hash s) (kind : Kind) (env : Env) (c : C) (name : N) :
    ∃ t, s.pubsubSubscribe hash kind env c name = some t ∧ Consistent hash t := by
  unfold Server.pubsubSubscribe
  split
  · exact ⟨_,rfl,consistent.push c _⟩
  rename_i outside
  obtain ⟨added,recorded⟩ := (consistent.recorded kind).subscribe env outside
  rw [if_pos added]
  exact ⟨_,rfl,(consistent.changed recorded).push c _⟩

variable {s : Server L C N}

theorem subscribeEach (kind : Kind) (env : Env) (c : C) (names : List N) (consistent : Consistent hash s) :
    ∃ t, Server.subscribeEach hash kind env c names s = some t ∧ Consistent hash t := by
  induction names generalizing s with
  | nil => exact ⟨s,rfl,consistent⟩
  | cons name rest ih =>
    obtain ⟨middle,reached,kept⟩ := consistent.subscribe kind env c name
    rw [Server.subscribeEach,reached]
    exact ih kept

theorem unsubscribe (consistent : Consistent hash s) (kind : Kind) (env : Env) (c : C) (name : N) :
    ∃ t flag, s.pubsubUnsubscribe hash kind env c name = some (t,flag) ∧ Consistent hash t ∧
      (t.clients c).subscriptions = update (s.clients c).subscriptions kind (((s.clients c).subscriptions kind).erase name) := by
  unfold Server.pubsubUnsubscribe
  split
  · rename_i inside
    obtain ⟨clients,found⟩ := (consistent.recorded kind).found inside
    obtain ⟨deleted,recorded⟩ := (consistent.recorded kind).unsubscribe env found inside
    rw [found]
    simp only [deleted]
    refine ⟨_,true,rfl,consistent.changed recorded,?_⟩
    simp [Server.setClient,Client.withSubscriptions]
  · rename_i outside
    refine ⟨s,false,rfl,consistent,?_⟩
    rw [erase_of_not_mem outside,update_eq_self]

theorem unsubscribeEach (kind : Kind) (env : Env) (c : C) (notify : Bool) (names : List N)
    (consistent : Consistent hash s) (count : Nat) :
    ∃ t total, Server.unsubscribeEach hash kind env c notify names (s,count) = some (t,total) ∧ Consistent hash t ∧
      (t.clients c).subscriptions = update (s.clients c).subscriptions kind (((s.clients c).subscriptions kind).diff names) := by
  induction names generalizing s count with
  | nil => exact ⟨s,count,rfl,consistent,by rw [diff_nil,update_eq_self]⟩
  | cons name rest ih =>
    obtain ⟨middle,flag,reached,kept,left⟩ := consistent.unsubscribe kind env c name
    rw [Server.unsubscribeEach,Server.pubsubUnsubscribeNotify,reached]
    have shown : Consistent hash (if notify then middle.push c (.unsubscribed kind (some name)
        ((middle.clients c).subscriptionCount kind)) else middle) := by
      split
      · exact kept.push c _
      · exact kept
    obtain ⟨t,total,finished,final,rest⟩ := ih shown (count + flag.toNat)
    refine ⟨t,total,finished,final,rest.trans ?_⟩
    have same : ((if notify then middle.push c (.unsubscribed kind (some name)
        ((middle.clients c).subscriptionCount kind)) else middle).clients c).subscriptions = (middle.clients c).subscriptions := by
      split <;> rfl
    rw [same,left,update_idem,update_self,diff_cons]

section

variable (consistent : Consistent hash s)
include consistent

theorem unsubscribeAll (kind : Kind) (env : Env) (c : C) (notify : Bool) :
    ∃ t total, s.pubsubUnsubscribeAll hash kind env c notify = some (t,total) ∧ Consistent hash t ∧
      (t.clients c).subscriptions = update (s.clients c).subscriptions kind [] := by
  obtain ⟨t,total,finished,final,left⟩ := unsubscribeEach kind env c notify ((s.clients c).subscriptions kind) consistent 0
  have none_left : ((s.clients c).subscriptions kind).diff ((s.clients c).subscriptions kind) = [] := by
    apply eq_nil_iff_forall_not_mem.mpr
    intro name member
    have kept := (consistent.recorded kind).distinct c
    exact (kept.mem_sdiff_iff.mp member).2 (kept.mem_sdiff_iff.mp member).1
  rw [none_left] at left
  rw [Server.pubsubUnsubscribeAll,finished,map_some]
  split
  · exact ⟨_,_,rfl,final.push c _,left⟩
  · exact ⟨t,total,rfl,final,left⟩

theorem subscribeWith (kind : Kind) (denied : Client N → Bool) (text : String) (env : Env) (c : C)
    (first : N) (rest : List N) : ∃ t, s.subscribeWith hash kind denied text env c first rest = some t ∧ Consistent hash t := by
  unfold Server.subscribeWith
  split
  · exact ⟨_,rfl,consistent.push c _⟩
  · obtain ⟨t,reached,kept⟩ := subscribeEach kind env c (first::rest) consistent
    rw [reached]
    exact ⟨_,rfl,kept.mark c⟩

theorem unsubscribeWith (kind : Kind) (env : Env) (c : C) (names : List N) :
    ∃ t, s.unsubscribeWith hash kind env c names = some t ∧ Consistent hash t := by
  obtain ⟨t,total,reached,kept⟩ : ∃ t total, (if names.isEmpty then s.pubsubUnsubscribeAll hash kind env c true
      else Server.unsubscribeEach hash kind env c true names (s,0)) = some (t,total) ∧ Consistent hash t := by
    split
    · obtain ⟨t,total,reached,kept,_⟩ := consistent.unsubscribeAll kind env c true
      exact ⟨t,total,reached,kept⟩
    · obtain ⟨t,total,reached,kept,_⟩ := unsubscribeEach kind env c true names consistent 0
      exact ⟨t,total,reached,kept⟩
  rw [Server.unsubscribeWith,reached,bind_some]
  split
  · obtain ⟨u,unmarked,final,_⟩ := kept.unmark c
    exact ⟨u,unmarked,final⟩
  · exact ⟨t,rfl,kept⟩

theorem disconnect (env : Env) (c : C) :
    ∃ t, s.freeClientPubSubData hash env c = some t ∧ Consistent hash t := by
  obtain ⟨channels,n,first,consistent1,left1⟩ := consistent.unsubscribeAll .channel env c false
  obtain ⟨shards,m,second,consistent2,left2⟩ := consistent1.unsubscribeAll .shardChannel env c false
  obtain ⟨patterns,k,third,consistent3,left3⟩ := consistent2.unsubscribeAll .pattern env c false
  obtain ⟨freed,unmarked,consistent4,left4⟩ := consistent3.unmark c
  have nothing : (fun _ => []) = (freed.clients c).subscriptions := by
    funext kind
    rw [left4,left3,left2,left1]
    cases kind <;> simp
  rw [Server.freeClientPubSubData,first,bind_some,second,bind_some,third,bind_some,unmarked]
  exact ⟨_,rfl,consistent4.setClient nothing rfl⟩

theorem perform (stringmatch : N → N → Bool) (event : Event C N) :
    ∃ t, s.perform hash stringmatch event = some t ∧ Consistent hash t := by
  cases event with
  | subscribe env c first rest =>
    rw [Server.perform]
    exact consistent.subscribeWith ..
  | psubscribe env c first rest =>
    rw [Server.perform]
    exact consistent.subscribeWith ..
  | ssubscribe env c first rest =>
    exact consistent.subscribeWith ..
  | unsubscribe env c names => exact consistent.unsubscribeWith ..
  | punsubscribe env c names => exact consistent.unsubscribeWith ..
  | sunsubscribe env c names => exact consistent.unsubscribeWith ..
  | publish channel message => exact ⟨_,rfl,consistent.publish stringmatch channel message false⟩
  | spublish channel message => exact ⟨_,rfl,consistent.publish stringmatch channel message true⟩
  | setMulti c multi => exact ⟨_,rfl,consistent.setClient rfl rfl⟩
  | disconnect env c => exact consistent.disconnect env c

end

theorem run (stringmatch : N → N → Bool) (events : List (Event C N)) (consistent : Consistent hash s) :
    ∃ t, s.run hash stringmatch events = some t ∧ Consistent hash t :=
  Library.Loops.foldlM_keeps _ (fun _ event _ kept => kept.perform stringmatch event) consistent

end Consistent

end

section
variable {L : Layout} {C N : Type} [DecidableEq C] [DecidableEq N] {hash : C → BitVec 64} {s : Server L C N}

theorem received_directMessages (consistent : Consistent hash s) (shard : Bool) (channel message : N) (c : C) :
    received c (s.directMessages shard channel message) =
      if channel ∈ (s.clients c).subscriptions (if shard then .shardChannel else .channel) then {.message shard channel message} else 0 := by
  have recorded := consistent.recorded (if shard then .shardChannel else .channel)
  unfold Server.directMessages
  cases found : (s.subscribers (if shard then .shardChannel else .channel)).lookup channel with
  | none => rw [if_neg (recorded.absent channel found c)]; rfl
  | some clients =>
    rw [received_sendEach (recorded.present channel clients found).1]
    simp

theorem received_patternMessages (consistent : Consistent hash s) (stringmatch : N → N → Bool) (channel message : N) (c : C) :
    received c (s.patternMessages stringmatch channel message) =
      ↑((((s.clients c).subscriptions .pattern).filter fun pattern => stringmatch pattern channel).map fun pattern =>
        Push.pmessage pattern channel message) := by
  have recorded := consistent.recorded .pattern
  let chosen : (Σ _ : N, Hashtable L C) → Bool := fun entry =>
    stringmatch entry.1 channel && decide (entry.1 ∈ (s.clients c).subscriptions .pattern)
  have each : ∀ entry ∈ (s.subscribers .pattern).entries, received c (if stringmatch entry.1 channel then
      sendEach entry.2 (.pmessage entry.1 channel message) else 0) =
        if chosen entry then {Push.pmessage entry.1 channel message} else 0 := by
    intro entry stored
    have holds := (recorded.present entry.1 entry.2 (AList.mem_lookup_iff.mpr stored)).1
    by_cases fits : stringmatch entry.1 channel = true
    · rw [if_pos fits,received_sendEach holds]
      simp [chosen,fits]
    · simp [chosen,fits,received]
  have picked : ∀ entries : List (Σ _ : N, Hashtable L C), (entries.map fun entry =>
      if chosen entry then ({Push.pmessage entry.1 channel message} : Multiset (Push N)) else 0).sum =
        ↑(((entries.filter chosen).map Sigma.fst).map fun pattern => Push.pmessage pattern channel message) := by
    intro entries
    induction entries with
    | nil => rfl
    | cons entry rest ih =>
      rw [map_cons,sum_cons,ih]
      by_cases selected : chosen entry = true
      · rw [if_pos selected,filter_cons_of_pos selected]
        rfl
      · rw [if_neg selected,filter_cons_of_neg selected,zero_add]
  rw [Server.patternMessages,received_sum,map_congr_left each,picked,Multiset.coe_eq_coe]
  apply List.Perm.map
  apply (perm_ext_iff_of_nodup _ ((recorded.distinct c).filter _)).mpr
  · intro pattern
    rw [List.mem_map,List.mem_filter]
    constructor
    · rintro ⟨entry,inside,rfl⟩
      have selected := (List.mem_filter.mp inside).2
      rw [Bool.and_eq_true,decide_eq_true_eq] at selected
      exact ⟨selected.2,selected.1⟩
    rintro ⟨member,fits⟩
    obtain ⟨clients,found⟩ := recorded.found member
    refine ⟨⟨pattern,clients⟩,List.mem_filter.mpr ⟨AList.mem_lookup_iff.mp found,?_⟩,rfl⟩
    simp [chosen,fits,member]
  · exact (List.Pairwise.sublist · (s.subscribers .pattern).nodupKeys) <| (filter_sublist.map _)

structure Exact (stringmatch : N → N → Bool) (s : Server L C N) : Prop where
  same : ∀ kind name c, name ∈ (s.clients c).subscriptions kind ↔
    ∃ clients, (s.subscribers kind).lookup name = some clients ∧ c ∈ clients.slots.map (·.entry)
  once : ∀ kind, (∀ c, ((s.clients c).subscriptions kind).Nodup) ∧
    ∀ name clients, (s.subscribers kind).lookup name = some clients → (clients.slots.map (·.entry)).Nodup
  filled : ∀ kind name clients, (s.subscribers kind).lookup name = some clients → clients.slots ≠ 0
  counted : Numbers (fun c => (s.clients c).pubsub = true) s.pubsubClients
  publish : ∀ channel message, ∃ deliveries, (s.pubsubPublishMessage stringmatch channel message false).1.sent = s.sent + deliveries ∧
    (s.pubsubPublishMessage stringmatch channel message false).2 = deliveries.card ∧
    ∀ c, received c deliveries = (if channel ∈ (s.clients c).subscriptions .channel then {.message false channel message} else 0) +
      ↑((((s.clients c).subscriptions .pattern).filter fun pattern => stringmatch pattern channel).map fun pattern =>
        Push.pmessage pattern channel message)
  spublish : ∀ channel message, ∃ deliveries, (s.pubsubPublishMessage stringmatch channel message true).1.sent = s.sent + deliveries ∧
    (s.pubsubPublishMessage stringmatch channel message true).2 = deliveries.card ∧
    ∀ c, received c deliveries = if channel ∈ (s.clients c).subscriptions .shardChannel then {.message true channel message} else 0
  shardnumsub : ∀ channel, Numbers (fun c => channel ∈ (s.clients c).subscriptions .shardChannel) (s.shardnumsub channel)

namespace Consistent

section

variable (consistent : Consistent hash s)
include consistent

omit [DecidableEq C] in
theorem numbers (kind : Kind) (name : N) {clients : Hashtable L C}
    (found : (s.subscribers kind).lookup name = some clients) :
    Numbers (fun c => name ∈ (s.clients c).subscriptions kind) clients.size :=
  ((consistent.recorded kind).present name clients found).1.numbers.congr fun c => by simp

omit [DecidableEq C] in
theorem numbers_zero {kind : Kind} {name : N} (missing : (s.subscribers kind).lookup name = none) :
    Numbers (fun c => name ∈ (s.clients c).subscriptions kind) 0 :=
  (Numbers.none C).congr fun c => iff_false_intro ((consistent.recorded kind).absent name missing c)

theorem exact (stringmatch : N → N → Bool) : Exact stringmatch s where
  same kind name c := by
    constructor
    · intro member
      obtain ⟨clients,found⟩ := (consistent.recorded kind).found member
      obtain ⟨holds,_⟩ := (consistent.recorded kind).present name clients found
      exact ⟨clients,found,(holds.entries.2 c).mpr (decide_eq_true member)⟩
    · rintro ⟨clients,found,inside⟩
      obtain ⟨holds,_⟩ := (consistent.recorded kind).present name clients found
      exact of_decide_eq_true ((holds.entries.2 c).mp inside)
  once kind := ⟨(consistent.recorded kind).distinct,fun name clients found =>
    ((consistent.recorded kind).present name clients found).1.entries.1⟩
  filled kind name clients found := by
    obtain ⟨holds,filled⟩ := (consistent.recorded kind).present name clients found
    rw [holds.wf.size_eq] at filled
    exact fun empty => filled (Multiset.card_eq_zero.mpr empty)
  counted := consistent.counted
  publish channel message := by
    refine ⟨s.published stringmatch false channel message,rfl,rfl,fun c => ?_⟩
    rw [Server.published,received_add,received_directMessages consistent]
    exact congrArg _ (received_patternMessages consistent stringmatch channel message c)
  spublish channel message := by
    refine ⟨s.published stringmatch true channel message,rfl,rfl,fun c => ?_⟩
    rw [Server.published,if_pos rfl,add_zero,received_directMessages consistent]
    rfl
  shardnumsub channel := by
    unfold Server.shardnumsub
    cases found : (s.subscribers .shardChannel).lookup channel with
    | none => exact consistent.numbers_zero found
    | some clients => exact consistent.numbers _ channel found

omit [DecidableEq C] in
theorem numsub_iff (typeAddress : Nat) (channel : N) :
    Numbers (fun c => channel ∈ (s.clients c).subscriptions .channel) (s.numsub typeAddress channel) ↔
      ∀ clients, (s.subscribers .channel).lookup channel = some clients → clients.isRehashing = true →
        clients.table1.address = clients.table1.used := by
  unfold Server.numsub
  cases found : (s.subscribers .channel).lookup channel with
  | none => simp [consistent.numbers_zero found]
  | some clients =>
    have numbers := consistent.numbers _ channel found
    have wf := ((consistent.recorded .channel).present channel clients found).1.wf
    have reads : dictSize (hashtableWords typeAddress clients) = clients.table1.address + clients.table0.used := rfl
    simp only [reads]
    constructor
    · intro counted other same _
      obtain rfl := Option.some.inj same
      have equal := numbers.unique counted
      rw [Hashtable.size] at equal
      omega
    · intro rehashing
      have equal : clients.table1.address = clients.table1.used := by
        cases idle : clients.rehashIdx with
        | none =>
          rw [wf.idle idle]
          rfl
        | some index => exact rehashing clients rfl (by rw [Hashtable.isRehashing,idle]; rfl)
      rw [equal,Nat.add_comm]
      exact numbers

end

end Consistent

end

variable {L : Layout} {C N : Type} [DecidableEq C] [Inhabited C] [DecidableEq N]

/-- In every run all records of the subscriptions agree, messages reach exactly the subscribed clients and
SHARDNUMSUB is right; NUMSUB is right for exactly the channels whose table of clients is not being rehashed (or whose
second table happens to lie at an address equal to the number of its entries). -/
theorem pubsub_exact (hash : C → BitVec 64) (stringmatch : N → N → Bool) (flags : C → Bool × Bool) (events : List (Event C N)) :
    ∃ s : Server L C N, (Server.initial flags).run hash stringmatch events = some s ∧ Exact stringmatch s ∧
      ∀ typeAddress channel, Numbers (fun c => channel ∈ (s.clients c).subscriptions .channel) (s.numsub typeAddress channel) ↔
        ∀ clients, (s.subscribers .channel).lookup channel = some clients → clients.isRehashing = true →
          clients.table1.address = clients.table1.used := by
  obtain ⟨s,reached,consistent⟩ := Consistent.run stringmatch events (Consistent.initial (L := L) hash flags)
  exact ⟨s,reached,consistent.exact stringmatch,consistent.numsub_iff⟩

def eightSubscribers : Option (Server .bits64 Nat Nat) :=
  (Server.initial fun _ => (false,false)).run (BitVec.ofNat 64) (fun _ _ => false)
    ((List.range 8).map fun c => .subscribe {} c 7 [])

theorem numsub_during_rehash : (eightSubscribers.map fun s => ((List.range 8).map fun c => decide (7 ∈ (s.clients c).subscriptions .channel),
    (s.pubsubPublishMessage (fun _ _ => false) 7 0 false).2,s.numsub 0 7)) = some (List.replicate 8 true,8,9) := by
  decide +kernel

end ValkeyWasm.Pubsub
