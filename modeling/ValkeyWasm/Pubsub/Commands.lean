import Mathlib.Data.List.AList
import ValkeyWasm.Hashtable.Refinement

/-! Publish and subscribe (`pubsub.c`), with cluster mode off. Each subscription is recorded twice, in the set of the
client and in the table of clients of the channel or pattern. The tables of clients are the hash tables of
`hashtable.c` with their incremental rehash, since the replies of PUBSUB read their fields. -/

namespace ValkeyWasm.Pubsub
open Hashtable (Layout HashtableType Env)

/-- The two `pubsubtype`s, and the patterns with their own functions. -/
inductive Kind where
  | channel
  | shardChannel
  | pattern
  deriving DecidableEq, Repr

/-- What a client is sent. A missing name is the null of a mass unsubscription that found nothing. -/
inductive Push (N : Type) where
  | subscribed (kind : Kind) (name : N) (count : Nat)
  | unsubscribed (kind : Kind) (name : Option N) (count : Nat)
  | message (shard : Bool) (channel message : N)
  | pmessage (pattern channel message : N)
  | error (text : String)
  deriving DecidableEq, Repr

/-- The sets of `pubsub_data` and the flags of a client. A client without `pubsub_data` has empty sets. -/
structure Client (N : Type) where
  subscriptions : Kind → List N := fun _ => []
  pubsub : Bool := false
  denyBlocking : Bool := false
  multi : Bool := false

/-- `pubsub_channels`, `pubsubshard_channels` and `pubsub_patterns`, with the clients and all that was sent to them. -/
structure Server (L : Layout) (C N : Type) where
  subscribers : Kind → AList (fun _ : N => Hashtable L C)
  clients : C → Client N
  pubsubClients : Nat
  sent : Multiset (C × Push N)

def clientHashtableType {C : Type} (hash : C → BitVec 64) : HashtableType C C where
  entryGetKey := id
  hashKey := hash

namespace Client
variable {N : Type}

def clientSubscriptionsCount (client : Client N) : Nat :=
  (client.subscriptions .channel).length + (client.subscriptions .pattern).length

def clientShardSubscriptionsCount (client : Client N) : Nat := (client.subscriptions .shardChannel).length

def clientTotalPubSubSubscriptionCount (client : Client N) : Nat :=
  client.clientSubscriptionsCount + client.clientShardSubscriptionsCount

/-- The count told with a notification: shard channels are counted apart. -/
def subscriptionCount (kind : Kind) (client : Client N) : Nat :=
  if kind = .shardChannel then client.clientShardSubscriptionsCount else client.clientSubscriptionsCount

def withSubscriptions (kind : Kind) (names : List N) (client : Client N) : Client N :=
  {client with subscriptions := Function.update client.subscriptions kind names}

end Client

namespace Server
variable {L : Layout} {C N : Type}

def initial (clients : C → Bool × Bool) : Server L C N :=
  ⟨fun _ => ∅,fun c => {denyBlocking := (clients c).1, multi := (clients c).2},0,0⟩

def push (c : C) (sent : Push N) (s : Server L C N) : Server L C N := {s with sent := (c,sent) ::ₘ s.sent}

variable [DecidableEq C]

def setClient (c : C) (client : Client N) (s : Server L C N) : Server L C N :=
  {s with clients := Function.update s.clients c client}

def setSubscribers (kind : Kind) (tables : AList fun _ : N => Hashtable L C) (s : Server L C N) : Server L C N :=
  {s with subscribers := Function.update s.subscribers kind tables}

def markClientAsPubSub (c : C) (s : Server L C N) : Server L C N :=
  if (s.clients c).pubsub then s
  else {s.setClient c {s.clients c with pubsub := true} with pubsubClients := s.pubsubClients + 1}

/-- `unmarkClientAsPubSub`; a counter already at zero is a fault. -/
def unmarkClientAsPubSub (c : C) (s : Server L C N) : Option (Server L C N) :=
  if (s.clients c).pubsub then
    if s.pubsubClients = 0 then none
    else some {s.setClient c {s.clients c with pubsub := false} with pubsubClients := s.pubsubClients - 1}
  else some s

variable [Inhabited C] [DecidableEq N] (hash : C → BitVec 64)

/-- `pubsubSubscribeChannel` and `pubsubSubscribePattern`. -/
def pubsubSubscribe (kind : Kind) (env : Env) (c : C) (name : N) (s : Server L C N) : Option (Server L C N) :=
  if name ∈ (s.clients c).subscriptions kind then
    some (s.push c (.subscribed kind name ((s.clients c).subscriptionCount kind)))
  else
    let clients := ((s.subscribers kind).lookup name).getD .create
    let added := clients.add (clientHashtableType hash) env c
    -- serverAssert(hashtableAdd(clients, c))
    if added.2 then
      let client := (s.clients c).withSubscriptions kind (name::(s.clients c).subscriptions kind)
      some (((s.setSubscribers kind ((s.subscribers kind).insert name added.1)).setClient c client).push c
        (.subscribed kind name (client.subscriptionCount kind)))
    else none

/-- The removal of `pubsubUnsubscribeChannel` and `pubsubUnsubscribePattern`, with their result. -/
def pubsubUnsubscribe (kind : Kind) (env : Env) (c : C) (name : N) (s : Server L C N) : Option (Server L C N × Bool) :=
  if name ∈ (s.clients c).subscriptions kind then
    match (s.subscribers kind).lookup name with
    -- serverAssertWithInfo(c, NULL, found)
    | none => none
    | some clients =>
      let deleted := clients.delete (clientHashtableType hash) env c
      -- serverAssertWithInfo(c, NULL, hashtableDelete(clients, c))
      if deleted.2 then
        let tables := if deleted.1.size = 0 then (s.subscribers kind).erase name else (s.subscribers kind).insert name deleted.1
        some ((s.setSubscribers kind tables).setClient c
          ((s.clients c).withSubscriptions kind (((s.clients c).subscriptions kind).erase name)),true)
      else none
  else some (s,false)

def pubsubUnsubscribeNotify (kind : Kind) (env : Env) (c : C) (notify : Bool) (name : N) (s : Server L C N) :
    Option (Server L C N × Bool) :=
  (s.pubsubUnsubscribe hash kind env c name).map fun result =>
    (if notify then result.1.push c (.unsubscribed kind (some name) ((result.1.clients c).subscriptionCount kind)) else result.1,
      result.2)

/-- The loop of the mass unsubscriptions: the safe iterator returns each name of the set once, while the loop removes
the name just returned. -/
def unsubscribeEach (kind : Kind) (env : Env) (c : C) (notify : Bool) : List N → Server L C N × Nat → Option (Server L C N × Nat)
  | [], reached => some reached
  | name::rest, (s,count) =>
    (s.pubsubUnsubscribeNotify hash kind env c notify name).bind fun result =>
      unsubscribeEach kind env c notify rest (result.1,count + result.2.toNat)

/-- `pubsubUnsubscribeAllChannels`, `pubsubUnsubscribeShardAllChannels` and `pubsubUnsubscribeAllPatterns`. -/
def pubsubUnsubscribeAll (kind : Kind) (env : Env) (c : C) (notify : Bool) (s : Server L C N) : Option (Server L C N × Nat) :=
  (unsubscribeEach hash kind env c notify ((s.clients c).subscriptions kind) (s,0)).map fun result =>
    if notify && result.2 == 0 then
      (result.1.push c (.unsubscribed kind none ((result.1.clients c).subscriptionCount kind)),result.2)
    else result

def subscribeEach (kind : Kind) (env : Env) (c : C) : List N → Server L C N → Option (Server L C N)
  | [], s => some s
  | name::rest, s => (s.pubsubSubscribe hash kind env c name).bind (subscribeEach kind env c rest)

/-- A subscribing command; `denied` says whether the client may not run it. -/
def subscribeWith (kind : Kind) (denied : Client N → Bool) (text : String) (env : Env) (c : C) (first : N) (rest : List N)
    (s : Server L C N) : Option (Server L C N) :=
  if denied (s.clients c) then some (s.push c (.error text))
  else (subscribeEach hash kind env c (first::rest) s).map (·.markClientAsPubSub c)

def subscribeCommand (env : Env) (c : C) (first : N) (rest : List N) (s : Server L C N) : Option (Server L C N) :=
  s.subscribeWith hash .channel (fun client => client.denyBlocking && !client.multi)
    "SUBSCRIBE isn't allowed for a DENY BLOCKING client" env c first rest

def psubscribeCommand (env : Env) (c : C) (first : N) (rest : List N) (s : Server L C N) : Option (Server L C N) :=
  s.subscribeWith hash .pattern (fun client => client.denyBlocking && !client.multi)
    "PSUBSCRIBE isn't allowed for a DENY BLOCKING client" env c first rest

def ssubscribeCommand (env : Env) (c : C) (first : N) (rest : List N) (s : Server L C N) : Option (Server L C N) :=
  s.subscribeWith hash .shardChannel (fun client => client.denyBlocking)
    "SSUBSCRIBE isn't allowed for a DENY BLOCKING client" env c first rest

/-- An unsubscribing command; without names it is a mass unsubscription. -/
def unsubscribeWith (kind : Kind) (env : Env) (c : C) (names : List N) (s : Server L C N) : Option (Server L C N) :=
  (if names.isEmpty then s.pubsubUnsubscribeAll hash kind env c true
    else unsubscribeEach hash kind env c true names (s,0)).bind fun result =>
      if (result.1.clients c).clientTotalPubSubSubscriptionCount = 0 then result.1.unmarkClientAsPubSub c else some result.1

def unsubscribeCommand (env : Env) (c : C) (names : List N) (s : Server L C N) : Option (Server L C N) :=
  s.unsubscribeWith hash .channel env c names

def punsubscribeCommand (env : Env) (c : C) (names : List N) (s : Server L C N) : Option (Server L C N) :=
  s.unsubscribeWith hash .pattern env c names

def sunsubscribeCommand (env : Env) (c : C) (names : List N) (s : Server L C N) : Option (Server L C N) :=
  s.unsubscribeWith hash .shardChannel env c names

def freeClientPubSubData (env : Env) (c : C) (s : Server L C N) : Option (Server L C N) :=
  (s.pubsubUnsubscribeAll hash .channel env c false).bind fun channels =>
    (channels.1.pubsubUnsubscribeAll hash .shardChannel env c false).bind fun shards =>
      (shards.1.pubsubUnsubscribeAll hash .pattern env c false).bind fun patterns =>
        (patterns.1.unmarkClientAsPubSub c).map fun freed =>
          freed.setClient c {freed.clients c with subscriptions := fun _ => []}

end Server

def sendEach {L : Layout} {C N : Type} (clients : Hashtable L C) (sent : Push N) : Multiset (C × Push N) :=
  clients.slots.map fun slot => (slot.entry,sent)

namespace Server
variable {L : Layout} {C N : Type} [DecidableEq N] (stringmatch : N → N → Bool)

def directMessages (shard : Bool) (channel message : N) (s : Server L C N) : Multiset (C × Push N) :=
  match (s.subscribers (if shard then .shardChannel else .channel)).lookup channel with
  | none => 0
  | some clients => sendEach clients (.message shard channel message)

def patternMessages (channel message : N) (s : Server L C N) : Multiset (C × Push N) :=
  ((s.subscribers .pattern).entries.map fun entry =>
    if stringmatch entry.1 channel then sendEach entry.2 (.pmessage entry.1 channel message) else 0).sum

/-- The messages sent by `pubsubPublishMessageInternal`; shard pubsub ignores patterns. -/
def published (shard : Bool) (channel message : N) (s : Server L C N) : Multiset (C × Push N) :=
  s.directMessages shard channel message + if shard then 0 else s.patternMessages stringmatch channel message

def pubsubPublishMessage (channel message : N) (sharded : Bool) (s : Server L C N) : Server L C N × Nat :=
  let deliveries := s.published stringmatch sharded channel message
  ({s with sent := s.sent + deliveries},deliveries.card)

end Server

/-- The first words of `struct hashtable`, as `NUMSUB` finds them in memory: `type`, `rehash_idx`, `tables[2]` and
`used[2]`. -/
def hashtableWords {L : Layout} {C : Type} (typeAddress : Nat) (ht : Hashtable L C) : List Nat :=
  [typeAddress,match ht.rehashIdx with | none => 2^L.sizeBits - 1 | some index => index,ht.table0.address,ht.table1.address,
    ht.table0.used,ht.table1.used]

/-- `dictSize`: the sum of `ht_used[0]` and `ht_used[1]`, which in `struct dict` follow `type` and `ht_table[2]`. -/
def dictSize (words : List Nat) : Nat := words.getD 3 0 + words.getD 4 0

namespace Server
variable {L : Layout} {C N : Type} [DecidableEq N]

/-- PUBSUB NUMSUB for one channel: the table found is taken for a `dict`. -/
def numsub (typeAddress : Nat) (channel : N) (s : Server L C N) : Nat :=
  match (s.subscribers .channel).lookup channel with
  | none => 0
  | some clients => dictSize (hashtableWords typeAddress clients)

def shardnumsub (channel : N) (s : Server L C N) : Nat :=
  match (s.subscribers .shardChannel).lookup channel with
  | none => 0
  | some clients => clients.size

end Server

inductive Event (C N : Type) where
  | subscribe (env : Env) (c : C) (first : N) (rest : List N)
  | unsubscribe (env : Env) (c : C) (names : List N)
  | psubscribe (env : Env) (c : C) (first : N) (rest : List N)
  | punsubscribe (env : Env) (c : C) (names : List N)
  | ssubscribe (env : Env) (c : C) (first : N) (rest : List N)
  | sunsubscribe (env : Env) (c : C) (names : List N)
  | publish (channel message : N)
  | spublish (channel message : N)
  | setMulti (c : C) (multi : Bool)
  | disconnect (env : Env) (c : C)

namespace Server
variable {L : Layout} {C N : Type} [DecidableEq C] [Inhabited C] [DecidableEq N] (hash : C → BitVec 64) (stringmatch : N → N → Bool)

def perform (s : Server L C N) : Event C N → Option (Server L C N)
  | .subscribe env c first rest => s.subscribeCommand hash env c first rest
  | .unsubscribe env c names => s.unsubscribeCommand hash env c names
  | .psubscribe env c first rest => s.psubscribeCommand hash env c first rest
  | .punsubscribe env c names => s.punsubscribeCommand hash env c names
  | .ssubscribe env c first rest => s.ssubscribeCommand hash env c first rest
  | .sunsubscribe env c names => s.sunsubscribeCommand hash env c names
  | .publish channel message => some (s.pubsubPublishMessage stringmatch channel message false).1
  | .spublish channel message => some (s.pubsubPublishMessage stringmatch channel message true).1
  | .setMulti c multi => some (s.setClient c {s.clients c with multi})
  | .disconnect env c => s.freeClientPubSubData hash env c

def run (s : Server L C N) (events : List (Event C N)) : Option (Server L C N) := events.foldlM (perform hash stringmatch) s

end Server

end ValkeyWasm.Pubsub
