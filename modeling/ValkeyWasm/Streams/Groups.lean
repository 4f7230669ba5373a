import ValkeyWasm.Library.Dictionary
import Mathlib.Data.List.Sort

/-! Consumer groups of streams: the pending entries lists and the commands that change them.
A record of a pending entry is shared by the list of its group and the list of its consumer, and points back to the
consumer, so records and consumers live at addresses. `none` is a failed assertion, a panic, or the use of an address
that is null or freed. -/

namespace ValkeyWasm.Streams

structure StreamID where
  ms : UInt64
  seq : UInt64
deriving DecidableEq

def streamCompareID (a b : StreamID) : Int :=
  if a.ms > b.ms then 1
  else if a.ms < b.ms then -1
  else if a.seq > b.seq then 1
  else if a.seq < b.seq then -1
  else 0

/-- The largest ID, which XREADGROUP also uses for `>`. -/
def StreamID.max : StreamID := ⟨-1,-1⟩

/-- The successor; the largest ID wraps around to zero. -/
def streamIncrID (id : StreamID) : StreamID :=
  if id.seq = -1 then if id.ms = -1 then ⟨0,0⟩ else ⟨id.ms + 1,0⟩
  else ⟨id.ms,id.seq + 1⟩

abbrev Pel := AList fun _ : StreamID => Nat

structure StreamNACK where
  deliveryTime : Int
  deliveryCount : UInt64
  consumer : Option Nat
deriving DecidableEq

structure StreamConsumer (N : Type) where
  name : N
  pel : Pel
  seenTime : Int
  activeTime : Int

structure StreamCG (N : Type) where
  lastId : StreamID
  pel : Pel
  consumers : AList fun _ : N => Nat

/-- The entries are those of the radix tree of listpacks that are not deleted, in order. -/
structure Stream (G N : Type) where
  entries : List StreamID
  lastId : StreamID
  cgroups : AList fun _ : G => StreamCG N

structure Heap (N : Type) where
  nacks : Nat → Option StreamNACK
  consumers : Nat → Option (StreamConsumer N)
  next : Nat

structure Server (K G N : Type) where
  now : Int
  streams : K → Option (Stream G N)
  heap : Heap N

variable {K G N : Type}

/-! ## Radix trees of IDs -/

/-- The keys in the order of an iteration: the encoding of an ID is big endian. -/
def raxKeys (pel : Pel) : List StreamID := pel.keys.insertionSort fun a b => streamCompareID a b ≤ 0

def raxNext (pel : Pel) (admitted : StreamID → Bool) : Option StreamID := (raxKeys pel).find? admitted

/-! ## Records and consumers -/

namespace Heap

def setNack (n : Nat) (nack : Option StreamNACK) (h : Heap N) : Heap N := { h with nacks := Function.update h.nacks n nack }

def setConsumer (c : Nat) (consumer : Option (StreamConsumer N)) (h : Heap N) : Heap N :=
  { h with consumers := Function.update h.consumers c consumer }

def updateConsumer (c : Nat) (f : StreamConsumer N → StreamConsumer N) (h : Heap N) : Option (Heap N) :=
  (h.consumers c).map fun consumer => h.setConsumer c (some (f consumer))

def removePending (c : Nat) (id : StreamID) (h : Heap N) : Option (Heap N) :=
  h.updateConsumer c fun consumer => { consumer with pel := consumer.pel.erase id }

def insertPending (c : Nat) (id : StreamID) (n : Nat) (h : Heap N) : Option (Heap N) :=
  h.updateConsumer c fun consumer => { consumer with pel := consumer.pel.insert id n }

end Heap

variable (now : Int) (entries : List StreamID) (c : Nat) (id : StreamID)

/-- The new record is at the address `h.next`. -/
def streamCreateNACK (consumer : Option Nat) (h : Heap N) : Heap N :=
  { h.setNack h.next (some ⟨now,1,consumer⟩) with next := h.next + 1 }

def streamFreeNACK (n : Nat) (h : Heap N) : Option (Heap N) := (h.nacks n).map fun _ => h.setNack n none

def streamFreeConsumer (h : Heap N) : Option (Heap N) := (h.consumers c).map fun _ => h.setConsumer c none

def streamCreateConsumer [DecidableEq N] (now : Int) (name : N) (cg : StreamCG N) (h : Heap N) : Option Nat × StreamCG N × Heap N :=
  match cg.consumers.lookup name with
  | some _ => (none,cg,h)
  | none =>
    (some h.next,{ cg with consumers := cg.consumers.insert name h.next },
      { h.setConsumer h.next (some ⟨name,∅,now,-1⟩) with next := h.next + 1 })

def seeConsumer [DecidableEq N] (now : Int) (name : N) (cg : StreamCG N) (h : Heap N) : Option (Nat × StreamCG N × Heap N) :=
  let (found,cg,h) :=
    match cg.consumers.lookup name with
    | some c => (some c,cg,h)
    | none => streamCreateConsumer now name cg h
  found.bind fun c => (h.updateConsumer c fun consumer => { consumer with seenTime := now }).map fun h => (c,cg,h)

def setActive (h : Heap N) : Option (Heap N) :=
  h.updateConsumer c fun consumer => { consumer with activeTime := now }

/-- Removes a pending entry from the group and from its consumer, and frees the record. -/
def releaseNACK (n : Nat) (cg : StreamCG N) (h : Heap N) : Option (StreamCG N × Heap N) := do
  let nack ← h.nacks n
  let owner ← nack.consumer
  let h ← h.removePending owner id
  let h ← streamFreeNACK n h
  some ({ cg with pel := cg.pel.erase id },h)

/-! ## Delivery -/

/-- The entry was pending already: its record goes to the consumer that reads it now. -/
def reassign (cg : StreamCG N) (h : Heap N) : Option (Heap N) := do
  let n ← cg.pel.lookup id
  let nack ← h.nacks n
  let owner ← nack.consumer
  let h ← h.removePending owner id
  (h.setNack n (some ⟨now,1,some c⟩)).insertPending c id n

def createPending (cg : StreamCG N) (h : Heap N) : Option (StreamCG N × Heap N) := do
  let n := h.next
  let h := streamCreateNACK now (some c) h
  let consumer ← h.consumers c
  let groupInserted := (cg.pel.lookup id).isNone
  let consumerInserted := (consumer.pel.lookup id).isNone
  let h := if consumerInserted then h.setConsumer c (some { consumer with pel := consumer.pel.insert id n }) else h
  if groupInserted then
    if consumerInserted then some ({ cg with pel := cg.pel.insert id n },h) else none
  else do
    let h ← streamFreeNACK n h
    let h ← reassign now c id cg h
    some (cg,h)

def deliver (noack : Bool) (state : StreamCG N × Heap N) (id : StreamID) :
    Option (StreamCG N × Heap N) := do
  let cg := if streamCompareID id state.1.lastId > 0 then { state.1 with lastId := id } else state.1
  if noack then some (cg,state.2)
  else
    let (cg,h) ← createPending now c id cg state.2
    let h ← setActive now c h
    some (cg,h)

def rangeFrom (start : StreamID) (count : Nat) (ids : List StreamID) : List StreamID :=
  let ids := ids.filter fun id => streamCompareID start id ≤ 0
  if count = 0 then ids else ids.take count

def streamReplyWithRange (start : StreamID) (count : Nat) (c : Nat) (noack : Bool)
    (state : StreamCG N × Heap N) : Option (StreamCG N × Heap N) :=
  (rangeFrom start count entries).foldlM (deliver now c noack) state

/-- An entry of the consumer's own history; the record is left alone if the entry is no longer in the stream. -/
def redeliver (h : Heap N) (id : StreamID) : Option (Heap N) :=
  if id ∈ entries then do
    let consumer ← h.consumers c
    let n ← consumer.pel.lookup id
    let nack ← h.nacks n
    some (h.setNack n (some { nack with deliveryTime := now, deliveryCount := nack.deliveryCount + 1 }))
  else some h

def streamReplyWithRangeFromConsumerPEL (start : StreamID) (count : Nat) (c : Nat)
    (h : Heap N) : Option (Heap N) := do
  let consumer ← h.consumers c
  (rangeFrom start count (raxKeys consumer.pel)).foldlM (redeliver now entries c) h

variable [DecidableEq N]

def readGroup (gt : StreamID) (name : N) (count : Nat) (noack : Bool)
    (cg : StreamCG N) (h : Heap N) : Option (StreamCG N × Heap N) := do
  let serveHistory : Bool := gt ≠ .max
  let serveNew := entries.getLast?.any fun maxid => streamCompareID maxid cg.lastId > 0
  let last := cg.lastId
  let (c,cg,h) ← seeConsumer now name cg h
  if serveHistory then
    let h ← streamReplyWithRangeFromConsumerPEL now entries (streamIncrID gt) count c h
    some (cg,h)
  else if serveNew then streamReplyWithRange now entries (streamIncrID last) count c noack (cg,h)
  else some (cg,h)

/-! ## Acknowledgement and claims -/

def acknowledge (state : Nat × StreamCG N × Heap N) (id : StreamID) : Option (Nat × StreamCG N × Heap N) :=
  let (acknowledged,cg,h) := state
  match cg.pel.lookup id with
  | none => some state
  | some n => (releaseNACK id n cg h).map fun (cg,h) => (acknowledged + 1,cg,h)

/-- Removes the ID from the list of its owner, unless that is the consumer or there is none. -/
def leaveOwner (c : Nat) (owner : Option Nat) (h : Heap N) : Option (Heap N) :=
  if owner = some c then some h
  else
    match owner with
    | some owner => h.removePending owner id
    | none => some h

/-- Gives the record to the consumer, with a delivery time and a number of deliveries. -/
def transfer (n c : Nat) (deliveryTime : Int) (recount : UInt64 → UInt64) (h : Heap N) : Option (Heap N) := do
  let nack ← h.nacks n
  let h ← leaveOwner id c nack.consumer h
  let h := h.setNack n (some { nack with deliveryTime := deliveryTime, deliveryCount := recount nack.deliveryCount })
  if nack.consumer = some c then some h
  else do
    let h ← h.insertPending c id n
    let nack ← h.nacks n
    some (h.setNack n (some { nack with consumer := some c }))

/-- The delivery time given with IDLE or TIME. -/
inductive DeliveryTime where
  | idle (ms : Int)
  | time (ms : Int)

structure ClaimOptions where
  deliveryTime : Option DeliveryTime
  retrycount : Option UInt64
  force : Bool
  justid : Bool
  lastId : StreamID

def ClaimOptions.deliveryTimeAt (options : ClaimOptions) (now : Int) : Int :=
  let given := options.deliveryTime.map fun
    | .idle ms => now - ms
    | .time ms => ms
  match given with
  | none => now
  | some time => if time < 0 ∨ time > now then now else time

def ClaimOptions.recount (options : ClaimOptions) (count : UInt64) : UInt64 :=
  match options.retrycount with
  | some retrycount => retrycount
  | none => if options.justid then count else count + 1

/-- The record exists, or was just created by FORCE without a consumer. -/
def claimPending (now minidle : Int) (options : ClaimOptions) (c : Nat) (id : StreamID) (n : Nat) (claimed : List StreamID)
    (cg : StreamCG N) (h : Heap N) : Option (List StreamID × StreamCG N × Heap N) := do
  let nack ← h.nacks n
  if nack.consumer.isSome ∧ minidle ≠ 0 ∧ now - nack.deliveryTime < minidle then some (claimed,cg,h)
  else
    let h ← transfer id n c (options.deliveryTimeAt now) options.recount h
    let h ← setActive now c h
    some (claimed ++ [id],cg,h)

def claim (now minidle : Int) (options : ClaimOptions) (entries : List StreamID) (c : Nat)
    (state : List StreamID × StreamCG N × Heap N) (id : StreamID) : Option (List StreamID × StreamCG N × Heap N) :=
  let (claimed,cg,h) := state
  if id ∉ entries then
    match cg.pel.lookup id with
    | none => some state
    | some n => (releaseNACK id n cg h).map fun (cg,h) => (claimed,cg,h)
  else
    match cg.pel.lookup id with
    | some n => claimPending now minidle options c id n claimed cg h
    | none =>
      if options.force then
        claimPending now minidle options c id h.next claimed { cg with pel := cg.pel.insert id h.next } (streamCreateNACK now none h)
      else some state

def xclaim (name : N) (minidle : Int) (ids : List StreamID) (options : ClaimOptions)
    (cg : StreamCG N) (h : Heap N) : Option (List StreamID × StreamCG N × Heap N) := do
  let minidle := if minidle < 0 then 0 else minidle
  let cg := if streamCompareID options.lastId cg.lastId > 0 then { cg with lastId := options.lastId } else cg
  let (c,cg,h) ← seeConsumer now name cg h
  ids.foldlM (claim now minidle options entries c) ([],cg,h)

/-- What XAUTOCLAIM has found, with the property of the keys that are still to come. -/
structure AutoClaim (N : Type) where
  claimed : List StreamID
  deleted : List StreamID
  admitted : StreamID → Bool
  cg : StreamCG N
  heap : Heap N

/-- The loop of XAUTOCLAIM; both counters go down. -/
def autoClaimLoop (now minidle : Int) (justid : Bool) (entries : List StreamID) (c : Nat) :
    Nat → Nat → AutoClaim N → Option (AutoClaim N)
  | 0,_,a => some a
  | _,0,a => some a
  | attempts + 1,count + 1,a =>
    match raxNext a.cg.pel a.admitted with
    | none => some a
    | some id => do
      let n ← a.cg.pel.lookup id
      if id ∉ entries then
        let (cg,h) ← releaseNACK id n a.cg a.heap
        -- the iterator seeks the key that was removed
        autoClaimLoop now minidle justid entries c attempts count
          { a with deleted := a.deleted ++ [id], admitted := fun other => streamCompareID id other ≤ 0, cg := cg, heap := h }
      else
        let nack ← a.heap.nacks n
        if minidle ≠ 0 ∧ now - nack.deliveryTime < minidle then
          autoClaimLoop now minidle justid entries c attempts (count + 1)
            { a with admitted := fun other => streamCompareID id other < 0 }
        else
          let h ← transfer id n c now (fun count => if justid then count else count + 1) a.heap
          let h ← setActive now c h
          autoClaimLoop now minidle justid entries c attempts count
            { a with claimed := a.claimed ++ [id], admitted := fun other => streamCompareID id other < 0, heap := h }

/-- The reply is the ID to go on with, the IDs claimed and the IDs whose entries are gone. -/
def xautoclaim (name : N) (minidle : Int) (start : StreamID) (count : Nat) (justid : Bool)
    (cg : StreamCG N) (h : Heap N) : Option ((StreamID × List StreamID × List StreamID) × StreamCG N × Heap N) := do
  let minidle := if minidle < 0 then 0 else minidle
  let (c,cg,h) ← seeConsumer now name cg h
  let a ← autoClaimLoop now minidle justid entries c (count * 10) count
    { claimed := [], deleted := [], admitted := fun id => streamCompareID start id ≤ 0, cg := cg, heap := h }
  some (((raxNext a.cg.pel a.admitted).getD ⟨0,0⟩,a.claimed,a.deleted),a.cg,a.heap)

/-! ## Consumers and groups -/

def dropPending (consumer : StreamConsumer N) (state : StreamCG N × Heap N) (id : StreamID) : Option (StreamCG N × Heap N) := do
  let n ← consumer.pel.lookup id
  let h ← streamFreeNACK n state.2
  some ({ state.1 with pel := state.1.pel.erase id },h)

def streamDelConsumer (cg : StreamCG N) (h : Heap N) : Option (StreamCG N × Heap N) := do
  let consumer ← h.consumers c
  let (cg,h) ← (raxKeys consumer.pel).foldlM (dropPending consumer) (cg,h)
  let h ← streamFreeConsumer c h
  some ({ cg with consumers := cg.consumers.erase consumer.name },h)

/-- The reply is the number of pending entries the consumer had. -/
def delConsumer (name : N) (cg : StreamCG N) (h : Heap N) : Option (Nat × StreamCG N × Heap N) :=
  match cg.consumers.lookup name with
  | none => some (0,cg,h)
  | some c => do
    let consumer ← h.consumers c
    let (cg,h) ← streamDelConsumer c cg h
    some (consumer.pel.keys.length,cg,h)

def streamFreeCG (cg : StreamCG N) (h : Heap N) : Option (Heap N) := do
  let h ← cg.pel.entries.foldlM (fun h entry => streamFreeNACK entry.2 h) h
  cg.consumers.entries.foldlM (fun h entry => streamFreeConsumer entry.2 h) h

/-! ## Copies -/

/-- A pending entry of the group that is copied gets a record without a consumer. -/
def dupNACK (cg : StreamCG N) (state : Pel × Heap N) (id : StreamID) : Option (Pel × Heap N) := do
  let n ← cg.pel.lookup id
  let nack ← state.2.nacks n
  let h := streamCreateNACK nack.deliveryTime none state.2
  some (state.1.insert id state.2.next,h.setNack state.2.next (some ⟨nack.deliveryTime,nack.deliveryCount,none⟩))

def dupPending (pel : Pel) (c : Nat) (h : Heap N) (id : StreamID) : Option (Heap N) := do
  let n ← pel.lookup id
  let nack ← h.nacks n
  (h.setNack n (some { nack with consumer := some c })).insertPending c id n

def dupConsumer (pel : Pel) (state : (AList fun _ : N => Nat) × Heap N) (entry : Sigma fun _ : N => Nat) :
    Option ((AList fun _ : N => Nat) × Heap N) := do
  let consumer ← state.2.consumers entry.2
  let c := state.2.next
  let h := { state.2.setConsumer c (some { consumer with pel := ∅ }) with next := c + 1 }
  let h ← (raxKeys consumer.pel).foldlM (dupPending pel c) h
  some (state.1.insert consumer.name c,h)

def dupGroup (cg : StreamCG N) (h : Heap N) : Option (StreamCG N × Heap N) := do
  let (pel,h) ← (raxKeys cg.pel).foldlM (dupNACK cg) (∅,h)
  let (consumers,h) ← cg.consumers.entries.foldlM (dupConsumer pel) (∅,h)
  some (⟨cg.lastId,pel,consumers⟩,h)

variable [DecidableEq G]

def streamDup (s : Stream G N) (h : Heap N) : Option (Stream G N × Heap N) := do
  let (cgroups,h) ← s.cgroups.entries.foldlM (fun (state : (AList fun _ : G => StreamCG N) × Heap N) entry => do
    let (cg,h) ← dupGroup entry.2 state.2
    some (state.1.insert entry.1 cg,h)) (∅,h)
  some ({ s with cgroups := cgroups },h)

def freeStream (s : Stream G N) (h : Heap N) : Option (Heap N) :=
  s.cgroups.entries.foldlM (fun h entry => streamFreeCG entry.2 h) h

/-! ## Commands -/

variable [DecidableEq K]

namespace Server

def setStream (key : K) (stream : Option (Stream G N)) (s : Server K G N) : Server K G N :=
  { s with streams := Function.update s.streams key stream }

def group (s : Server K G N) (key : K) (name : G) : Option (StreamCG N) := (s.streams key).bind fun stream => stream.cgroups.lookup name

def withGroup (key : K) (name : G) (f : List StreamID → StreamCG N → Heap N → Option (StreamCG N × Heap N)) (s : Server K G N) :
    Option (Server K G N) :=
  match s.streams key with
  | none => some s
  | some stream =>
    match stream.cgroups.lookup name with
    | none => some s
    | some cg =>
      (f stream.entries cg s.heap).map fun (cg,h) =>
        { s.setStream key (some { stream with cgroups := stream.cgroups.insert name cg }) with heap := h }

end Server

def emptyStream : Stream G N := ⟨[],⟨0,0⟩,∅⟩

inductive Command (K G N : Type) where
  | xadd (key : K) (id : StreamID)
  | xdel (key : K) (ids : List StreamID)
  | xtrim (key : K) (count : Nat)
  | create (key : K) (group : G) (id : Option StreamID) (mkstream : Bool)
  | setid (key : K) (group : G) (id : Option StreamID)
  | destroy (key : K) (group : G)
  | createConsumer (key : K) (group : G) (consumer : N)
  | delConsumer (key : K) (group : G) (consumer : N)
  | xreadgroup (streams : List (K × StreamID)) (group : G) (consumer : N) (count : Nat) (noack : Bool)
  | xack (key : K) (group : G) (ids : List StreamID)
  | xclaim (key : K) (group : G) (consumer : N) (minidle : Int) (ids : List StreamID) (options : ClaimOptions)
  | xautoclaim (key : K) (group : G) (consumer : N) (minidle : Int) (start : StreamID) (count : Nat) (justid : Bool)
  | copy (src dst : K) (replace : Bool)
  | del (key : K)
  | tick (ms : Nat)

open Server

def delKey (key : K) (s : Server K G N) : Option (Server K G N) :=
  match s.streams key with
  | none => some s
  | some stream => (freeStream stream s.heap).map fun h => { s.setStream key none with heap := h }

def copyCommand (src dst : K) (replace : Bool) (s : Server K G N) : Option (Server K G N) :=
  match s.streams src with
  | none => some s
  | some stream =>
    if src = dst ∨ (s.streams dst).isSome ∧ !replace then some s
    else do
      let (copied,h) ← streamDup stream s.heap
      let s ← delKey dst { s with heap := h }
      some (s.setStream dst (some copied))

/-- Nothing is read unless every stream has the group. -/
def xreadgroupCommand (streams : List (K × StreamID)) (group : G) (consumer : N) (count : Nat) (noack : Bool) (s : Server K G N) :
    Option (Server K G N) :=
  if streams.all fun entry => (s.group entry.1 group).isSome then
    streams.foldlM (fun s entry => withGroup entry.1 group
      (fun entries cg h => readGroup s.now entries entry.2 consumer count noack cg h) s) s
  else some s

def perform (s : Server K G N) : Command K G N → Option (Server K G N)
  | .xadd key id =>
    let stream := (s.streams key).getD emptyStream
    if streamCompareID id stream.lastId ≤ 0 then some s
    else some (s.setStream key (some { stream with entries := stream.entries ++ [id], lastId := id }))
  | .xdel key ids =>
    some (match s.streams key with
      | none => s
      | some stream => s.setStream key (some { stream with entries := stream.entries.filter (· ∉ ids) }))
  | .xtrim key count =>
    some (match s.streams key with
      | none => s
      | some stream => s.setStream key (some { stream with entries := stream.entries.drop count }))
  | .create key group id mkstream =>
    if (s.streams key).isNone && !mkstream then some s
    else
      let stream := (s.streams key).getD emptyStream
      match stream.cgroups.lookup group with
      | some _ => some s
      | none =>
        some (s.setStream key (some { stream with cgroups := stream.cgroups.insert group ⟨id.getD stream.lastId,∅,∅⟩ }))
  | .setid key group id =>
    withGroup key group (fun _ cg h =>
      some ({ cg with lastId := id.getD (((s.streams key).map Stream.lastId).getD ⟨0,0⟩) },h)) s
  | .destroy key group =>
    match s.streams key with
    | none => some s
    | some stream =>
      match stream.cgroups.lookup group with
      | none => some s
      | some cg =>
        (streamFreeCG cg s.heap).map fun h =>
          { s.setStream key (some { stream with cgroups := stream.cgroups.erase group }) with heap := h }
  | .createConsumer key group consumer =>
    withGroup key group (fun _ cg h => some (streamCreateConsumer s.now consumer cg h).2) s
  | .delConsumer key group consumer => withGroup key group (fun _ cg h => (delConsumer consumer cg h).map Prod.snd) s
  | .xreadgroup streams group consumer count noack => xreadgroupCommand streams group consumer count noack s
  | .xack key group ids =>
    withGroup key group (fun _ cg h => (ids.foldlM acknowledge (0,cg,h)).map Prod.snd) s
  | .xclaim key group consumer minidle ids options =>
    withGroup key group (fun entries cg h => (xclaim s.now entries consumer minidle ids options cg h).map Prod.snd) s
  | .xautoclaim key group consumer minidle start count justid =>
    withGroup key group (fun entries cg h => (xautoclaim s.now entries consumer minidle start count justid cg h).map Prod.snd) s
  | .copy src dst replace => copyCommand src dst replace s
  | .del key => delKey key s
  | .tick ms => some { s with now := s.now + ms }

def run (commands : List (Command K G N)) (s : Server K G N) : Option (Server K G N) := commands.foldlM perform s

def Server.initial (now : Int) : Server K G N := ⟨now,fun _ => none,⟨fun _ => none,fun _ => none,0⟩⟩

end ValkeyWasm.Streams
