import Mathlib.Data.Finset.Sort
import Mathlib.Data.Prod.Lex
import ValkeyWasm.Blocked.Blocked

/-! The records kept of clients that wait for keys (`blocked.c`, `timeout.c`): the keys of each client with the list
node that stands for it, the list of each key, the count of clients to wake when a key goes away, the ready keys and
the table of timeouts. What a command does when it is executed again is left open. Functions answer `none` where an
assertion of the source fails, where it would follow a freed or null pointer, where a counter would go below zero, or
where a loop has not ended in the rounds it was given. -/

namespace ValkeyWasm.Blocking
open Blocked (ObjType BlockedType getBlockedTypeByType)

structure Node (C : Type) where
  address : Nat
  value : C
  deriving DecidableEq

structure Database (C K : Type) where
  blockingKeys : AList (fun _ : K => List (Node C))
  blockingKeysUnblockOnNokey : AList (fun _ : K => Nat)
  readyKeys : Finset K

/-- The flags of a client and its `bstate`; no `bstate` yet is the state `initClientBlockingState` creates. -/
structure Client (K D : Type) where
  db : D
  blocked : Bool
  pendingCommand : Bool
  reexecutingCommand : Bool
  inToTable : Bool
  btype : Option BlockedType
  timeout : Nat
  unblockOnNokey : Bool
  keys : AList (fun _ : K => Nat)

/-- The keys of the timeout table are ordered by the timeout first, then by the bytes of the client's address: that
order is the order of `C`. `nextNode` is the address of the next list node. -/
structure Server (C K D : Type) where
  dbs : D → Database C K
  readyKeys : List (D × K)
  clientsTimeoutTable : Finset (Nat ×ₗ C)
  blockedClients : Nat
  blockedClientsByType : BlockedType → Nat
  clients : C → Client K D
  nextNode : Nat

structure Request (K : Type) where
  btype : BlockedType
  keys : List K
  timeout : Nat
  unblockOnNokey : Bool
  keyed : btype ≠ .module

structure Signal (K D : Type) where
  db : D
  key : K
  type : ObjType
  deleted : Bool

/-- How the re-executed command of a client ends: it replies, it blocks the client again, or the client is freed. -/
inductive Outcome (K : Type) where
  | replied
  | blocked (request : Request K)
  | freed

/-- What happens when a client of a ready key is visited: the type of the object under the key at that moment, the
keys its command signals if it is executed again, and how that command ends. -/
structure Visit (K D : Type) where
  object : Option ObjType
  signals : List (Signal K D)
  outcome : Outcome K

def Client.initial {K D : Type} (db : D) : Client K D :=
  { db := db, blocked := false, pendingCommand := false, reexecutingCommand := false, inToTable := false, btype := none,
    timeout := 0, unblockOnNokey := false, keys := ∅ }

def Server.initial {C K D : Type} (home : C → D) : Server C K D :=
  { dbs := fun _ => { blockingKeys := ∅, blockingKeysUnblockOnNokey := ∅, readyKeys := ∅ }, readyKeys := [],
    clientsTimeoutTable := ∅, blockedClients := 0, blockedClientsByType := fun _ => 0,
    clients := fun c => .initial (home c), nextNode := 0 }

section
variable {C K : Type} [DecidableEq K]

def Database.waiting (db : Database C K) (key : K) : List (Node C) :=
  (db.blockingKeys.lookup key).getD []

/-- The part of `blockForKeys` that files client `c` under a key of its database, as the node at `address`. -/
def Database.enlist (db : Database C K) (key : K) (node : Node C) (unblockOnNokey : Bool) : Database C K :=
  { db with
    blockingKeys := db.blockingKeys.insert key (db.waiting key ++ [node])
    blockingKeysUnblockOnNokey :=
      if unblockOnNokey then
        db.blockingKeysUnblockOnNokey.insert key ((db.blockingKeysUnblockOnNokey.lookup key).getD 0 + 1)
      else db.blockingKeysUnblockOnNokey }

def listUnlinkNode (l : List (Node C)) (pos : Nat) : Option (List (Node C)) :=
  if l.any (fun node => node.address = pos) then some (l.filter fun node => node.address ≠ pos) else none

def Database.dropNokey (db : Database C K) (key : K) : Option (AList fun _ : K => Nat) :=
  match db.blockingKeysUnblockOnNokey.lookup key with
  | none => none
  | some 0 => none
  | some 1 => some (db.blockingKeysUnblockOnNokey.erase key)
  | some (n + 2) => some (db.blockingKeysUnblockOnNokey.insert key (n + 1))

def Database.release (db : Database C K) (key : K) (pos : Nat) (unblockOnNokey : Bool) : Option (Database C K) :=
  (db.blockingKeys.lookup key).bind fun l =>
  (listUnlinkNode l pos).bind fun l =>
    if l.isEmpty then
      some { db with
        blockingKeys := db.blockingKeys.erase key
        blockingKeysUnblockOnNokey := db.blockingKeysUnblockOnNokey.erase key }
    else if unblockOnNokey then
      (db.dropNokey key).map fun nokey =>
        { db with blockingKeys := db.blockingKeys.insert key l, blockingKeysUnblockOnNokey := nokey }
    else some { db with blockingKeys := db.blockingKeys.insert key l }

/-- `listNext` on the node at an address: the node, and the address of the node after it. -/
def listNext : List (Node C) → Nat → Option (Node C × Option Nat)
  | [], _ => none
  | node :: rest, address =>
    if node.address = address then some (node,rest.head?.map Node.address) else listNext rest address

end

section
variable {C K D : Type} [LinearOrder C] [DecidableEq K] [DecidableEq D]

namespace Server

variable (s : Server C K D) (c : C) (key : K)

def setClient (client : Client K D) : Server C K D :=
  { s with clients := Function.update s.clients c client }

def setDb (d : D) (db : Database C K) : Server C K D :=
  { s with dbs := Function.update s.dbs d db }

def addClientToTimeoutTable : Server C K D :=
  if (s.clients c).timeout = 0 then s
  else if toLex ((s.clients c).timeout,c) ∈ s.clientsTimeoutTable then s
  else
    { s.setClient c { s.clients c with inToTable := true } with
      clientsTimeoutTable := insert (toLex ((s.clients c).timeout,c)) s.clientsTimeoutTable }

def removeClientFromTimeoutTable : Server C K D :=
  if (s.clients c).inToTable then
    { s.setClient c { s.clients c with inToTable := false } with
      clientsTimeoutTable := s.clientsTimeoutTable.erase (toLex ((s.clients c).timeout,c)) }
  else s

def blockClient (btype : BlockedType) : Server C K D :=
  { s.setClient c { s.clients c with blocked := true, btype := some btype } with
    blockedClients := s.blockedClients + 1
    blockedClientsByType :=
      Function.update s.blockedClientsByType btype (s.blockedClientsByType btype + 1) }.addClientToTimeoutTable c

def blockForKey (unblockOnNokey : Bool) (s : Server C K D) (key : K) : Server C K D :=
  if ((s.clients c).keys.lookup key).isSome then s
  else
    { (s.setDb (s.clients c).db
        ((s.dbs (s.clients c).db).enlist key ⟨s.nextNode,c⟩ unblockOnNokey)).setClient c
        { s.clients c with keys := (s.clients c).keys.insert key s.nextNode } with
      nextNode := s.nextNode + 1 }

def blockForKeys (request : Request K) : Server C K D :=
  let s := if (s.clients c).reexecutingCommand then s
    else s.setClient c { s.clients c with timeout := request.timeout }
  let s := request.keys.foldl (blockForKey c request.unblockOnNokey) s
  let s := s.setClient c
    { s.clients c with unblockOnNokey := request.unblockOnNokey, pendingCommand := true }
  s.blockClient c request.btype

def releaseBlockedEntry (removeKey : Bool) (s : Server C K D) (key : K) (pos : Nat) : Option (Server C K D) :=
  ((s.dbs (s.clients c).db).release key pos (s.clients c).unblockOnNokey).map fun db =>
    let s := s.setDb (s.clients c).db db
    if removeKey then s.setClient c { s.clients c with keys := (s.clients c).keys.erase key } else s

def unblockClientWaitingData : Option (Server C K D) :=
  ((s.clients c).keys.entries.foldlM (fun s entry => releaseBlockedEntry c false s entry.1 entry.2) s).map fun s =>
    s.setClient c { s.clients c with keys := ∅ }

def clearBlocked (btype : BlockedType) : Option (Server C K D) :=
  if s.blockedClients = 0 ∨ s.blockedClientsByType btype = 0 then none
  else
    some ({ s.setClient c { s.clients c with blocked := false, btype := none, unblockOnNokey := false } with
      blockedClients := s.blockedClients - 1
      blockedClientsByType := Function.update s.blockedClientsByType btype
        (s.blockedClientsByType btype - 1) }.removeClientFromTimeoutTable c)

def unblockClient : Option (Server C K D) :=
  match (s.clients c).btype with
  | none => none
  | some .module => none
  | some btype => (s.unblockClientWaitingData c).bind fun s => s.clearBlocked c btype

def unblockClientOnTimeout : Option (Server C K D) :=
  (s.setClient c { s.clients c with pendingCommand := false }).unblockClient c

def unblockClientOnError : Option (Server C K D) :=
  (s.setClient c { s.clients c with pendingCommand := false }).unblockClient c

/-- The part of `freeClient` about blocking. The address may later be that of a new client. -/
def freeClient : Option (Server C K D) :=
  (if (s.clients c).blocked then s.unblockClient c else some s).map fun s =>
    s.setClient c (.initial (s.clients c).db)

def checkBlockedClientTimeout (now : Nat) : Option (Server C K D) :=
  if (s.clients c).blocked = true ∧ (s.clients c).timeout ≠ 0 ∧ (s.clients c).timeout < now then
    s.unblockClientOnTimeout c
  else some s

def firstTimeout : Option (Nat ×ₗ C) :=
  (s.clientsTimeoutTable.sort (· ≤ ·)).head?

def timeoutLoop (now : Nat) : Nat → Server C K D → Option (Server C K D)
  | 0, s => if s.firstTimeout = none then some s else none
  | rounds + 1, s =>
    match s.firstTimeout with
    | none => some s
    | some entry =>
      if now ≤ (ofLex entry).1 then some s
      else
        ((s.setClient (ofLex entry).2
            { s.clients (ofLex entry).2 with inToTable := false }).checkBlockedClientTimeout (ofLex entry).2 now).bind
          fun s => timeoutLoop now rounds { s with clientsTimeoutTable := s.clientsTimeoutTable.erase entry }

def handleBlockedClientsTimeout (now : Nat) : Option (Server C K D) :=
  timeoutLoop now s.clientsTimeoutTable.card s

def unawaited (signal : Signal K D) : Bool :=
  if signal.deleted then ((s.dbs signal.db).blockingKeysUnblockOnNokey.lookup signal.key).isNone
  else ((s.dbs signal.db).blockingKeys.lookup signal.key).isNone

def signalKeyAsReadyLogic (signal : Signal K D) : Server C K D :=
  match getBlockedTypeByType signal.type with
  | none => s
  | some btype =>
    if s.blockedClientsByType btype = 0 ∧ s.blockedClientsByType .module = 0 then s
    else if s.unawaited signal then s
    else if signal.key ∈ (s.dbs signal.db).readyKeys then s
    else
      { s.setDb signal.db { s.dbs signal.db with readyKeys := insert signal.key (s.dbs signal.db).readyKeys } with
        readyKeys := s.readyKeys ++ [(signal.db,signal.key)] }

/-- `processCommandAndResetClient` on a client whose command is executed again, and what follows it. -/
def reexecute (visit : Visit K D) : Option (Server C K D) :=
  let s := s.setClient c { s.clients c with pendingCommand := false, reexecutingCommand := true }
  let s := visit.signals.foldl signalKeyAsReadyLogic s
  match visit.outcome with
  | .replied => some (s.setClient c { s.clients c with reexecutingCommand := false })
  | .blocked request =>
    let s := s.blockForKeys c request
    some (s.setClient c { s.clients c with reexecutingCommand := false })
  | .freed => s.freeClient c

def unblockClientOnKey (visit : Visit K D) : Option (Server C K D) :=
  ((s.clients c).keys.lookup key).bind fun pos =>
  (releaseBlockedEntry c true s key pos).bind fun s =>
    if (s.clients c).btype = none ∨ (s.clients c).btype = some .module then none
    else
      (s.unblockClient c).bind fun s =>
        if (s.clients c).pendingCommand then s.reexecute c visit else some s

/-- One visit of a client of a ready key. Once the recorded visits are used up the key holds nothing and commands
reply. -/
def visitClient (receiver : C) :
    List (Visit K D) → Option (Server C K D × List (Visit K D))
  | [] =>
    if (s.clients receiver).unblockOnNokey then
      (s.unblockClientOnKey receiver key ⟨none,[],.replied⟩).map fun s => (s,[])
    else some (s,[])
  | visit :: visits =>
    if (visit.object.bind getBlockedTypeByType).isSome ∧
        (s.clients receiver).btype = visit.object.bind getBlockedTypeByType ∨ (s.clients receiver).unblockOnNokey then
      (s.unblockClientOnKey receiver key visit).map fun s => (s,visits)
    else some (s,visits)

/-- The loop of `handleClientsBlockedOnKey`: the iterator holds the address of its next node, `count` bounds the
clients still to visit. The node is read before the count is. -/
def visitLoop (d : D) (key : K) :
    Nat → Option Nat → Server C K D → List (Visit K D) → Option (Server C K D × List (Visit K D))
  | _, none, s, visits => some (s,visits)
  | 0, some address, s, visits => (listNext ((s.dbs d).waiting key) address).map fun _ => (s,visits)
  | count + 1, some address, s, visits =>
    (listNext ((s.dbs d).waiting key) address).bind fun found =>
    (s.visitClient key found.1.value visits).bind fun visited =>
      visitLoop d key count found.2 visited.1 visited.2

def handleClientsBlockedOnKey (d : D) (key : K) (visits : List (Visit K D)) :
    Option (Server C K D × List (Visit K D)) :=
  match (s.dbs d).blockingKeys.lookup key with
  | none => some (s,visits)
  | some clients => visitLoop d key clients.length (clients.head?.map Node.address) s visits

def serveReadyKeys : List (D × K) → Server C K D → List (Visit K D) → Option (Server C K D × List (Visit K D))
  | [], s, visits => some (s,visits)
  | (d,key) :: rest, s, visits =>
    ((s.setDb d { s.dbs d with readyKeys := (s.dbs d).readyKeys.erase key }).handleClientsBlockedOnKey d key visits).bind
      fun served => serveReadyKeys rest served.1 served.2

def readyLoop : Nat → Server C K D → List (Visit K D) → Option (Server C K D)
  | 0, s, _ => if s.readyKeys = [] then some s else none
  | rounds + 1, s, visits =>
    if s.readyKeys = [] then some s
    else
      (serveReadyKeys s.readyKeys { s with readyKeys := [] } visits).bind fun served =>
        readyLoop rounds served.1 served.2

def handleClientsBlockedOnKeys (visits : List (Visit K D)) : Option (Server C K D) :=
  readyLoop (visits.length + 1) s visits

end Server

/-- What can happen to the server. A blocked client executes no command, so only the events of clients that are not
blocked can block them or change their database. -/
inductive Event (C K D : Type) where
  | select (c : C) (db : D)
  | blockForKeys (c : C) (request : Request K)
  | signalKeyAsReady (signal : Signal K D)
  | handleClientsBlockedOnKeys (visits : List (Visit K D))
  | handleBlockedClientsTimeout (now : Nat)
  | unblockClientOnError (c : C)
  | freeClient (c : C)

def perform (s : Server C K D) : Event C K D → Option (Server C K D)
  | .select c db => some (if (s.clients c).blocked then s else s.setClient c { s.clients c with db := db })
  | .blockForKeys c request => some (if (s.clients c).blocked then s else s.blockForKeys c request)
  | .signalKeyAsReady signal => some (s.signalKeyAsReadyLogic signal)
  | .handleClientsBlockedOnKeys visits => s.handleClientsBlockedOnKeys visits
  | .handleBlockedClientsTimeout now => s.handleBlockedClientsTimeout now
  | .unblockClientOnError c => if (s.clients c).blocked then s.unblockClientOnError c else some s
  | .freeClient c => s.freeClient c

def run (s : Server C K D) : List (Event C K D) → Option (Server C K D)
  | [] => some s
  | event :: events => (perform s event).bind fun s => run s events

end

end ValkeyWasm.Blocking
