import Mathlib.Data.List.AList
import Mathlib.Algebra.Ring.Int.Parity

/-! WATCH and the transactions that rely on it (`multi.c`), with the commands of `db.c` and `cluster.c`
that change a key. A `watchedKey` is an allocated object reached from three places: the list of its
client, the list of its key in the database, and the client's lookup table; the three hold its address.
Functions answer `none` where the source would follow a pointer to a freed or unlinked object. -/

namespace ValkeyWasm.Watch

structure Entry (V : Type) where
  value : V
  expire : Int
  deriving DecidableEq

abbrev Keyspace (K V : Type) (dbnum : Nat) := Fin dbnum → K → Option (Entry V)

/-- What a plain command does with the key it has looked up. -/
inductive Change (V : Type) where
  | keep
  | put (entry : Entry V)
  | delete

structure Access (K V : Type) (dbnum : Nat) where
  key : K
  change : Keyspace K V dbnum → Change V

/-- The commands a client can queue. `access` is every command that looks each of its keys up before it
reads or changes it (GET, SET, DEL, EXPIRE, LPUSH, MSET, LMOVE, ...). -/
inductive Command (K V : Type) (dbnum : Nat) where
  | access (accesses : List (Access K V dbnum))
  | rename (src dst : K) (nx : Bool)
  | move (key : K) (db : Fin dbnum)
  | copy (src dst : K) (db : Fin dbnum) (replace : Bool)
  | store (sources : List K) (dst : K) (result : List (Option V) → Option V)
  | restore (key : K) (payload : Option V) (ttl : Int) (absttl replace : Bool)
  | flushdb
  | flushall
  | swapdb (id1 id2 : Fin dbnum)
  | select (db : Fin dbnum)
  | unwatch

structure WatchedKey (C K : Type) (dbnum : Nat) where
  key : K
  db : Fin dbnum
  client : C
  expired : Bool

structure Client (K V : Type) (dbnum : Nat) where
  db : Fin dbnum
  multi : Bool
  dirtyCas : Bool
  dirtyExec : Bool
  commands : List (Command K V dbnum)
  watchedKeys : List Nat
  watchedKeysByDb : Fin dbnum → K → Option Nat

structure Server (C K V : Type) (dbnum : Nat) where
  now : Int
  keys : Keyspace K V dbnum
  watchedKeys : Fin dbnum → AList (fun _ : K => List Nat)
  objects : Nat → Option (WatchedKey C K dbnum)
  fresh : Nat
  clients : C → Client K V dbnum

variable {C K V : Type} {dbnum : Nat} [DecidableEq C] [DecidableEq K]

def Client.initial [NeZero dbnum] : Client K V dbnum :=
  { db := 0, multi := false, dirtyCas := false, dirtyExec := false, commands := [], watchedKeys := [],
    watchedKeysByDb := fun _ _ => none }

def Server.initial [NeZero dbnum] (now : Int) : Server C K V dbnum :=
  { now := now, keys := fun _ _ => none, watchedKeys := fun _ => ∅, objects := fun _ => none, fresh := 0,
    clients := fun _ => .initial }

namespace Server

def setKeys (keys : Keyspace K V dbnum) (s : Server C K V dbnum) : Server C K V dbnum := { s with keys := keys }

def setClient (c : C) (client : Client K V dbnum) (s : Server C K V dbnum) : Server C K V dbnum :=
  { s with clients := Function.update s.clients c client }

def setObject (a : Nat) (wk : Option (WatchedKey C K dbnum)) (s : Server C K V dbnum) : Server C K V dbnum :=
  { s with objects := Function.update s.objects a wk }

def watchers (s : Server C K V dbnum) (db : Fin dbnum) (key : K) : List Nat :=
  ((s.watchedKeys db).lookup key).getD []

def setWatchers (db : Fin dbnum) (key : K) (watchers : List Nat) (s : Server C K V dbnum) : Server C K V dbnum :=
  let clients := s.watchedKeys db
  let changed := if watchers = [] then clients.erase key else clients.insert key watchers
  { s with watchedKeys := Function.update s.watchedKeys db changed }

end Server

variable (c : C) (db : Fin dbnum) (key : K) (s : Server C K V dbnum)

def timestampIsExpired (now expire : Int) : Bool := 0 ≤ expire && expire < now

def keyIsExpired (db : Fin dbnum) (key : K) : Bool :=
  match s.keys db key with
  | none => false
  | some entry => timestampIsExpired s.now entry.expire

def dbDelete (keys : Keyspace K V dbnum) : Keyspace K V dbnum :=
  Function.update keys db (Function.update (keys db) key none)

def dbAdd (entry : Entry V) (keys : Keyspace K V dbnum) : Keyspace K V dbnum :=
  Function.update keys db (Function.update (keys db) key (some entry))

def resetClientMultiState : Server C K V dbnum :=
  s.setClient c { s.clients c with commands := [] }

/-! ## Watching -/

/-- Adds a new `watchedKey` to the list of its client, the list of its key and the client's table. -/
def linkWatchedKey (wk : WatchedKey C K dbnum) (s : Server C K V dbnum) : Server C K V dbnum :=
  let client := s.clients wk.client
  let table := Function.update client.watchedKeysByDb wk.db
    (Function.update (client.watchedKeysByDb wk.db) wk.key (some s.fresh))
  let clients := s.watchers wk.db wk.key ++ [s.fresh]
  let t := ((s.setObject s.fresh (some wk)).setWatchers wk.db wk.key clients).setClient wk.client
    { client with watchedKeys := client.watchedKeys ++ [s.fresh], watchedKeysByDb := table }
  { t with fresh := s.fresh + 1 }

def watchForKey : Server C K V dbnum :=
  let db := (s.clients c).db
  if ((s.clients c).watchedKeysByDb db key).isSome then s
  else linkWatchedKey { key := key, db := db, client := c, expired := keyIsExpired s db key } s

/-- One turn of `unwatchAllKeys`: unlinks a `watchedKey` from the list of its key and frees it. -/
def unwatchKey (a : Nat) (rest : List Nat) (s : Server C K V dbnum) : Option (Server C K V dbnum) := do
  let wk ← s.objects a
  let clients := s.watchers wk.db wk.key
  if a ∈ clients then
    some (((s.setWatchers wk.db wk.key (clients.erase a)).setClient c
      { s.clients c with watchedKeys := rest }).setObject a none)
  else none

def unwatchLoop (c : C) : List Nat → Server C K V dbnum → Option (Server C K V dbnum)
  | [],s => some s
  | a :: rest,s => do
    let t ← unwatchKey c a rest s
    unwatchLoop c rest t

def unwatchAllKeys : Option (Server C K V dbnum) := do
  if (s.clients c).watchedKeys = [] then some s
  else
    let t ← unwatchLoop c (s.clients c).watchedKeys s
    some (t.setClient c { t.clients c with watchedKeysByDb := fun _ _ => none })

def watchedKeyExpired (s : Server C K V dbnum) : List Nat → Option Bool
  | [] => some false
  | a :: rest => do
    let wk ← s.objects a
    if wk.expired then watchedKeyExpired s rest
    else if keyIsExpired s wk.db wk.key then some true
    else watchedKeyExpired s rest

def isWatchedKeyExpired : Option Bool :=
  watchedKeyExpired s (s.clients c).watchedKeys

def markDirty : Server C K V dbnum :=
  resetClientMultiState c (s.setClient c { s.clients c with dirtyCas := true })

/-- The walk of `touchWatchedKey`: the iterator has saved the node `next`, which has to be in the list
still when the walk comes to it. -/
def touchLoop (db : Fin dbnum) (key : K) : Nat → Option Nat → Server C K V dbnum → Option (Server C K V dbnum)
  | _,none,s => some s
  | 0,some _,_ => none
  | turns + 1,some a,s =>
    match (s.watchers db key).dropWhile (· ≠ a) with
    | [] => none
    | _ :: rest => do
      let wk ← s.objects a
      if wk.expired then
        if db = wk.db ∧ key = wk.key ∧ s.keys db key = none then
          touchLoop db key turns rest.head? (s.setObject a (some { wk with expired := false }))
        else some s
      else
        let t ← unwatchAllKeys wk.client (markDirty wk.client s)
        touchLoop db key turns rest.head? t

def touchWatchedKey : Option (Server C K V dbnum) :=
  touchLoop db key (s.watchers db key).length (s.watchers db key).head? s

def signalModifiedKey : Option (Server C K V dbnum) :=
  touchWatchedKey db key s

/-- What `touchAllWatchedKeysInDb` does to one `watchedKey` of `key`. -/
def touchWatcher (emptied : Fin dbnum) (replacedWith : Option (Fin dbnum)) (key : K) (s : Server C K V dbnum)
    (a : Nat) : Option (Server C K V dbnum) := do
  let wk ← s.objects a
  let inReplaced := replacedWith.any fun db => (s.keys db key).isSome
  let expiredInReplaced := replacedWith.any fun db => keyIsExpired s db key
  if wk.expired && !inReplaced then some (s.setObject a (some { wk with expired := false }))
  else if wk.expired && expiredInReplaced then some s
  else if !wk.expired && !(s.keys emptied key).isSome && expiredInReplaced then
    some (s.setObject a (some { wk with expired := true }))
  else some (markDirty wk.client s)

def touchWatchers (emptied : Fin dbnum) (replacedWith : Option (Fin dbnum)) (s : Server C K V dbnum) (key : K) :
    Option (Server C K V dbnum) :=
  if (s.keys emptied key).isSome || replacedWith.any fun db => (s.keys db key).isSome then
    (s.watchers emptied key).foldlM (touchWatcher emptied replacedWith key) s
  else some s

def touchAllWatchedKeysInDb (emptied : Fin dbnum) (replacedWith : Option (Fin dbnum)) (s : Server C K V dbnum) :
    Option (Server C K V dbnum) :=
  (s.watchedKeys emptied).keys.foldlM (touchWatchers emptied replacedWith) s

/-! ## Commands on keys -/

/-- Looking a key up on a primary deletes it, with a signal, when its time has passed. -/
def lookupKey : Option (Option (Entry V) × Server C K V dbnum) :=
  if keyIsExpired s db key then do
    let t ← signalModifiedKey db key (s.setKeys (dbDelete db key s.keys))
    some (none,t)
  else some (s.keys db key,s)

def accessKey (access : Access K V dbnum) : Option (Server C K V dbnum) := do
  let (found,t) ← lookupKey db access.key s
  match access.change t.keys with
  | .keep => some t
  | .put entry => signalModifiedKey db access.key (t.setKeys (dbAdd db access.key entry t.keys))
  | .delete =>
    if found.isSome then signalModifiedKey db access.key (t.setKeys (dbDelete db access.key t.keys)) else some t

def setKey (value : V) (s : Server C K V dbnum) : Option (Server C K V dbnum) := do
  let (_,t) ← lookupKey db key s
  signalModifiedKey db key (t.setKeys (dbAdd db key { value := value, expire := -1 } t.keys))

def renameGenericCommand (src dst : K) (nx : Bool) (s : Server C K V dbnum) :
    Option (Server C K V dbnum) := do
  let (found,t) ← lookupKey db src s
  match found with
  | none => some t
  | some entry =>
    if src = dst then some t
    else
      let (existing,u) ← lookupKey db dst t
      if existing.isSome && nx then some u
      else
        let w ← signalModifiedKey db src (u.setKeys (dbAdd db dst entry (dbDelete db src (dbDelete db dst u.keys))))
        signalModifiedKey db dst w

def moveCommand (src : Fin dbnum) (key : K) (dst : Fin dbnum) (s : Server C K V dbnum) :
    Option (Server C K V dbnum) := do
  if src = dst then some s
  else
    let (found,t) ← lookupKey src key s
    match found with
    | none => some t
    | some entry =>
      let (existing,u) ← lookupKey dst key t
      if existing.isSome then some u
      else
        let w ← signalModifiedKey src key (u.setKeys (dbAdd dst key entry (dbDelete src key u.keys)))
        signalModifiedKey dst key w

def copyCommand (src : Fin dbnum) (key : K) (dst : Fin dbnum) (newkey : K) (replace : Bool) (s : Server C K V dbnum) :
    Option (Server C K V dbnum) := do
  if src = dst ∧ key = newkey then some s
  else
    let (found,t) ← lookupKey src key s
    match found with
    | none => some t
    | some entry =>
      let (existing,u) ← lookupKey dst newkey t
      if existing.isSome && !replace then some u
      else signalModifiedKey dst newkey (u.setKeys (dbAdd dst newkey entry (dbDelete dst newkey u.keys)))

def lookupKeys (db : Fin dbnum) : List K → Server C K V dbnum → Option (List (Option V) × Server C K V dbnum)
  | [],s => some ([],s)
  | key :: rest,s => do
    let (found,t) ← lookupKey db key s
    let (values,u) ← lookupKeys db rest t
    some (found.map Entry.value :: values,u)

/-- A STORE command writes its result through `setKey`; an empty result deletes the destination instead,
without looking it up. -/
def storeCommand (sources : List K) (dst : K) (result : List (Option V) → Option V)
    (s : Server C K V dbnum) : Option (Server C K V dbnum) := do
  let (values,t) ← lookupKeys db sources s
  match result values with
  | some value => setKey db dst value t
  | none =>
    if (t.keys db dst).isSome then signalModifiedKey db dst (t.setKeys (dbDelete db dst t.keys)) else some t

def checkAlreadyExpired (now when : Int) : Bool := when ≤ now

def restoreExpire (now ttl : Int) (absttl : Bool) : Int :=
  if ttl = 0 then -1 else if absttl then ttl else ttl + now

/-- RESTORE once its arguments are accepted: with REPLACE the old key is deleted without being looked up,
and one signal follows the new key. -/
def restoreKey (value : V) (ttl : Int) (absttl replace : Bool) (s : Server C K V dbnum) :
    Option (Server C K V dbnum) :=
  let deleted := replace && (s.keys db key).isSome
  let t := if replace then s.setKeys (dbDelete db key s.keys) else s
  let expire := restoreExpire s.now ttl absttl
  if ttl ≠ 0 && checkAlreadyExpired s.now expire then
    if deleted then signalModifiedKey db key t else some t
  else signalModifiedKey db key (t.setKeys (dbAdd db key { value := value, expire := expire } t.keys))

def restoreCommand (payload : Option V) (ttl : Int) (absttl replace : Bool)
    (s : Server C K V dbnum) : Option (Server C K V dbnum) := do
  let (found,t) ← if replace then some (none,s) else lookupKey db key s
  if found.isSome || decide (ttl < 0) then some t
  else
    match payload with
    | none => some t
    | some value => restoreKey db key value ttl absttl replace t

def flushdbCommand : Option (Server C K V dbnum) := do
  let t ← touchAllWatchedKeysInDb db none s
  some (t.setKeys (Function.update t.keys db fun _ => none))

def flushallCommand : Option (Server C K V dbnum) := do
  let t ← (List.finRange dbnum).foldlM (fun t db => touchAllWatchedKeysInDb db none t) s
  some (t.setKeys fun _ _ => none)

def dbSwapDatabases (id1 id2 : Fin dbnum) (s : Server C K V dbnum) : Option (Server C K V dbnum) := do
  if id1 = id2 then some s
  else
    let t ← touchAllWatchedKeysInDb id1 (some id2) s
    let u ← touchAllWatchedKeysInDb id2 (some id1) t
    some (u.setKeys (Function.update (Function.update u.keys id1 (u.keys id2)) id2 (u.keys id1)))

def unwatchCommand : Option (Server C K V dbnum) := do
  let t ← unwatchAllKeys c s
  some (t.setClient c { t.clients c with dirtyCas := false })

def call (command : Command K V dbnum) (s : Server C K V dbnum) : Option (Server C K V dbnum) :=
  let db := (s.clients c).db
  match command with
  | .access accesses => accesses.foldlM (accessKey db) s
  | .rename src dst nx => renameGenericCommand db src dst nx s
  | .move key dst => moveCommand db key dst s
  | .copy src dst target replace => copyCommand db src target dst replace s
  | .store sources dst result => storeCommand db sources dst result s
  | .restore key payload ttl absttl replace => restoreCommand db key payload ttl absttl replace s
  | .flushdb => flushdbCommand db s
  | .flushall => flushallCommand s
  | .swapdb id1 id2 => dbSwapDatabases id1 id2 s
  | .select target => some (s.setClient c { s.clients c with db := target })
  | .unwatch => unwatchCommand c s

/-! ## Transactions -/

def discardTransaction : Option (Server C K V dbnum) :=
  let t := resetClientMultiState c s
  unwatchAllKeys c (t.setClient c { t.clients c with multi := false, dirtyCas := false, dirtyExec := false })

def flagTransaction : Server C K V dbnum :=
  if (s.clients c).multi then
    resetClientMultiState c (s.setClient c { s.clients c with dirtyExec := true })
  else s

def queueMultiCommand (command : Command K V dbnum) (s : Server C K V dbnum) : Server C K V dbnum :=
  let client := s.clients c
  if client.dirtyCas || client.dirtyExec then s
  else s.setClient c { client with commands := client.commands ++ [command] }

def watchCommand (keys : List K) (s : Server C K V dbnum) : Server C K V dbnum :=
  if (s.clients c).dirtyCas then s else keys.foldl (fun t key => watchForKey c key t) s

def multiCommand : Server C K V dbnum :=
  s.setClient c { s.clients c with multi := true }

def discardCommand : Option (Server C K V dbnum) :=
  if (s.clients c).multi then discardTransaction c s else some s

inductive ExecReply where
  | withoutMulti
  | execAbort
  | nullArray
  | results (count : Nat)
  deriving DecidableEq

def callAll (c : C) : List (Command K V dbnum) → Server C K V dbnum → Option (List (Server C K V dbnum))
  | [],_ => some []
  | command :: rest,s => do
    let t ← call c command s
    let later ← callAll c rest t
    some (t :: later)

/-- EXEC, with its reply and the states it goes through: one when the transaction is aborted; otherwise
the one in which the keys are unwatched, one after each queued command, and the last. -/
def execCommand : Option (ExecReply × List (Server C K V dbnum)) := do
  let client := s.clients c
  if !client.multi then some (.withoutMulti,[s])
  else
    let expired ← isWatchedKeyExpired c s
    if client.dirtyExec then
      let t ← discardTransaction c s
      some (.execAbort,[t])
    else if client.dirtyCas || expired then
      let t ← discardTransaction c s
      some (.nullArray,[t])
    else
      let t ← unwatchAllKeys c s
      let later ← callAll c client.commands t
      let u ← discardTransaction c (later.getLastD t)
      some (.results client.commands.length,t :: later ++ [u])

def freeClient [NeZero dbnum] (c : C) (s : Server C K V dbnum) : Option (Server C K V dbnum) := do
  let t ← unwatchAllKeys c s
  some (t.setClient c .initial)

/-! ## Runs -/

/-- What the server can do next. `call` is a command a client sends, run at once or queued; `reject` one
that is refused before it is run; `expire` the active expire cycle coming to a key. -/
inductive Step (C K V : Type) (dbnum : Nat) where
  | watch (c : C) (keys : List K)
  | call (c : C) (command : Command K V dbnum)
  | multi (c : C)
  | discard (c : C)
  | exec (c : C)
  | reject (c : C) (exec : Bool)
  | disconnect (c : C)
  | tick (ms : Nat)
  | expire (db : Fin dbnum) (key : K)

/-- The states a step goes through, one for each command it runs. WATCH and MULTI are refused inside a
transaction, as their `NO_MULTI` flag asks. -/
def perform [NeZero dbnum] (s : Server C K V dbnum) : Step C K V dbnum → Option (List (Server C K V dbnum))
  | .watch c keys => some [if (s.clients c).multi then flagTransaction c s else watchCommand c keys s]
  | .call c command =>
    if (s.clients c).multi then some [queueMultiCommand c command s] else (call c command s).map fun t => [t]
  | .multi c => some [if (s.clients c).multi then flagTransaction c s else multiCommand c s]
  | .discard c => (discardCommand c s).map fun t => [t]
  | .exec c => (execCommand c s).map Prod.snd
  | .reject c exec =>
    if exec then (discardTransaction c (flagTransaction c s)).map fun t => [t] else some [flagTransaction c s]
  | .disconnect c => (freeClient c s).map fun t => [t]
  | .tick ms => some [{ s with now := s.now + ms }]
  | .expire db key => (lookupKey db key s).map fun p => [p.2]

def visited [NeZero dbnum] : List (Step C K V dbnum) → Server C K V dbnum → Option (List (Server C K V dbnum))
  | [],_ => some []
  | step :: rest,s => do
    let states ← perform s step
    let later ← visited rest (states.getLastD s)
    some (states ++ later)

end ValkeyWasm.Watch
