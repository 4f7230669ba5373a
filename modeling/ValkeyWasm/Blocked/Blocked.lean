import Mathlib.Data.List.AList
import Mathlib.Algebra.Ring.Int.Parity

/-! Clients blocked on keys (`blocked.c`), with the functions of `db.c`, `t_list.c` and `t_zset.c` that block
them, change the keys they wait for and signal those keys as ready. Functions answer `none` where an assertion of
the source fails, where it would follow a freed list node, or where a loop has not ended in the rounds it was given. -/

namespace ValkeyWasm.Blocked

inductive ObjType where
  | string
  | list
  | set
  | zset
  | hash
  | stream
  | module
  deriving DecidableEq

inductive BlockedType where
  | list
  | zset
  | stream
  | module
  deriving DecidableEq

def getBlockedTypeByType : ObjType → Option BlockedType
  | .list => some .list
  | .zset => some .zset
  | .module => some .module
  | .stream => some .stream
  | _ => none

/-- The elements of a list or of a sorted set: a key whose last element goes is deleted. -/
structure Elements (E : Type) where
  items : List E
  nonempty : items ≠ []

/-- A stored object. Only the elements of lists and sorted sets are read here. -/
inductive Value (E : Type) where
  | list (elements : Elements E)
  | zset (elements : Elements E)
  | string
  | set
  | hash
  | stream
  | module

def Value.type {E : Type} : Value E → ObjType
  | .list _ => .list
  | .zset _ => .zset
  | .string => .string
  | .set => .set
  | .hash => .hash
  | .stream => .stream
  | .module => .module

structure Entry (E : Type) where
  value : Value E
  expire : Int

abbrev Keyspace (K E : Type) (dbnum : Nat) := Fin dbnum → K → Option (Entry E)

inductive ListEnd where
  | head
  | tail

/-- BLPOP, BRPOP and BLMPOP; BLMOVE and BRPOPLPUSH; BZPOPMIN, BZPOPMAX and BZMPOP. -/
inductive BlockingCommand (K : Type) where
  | pop (keys : List K) (side : ListEnd) (count : Nat)
  | move (src dst : K) (wherefrom whereto : ListEnd)
  | zpop (keys : List K) (side : ListEnd) (count : Nat)

structure ScanOrder (K : Type) where
  visit : List K → List K
  complete : ∀ keys, ∀ key ∈ keys, key ∈ visit keys

/-- The other commands. `zadd` stands for the commands that add to a sorted set, by what they make of it; `remove`
for those that take elements out of a list or sorted set; `store` for SORT, ZUNIONSTORE and the like, by the
result they compute from their sources. -/
inductive Command (K E : Type) (dbnum : Nat) where
  | push (key : K) (elements : Elements E) (side : ListEnd) (xx : Bool)
  | zadd (key : K) (add : Option (Elements E) → Option (Elements E))
  | set (key : K) (nx xx keepttl : Bool) (expire : Option Int)
  | del (keys : List K)
  | remove (key : K) (keep : List E → List E)
  | lmove (src dst : K) (wherefrom whereto : ListEnd)
  | rename (src dst : K) (nx : Bool)
  | move (key : K) (db : Fin dbnum)
  | copy (src dst : K) (db : Fin dbnum) (replace : Bool)
  | restore (key : K) (payload : Option (Value E)) (ttl : Int) (absttl replace : Bool)
  | store (sources : List K) (dst : K) (result : List (Option (Value E)) → Option (Value E))
  | swapdb (id1 id2 : Fin dbnum) (order : ScanOrder K)
  | select (db : Fin dbnum)
  | blocking (command : BlockingCommand K)

structure Client (K : Type) (dbnum : Nat) where
  db : Fin dbnum
  btype : Option BlockedType
  keys : List K
  unblockOnNokey : Bool
  command : Option (BlockingCommand K)

structure Server (C K E : Type) (dbnum : Nat) where
  now : Int
  keys : Keyspace K E dbnum
  blockingKeys : Fin dbnum → AList (fun _ : K => List C)
  blockingKeysUnblockOnNokey : Fin dbnum → K → Nat
  dbReadyKeys : Fin dbnum → K → Bool
  readyKeys : List (Fin dbnum × K)
  blockedClientsByType : BlockedType → Nat
  clients : C → Client K dbnum

def Client.initial {K : Type} {dbnum : Nat} [NeZero dbnum] : Client K dbnum :=
  { db := 0, btype := none, keys := [], unblockOnNokey := false, command := none }

def Server.initial {C K E : Type} {dbnum : Nat} [NeZero dbnum] (now : Int) : Server C K E dbnum :=
  { now := now, keys := fun _ _ => none, blockingKeys := fun _ => ∅, blockingKeysUnblockOnNokey := fun _ _ => 0,
    dbReadyKeys := fun _ _ => false, readyKeys := [], blockedClientsByType := fun _ => 0, clients := fun _ => .initial }

section
variable {E : Type}

def Elements.ofList : List E → Option (Elements E)
  | [] => none
  | x :: rest => some ⟨x :: rest,List.cons_ne_nil x rest⟩

def Elements.pop (elements : Elements E) : ListEnd → E × List E
  | .head => (elements.items.head elements.nonempty,elements.items.tail)
  | .tail => (elements.items.getLast elements.nonempty,elements.items.dropLast)

def listTypePush (side : ListEnd) (items : List E) (x : E) : Elements E :=
  match side with
  | .head => ⟨x :: items,List.cons_ne_nil x items⟩
  | .tail => ⟨items ++ [x],by simp⟩

def Elements.push (side : ListEnd) (items : List E) (elements : Elements E) : Elements E :=
  match side with
  | .head => ⟨elements.items.reverse ++ items,by simp [elements.nonempty]⟩
  | .tail => ⟨items ++ elements.items,by simp [elements.nonempty]⟩

def removeRange (side : ListEnd) (count : Nat) (items : List E) : List E :=
  match side with
  | .head => items.drop count
  | .tail => items.take (items.length - count)

def Value.change (keep : List E → List E) : Value E → Option (Value E)
  | .list elements => (Elements.ofList (keep elements.items)).map .list
  | .zset elements => (Elements.ofList (keep elements.items)).map .zset
  | other => some other

end

variable {C K E : Type} {dbnum : Nat} [DecidableEq C] [DecidableEq K]

namespace Server

def setKey (db : Fin dbnum) (key : K) (entry : Option (Entry E)) (s : Server C K E dbnum) : Server C K E dbnum :=
  { s with keys := Function.update s.keys db (Function.update (s.keys db) key entry) }

def setClient (c : C) (client : Client K dbnum) (s : Server C K E dbnum) : Server C K E dbnum :=
  { s with clients := Function.update s.clients c client }

def waiting (s : Server C K E dbnum) (db : Fin dbnum) (key : K) : List C := ((s.blockingKeys db).lookup key).getD []

def setWaiting (db : Fin dbnum) (key : K) (clients : List C) (s : Server C K E dbnum) : Server C K E dbnum :=
  let old := s.blockingKeys db
  let changed := if clients = [] then old.erase key else old.insert key clients
  { s with blockingKeys := Function.update s.blockingKeys db changed }

end Server

variable (c : C) (db : Fin dbnum) (key : K) (s : Server C K E dbnum)

def timestampIsExpired (now expire : Int) : Bool := 0 ≤ expire && expire < now

def visible (db : Fin dbnum) (key : K) : Option (Entry E) :=
  (s.keys db key).filter fun entry => !timestampIsExpired s.now entry.expire

/-! ## Signals -/

def queueReadyKey : Server C K E dbnum :=
  if s.dbReadyKeys db key then s
  else
    { s with dbReadyKeys := Function.update s.dbReadyKeys db (Function.update (s.dbReadyKeys db) key true),
             readyKeys := s.readyKeys ++ [(db,key)] }

def signalKeyAsReadyLogic (type : ObjType) (deleted : Bool) (s : Server C K E dbnum) :
    Server C K E dbnum :=
  match getBlockedTypeByType type with
  | none => s
  | some btype =>
    if s.blockedClientsByType btype = 0 ∧ s.blockedClientsByType .module = 0 then s
    else if deleted then
      if s.blockingKeysUnblockOnNokey db key = 0 then s else queueReadyKey db key s
    else if (s.blockingKeys db).lookup key = none then s
    else queueReadyKey db key s

def signalKeyAsReady (type : ObjType) (s : Server C K E dbnum) : Server C K E dbnum :=
  signalKeyAsReadyLogic db key type false s

def signalDeletedKeyAsReady (type : ObjType) (s : Server C K E dbnum) : Server C K E dbnum :=
  signalKeyAsReadyLogic db key type true s

/-! ## The key space -/

def dbDelete : Server C K E dbnum :=
  match s.keys db key with
  | none => s
  | some entry => (signalDeletedKeyAsReady db key entry.value.type s).setKey db key none

def dbAdd (entry : Entry E) (s : Server C K E dbnum) : Server C K E dbnum :=
  signalKeyAsReady db key entry.value.type (s.setKey db key (some entry))

/-- Replacing the whole value of an existing key signals the deletion of the old one; the expire time stays. -/
def dbSetValue (old : Entry E) (value : Value E) (s : Server C K E dbnum) : Server C K E dbnum :=
  (signalDeletedKeyAsReady db key old.value.type s).setKey db key (some { old with value := value })

/-- Looking a key up on a primary deletes it when its time has passed. -/
def lookupKey : Option (Entry E) × Server C K E dbnum :=
  match s.keys db key with
  | none => (none,s)
  | some entry => if timestampIsExpired s.now entry.expire then (none,dbDelete db key s) else (some entry,s)

/-- The expire time of a key after `setKey`, which may be asked to keep the one it had. -/
def setKey (value : Value E) (found : Option (Entry E)) (expire : Option Int)
    (s : Server C K E dbnum) : Server C K E dbnum :=
  match found with
  | none => dbAdd db key { value := value, expire := expire.getD (-1) } s
  | some old => dbSetValue db key { old with expire := expire.getD (-1) } value s

def updateValue (entry : Entry E) (value : Option (Value E)) (s : Server C K E dbnum) :
    Server C K E dbnum :=
  match value with
  | none => dbDelete db key s
  | some value => s.setKey db key (some { entry with value := value })

def checkAlreadyExpired (now when : Int) : Bool := when ≤ now

/-! ## Commands -/

def pushGenericCommand (elements : Elements E) (side : ListEnd) (xx : Bool)
    (s : Server C K E dbnum) : Server C K E dbnum :=
  let (found,t) := lookupKey db key s
  match found with
  | none => if xx then t else dbAdd db key { value := .list (elements.push side []), expire := -1 } t
  | some entry =>
    match entry.value with
    | .list old => updateValue db key entry (some (.list (elements.push side old.items))) t
    | _ => t

def zaddGenericCommand (add : Option (Elements E) → Option (Elements E))
    (s : Server C K E dbnum) : Server C K E dbnum :=
  let (found,t) := lookupKey db key s
  match found with
  | none =>
    match add none with
    | none => t
    | some elements => dbAdd db key { value := .zset elements, expire := -1 } t
  | some entry =>
    match entry.value with
    | .zset old =>
      match add (some old) with
      | none => t
      | some elements => updateValue db key entry (some (.zset elements)) t
    | _ => t

def setGenericCommand (nx xx keepttl : Bool) (expire : Option Int) (s : Server C K E dbnum) :
    Server C K E dbnum :=
  let (found,t) := lookupKey db key s
  if (nx && found.isSome) || (xx && !found.isSome) then t
  else if expire.any (checkAlreadyExpired t.now) then dbDelete db key t
  else setKey db key .string found (expire <|> if keepttl then found.map Entry.expire else none) t

def delGenericCommand (keys : List K) (s : Server C K E dbnum) : Server C K E dbnum :=
  keys.foldl (fun s key => dbDelete db key (lookupKey db key s).2) s

def removeElements (keep : List E → List E) (s : Server C K E dbnum) : Server C K E dbnum :=
  let (found,t) := lookupKey db key s
  match found with
  | none => t
  | some entry => updateValue db key entry (entry.value.change keep) t

/-- LMOVE once its keys are looked up: the element is pushed, then the source is left without it. -/
def lmoveElement (src : K) (entry : Entry E) (elements : Elements E) (dst : K) (target : Option (Entry E))
    (wherefrom whereto : ListEnd) (s : Server C K E dbnum) : Server C K E dbnum :=
  let (x,rest) := elements.pop wherefrom
  if src = dst then updateValue db src entry (some (.list (listTypePush whereto rest x))) s
  else
    match target with
    | none =>
      updateValue db src entry ((Elements.ofList rest).map .list)
        (dbAdd db dst { value := .list (listTypePush whereto [] x), expire := -1 } s)
    | some other =>
      match other.value with
      | .list old =>
        updateValue db src entry ((Elements.ofList rest).map .list)
          (updateValue db dst other (some (.list (listTypePush whereto old.items x))) s)
      | _ => s

def lmoveGenericCommand (src dst : K) (wherefrom whereto : ListEnd) (s : Server C K E dbnum) :
    Server C K E dbnum :=
  let (found,t) := lookupKey db src s
  match found with
  | none => t
  | some entry =>
    match entry.value with
    | .list elements =>
      let (target,u) := lookupKey db dst t
      lmoveElement db src entry elements dst target wherefrom whereto u
    | _ => t

def renameGenericCommand (src dst : K) (nx : Bool) (s : Server C K E dbnum) : Server C K E dbnum :=
  let (found,t) := lookupKey db src s
  match found with
  | none => t
  | some entry =>
    if src = dst then t
    else
      let (existing,u) := lookupKey db dst t
      if existing.isSome && nx then u else dbAdd db dst entry (dbDelete db src (dbDelete db dst u))

def moveCommand (src : Fin dbnum) (key : K) (dst : Fin dbnum) (s : Server C K E dbnum) : Server C K E dbnum :=
  if src = dst then s
  else
    let (found,t) := lookupKey src key s
    match found with
    | none => t
    | some entry =>
      let (existing,u) := lookupKey dst key t
      if existing.isSome then u else dbAdd dst key entry (dbDelete src key u)

def copyCommand (src : Fin dbnum) (key : K) (dst : Fin dbnum) (newkey : K) (replace : Bool) (s : Server C K E dbnum) :
    Server C K E dbnum :=
  if src = dst ∧ key = newkey then s
  else
    let (found,t) := lookupKey src key s
    match found with
    | none => t
    | some entry =>
      let (existing,u) := lookupKey dst newkey t
      if existing.isSome && !replace then u else dbAdd dst newkey entry (dbDelete dst newkey u)

def restoreCommand (payload : Option (Value E)) (ttl : Int) (absttl replace : Bool)
    (s : Server C K E dbnum) : Server C K E dbnum :=
  let (found,t) := if replace then (none,s) else lookupKey db key s
  if found.isSome || decide (ttl < 0) then t
  else
    match payload with
    | none => t
    | some value =>
      let u := if replace then dbDelete db key t else t
      let expire := if ttl = 0 then -1 else if absttl then ttl else ttl + u.now
      if ttl ≠ 0 && checkAlreadyExpired u.now expire then u else dbAdd db key { value := value, expire := expire } u

def lookupKeys (db : Fin dbnum) : List K → Server C K E dbnum → List (Option (Value E)) × Server C K E dbnum
  | [],s => ([],s)
  | key :: rest,s =>
    let (found,t) := lookupKey db key s
    let (values,u) := lookupKeys db rest t
    (found.map Entry.value :: values,u)

def storeCommand (sources : List K) (dst : K) (result : List (Option (Value E)) → Option (Value E))
    (s : Server C K E dbnum) : Server C K E dbnum :=
  let (values,t) := lookupKeys db sources s
  match result values with
  | none => dbDelete db dst t
  | some value =>
    let (found,u) := lookupKey db dst t
    setKey db dst value found none u

def scanDatabaseForReadyKeys (order : ScanOrder K) (s : Server C K E dbnum) : Server C K E dbnum :=
  (order.visit (s.blockingKeys db).keys).foldl (fun t key =>
    match t.keys db key with
    | none => t
    | some entry => signalKeyAsReady db key entry.value.type t) s

def scanDatabaseForDeletedKeys (emptied replacedWith : Fin dbnum) (order : ScanOrder K) (s : Server C K E dbnum) :
    Server C K E dbnum :=
  (order.visit (s.blockingKeys emptied).keys).foldl (fun t key =>
    let original := (t.keys emptied key).map fun entry => entry.value.type
    let current := (t.keys replacedWith key).map fun entry => entry.value.type
    match original with
    | none => t
    | some type => if original ≠ current then signalDeletedKeyAsReady emptied key type t else t) s

def dbSwapDatabases (id1 id2 : Fin dbnum) (order : ScanOrder K) (s : Server C K E dbnum) : Server C K E dbnum :=
  if id1 = id2 then s
  else
    let t := scanDatabaseForDeletedKeys id2 id1 order (scanDatabaseForDeletedKeys id1 id2 order s)
    let u := { t with keys := Function.update (Function.update t.keys id1 (t.keys id2)) id2 (t.keys id1) }
    scanDatabaseForReadyKeys id2 order (scanDatabaseForReadyKeys id1 order u)

/-! ## Blocking and unblocking -/

def blockForKey (unblockOnNokey : Bool) (s : Server C K E dbnum) (key : K) : Server C K E dbnum :=
  let client := s.clients c
  if key ∈ client.keys then s
  else
    let count := s.blockingKeysUnblockOnNokey client.db key + if unblockOnNokey then 1 else 0
    let t := (s.setWaiting client.db key (s.waiting client.db key ++ [c])).setClient c { client with keys := client.keys ++ [key] }
    { t with blockingKeysUnblockOnNokey := Function.update t.blockingKeysUnblockOnNokey client.db
               (Function.update (t.blockingKeysUnblockOnNokey client.db) key count) }

def blockForKeys (btype : BlockedType) (keys : List K) (unblockOnNokey : Bool) (command : BlockingCommand K)
    (s : Server C K E dbnum) : Server C K E dbnum :=
  let t := keys.foldl (blockForKey c unblockOnNokey) s
  { t.setClient c { t.clients c with btype := some btype, unblockOnNokey := unblockOnNokey, command := some command } with
    blockedClientsByType := Function.update t.blockedClientsByType btype (t.blockedClientsByType btype + 1) }

/-- The loop of the blocking pops over their keys: whether a key was there, popped from or of the wrong type. -/
def popFirst (want : ObjType) (db : Fin dbnum) (side : ListEnd) (count : Nat) :
    List K → Server C K E dbnum → Bool × Server C K E dbnum
  | [],s => (false,s)
  | key :: rest,s =>
    let (found,t) := lookupKey db key s
    match found with
    | none => popFirst want db side count rest t
    | some entry =>
      if entry.value.type = want then (true,updateValue db key entry (entry.value.change (removeRange side count)) t)
      else (true,t)

def blockingPop (want : ObjType) (btype : BlockedType) (c : C) (keys : List K) (side : ListEnd) (count : Nat)
    (denyBlocking : Bool) (command : BlockingCommand K) (s : Server C K E dbnum) : Server C K E dbnum :=
  let (served,t) := popFirst want (s.clients c).db side count keys s
  if served || denyBlocking then t else blockForKeys c btype keys false command t

def blmoveGenericCommand (src dst : K) (wherefrom whereto : ListEnd) (denyBlocking : Bool)
    (command : BlockingCommand K) (s : Server C K E dbnum) : Server C K E dbnum :=
  let (found,t) := lookupKey (s.clients c).db src s
  match found with
  | none => if denyBlocking then t else blockForKeys c .list [src] false command t
  | some entry =>
    match entry.value with
    | .list _ => lmoveGenericCommand (s.clients c).db src dst wherefrom whereto t
    | _ => t

def runBlocking (command : BlockingCommand K) (denyBlocking : Bool) (s : Server C K E dbnum) : Server C K E dbnum :=
  match command with
  | .pop keys side count => blockingPop .list .list c keys side count denyBlocking command s
  | .move src dst wherefrom whereto => blmoveGenericCommand c src dst wherefrom whereto denyBlocking command s
  | .zpop keys side count => blockingPop .zset .zset c keys side count denyBlocking command s

def releaseBlockedEntry : Option (Server C K E dbnum) :=
  let client := s.clients c
  let clients := s.waiting client.db key
  if c ∈ clients then
    let rest := clients.erase c
    let t := s.setWaiting client.db key rest
    let count := s.blockingKeysUnblockOnNokey client.db key
    let setCount := fun n => { t with blockingKeysUnblockOnNokey := Function.update t.blockingKeysUnblockOnNokey client.db
                                        (Function.update (t.blockingKeysUnblockOnNokey client.db) key n) }
    if rest = [] then some (setCount 0)
    else if client.unblockOnNokey then if count = 0 then none else some (setCount (count - 1))
    else some t
  else none

def unblockClientWaitingData : Option (Server C K E dbnum) := do
  let t ← (s.clients c).keys.foldlM (fun t key => releaseBlockedEntry c key t) s
  some (t.setClient c { t.clients c with keys := [] })

def unblockClient : Option (Server C K E dbnum) := do
  let btype ← (s.clients c).btype
  let t ← unblockClientWaitingData c s
  some { t.setClient c { t.clients c with btype := none, unblockOnNokey := false } with
    blockedClientsByType := Function.update t.blockedClientsByType btype (t.blockedClientsByType btype - 1) }

def unblockClientOnKey : Option (Server C K E dbnum) := do
  let t ← releaseBlockedEntry c key s
  let command ← (t.clients c).command
  let u ← unblockClient c (t.setClient c { t.clients c with keys := (t.clients c).keys.erase key })
  some (runBlocking c command false (u.setClient c { u.clients c with command := none }))

/-! ## Serving -/

def serveReceiver (c : C) (s : Server C K E dbnum) : Option (Server C K E dbnum) :=
  let client := s.clients c
  if (visible s db key).any (fun entry => getBlockedTypeByType entry.value.type = client.btype) || client.unblockOnNokey then
    unblockClientOnKey c key s
  else some s

/-- The walk over the clients of a key. The iterator has saved the node of `next`, which has to be in the list
still when the walk comes to it; `count` bounds the walk. -/
def serveLoop (db : Fin dbnum) (key : K) : Nat → Option C → Server C K E dbnum → Option (Server C K E dbnum)
  | _,none,s => some s
  | 0,some _,s => some s
  | count + 1,some c,s =>
    match (s.waiting db key).dropWhile (· ≠ c) with
    | [] => none
    | _ :: rest => do
      let t ← serveReceiver db key c s
      serveLoop db key count rest.head? t

def handleClientsBlockedOnKey : Option (Server C K E dbnum) :=
  serveLoop db key (s.waiting db key).length (s.waiting db key).head? s

def handleReadyKeys : List (Fin dbnum × K) → Server C K E dbnum → Option (Server C K E dbnum)
  | [],s => some s
  | (db,key) :: rest,s => do
    let t ← handleClientsBlockedOnKey db key
      { s with dbReadyKeys := Function.update s.dbReadyKeys db (Function.update (s.dbReadyKeys db) key false) }
    handleReadyKeys rest t

def handleLoop : Nat → Server C K E dbnum → Option (Server C K E dbnum)
  | rounds,s =>
    if s.readyKeys = [] then some s
    else
      match rounds with
      | 0 => none
      | rounds + 1 => do
        let t ← handleReadyKeys s.readyKeys { s with readyKeys := [] }
        handleLoop rounds t

def blockedClients : Nat := s.blockedClientsByType .list + s.blockedClientsByType .zset

/-- The loop of the source has no bound; one round more than there are blocked clients is enough. -/
def handleClientsBlockedOnKeys : Option (Server C K E dbnum) := handleLoop (blockedClients s + 1) s

/-! ## Runs -/

def call (command : Command K E dbnum) (denyBlocking : Bool) (s : Server C K E dbnum) : Server C K E dbnum :=
  let db := (s.clients c).db
  match command with
  | .push key elements side xx => pushGenericCommand db key elements side xx s
  | .zadd key add => zaddGenericCommand db key add s
  | .set key nx xx keepttl expire => setGenericCommand db key nx xx keepttl expire s
  | .del keys => delGenericCommand db keys s
  | .remove key keep => removeElements db key keep s
  | .lmove src dst wherefrom whereto => lmoveGenericCommand db src dst wherefrom whereto s
  | .rename src dst nx => renameGenericCommand db src dst nx s
  | .move key dst => moveCommand db key dst s
  | .copy src dst target replace => copyCommand db src target dst replace s
  | .restore key payload ttl absttl replace => restoreCommand db key payload ttl absttl replace s
  | .store sources dst result => storeCommand db sources dst result s
  | .swapdb id1 id2 order => dbSwapDatabases id1 id2 order s
  | .select target => s.setClient c { s.clients c with db := target }
  | .blocking command => runBlocking c command denyBlocking s

/-- What the server can do next. `exec` is a transaction, whose commands may not block. -/
inductive Step (C K E : Type) (dbnum : Nat) where
  | command (c : C) (command : Command K E dbnum)
  | exec (c : C) (commands : List (Command K E dbnum))
  | timeout (c : C)
  | disconnect (c : C)
  | tick (ms : Nat)

/-- One step, up to the return of `handleClientsBlockedOnKeys`. A blocked client's input waits. -/
def perform [NeZero dbnum] (s : Server C K E dbnum) : Step C K E dbnum → Option (Server C K E dbnum)
  | .command c command =>
    if (s.clients c).btype.isSome then some s else handleClientsBlockedOnKeys (call c command false s)
  | .exec c commands =>
    if (s.clients c).btype.isSome then some s
    else handleClientsBlockedOnKeys (commands.foldl (fun t command => call c command true t) s)
  | .timeout c => if (s.clients c).btype.isSome then unblockClient c s else some s
  | .disconnect c => (if (s.clients c).btype.isSome then unblockClient c s else some s).map (Server.setClient c .initial)
  | .tick ms => some { s with now := s.now + ms }

def run [NeZero dbnum] (steps : List (Step C K E dbnum)) (s : Server C K E dbnum) : Option (Server C K E dbnum) :=
  steps.foldlM perform s

end ValkeyWasm.Blocked
