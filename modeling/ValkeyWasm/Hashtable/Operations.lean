import ValkeyWasm.Hashtable.Table

/-! The lookup, insertion and deletion interface of the hash table.
A pointer into a bucket is a `Position`; the two-phase operations hand it from their
first to their second call. -/
namespace ValkeyWasm.Hashtable

variable {L : Layout} {α κ : Type*}

def int16 (n : Int) : Int := n.bmod (2^16)

def candidateMatches [DecidableEq κ] (ty : HashtableType α κ) (hash : BitVec 64) (key : κ) (s : Slot α) : Bool :=
  s.hash == highBits hash && decide (ty.entryGetKey s.entry = key) && ty.validateElementIfNeeded s.entry

/-- Whether a chain of table 0 has been moved by the rehashing in progress. -/
def alreadyRehashed (ht : Hashtable L α) (index : Nat) : Bool := ht.rehashIdx.any (index < ·)

def hashtablePauseAutoShrink (ht : Hashtable L α) : Hashtable L α :=
  {ht with pauseAutoShrink := int16 (ht.pauseAutoShrink + 1)}

def hashtablePauseRehashing (ht : Hashtable L α) : Hashtable L α :=
  {ht with pauseRehash := int16 (ht.pauseRehash + 1)}.hashtablePauseAutoShrink

section Pausing
variable [Inhabited α]

def hashtableResumeAutoShrink (ty : HashtableType α κ) (env : Env) (ht : Hashtable L α) : Hashtable L α :=
  let resumed : Hashtable L α := {ht with pauseAutoShrink := int16 (ht.pauseAutoShrink - 1)}
  if resumed.pauseAutoShrink = 0 then (resumed.shrinkIfNeeded ty env).1 else resumed

def hashtableResumeRehashing (ty : HashtableType α κ) (env : Env) (ht : Hashtable L α) : Hashtable L α :=
  {ht with pauseRehash := int16 (ht.pauseRehash - 1)}.hashtableResumeAutoShrink ty env

end Pausing

section Search
variable [Inhabited α] (ht : Hashtable L α) (ty : HashtableType α κ) (env : Env) (hash : BitVec 64)

def searchTable (matching : Slot α → Bool) (t : Fin 2) : Option (Position L) :=
  if (ht.table t).used = 0 then none
  else
    let index := bucketIndex hash (ht.table t).bucketExp
    if t = 0 ∧ ht.alreadyRehashed index = true then none
    else (((ht.table t).chain index).findPos matching).map (fun found => ⟨t,index,found.1,found.2⟩)

def searchTables (matching : Slot α → Bool) : Option (Position L) :=
  (ht.searchTable hash matching 0).or (ht.searchTable hash matching 1)

variable [DecidableEq κ]

/-- `findBucket`, with the bucket, position and table it returns in one. -/
def findBucket (key : κ) (ht : Hashtable L α) :
    Hashtable L α × Option (Position L) :=
  if ht.size = 0 then (ht,none)
  else
    let stepped := ht.rehashStepOnReadIfNeeded ty env
    (stepped,stepped.searchTables hash (candidateMatches ty hash key))

def findRef (key : κ) (ht : Hashtable L α) : Hashtable L α × Option (Position L) :=
  if ht.size = 0 then (ht,none) else ht.findBucket ty env (ty.hashKey key) key

def find (key : κ) (ht : Hashtable L α) : Hashtable L α × Option α :=
  let found := ht.findRef ty env key
  (found.1,found.2.bind found.1.entryAt)

end Search

section Insertion
variable [Inhabited α]

def incrementUsed (ht : Hashtable L α) (t : Fin 2) : Hashtable L α :=
  ht.modifyTable t (fun table => {table with used := table.used + 1})

def decrementUsed (ht : Hashtable L α) (t : Fin 2) : Hashtable L α :=
  ht.modifyTable t (fun table => {table with used := table.used - 1})

def prepareInsert (ty : HashtableType α κ) (env : Env) (ht : Hashtable L α) : Hashtable L α :=
  (ht.expandIfNeeded ty env).1.rehashStepOnWriteIfNeeded ty env

def insert (ty : HashtableType α κ) (env : Env) (hash : BitVec 64) (entry : α) (ht : Hashtable L α) : Hashtable L α :=
  let found := (ht.prepareInsert ty env).findBucketForInsert hash
  (found.1.modifyBucket found.2 (·.place found.2.pos (highBits hash) entry)).incrementUsed found.2.table

def insertAtPosition (entry : α) (p : Position L) (ht : Hashtable L α) : Hashtable L α :=
  (ht.modifyBucket p (fun b => (b.setPresence p.pos).setEntry p.pos entry)).incrementUsed p.table

variable [DecidableEq κ]

def addOrFind (ty : HashtableType α κ) (env : Env) (entry : α) (ht : Hashtable L α) : Hashtable L α × Option α :=
  let key := ty.entryGetKey entry
  let hash := ty.hashKey key
  match ht.findBucket ty env hash key with
  | (searched,some p) => (searched,searched.entryAt p)
  | (searched,none) => (searched.insert ty env hash entry,none)

def add (ty : HashtableType α κ) (env : Env) (entry : α) (ht : Hashtable L α) : Hashtable L α × Bool :=
  let added := ht.addOrFind ty env entry
  (added.1,added.2.isNone)

def findPositionForInsert (ty : HashtableType α κ) (env : Env) (key : κ) (ht : Hashtable L α) :
    Hashtable L α × Except (Option α) (Position L) :=
  let hash := ty.hashKey key
  match ht.findBucket ty env hash key with
  | (searched,some p) => (searched,.error (searched.entryAt p))
  | (searched,none) =>
    let found := (searched.prepareInsert ty env).findBucketForInsert hash
    (found.1.modifyBucket found.2 (·.setHash found.2.pos (highBits hash)),.ok found.2)

/-- `hashtableFindPositionForInsert` and, if it finds a position,
`hashtableInsertAtPosition` right after it. -/
def insertTwoPhase (ty : HashtableType α κ) (env : Env) (entry : α) (ht : Hashtable L α) : Hashtable L α × Option α :=
  match ht.findPositionForInsert ty env (ty.entryGetKey entry) with
  | (prepared,.ok p) => (prepared.insertAtPosition entry p,none)
  | (searched,.error existing) => (searched,existing)

end Insertion

section Deletion
variable [Inhabited α]

def fillBucketHole (p : Position L) (ht : Hashtable L α) : Hashtable L α :=
  ht.modifyTable p.table (fun table =>
    let filled := (table.chain p.index).fillHoleAt p.depth p.pos
    {table.setChain p.index filled.1 with childBuckets := table.childBuckets - filled.2})

def compactBucketChain (index : Nat) (t : Fin 2) (ht : Hashtable L α) : Hashtable L α :=
  ht.modifyTable t (fun table =>
    let compacted := (table.chain index).compactBucketChain
    {table.setChain index compacted.1 with childBuckets := table.childBuckets - compacted.2})

/-- `if (b->chained && !hashtableIsRehashingPaused(ht)) fillBucketHole(...)`. -/
def fillBucketHoleIfChained (p : Position L) (ht : Hashtable L α) : Hashtable L α :=
  if ((ht.table p.table).chain p.index).chainedAt p.depth && !ht.isRehashingPaused then ht.fillBucketHole p else ht

def clearPosition (p : Position L) (ht : Hashtable L α) : Hashtable L α :=
  (ht.modifyBucket p (·.clearPresence p.pos)).decrementUsed p.table

variable [DecidableEq κ]

def pop (ty : HashtableType α κ) (env : Env) (key : κ) (ht : Hashtable L α) : Hashtable L α × Option α :=
  if ht.size = 0 then (ht,none)
  else
    match ht.findBucket ty env (ty.hashKey key) key with
    | (searched,some p) => ((((searched.clearPosition p).fillBucketHoleIfChained p).shrinkIfNeeded ty env).1,searched.entryAt p)
    | (searched,none) => (searched,none)

def delete (ty : HashtableType α κ) (env : Env) (key : κ) (ht : Hashtable L α) : Hashtable L α × Bool :=
  let popped := ht.pop ty env key
  (popped.1,popped.2.isSome)

def twoPhasePopFindRef (ty : HashtableType α κ) (env : Env) (key : κ) (ht : Hashtable L α) :
    Hashtable L α × Option (Position L) :=
  if ht.size = 0 then (ht,none)
  else
    match ht.findBucket ty env (ty.hashKey key) key with
    | (searched,some p) => (searched.hashtablePauseRehashing,some p)
    | (searched,none) => (searched,none)

def twoPhasePopDelete (ty : HashtableType α κ) (env : Env) (p : Position L) (ht : Hashtable L α) : Hashtable L α :=
  let resumed := (ht.clearPosition p).hashtablePauseAutoShrink.hashtableResumeRehashing ty env
  (resumed.fillBucketHoleIfChained p).hashtableResumeAutoShrink ty env

/-- `hashtableTwoPhasePopFindRef` and, if it finds the key, `hashtableTwoPhasePopDelete`
right after it. The entry is read through the reference. -/
def popTwoPhase (ty : HashtableType α κ) (env : Env) (key : κ) (ht : Hashtable L α) : Hashtable L α × Option α :=
  match ht.twoPhasePopFindRef ty env key with
  | (searched,some p) => (searched.twoPhasePopDelete ty env p,searched.entryAt p)
  | (searched,none) => (searched,none)

variable [DecidableEq α]

def replaceReallocatedEntry (ty : HashtableType α κ) (oldEntry newEntry : α) (ht : Hashtable L α) : Hashtable L α × Bool :=
  let hash := ty.hashKey (ty.entryGetKey newEntry)
  match ht.searchTables hash (fun s => s.hash == highBits hash && decide (s.entry = oldEntry)) with
  | some p => (ht.modifyBucket p (·.setEntry p.pos newEntry),true)
  | none => (ht,false)

end Deletion

def hashtableEmpty (ht : Hashtable L α) : Hashtable L α :=
  let told : Hashtable L α := if ht.isRehashing then {ht with
    events := ht.events ++ [.completed (numBuckets ht.table0.bucketExp) (numBuckets ht.table1.bucketExp)]
    rehashIdx := none} else ht
  {told with table0 := .reset, table1 := .reset}

/-- `hashtableRelease`, up to the freeing of the structure itself. -/
def hashtableRelease (ht : Hashtable L α) : Hashtable L α := {ht with safeIterators := 0}.hashtableEmpty

def hashtableBuckets (ht : Hashtable L α) : Nat := numBuckets ht.table0.bucketExp + numBuckets ht.table1.bucketExp

end ValkeyWasm.Hashtable
