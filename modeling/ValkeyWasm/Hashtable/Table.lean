import ValkeyWasm.Hashtable.Chain

/-! The two tables of a hash table, incremental rehashing and resizing.
The functions follow hashtable.c. The global resize policy, the abort-shrink switch
and the answers of the type's callbacks and of the allocator are inputs of every
call, so that a run may change them at any time. -/
namespace ValkeyWasm.Hashtable

variable {L : Layout} {α κ : Type*}

def Layout.wrap (L : Layout) (n : Nat) : Nat := n % 2^L.sizeBits

def maxFillPercentSoft : Nat := 100
def maxFillPercentHard : Nat := 500
def minFillPercentSoft : Nat := 13
def minFillPercentHard : Nat := 3

def bucketSize : Nat := 64

def fetchBucketCountWhenExpand : Nat := 4

inductive ResizePolicy where
  | allow
  | avoid
  | forbid
  deriving DecidableEq, Repr

/-- Everything outside the table that a call consults. `resizeAllowed` receives the
allocation size and the fill factor as numerator and denominator; a type without
that callback always answers `true`. `tryAlloc` is the success of `ztrycalloc`. -/
structure Env where
  resizePolicy : ResizePolicy := .allow
  canAbortShrink : Bool := true
  resizeAllowed : Nat → Nat → Nat → Bool := fun _ _ _ => true
  tryAlloc : Nat → Bool := fun _ => true

def Env.maxFillPercent (env : Env) : Nat := if env.resizePolicy = .allow then maxFillPercentSoft else maxFillPercentHard

def Env.minFillPercent (env : Env) : Nat := if env.resizePolicy = .allow then minFillPercentSoft else minFillPercentHard

/-- The callbacks of `hashtableType` that decide where an entry goes. Keys are taken
up to `keyCompare`. -/
structure HashtableType (α κ : Type*) where
  entryGetKey : α → κ
  hashKey : κ → BitVec 64
  validateEntry : Option (α → Bool) := none
  instantRehashing : Bool := false

def HashtableType.validateElementIfNeeded (ty : HashtableType α κ) (entry : α) : Bool :=
  match ty.validateEntry with
  | none => true
  | some validate => validate entry

def highBits (hash : BitVec 64) : BitVec 8 := (hash >>> 56).setWidth 8

def numBuckets (exp : Int) : Nat := if exp = -1 then 0 else 2^exp.toNat

def expToMask (exp : Int) : Nat := if exp = -1 then 0 else numBuckets exp - 1

def bucketIndex (hash : BitVec 64) (exp : Int) : Nat := hash.toNat &&& expToMask exp

/-- `nextBucketExp`, in `size_t` arithmetic. -/
def nextBucketExp (L : Layout) (minCapacity : Nat) : Int :=
  if minCapacity = 0 then -1
  else
    let minBuckets := L.wrap (L.wrap (minCapacity * L.bucketFactor + 2^L.sizeBits - 1) / Layout.bucketDivisor + 1)
    if (2^L.sizeBits - 1) / 2 ≤ minBuckets then L.sizeBits - 1
    else if minBuckets = 1 then 0
    else Nat.log2 (minBuckets - 1) + 1

/-- `tables[t]`, `used[t]`, `bucket_exp[t]` and `child_buckets[t]`; the null table has
no buckets. The address tells one allocation from another. -/
structure Table (L : Layout) (α : Type*) where
  bucketExp : Int
  buckets : List (Chain L α)
  used : Nat
  childBuckets : Nat
  address : Nat

def Table.reset : Table L α := ⟨-1,[],0,0,0⟩

def Table.setChain (table : Table L α) (index : Nat) (c : Chain L α) : Table L α :=
  {table with buckets := table.buckets.set index c}

section Chains
variable [Inhabited α]

def Table.chain (table : Table L α) (index : Nat) : Chain L α := table.buckets.getD index Chain.empty

def Table.alloc (exp : Int) (address : Nat) : Table L α :=
  ⟨exp,List.replicate (numBuckets exp) Chain.empty,0,0,address⟩

end Chains

/-- A call of `rehashingStarted` or `rehashingCompleted` with the sizes that
`hashtableRehashingInfo` reports there, or an aborted shrink with the sizes before it,
of which the type is not told. -/
inductive RehashEvent where
  | started (source target : Nat)
  | completed (source target : Nat)
  | aborted (source target : Nat)
  deriving DecidableEq, Repr

end ValkeyWasm.Hashtable

/-- `struct hashtable`. `rehashIdx` is `none` for -1, `safeIterators` counts the list
of tracked iterators, `events` records what happened to rehashing and `nextAddress` is
where the allocator puts the next table. -/
structure ValkeyWasm.Hashtable (L : ValkeyWasm.Hashtable.Layout) (α : Type*) where
  rehashIdx : Option Nat
  table0 : ValkeyWasm.Hashtable.Table L α
  table1 : ValkeyWasm.Hashtable.Table L α
  pauseRehash : Int
  pauseAutoShrink : Int
  safeIterators : Nat
  events : List ValkeyWasm.Hashtable.RehashEvent
  nextAddress : Nat

namespace ValkeyWasm.Hashtable

variable {L : Layout} {α κ : Type*}

structure Position (L : Layout) where
  table : Fin 2
  index : Nat
  depth : Nat
  pos : L.Pos
  deriving DecidableEq

scoped instance two_tables : NeZero 2 := ⟨Nat.succ_ne_zero 1⟩

variable (ht : Hashtable L α)

def create : Hashtable L α := ⟨none,.reset,.reset,0,0,0,[],1⟩

def table (t : Fin 2) : Table L α := if t = 0 then ht.table0 else ht.table1

def modifyTable (t : Fin 2) (f : Table L α → Table L α) : Hashtable L α :=
  if t = 0 then {ht with table0 := f ht.table0} else {ht with table1 := f ht.table1}

def size : Nat := ht.table0.used + ht.table1.used

def bucketCount : Nat := numBuckets ht.table0.bucketExp + numBuckets ht.table1.bucketExp

def isRehashing : Bool := ht.rehashIdx.isSome

def isRehashingPaused : Bool := decide (0 < ht.pauseRehash)

def slotAt (ht : Hashtable L α) (p : Position L) : Option (Slot α) :=
  ((ht.table p.table).buckets[p.index]?).bind (·.slotAt p.depth p.pos)

def entryAt (p : Position L) : Option α := (ht.slotAt p).map (·.entry)

def swapTables : Hashtable L α :=
  {ht with table0 := ht.table1, table1 := ht.table0}

def rehashingStarted : Hashtable L α :=
  {ht with events := ht.events ++ [.started (numBuckets ht.table0.bucketExp) (numBuckets ht.table1.bucketExp)]}

def rehashingCompleted : Hashtable L α :=
  let told : Hashtable L α := {ht with events := ht.events ++
    [.completed (numBuckets ht.table0.bucketExp) (numBuckets ht.table1.bucketExp)]}
  {told.swapTables with table1 := .reset, rehashIdx := none}

section Rehashing
variable [Inhabited α] (ty : HashtableType α κ) (env : Env)

def modifyBucket (ht : Hashtable L α) (p : Position L) (f : Bucket L α → Bucket L α) : Hashtable L α :=
  ht.modifyTable p.table (fun table => table.setChain p.index ((table.chain p.index).modifyBucket p.depth f))

def findBucketForInsert (ht : Hashtable L α) (hash : BitVec 64) : Hashtable L α × Position L :=
  let t : Fin 2 := if ht.isRehashing then 1 else 0
  let index := bucketIndex hash (ht.table t).bucketExp
  let room := ((ht.table t).chain index).findRoom
  (ht.modifyTable t (fun table =>
    {table.setChain index room.chain with childBuckets := table.childBuckets + room.added}),
    ⟨t,index,room.depth,room.pos⟩)

def rehashEntry (ht : Hashtable L α) (entry : α) (hash : BitVec 64) (h2 : BitVec 8) : Hashtable L α :=
  let found := ht.findBucketForInsert hash
  let placed := found.1.modifyBucket found.2 (·.place found.2.pos h2 entry)
  {placed with
    table0 := {placed.table0 with used := placed.table0.used - 1}
    table1 := {placed.table1 with used := placed.table1.used + 1}}

/-- `rehashStepFinalize`. Dismissing rehashed pages returns zeroed memory for buckets
that are already empty, so it leaves no trace here. -/
def rehashStepFinalize (ht : Hashtable L α) : Hashtable L α :=
  match ht.rehashIdx with
  | none => ht
  | some idx =>
    let old := ht.table0.chain idx
    let cleared : Table L α := {ht.table0.setChain idx (.last {old.top with presence := fun _ => false}) with
      childBuckets := ht.table0.childBuckets - old.childCount}
    let advanced : Hashtable L α := {ht with table0 := cleared, rehashIdx := some (idx + 1)}
    if advanced.table0.used = 0 ∧ advanced.table0.childBuckets = 0 then advanced.rehashingCompleted else advanced

def filledSlots (b : Bucket L α) (chained : Bool) : List (Slot α) :=
  L.positions.filterMap (fun p => if p.val < numBucketPositions L chained then b.slot p else none)

/-- `fetchEntriesForExpand`: the entries of at most `maxBucketCount` buckets, and the
bucket after them. -/
def fetchEntriesForExpand : Nat → Chain L α → List α × Option (Chain L α)
  | 0, c => ([],some c)
  | _ + 1, .last b => ((filledSlots b false).map (·.entry),none)
  | count + 1, .link b child =>
    let rest := fetchEntriesForExpand count child
    ((filledSlots b true).map (·.entry) ++ rest.1,rest.2)

def rehashHashed (ht : Hashtable L α) (entry : α) : Hashtable L α :=
  let hash := ty.hashKey (ty.entryGetKey entry)
  ht.rehashEntry entry hash (highBits hash)

def rehashBatches (ty : HashtableType α κ) : Nat → Option (Chain L α) → Hashtable L α → Hashtable L α
  | _, none, ht => ht
  | 0, some _, ht => ht
  | rounds + 1, some c, ht =>
    let fetched := fetchEntriesForExpand fetchBucketCountWhenExpand c
    rehashBatches ty rounds fetched.2 (fetched.1.foldl (rehashHashed ty) ht)

/-- `rehashStepExpand`. The batches read table 0 and write table 1. -/
def rehashStepExpand (ht : Hashtable L α) : Hashtable L α :=
  match ht.rehashIdx with
  | none => ht
  | some idx =>
    let c := ht.table0.chain idx
    (rehashBatches ty (c.childCount + 1) (some c) ht).rehashStepFinalize

def rehashBucketShrink (idx : Nat) (b : Bucket L α) (chained : Bool) (ht : Hashtable L α) : Hashtable L α :=
  (filledSlots b chained).foldl (fun ht s => ht.rehashEntry s.entry (BitVec.ofNat 64 idx) s.hash) ht

def rehashChainShrink (idx : Nat) : Chain L α → Hashtable L α → Hashtable L α
  | .last b, ht => rehashBucketShrink idx b false ht
  | .link b child, ht => rehashChainShrink idx child (rehashBucketShrink idx b true ht)

/-- `rehashStepShrink` with `emptyVisits` empty buckets left to skip. -/
def rehashStepShrinkFrom : Nat → Hashtable L α → Hashtable L α
  | 0, ht => ht
  | emptyVisits + 1, ht =>
    match ht.rehashIdx with
    | none => ht
    | some idx =>
      let c := ht.table0.chain idx
      if !c.top.isEmpty || c.chained then (rehashChainShrink idx c ht).rehashStepFinalize
      else rehashStepShrinkFrom emptyVisits ht.rehashStepFinalize

def rehashStepShrink (ht : Hashtable L α) : Hashtable L α := rehashStepShrinkFrom 10 ht

def rehashStep (ht : Hashtable L α) : Hashtable L α :=
  if ht.table1.bucketExp < ht.table0.bucketExp then ht.rehashStepShrink else ht.rehashStepExpand ty

/-- `rehashStepOnReadIfNeeded` and `rehashStepOnWriteIfNeeded`, which differ in the
policy they wait for. -/
def rehashStepIfPolicy (policy : ResizePolicy) (ht : Hashtable L α) : Hashtable L α :=
  if !ht.isRehashing || ht.pauseRehash ≠ 0 then ht
  else if env.resizePolicy ≠ policy then ht
  else ht.rehashStep ty

def rehashStepOnReadIfNeeded (ht : Hashtable L α) : Hashtable L α :=
  ht.rehashStepIfPolicy ty env .allow

def rehashStepOnWriteIfNeeded (ht : Hashtable L α) : Hashtable L α :=
  ht.rehashStepIfPolicy ty env .avoid

/-- `while (hashtableIsRehashing(ht)) rehashStep(ht)`; every step passes a bucket. -/
def rehashAll (ty : HashtableType α κ) : Nat → Hashtable L α → Hashtable L α
  | 0, ht => ht
  | rounds + 1, ht => if ht.isRehashing then rehashAll ty rounds (ht.rehashStep ty) else ht

/-- The loop of `hashtableRehashMicroseconds`; `elapsed` is the answer of the clock
after so many rehashes. -/
def rehashTimed (ty : HashtableType α κ) (elapsed : Nat → Bool) : Nat → Nat → Hashtable L α → Hashtable L α × Nat
  | 0, rehashes, ht => (ht,rehashes)
  | rounds + 1, rehashes, ht =>
    if !ht.isRehashing then (ht,rehashes)
    else if (rehashes + 1) % 128 = 0 && elapsed (rehashes + 1) then (ht.rehashStep ty,rehashes + 1)
    else rehashTimed ty elapsed rounds (rehashes + 1) (ht.rehashStep ty)

def rehashMicroseconds (elapsed : Nat → Bool) (ht : Hashtable L α) :
    Hashtable L α × Nat :=
  if 0 < ht.pauseRehash then (ht,0)
  else if env.resizePolicy ≠ .allow then (ht,0)
  else rehashTimed ty elapsed (numBuckets ht.table0.bucketExp) 0 ht

end Rehashing

structure Resized (L : Layout) (α : Type*) where
  hashtable : Hashtable L α
  resized : Bool
  mallocFailed : Bool

section Resizing
variable [Inhabited α]

def startRehashing (ty : HashtableType α κ) (exp : Int) (ht : Hashtable L α) : Hashtable L α :=
  let next : Hashtable L α := {ht with
    table1 := {Table.alloc exp ht.nextAddress with childBuckets := ht.table1.childBuckets}
    rehashIdx := some 0
    nextAddress := ht.nextAddress + 1}
  let started := next.rehashingStarted
  if started.table0.buckets.isEmpty || (started.table0.used == 0 && started.table0.childBuckets == 0) then
    started.rehashingCompleted
  else if ty.instantRehashing then rehashAll ty (numBuckets started.table0.bucketExp) started
  else started

def resizeOverflows (L : Layout) (minCapacity : Nat) (exp : Int) : Bool :=
  decide (L.wrap (numBuckets exp * L.entriesPerBucket) < minCapacity) ||
    decide (L.wrap (numBuckets exp * bucketSize) < numBuckets exp)

def resizeRefused (env : Env) (oldExp exp : Int) (minCapacity : Nat) : Bool :=
  let oldCapacity := numBuckets oldExp * L.entriesPerBucket
  decide (oldExp < exp) && decide (minCapacity * 100 < maxFillPercentHard * oldCapacity) &&
    !env.resizeAllowed (L.wrap (numBuckets exp * bucketSize)) minCapacity oldCapacity

def resize (ty : HashtableType α κ) (env : Env) (canFail : Bool) (requested : Nat) (ht : Hashtable L α) : Resized L α :=
  let minCapacity := if requested = 0 then 1 else requested
  let exp := nextBucketExp L minCapacity
  if resizeOverflows L minCapacity exp then ⟨ht,false,false⟩
  else if exp = ht.table0.bucketExp then ⟨ht,false,false⟩
  else if env.resizePolicy = .forbid && !ht.table0.buckets.isEmpty then ⟨ht,false,false⟩
  else if resizeRefused (L := L) env ht.table0.bucketExp exp minCapacity then ⟨ht,false,false⟩
  else if canFail && !env.tryAlloc (L.wrap (numBuckets exp * bucketSize)) then ⟨ht,false,true⟩
  else ⟨ht.startRehashing ty exp,true,false⟩

def expand (ty : HashtableType α κ) (env : Env) (canFail : Bool) (size : Nat) (ht : Hashtable L α) : Resized L α :=
  if ht.isRehashing || decide (size < ht.size) then ⟨ht,false,false⟩ else ht.resize ty env canFail size

def hashtableExpand (ty : HashtableType α κ) (env : Env) (size : Nat) (ht : Hashtable L α) : Hashtable L α × Bool :=
  let result := ht.expand ty env false size
  (result.hashtable,result.resized)

def tryExpand (ty : HashtableType α κ) (env : Env) (size : Nat) (ht : Hashtable L α) : Hashtable L α × Bool :=
  let result := ht.expand ty env true size
  (result.hashtable,result.resized || !result.mallocFailed)

def abortsShrink (env : Env) (ht : Hashtable L α) : Bool :=
  env.canAbortShrink && ht.isRehashing && decide (ht.table1.bucketExp < ht.table0.bucketExp) &&
    decide (ht.safeIterators = 0) &&
    decide (L.wrap (L.wrap (numBuckets ht.table1.bucketExp * L.entriesPerBucket) * maxFillPercentHard) <
      L.wrap (L.wrap (ht.table0.used + ht.table1.used + 1) * 100))

def abortShrinkIfNeeded (env : Env) (ht : Hashtable L α) : Hashtable L α × Bool :=
  if ht.abortsShrink env then
    ({ht.swapTables with
      rehashIdx := some 0
      events := ht.events ++ [.aborted (numBuckets ht.table0.bucketExp) (numBuckets ht.table1.bucketExp)]},true)
  else (ht,false)

def expandIfNeeded (ty : HashtableType α κ) (env : Env) (ht : Hashtable L α) : Hashtable L α × Bool :=
  if ht.isRehashing then
    if ht.table0.bucketExp ≤ ht.table1.bucketExp then (ht,false) else ht.abortShrinkIfNeeded env
  else
    let minCapacity := L.wrap (ht.table0.used + 1)
    let currentCapacity := L.wrap (numBuckets ht.table0.bucketExp * L.entriesPerBucket)
    if L.wrap (minCapacity * 100) ≤ L.wrap (currentCapacity * env.maxFillPercent) then (ht,false)
    else
      let result := ht.resize ty env false minCapacity
      (result.hashtable,result.resized)

def shrinkIfNeeded (ty : HashtableType α κ) (env : Env) (ht : Hashtable L α) : Hashtable L α × Bool :=
  if ht.isRehashing || ht.pauseAutoShrink ≠ 0 then (ht,false)
  else
    let currentCapacity := L.wrap (numBuckets ht.table0.bucketExp * L.entriesPerBucket)
    if L.wrap (currentCapacity * env.minFillPercent) < L.wrap (ht.table0.used * 100) then (ht,false)
    else
      let result := ht.resize ty env false ht.table0.used
      (result.hashtable,result.resized)

def rightsizeIfNeeded (ty : HashtableType α κ) (env : Env) (ht : Hashtable L α) : Hashtable L α × Bool :=
  let shrunk := ht.shrinkIfNeeded ty env
  if shrunk.2 then shrunk else shrunk.1.expandIfNeeded ty env

end Resizing

end ValkeyWasm.Hashtable
