import ValkeyWasm.Hashtable.Scan

/-! An array of hash tables with shared counters.
The functions follow kvstore.c. Every call of a hash table operation is followed by the
calls that the operation makes to the type of the tables, which change the accounts of
the array. A failed assertion is `none`. -/
namespace ValkeyWasm
open Hashtable

/-- The type of the hash tables, and the seeded hash of the set of importing indexes.
None of the types that the server creates a kvstore with validates its entries. -/
structure KvstoreType (α κ : Type*) extends HashtableType α κ where
  plain : validateEntry = none
  hashIndex : Nat → BitVec 64

def KvstoreType.intHashtableType {α κ : Type*} (ty : KvstoreType α κ) : HashtableType Nat Nat :=
  {entryGetKey := id, hashKey := ty.hashIndex, instantRehashing := true}

structure KvstoreFlags where
  allocateHashtablesOnDemand : Bool
  freeEmptyHashtables : Bool
  deriving DecidableEq, Repr

@[ext] structure HashtablePointer (b : Nat) where
  didx : Fin (2^b)
  serial : Nat
  deriving DecidableEq

structure RehashingNode (b : Nat) where
  node : Nat
  value : HashtablePointer b

structure KvstoreHashtable (L : Layout) (α : Type*) where
  hashtable : Hashtable L α
  serial : Nat
  rehashingNode : Option Nat

/-- `struct _kvstore` for `2^b` hash tables. Two records are not in the source: the buckets
of the hash tables that were released, less those that completing their rehashing took
off, and the buckets by which aborted shrinks have made the tables smaller that are being
rehashed. Both are kept since the kvstore was last emptied. -/
structure Kvstore (L : Layout) (b : Nat) (α : Type*) where
  flags : KvstoreFlags
  hashtables : Fin (2^b) → Option (KvstoreHashtable L α)
  rehashing : List (RehashingNode b)
  resizeCursor : Fin (2^b)
  allocatedHashtables : Int
  nonEmptyHashtables : Int
  keyCount : Int
  bucketCount : Int
  hashtableSizeIndex : Nat → Int
  overheadHashtableRehashing : Int
  importing : Hashtable L Nat
  importingKeyCount : Int
  nextSerial : Nat
  nextNode : Nat
  releasedBuckets : Nat
  strandedBuckets : Int

namespace Kvstore

variable {L : Layout} {b : Nat} {α κ : Type*} (kvs : Kvstore L b α) (didx : Fin (2^b))

def indexOf (n : Nat) : Fin (2^b) := ⟨n % 2^b,Nat.mod_lt _ (Nat.two_pow_pos b)⟩

def kvstoreGetHashtable : Option (Hashtable L α) := (kvs.hashtables didx).map (·.hashtable)

def kvstoreHashtableIsRehashingPaused : Bool :=
  (kvs.kvstoreGetHashtable didx).any (·.isRehashingPaused)

def kvstoreHashtableSize : Nat := (kvs.kvstoreGetHashtable didx).elim 0 Hashtable.size

def kvstoreSize : Int := if 2^b ≠ 1 then kvs.keyCount else kvs.kvstoreHashtableSize (indexOf 0)

def lowestBit (idx : Nat) : Nat := (BitVec.ofNat 32 idx &&& -BitVec.ofNat 32 idx).toNat

def readIndex (index : Nat → Int) : Nat → Nat → Int → Int
  | 0, _, sum => sum
  | rounds + 1, idx, sum => if 0 < idx then readIndex index rounds (idx - lowestBit idx) (sum + index idx) else sum

def cumulativeKeyCountRead : Int :=
  if 2^b = 1 then kvs.kvstoreSize else readIndex kvs.hashtableSizeIndex (didx + 1) (didx + 1) 0

/-- The loop of `cumulativeKeyCountAdd`; `none` if its assertion fails or the rounds run
out. -/
def addIndex (numHashtables : Nat) (delta : Int) : Nat → Nat → (Nat → Int) → Option (Nat → Int)
  | 0, _, _ => none
  | rounds + 1, idx, index =>
    if numHashtables < idx then some index
    else if delta < 0 ∧ index idx < -delta then none
    else addIndex numHashtables delta rounds (idx + lowestBit idx) (Function.update index idx (index idx + delta))

section Callbacks

def kvstoreHashtableRehashingStarted (didx : Fin (2^b)) (source target : Nat) (kvs : Kvstore L b α) : Kvstore L b α :=
  match kvs.hashtables didx with
  | none => kvs
  | some held => {kvs with
    hashtables := Function.update kvs.hashtables didx (some {held with rehashingNode := some kvs.nextNode})
    rehashing := kvs.rehashing ++ [⟨kvs.nextNode,didx,held.serial⟩]
    bucketCount := kvs.bucketCount + target
    overheadHashtableRehashing := kvs.overheadHashtableRehashing + source * bucketSize
    nextNode := kvs.nextNode + 1}

def kvstoreHashtableRehashingCompleted (didx : Fin (2^b)) (source : Nat) (kvs : Kvstore L b α) : Kvstore L b α :=
  match kvs.hashtables didx with
  | none => kvs
  | some held => {kvs with
    hashtables := Function.update kvs.hashtables didx (some {held with rehashingNode := none})
    rehashing := kvs.rehashing.filter (fun n => held.rehashingNode ≠ some n.node)
    bucketCount := kvs.bucketCount - source
    overheadHashtableRehashing := kvs.overheadHashtableRehashing - source * bucketSize}

/-- The kvstore is not told of an aborted shrink; only the record of stranded buckets
changes. -/
def callback (didx : Fin (2^b)) (kvs : Kvstore L b α) : RehashEvent → Kvstore L b α
  | .started source target => kvs.kvstoreHashtableRehashingStarted didx source target
  | .completed source _ => kvs.kvstoreHashtableRehashingCompleted didx source
  | .aborted source target => {kvs with strandedBuckets := kvs.strandedBuckets + source - target}

/-- The array after an operation has left a hash table in the given state. -/
def settle (didx : Fin (2^b)) (ht : Hashtable L α) (kvs : Kvstore L b α) : Kvstore L b α :=
  match kvs.hashtables didx with
  | none => kvs
  | some held =>
    let stored := Function.update kvs.hashtables didx (some {held with hashtable := {ht with events := []}})
    ht.events.foldl (callback didx) {kvs with hashtables := stored}

end Callbacks

def createHashtableIfNeeded (didx : Fin (2^b)) (kvs : Kvstore L b α) : Kvstore L b α × Hashtable L α :=
  match kvs.kvstoreGetHashtable didx with
  | some ht => (kvs,ht)
  | none =>
    ({kvs with
      hashtables := Function.update kvs.hashtables didx (some ⟨create,kvs.nextSerial,none⟩)
      allocatedHashtables := kvs.allocatedHashtables + 1
      nextSerial := kvs.nextSerial + 1},create)

def freeHashtableIfNeeded (didx : Fin (2^b)) (kvs : Kvstore L b α) : Kvstore L b α :=
  match kvs.kvstoreGetHashtable didx with
  | none => kvs
  | some ht =>
    if !kvs.flags.freeEmptyHashtables || kvs.kvstoreHashtableSize didx != 0 || kvs.kvstoreHashtableIsRehashingPaused didx then kvs
    else
      let released := kvs.settle didx ht.hashtableRelease
      {released with
        hashtables := Function.update released.hashtables didx none
        allocatedHashtables := released.allocatedHashtables - 1
        releasedBuckets := released.releasedBuckets + numBuckets (ht.table ht.insertTable).bucketExp}

def kvstoreCreate (flags : KvstoreFlags) : Option (Kvstore L b α) :=
  if 16 < b then none
  else
    let kvs : Kvstore L b α := ⟨flags,fun _ => none,[],indexOf 0,0,0,0,0,fun _ => 0,0,create,0,0,0,0,0⟩
    some (if flags.allocateHashtablesOnDemand then kvs
      else (List.finRange (2^b)).foldl (fun kvs didx => (kvs.createHashtableIfNeeded didx).1) kvs)

def emptyHashtable (kvs : Kvstore L b α) (didx : Fin (2^b)) : Kvstore L b α :=
  match kvs.hashtables didx with
  | none => kvs
  | some held =>
    let unlinked := {kvs with hashtables := Function.update kvs.hashtables didx (some {held with rehashingNode := none})}
    (unlinked.settle didx held.hashtable.hashtableEmpty).freeHashtableIfNeeded didx

def kvstoreEmpty (kvs : Kvstore L b α) : Kvstore L b α :=
  let emptied := (List.finRange (2^b)).foldl emptyHashtable kvs
  {emptied with
    importing := emptied.importing.hashtableEmpty
    importingKeyCount := 0
    rehashing := []
    keyCount := 0
    nonEmptyHashtables := 0
    resizeCursor := indexOf 0
    bucketCount := 0
    hashtableSizeIndex := fun _ => 0
    overheadHashtableRehashing := 0
    releasedBuckets := 0
    strandedBuckets := 0}

section Searching

def descend (index : Nat → Int) (i : Nat) (at_ : Nat × Int) : Nat × Int :=
  if index (at_.1 + i) < at_.2 then (at_.1 + i,at_.2 - index (at_.1 + i)) else at_

def searchIndex (index : Nat → Int) : Nat → Nat × Int → Nat × Int
  | 0, at_ => descend index 1 at_
  | bits + 1, at_ => searchIndex index bits (descend index (2^(bits + 1)) at_)

def kvstoreFindHashtableIndexByKeyIndex (target : Int) (kvs : Kvstore L b α) : Option Int :=
  if 2^b = 1 then some 0
  else if kvs.kvstoreSize = 0 ∨ target = 0 then some (-1)
  else if kvs.kvstoreSize < target then none
  else some (searchIndex kvs.hashtableSizeIndex b (0,target)).1

def kvstoreGetNextNonEmptyHashtableIndex (didx : Fin (2^b)) (kvs : Kvstore L b α) : Option Int :=
  if 2^b = 1 then some (-1)
  else
    let nextKey := kvs.cumulativeKeyCountRead didx + 1
    if nextKey ≤ kvs.kvstoreSize then kvs.kvstoreFindHashtableIndexByKeyIndex nextKey else some (-1)

def kvstoreGetFairRandomHashtableIndex (random : Int) (kvs : Kvstore L b α) : Option Int :=
  kvs.kvstoreFindHashtableIndexByKeyIndex (if kvs.kvstoreSize = 0 then 0 else random % kvs.kvstoreSize + 1)

end Searching

section Importing

def kvstoreIsImporting (ty : KvstoreType α κ) (env : Env) (didx : Fin (2^b)) (kvs : Kvstore L b α) : Kvstore L b α × Bool :=
  let found := kvs.importing.find ty.intHashtableType env didx
  ({kvs with importing := found.1},found.2.isSome)

/-- The change of `non_empty_hashtables` for a table that has `size` keys after `delta`
of them were added. -/
def nonEmptyChange (size : Nat) (delta : Int) : Int :=
  if delta < 0 ∧ size = 0 then -1 else if 0 < delta ∧ (size : Int) = delta then 1 else 0

def cumulativeKeyCountAdd (ty : KvstoreType α κ) (env : Env) (didx : Fin (2^b)) (delta : Int) (kvs : Kvstore L b α) : Option (Kvstore L b α) :=
  let asked := kvs.kvstoreIsImporting ty env didx
  if asked.2 then some {asked.1 with importingKeyCount := asked.1.importingKeyCount + delta}
  else
    match asked.1.kvstoreGetHashtable didx with
    | none => none
    | some ht =>
      let counted := {asked.1 with
        keyCount := asked.1.keyCount + delta
        nonEmptyHashtables := asked.1.nonEmptyHashtables + nonEmptyChange ht.size delta}
      if 2^b = 1 then some counted
      else (addIndex (2^b) delta (2^b + 1) (didx + 1) counted.hashtableSizeIndex).map
        (fun index => {counted with hashtableSizeIndex := index})

def kvstoreSetIsImporting (ty : KvstoreType α κ) (env : Env) (didx : Fin (2^b)) (isImporting : Bool) (kvs : Kvstore L b α) :
    Option (Kvstore L b α) :=
  if isImporting then
    if kvs.kvstoreHashtableSize didx ≠ 0 then none
    else some {kvs with importing := (kvs.importing.add ty.intHashtableType env didx).1}
  else
    let deleted := kvs.importing.delete ty.intHashtableType env didx
    let unset := {kvs with importing := deleted.1}
    let size := kvs.kvstoreHashtableSize didx
    if deleted.2 && size != 0 then
      (unset.cumulativeKeyCountAdd ty env didx size).map
        (fun counted => {counted with importingKeyCount := counted.importingKeyCount - size})
    else some unset

end Importing

section Entries
variable [Inhabited α] [DecidableEq κ] (ty : KvstoreType α κ) (env : Env)

def kvstoreHashtableFind (didx : Fin (2^b)) (key : κ) (kvs : Kvstore L b α) : Kvstore L b α × Option α :=
  match kvs.kvstoreGetHashtable didx with
  | none => (kvs,none)
  | some ht =>
    let found := ht.find ty.toHashtableType env key
    (kvs.settle didx found.1,found.2)

def kvstoreHashtableAdd (didx : Fin (2^b)) (entry : α) (kvs : Kvstore L b α) :
    Option (Kvstore L b α × Bool) :=
  let created := kvs.createHashtableIfNeeded didx
  let added := created.2.add ty.toHashtableType env entry
  let settled := created.1.settle didx added.1
  if added.2 then (settled.cumulativeKeyCountAdd ty env didx 1).map (·,true) else some (settled,false)

def kvstoreHashtableFindPositionForInsert (didx : Fin (2^b)) (key : κ) (kvs : Kvstore L b α) :
    Kvstore L b α × Except (Option α) (Position L) :=
  let created := kvs.createHashtableIfNeeded didx
  let found := created.2.findPositionForInsert ty.toHashtableType env key
  (created.1.settle didx found.1,found.2)

def kvstoreHashtableInsertAtPosition (didx : Fin (2^b)) (entry : α) (p : Position L)
    (kvs : Kvstore L b α) : Option (Kvstore L b α) :=
  match kvs.kvstoreGetHashtable didx with
  | none => none
  | some ht => (kvs.settle didx (ht.insertAtPosition entry p)).cumulativeKeyCountAdd ty env didx 1

/-- `kvstoreHashtableFindPositionForInsert` and, if it finds a position,
`kvstoreHashtableInsertAtPosition` right after it. -/
def insertTwoPhase (didx : Fin (2^b)) (entry : α) (kvs : Kvstore L b α) : Option (Kvstore L b α) :=
  match kvs.kvstoreHashtableFindPositionForInsert ty env didx (ty.entryGetKey entry) with
  | (prepared,.ok p) => prepared.kvstoreHashtableInsertAtPosition ty env didx entry p
  | (searched,.error _) => some searched

/-- What `kvstoreHashtablePop`, `kvstoreHashtableDelete` and
`kvstoreHashtableTwoPhasePopDelete` do after an entry was removed. -/
def countRemoval (didx : Fin (2^b)) (kvs : Kvstore L b α) : Option (Kvstore L b α) :=
  (kvs.cumulativeKeyCountAdd ty env didx (-1)).map (·.freeHashtableIfNeeded didx)

def kvstoreHashtablePop (didx : Fin (2^b)) (key : κ) (kvs : Kvstore L b α) :
    Option (Kvstore L b α × Option α) :=
  match kvs.kvstoreGetHashtable didx with
  | none => some (kvs,none)
  | some ht =>
    let popped := ht.pop ty.toHashtableType env key
    let settled := kvs.settle didx popped.1
    if popped.2.isSome then (settled.countRemoval ty env didx).map (·,popped.2) else some (settled,none)

def kvstoreHashtableDelete (didx : Fin (2^b)) (key : κ) (kvs : Kvstore L b α) :
    Option (Kvstore L b α × Bool) :=
  match kvs.kvstoreGetHashtable didx with
  | none => some (kvs,false)
  | some ht =>
    let deleted := ht.delete ty.toHashtableType env key
    let settled := kvs.settle didx deleted.1
    if deleted.2 then (settled.countRemoval ty env didx).map (·,true) else some (settled,false)

def kvstoreHashtableTwoPhasePopFindRef (didx : Fin (2^b)) (key : κ) (kvs : Kvstore L b α) :
    Kvstore L b α × Option (Position L) :=
  match kvs.kvstoreGetHashtable didx with
  | none => (kvs,none)
  | some ht =>
    let found := ht.twoPhasePopFindRef ty.toHashtableType env key
    (kvs.settle didx found.1,found.2)

def kvstoreHashtableTwoPhasePopDelete (didx : Fin (2^b)) (p : Position L) (kvs : Kvstore L b α) :
    Option (Kvstore L b α) :=
  match kvs.kvstoreGetHashtable didx with
  | none => none
  | some ht => (kvs.settle didx (ht.twoPhasePopDelete ty.toHashtableType env p)).countRemoval ty env didx

/-- `kvstoreHashtableTwoPhasePopFindRef` and, if it finds the key,
`kvstoreHashtableTwoPhasePopDelete` right after it. -/
def popTwoPhase (didx : Fin (2^b)) (key : κ) (kvs : Kvstore L b α) : Option (Kvstore L b α) :=
  match kvs.kvstoreHashtableTwoPhasePopFindRef ty env didx key with
  | (searched,some p) => searched.kvstoreHashtableTwoPhasePopDelete ty env didx p
  | (searched,none) => some searched

end Entries

end Kvstore

end ValkeyWasm
