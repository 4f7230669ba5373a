import ValkeyWasm.Library.Loops
import ValkeyWasm.Library.Shelves

/-! The volatile set: hash fields with an expiry, in buckets of time windows. -/
namespace ValkeyWasm.Vset
open Library.Shelves

def volatilesetBucketIntervalMax : Int := 8192

def volatilesetBucketIntervalMin : Int := 16

def volatilesetVectorBucketMaxSize : Nat := 127

def wrap64 (v : Int) : Int := v.bmod (2^64)

-- `expiry & ~(w - 1)` rounds down to a multiple of the power of two `w`, also below zero.
def getBucketTs (expiry : Int) : Int :=
  wrap64 (expiry - expiry % volatilesetBucketIntervalMin + volatilesetBucketIntervalMin)

def getMaxBucketTs (expiry : Int) : Int :=
  wrap64 (expiry - expiry % volatilesetBucketIntervalMax + volatilesetBucketIntervalMax)

/-- The number that the eight big-endian bytes of the key spell: the radix tree compares keys
byte by byte from the front, as these numbers compare. -/
def encodeExpiryKey (expiry : Int) : Nat := (expiry % 2^64).toNat

def decodeExpiryKey (key : Nat) : Int := wrap64 key

def encodeNewExpiryBucketKey (expiry : Int) : Nat := encodeExpiryKey (getMaxBucketTs expiry)

/-- What the library functions leave open: `qsort` puts equal entries in any order, and a
hashtable is iterated in any order. -/
structure Choices (E : Type) where
  qsort : (E → Int) → List E → List E
  order : List E → List E
  qsort_perm : ∀ getExpiry pv, (qsort getExpiry pv).Perm pv
  qsort_sorted : ∀ getExpiry pv, (qsort getExpiry pv).Pairwise fun a b => getExpiry a ≤ getExpiry b
  order_perm : ∀ ht, (order ht).Perm ht

/-- The tags of a bucket, radix trees apart: the source does not nest those. -/
inductive Bucket (E : Type) where
  | none
  | single (entry : E)
  | vector (pv : List E)
  | hashtable (ht : List E)
deriving DecidableEq, Repr

abbrev Rax (E : Type) := List (Nat × Bucket E)

inductive VolatileSet (E : Type) where
  | plain (bucket : Bucket E)
  | rax (buckets : Rax E)
deriving DecidableEq, Repr

def Bucket.entries {E : Type} : Bucket E → List E
  | .none => []
  | .single entry => [entry]
  | .vector pv => pv
  | .hashtable ht => ht

def VolatileSet.entries {E : Type} : VolatileSet E → List E
  | .plain bucket => bucket.entries
  | .rax buckets => contents Bucket.entries buckets

def llongMax : Int := 2^63 - 1

/-- The expiry that a command sets, from the number it was given and the time it counts from.
`none` is an error reply. -/
def convertExpireArgumentToUnixTime (arg basetime : Int) (seconds : Bool) : Option Int :=
  if arg < 0 then none
  else if seconds ∧ (llongMax / 1000 < arg ∨ arg < -(2^63) / 1000) then none
  else
    let when' := if seconds then arg * 1000 else arg
    if llongMax - basetime < when' then none else some (when' + basetime)

section Pointers
variable {E : Type} [DecidableEq E]

def pvFind (pv : List E) (elem : E) : Nat := pv.findIdx fun e => e = elem

def pvSwap (pv : List E) (idx1 idx2 : Nat) : Option (List E) := do
  let a ← pv[idx1]?
  let b ← pv[idx2]?
  some ((pv.set idx1 b).set idx2 a)

def pvRemove (pv : List E) (elem : E) : List E × Bool :=
  let idx := pvFind pv elem
  if idx < pv.length then (pv.eraseIdx idx,true) else (pv,false)

def hashtableAdd (ht : List E) (entry : E) : Option (List E) := if entry ∈ ht then none else some (entry :: ht)

def hashtableDelete (ht : List E) (entry : E) : Option (List E) := if entry ∈ ht then some (ht.erase entry) else none

end Pointers

section Search
variable {E : Type}

/-- The bisection of `findInsertPosition`, for at most as many rounds as there are positions. -/
def insertPositionLoop (getExpiry : E → Int) (pv : List E) (expiry : Int) : Nat → Nat → Nat → Option Nat
  | 0, _, _ => none
  | rounds + 1, left, right =>
    if left < right then do
      let mid := (left + right) / 2
      let e ← pv[mid]?
      if expiry ≤ getExpiry e then insertPositionLoop getExpiry pv expiry rounds left mid
      else insertPositionLoop getExpiry pv expiry rounds (mid + 1) right
    else some left

def findInsertPosition (getExpiry : E → Int) (pv : List E) (expiry : Int) : Option Nat :=
  insertPositionLoop getExpiry pv expiry (pv.length + 1) 0 pv.length

def transitionAt (getExpiry : E → Int) (pv : List E) (i : Nat) : Option Int := do
  let a ← pv[i - 1]?
  let b ← pv[i]?
  if getBucketTs (getExpiry a) < getBucketTs (getExpiry b) then some (getBucketTs (getExpiry a)) else none

/-- One step to both sides per round. The result is the position with the timestamp on its
left, or the length when there is no transition. -/
def splitPositionLoop (getExpiry : E → Int) (pv : List E) (mid : Nat) : Nat → Nat → Option (Nat × Option Int)
  | 0, _ => none
  | rounds + 1, offset =>
    let onLeft := if offset < mid then transitionAt getExpiry pv (mid - offset) else none
    let onRight := if 0 < mid + offset ∧ mid + offset < pv.length then transitionAt getExpiry pv (mid + offset) else none
    match onLeft, onRight with
    | some ts, _ => some (mid - offset,some ts)
    | none, some ts => some (mid + offset,some ts)
    | none, none =>
      if mid ≤ offset + 1 ∧ pv.length ≤ mid + (offset + 1) then some (pv.length,none)
      else splitPositionLoop getExpiry pv mid rounds (offset + 1)

def findSplitPosition (getExpiry : E → Int) (pv : List E) : Option (Nat × Option Int) :=
  if pv.length < 2 then some (pv.length,none) else splitPositionLoop getExpiry pv (pv.length / 2) pv.length 0

/-- The first bucket with a key above the expiry, unless its window reaches too far. -/
def findBucket (buckets : Rax E) (expiry : Int) : Option (Nat × Bucket E) :=
  match above (encodeExpiryKey expiry) buckets with
  | none => none
  | some (key,bucket) => if getMaxBucketTs expiry < decodeExpiryKey key then none else some (key,bucket)

end Search

section Insert
variable {E : Type} [DecidableEq E]

inductive Split (E : Type) where
  | impossible (pv : List E)
  | done (buckets : Rax E)

variable (choices : Choices E) (getExpiry : E → Int)

/-- The vector under this key is sorted in place; then it moves to a tighter key, or its lower
part goes under a key of its own. `none` is a failed assertion. -/
def splitBucketIfPossible (buckets : Rax E) (key : Nat) (vector : List E) :
    Option (Split E) := do
  let bucketTs := decodeExpiryKey key
  let pv := choices.qsort getExpiry vector
  let buckets := replace key (.vector pv) buckets
  let maxBucketTs := getBucketTs (getExpiry (← pv[pv.length - 1]?))
  let minBucketTs := getBucketTs (getExpiry (← pv[0]?))
  if maxBucketTs < bucketTs then
    guard ((buckets.lookup (encodeExpiryKey bucketTs)) = some (.vector pv))
    some (.done (put (encodeExpiryKey maxBucketTs) (.vector pv) (discard (encodeExpiryKey bucketTs) buckets)))
  else if minBucketTs ≠ maxBucketTs then
    let (splitIndex,splitTs) ← findSplitPosition getExpiry pv
    let targetBucketTs := splitTs.getD bucketTs
    guard (targetBucketTs < bucketTs)
    guard (splitIndex ≠ pv.length)
    guard (0 < (pv.take splitIndex).length)
    guard (0 < (pv.drop splitIndex).length)
    some (.done (put (encodeExpiryKey targetBucketTs) (.vector (pv.take splitIndex))
      (replace key (.vector (pv.drop splitIndex)) buckets)))
  else some (.impossible pv)

def insertToBucketNone (entry : E) : Bucket E := .single entry

def insertToBucketSingle (currEntry entry : E) (expiry : Int) : Bucket E :=
  if getExpiry currEntry < expiry then .vector [currEntry,entry] else .vector [entry,currEntry]

/-- A full vector becomes a hashtable; otherwise the entry goes to the given position, or to
the end. -/
def insertToBucketVector (pv : List E) (entry : E) (pos : Option Nat) : Option (Bucket E) :=
  if volatilesetVectorBucketMaxSize ≤ pv.length then
    some (.hashtable ((pv ++ [entry]).foldl (fun ht e => (hashtableAdd ht e).getD ht) []))
  else match pos with
    | some pos => if pos ≤ pv.length then some (.vector (pv.insertIdx pos entry)) else none
    | none => some (.vector (pv ++ [entry]))

def insertToBucketHashtable (ht : List E) (entry : E) : Option (Bucket E) := (hashtableAdd ht entry).map .hashtable

/-- Splitting a full vector asks for another search; `rounds` bounds the searches. -/
def insertToBucketRaxLoop (choices : Choices E) (getExpiry : E → Int) (entry : E) (expiry : Int) : Nat → Rax E → Option (Rax E)
  | 0, _ => none
  | rounds + 1, buckets =>
    match findBucket buckets expiry with
    | none | some (_,.none) => some (put (encodeNewExpiryBucketKey expiry) (insertToBucketNone entry) buckets)
    | some (key,.single currEntry) => some (replace key (insertToBucketSingle getExpiry currEntry entry expiry) buckets)
    | some (key,.vector pv) =>
      if pv.length = volatilesetVectorBucketMaxSize then
        match splitBucketIfPossible choices getExpiry buckets key pv with
        | none => none
        | some (.impossible pv) =>
          match insertToBucketVector pv entry none with
          | some (.hashtable ht) => some (replace key (.hashtable ht) buckets)
          | _ => none
        | some (.done buckets) => insertToBucketRaxLoop choices getExpiry entry expiry rounds buckets
      else (insertToBucketVector pv entry none).map fun bucket => replace key bucket buckets
    | some (key,.hashtable ht) => (insertToBucketHashtable ht entry).map fun bucket => replace key bucket buckets

/-- A vector is split at most once and moved at most once before that. -/
def insertToBucketRax (buckets : Rax E) (entry : E) (expiry : Int) : Option (Rax E) :=
  insertToBucketRaxLoop choices getExpiry entry expiry (2 * buckets.length + 1) buckets

/-- A full vector of the top level goes into a radix tree as a whole when one window holds it,
and otherwise entry by entry. -/
def vsetAddEntry (set : VolatileSet E) (entry : E) : Option (VolatileSet E) :=
  let expiry := getExpiry entry
  match set with
  | .plain .none => some (.plain (insertToBucketNone entry))
  | .plain (.single currEntry) => some (.plain (insertToBucketSingle getExpiry currEntry entry expiry))
  | .plain (.vector vec) =>
    if vec.length = volatilesetVectorBucketMaxSize then do
      let minExpiry := getExpiry (← vec[0]?)
      let maxExpiry := getExpiry (← vec[vec.length - 1]?)
      if getMaxBucketTs minExpiry = getMaxBucketTs maxExpiry then
        let buckets := put (encodeNewExpiryBucketKey maxExpiry) (.vector vec) []
        (insertToBucketRax choices getExpiry buckets entry expiry).map .rax
      else
        let buckets ← vec.foldlM (fun buckets moved => insertToBucketRax choices getExpiry buckets moved (getExpiry moved)) []
        (insertToBucketRax choices getExpiry buckets entry expiry).map .rax
    else do
      let pos ← findInsertPosition getExpiry vec expiry
      (insertToBucketVector vec entry (some pos)).map .plain
  | .plain (.hashtable _) => none
  | .rax buckets => (insertToBucketRax choices getExpiry buckets entry expiry).map .rax

end Insert

section Remove
variable {E : Type} [DecidableEq E]

def removeFromBucketSingle (currEntry entry : E) : Bucket E × Bool :=
  if currEntry = entry then (.none,true) else (.single currEntry,false)

def removeFromBucketVector (pv : List E) (entry : E) (pop : Bool) : Option (Bucket E × Bool) :=
  let vlen := pv.length
  let idx := pvFind pv entry
  if vlen ≤ 2 then
    if idx = vlen then some (.vector pv,false)
    else if vlen = 1 then some (.none,true)
    else (pv[if idx = 0 then 1 else 0]?).map fun other => (.single other,true)
  else if pop then
    if idx < vlen then do
      let swapped ← pvSwap pv idx (vlen - 1)
      guard (swapped.getLast? = some entry)
      some (.vector swapped.dropLast,true)
    else some (.vector pv,false)
  else
    let (pv,success) := pvRemove pv entry
    some (.vector pv,success)

def removeFromBucketHashtable (ht : List E) (entry : E) : Option (Bucket E × Bool) :=
  match hashtableDelete ht entry with
  | none => some (.hashtable ht,false)
  | some [] => none
  | some [ptr] => some (.single ptr,true)
  | some ht => some (.hashtable ht,true)

def removeEntryFromRaxBucket (buckets : Rax E) (entry : E) (key : Nat) : Bucket E → Option (Rax E × Bool)
  | .none => none
  | .single currEntry =>
    match removeFromBucketSingle currEntry entry with
    | (_,true) => some (discard key buckets,true)
    | (_,false) => some (buckets,false)
  | .vector pv =>
    match removeFromBucketVector pv entry true with
    | none => none
    | some (.none,removed) => some (discard key buckets,removed)
    | some (bucket,removed) => some (replace key bucket buckets,removed)
  | .hashtable ht => (removeFromBucketHashtable ht entry).map fun (bucket,removed) => (replace key bucket buckets,removed)

/-- A single bucket that is left becomes the whole set. Not so a hashtable, which could not be
read in the order of expiry, and not so a full vector. -/
def shrinkRaxBucketIfPossible (choices : Choices E) (getExpiry : E → Int) : Rax E → VolatileSet E
  | [(_,.single entry)] => .plain (.single entry)
  | [(key,.vector pv)] =>
    if pv.length < volatilesetVectorBucketMaxSize then .plain (.vector (choices.qsort getExpiry pv)) else .rax [(key,.vector pv)]
  | buckets => .rax buckets

def removeFromBucketRax (choices : Choices E) (getExpiry : E → Int) (buckets : Rax E) (entry : E) (expiry : Int) :
    Option (VolatileSet E × Bool) := do
  let (key,bucket) ← findBucket buckets expiry
  let (buckets,success) ← removeEntryFromRaxBucket buckets entry key bucket
  some (shrinkRaxBucketIfPossible choices getExpiry buckets,success)

def vsetRemoveEntryWithExpiry (choices : Choices E) (getExpiry : E → Int) (set : VolatileSet E) (entry : E) (expiry : Int) :
    Option (VolatileSet E × Bool) :=
  match set with
  | .plain .none => some (set,false)
  | .plain (.single currEntry) =>
    let (bucket,removed) := removeFromBucketSingle currEntry entry
    some (.plain bucket,removed)
  | .plain (.vector pv) => (removeFromBucketVector pv entry false).map fun (bucket,removed) => (.plain bucket,removed)
  | .plain (.hashtable ht) => (removeFromBucketHashtable ht entry).map fun (bucket,removed) => (.plain bucket,removed)
  | .rax buckets => removeFromBucketRax choices getExpiry buckets entry expiry

def vsetRemoveEntry (choices : Choices E) (getExpiry : E → Int) (set : VolatileSet E) (entry : E) : Option (VolatileSet E × Bool) :=
  vsetRemoveEntryWithExpiry choices getExpiry set entry (getExpiry entry)

end Remove

section Update
variable {E : Type} [DecidableEq E]

def vsetBucketUpdateEntrySingle (currEntry oldEntry newEntry : E) : Bucket E :=
  if currEntry = oldEntry then .single newEntry else .none

def vsetBucketUpdateEntryVector (pv : List E) (oldEntry newEntry : E) : Bucket E :=
  let idx := pvFind pv oldEntry
  if idx = pv.length then .none else .vector (pv.set idx newEntry)

def vsetBucketUpdateEntryHashtable (ht : List E) (oldEntry newEntry : E) : Option (Bucket E) :=
  if oldEntry = newEntry then some (.hashtable ht)
  else (hashtableAdd ((hashtableDelete ht oldEntry).getD ht) newEntry).map .hashtable

/-- The outer `Option` is a failed assertion, the inner one the `NONE` bucket that reports an
entry which was not there. -/
def vsetBucketUpdateEntryRax (choices : Choices E) (getExpiry : E → Int) (buckets : Rax E) (oldEntry newEntry : E)
    (oldExpiry newExpiry : Int) : Option (Option (Rax E)) :=
  if getBucketTs oldExpiry = getBucketTs newExpiry then
    match findBucket buckets oldExpiry with
    | none | some (_,.none) => some none
    | some (key,.single currEntry) => some (some (replace key (vsetBucketUpdateEntrySingle currEntry oldEntry newEntry) buckets))
    | some (key,.vector pv) => some (some (replace key (vsetBucketUpdateEntryVector pv oldEntry newEntry) buckets))
    | some (key,.hashtable ht) =>
      (vsetBucketUpdateEntryHashtable ht oldEntry newEntry).map fun bucket => some (replace key bucket buckets)
  else
    match findBucket buckets oldExpiry with
    | none => none
    | some (key,bucket) =>
      match removeEntryFromRaxBucket buckets oldEntry key bucket with
      | none => none
      | some (_,false) => some none
      | some (buckets,true) => (insertToBucketRax choices getExpiry buckets newEntry newExpiry).map some

/-- An entry that is `NULL` or has the expiry -1 is not tracked. -/
def vsetUpdateEntry (choices : Choices E) (getExpiry : E → Int) (set : VolatileSet E) (oldEntry newEntry : Option E)
    (oldExpiry newExpiry : Int) : Option (VolatileSet E × Bool) :=
  if oldEntry = newEntry ∧ oldExpiry = newExpiry then some (set,true)
  else match oldEntry.filter fun _ => oldExpiry ≠ -1, newEntry.filter fun _ => newExpiry ≠ -1 with
  | some old, some new =>
    match set with
    | .plain .none => some (set,false)
    | .plain (.single currEntry) =>
      match vsetBucketUpdateEntrySingle currEntry old new with
      | .none => some (set,false)
      | updated => some (.plain updated,true)
    | .plain (.vector pv) =>
      if oldExpiry ≠ newExpiry then
        match vsetRemoveEntryWithExpiry choices getExpiry set old oldExpiry with
        | none => none
        | some (set,false) => some (set,false)
        | some (set,true) => (vsetAddEntry choices getExpiry set new).map fun set => (set,true)
      else
        match vsetBucketUpdateEntryVector pv old new with
        | .none => some (set,false)
        | updated => some (.plain updated,true)
    | .plain (.hashtable _) => some (set,false)
    | .rax buckets =>
      match vsetBucketUpdateEntryRax choices getExpiry buckets old new oldExpiry newExpiry with
      | none => none
      | some none => some (set,false)
      | some (some buckets) => some (.rax buckets,true)
  | none, some new => (vsetAddEntry choices getExpiry set new).map fun set => (set,true)
  | some old, none => vsetRemoveEntryWithExpiry choices getExpiry set old oldExpiry
  | none, none => some (set,false)

end Update

section Expire
variable {E M : Type}

/-! Each function returns what is left and the entries it handed to `expiryFunc`, in order; the
count that the source returns is their number. The callback may free an entry: `getExpiry` reads
a memory that `expiryFunc` changes. -/

def vsetBucketRemoveExpiredSingle (getExpiry : M → E → Int) (mem : M) (entry : E) (now : Int) (maxCount : Nat) : Bucket E × List E :=
  if maxCount ≠ 0 ∧ getExpiry mem entry ≤ now then (.none,[entry]) else (.single entry,[])

def removeExpiredVectorLoop (getExpiry : M → E → Int) (expiryFunc : E → M → M) (now : Int) : M → Nat → List E → List E
  | mem, len + 1, entry :: pv =>
    if now < getExpiry mem entry then [] else entry :: removeExpiredVectorLoop getExpiry expiryFunc now (expiryFunc entry mem) len pv
  | _, _, _ => []

def vsetBucketRemoveExpiredVector (getExpiry : M → E → Int) (expiryFunc : E → M → M) (mem : M) (pv : List E) (now : Int)
    (maxCount : Nat) : Bucket E × List E :=
  match removeExpiredVectorLoop getExpiry expiryFunc now mem (min pv.length maxCount) pv with
  | [] => (.vector pv,[])
  | expired => (if pv.drop expired.length = [] then .none else .vector (pv.drop expired.length),expired)

def vsetBucketRemoveExpiredHashtable (choices : Choices E) (ht : List E) (maxCount : Nat) : Bucket E × List E :=
  let bucket := match (choices.order ht).drop maxCount with
    | [] => .none
    | [ptr] => .single ptr
    | rest => .hashtable rest
  (bucket,(choices.order ht).take maxCount)

def vsetGetExpiryZero (_ : M) (_ : E) : Int := 0

def removeExpiredRaxLoop (choices : Choices E) (expiryFunc : E → M → M) (now : Int) : M → Nat → Rax E → Option (Rax E × List E)
  | _, _, [] => some ([],[])
  | mem, maxCount, (key,timeBucket) :: buckets =>
    if maxCount = 0 then some ((key,timeBucket) :: buckets,[])
    else if now < decodeExpiryKey key then some ((key,timeBucket) :: buckets,[])
    else
      let handled := match timeBucket with
        | .none => none
        | .single entry => some (vsetBucketRemoveExpiredSingle vsetGetExpiryZero mem entry now maxCount)
        | .vector pv => some (vsetBucketRemoveExpiredVector vsetGetExpiryZero expiryFunc mem pv now maxCount)
        | .hashtable ht => some (vsetBucketRemoveExpiredHashtable choices ht maxCount)
      match handled with
      | none => none
      | some (.none,expired) =>
        (removeExpiredRaxLoop choices expiryFunc now (expired.foldl (fun mem e => expiryFunc e mem) mem) (maxCount - expired.length)
          buckets).map fun (left,more) => (left,expired ++ more)
      | some (bucket,expired) => some ((key,bucket) :: buckets,expired)

def vsetBucketRemoveExpiredRax (choices : Choices E) (getExpiry : M → E → Int) (expiryFunc : E → M → M) (mem : M) (buckets : Rax E)
    (now : Int) (maxCount : Nat) : Option (VolatileSet E × List E) :=
  match removeExpiredRaxLoop choices expiryFunc now mem maxCount buckets with
  | none => none
  | some ([],expired) => some (.plain .none,expired)
  | some (left,expired) =>
    some (shrinkRaxBucketIfPossible choices (getExpiry (expired.foldl (fun mem e => expiryFunc e mem) mem)) left,expired)

def vsetRemoveExpired (choices : Choices E) (getExpiry : M → E → Int) (expiryFunc : E → M → M) (mem : M) (set : VolatileSet E)
    (now : Int) (maxCount : Nat) : Option (VolatileSet E × List E) :=
  let plain := fun (bucket,expired) => some (VolatileSet.plain bucket,expired)
  match set with
  | .plain .none => some (set,[])
  | .plain (.single entry) => plain (vsetBucketRemoveExpiredSingle getExpiry mem entry now maxCount)
  | .plain (.vector pv) => plain (vsetBucketRemoveExpiredVector getExpiry expiryFunc mem pv now maxCount)
  | .plain (.hashtable ht) => plain (vsetBucketRemoveExpiredHashtable choices ht maxCount)
  | .rax buckets => vsetBucketRemoveExpiredRax choices getExpiry expiryFunc mem buckets now maxCount

end Expire

section Iterate
variable {E : Type}

inductive BucketType where
  | none | single | vector | hashtable | rax
deriving DecidableEq, Repr

def vsetBucketType : VolatileSet E → BucketType
  | .plain .none => .none
  | .plain (.single _) => .single
  | .plain (.vector _) => .vector
  | .plain (.hashtable _) => .hashtable
  | .rax _ => .rax

/-- `riter` and `hiter` hold what their iterators have not returned yet. -/
structure Iterator (E : Type) where
  iterationState : BucketType
  bucket : VolatileSet E
  parentBucket : VolatileSet E
  riter : Rax E
  viter : Nat
  hiter : List E

def vsetInitIterator (set : VolatileSet E) : Iterator E :=
  { iterationState := .none, bucket := set, parentBucket := .plain .none, riter := [], viter := 0, hiter := [] }

def vsetBucketNextSingle (it : Iterator E) (entry : E) : Iterator E × Option E :=
  if it.iterationState = .none then ({ it with iterationState := .single },some entry) else (it,none)

def vsetBucketNextVector (it : Iterator E) (pv : List E) : Iterator E × Option E :=
  let it := if it.iterationState = .none then { it with iterationState := .vector, viter := 0 } else { it with viter := it.viter + 1 }
  (it,pv[it.viter]?)

def vsetBucketNextHashtable (choices : Choices E) (it : Iterator E) (ht : List E) : Iterator E × Option E :=
  let it := if it.iterationState = .none then { it with iterationState := .hashtable, hiter := choices.order ht } else it
  match it.hiter with
  | [] => (it,none)
  | entry :: hiter => ({ it with hiter },some entry)

/-- A bucket that is exhausted leads back to its parent, and the radix tree to its next bucket;
`rounds` bounds these turns. -/
def vsetNextLoop (choices : Choices E) : Nat → Iterator E → Option (Iterator E × Option E)
  | 0, _ => none
  | rounds + 1, it =>
    let orParent := fun (it,entry) => match entry with
      | some entry => some (it,some entry)
      | none => vsetNextLoop choices rounds { it with iterationState := vsetBucketType it.parentBucket, bucket := it.parentBucket }
    match it.bucket with
    | .plain .none => some (it,none)
    | .plain (.single entry) => orParent (vsetBucketNextSingle it entry)
    | .plain (.vector pv) => orParent (vsetBucketNextVector it pv)
    | .plain (.hashtable ht) => orParent (vsetBucketNextHashtable choices it ht)
    | .rax buckets =>
      let it := if it.iterationState = .none then { it with parentBucket := it.bucket, riter := buckets } else it
      match it.riter with
      | [] => some ({ it with parentBucket := .plain .none },none)
      | (_,bucket) :: riter => vsetNextLoop choices rounds { it with iterationState := .none, bucket := .plain bucket, riter }

def turns (it : Iterator E) : Nat :=
  2 * (it.riter.length + match it.bucket with | .plain _ => 0 | .rax buckets => buckets.length) + 3

def vsetNext (choices : Choices E) (it : Iterator E) : Option (Iterator E × Option E) := vsetNextLoop choices (turns it) it

def vsetScan (choices : Choices E) : Nat → Iterator E → Option (List E)
  | 0, _ => none
  | calls + 1, it =>
    match vsetNext choices it with
    | none => none
    | some (_,none) => some []
    | some (it,some entry) => (vsetScan choices calls it).map fun entries => entry :: entries

def vsetIsEmpty : VolatileSet E → Bool
  | .plain .none => true
  | _ => false

end Iterate

end ValkeyWasm.Vset
