import ValkeyWasm.Kvstore.Store

/-! Scanning, resizing and rehashing the hash tables of a kvstore, and its runs.
The callback of a scan is a script of deletions through the kvstore, of any keys of any
of its hash tables. -/
namespace ValkeyWasm.Kvstore
open Hashtable

variable {L : Layout} {b : Nat} {α κ : Type*}

inductive RemovalCall where
  | pop
  | delete
  | twoPhasePop
  deriving DecidableEq, Repr

structure Removal (b : Nat) (κ : Type*) where
  call : RemovalCall
  env : Env
  didx : Fin (2^b)
  key : κ

/-- A scan so far: what its callback will do at each of its invocations, and whether an
assertion has failed there. -/
structure ScanRun (L : Layout) (b : Nat) (α κ : Type*) where
  kvs : Kvstore L b α
  pending : List (List (Removal b κ))
  aborted : Bool

section Calls
variable [Inhabited α] [DecidableEq κ] (ty : KvstoreType α κ) (didx : Fin (2^b)) (firstIdx lastIdx : Int) (kvs : Kvstore L b α)

def remove (r : Removal b κ) : Option (Kvstore L b α) :=
  match r.call with
  | .pop => (kvs.kvstoreHashtablePop ty r.env r.didx r.key).map (·.1)
  | .delete => (kvs.kvstoreHashtableDelete ty r.env r.didx r.key).map (·.1)
  | .twoPhasePop => kvs.popTwoPhase ty r.env r.didx r.key

def ScanRun.act (run : ScanRun L b α κ) (r : Removal b κ) : ScanRun L b α κ :=
  match run.kvs.remove ty r with
  | none => {run with aborted := true}
  | some kvs => {run with kvs := kvs}

def ScanRun.visit (run : ScanRun L b α κ) (_ : α) : ScanRun L b α κ :=
  (run.pending.headD []).foldl (ScanRun.act ty) {run with pending := run.pending.tail}

abbrev scanHost : ScanHost (ScanRun L b α κ) L α :=
  ⟨fun run => (run.kvs.kvstoreGetHashtable didx).getD create,fun run ht => {run with kvs := run.kvs.settle didx ht},
    ScanRun.visit ty,fun run _ _ => run⟩

def addHashtableIndexToCursor (b : Nat) (didx : Int) (cursor : BitVec 64) : BitVec 64 :=
  if 2^b = 1 then cursor else if didx = -1 then cursor else (cursor <<< b) ||| BitVec.ofInt 64 didx

def getAndClearHashtableIndexFromCursor (cursor : BitVec 64) : Fin (2^b) × BitVec 64 :=
  if 2^b = 1 then (indexOf 0,cursor) else (indexOf (cursor &&& BitVec.ofNat 64 (2^b - 1)).toNat,cursor >>> b)

def scanNextHashtable : Option (Kvstore L b α × BitVec 64) :=
  if 0 ≤ firstIdx ∧ lastIdx ≤ didx then some (kvs,0)
  else (kvs.kvstoreGetNextNonEmptyHashtableIndex didx).map (fun nextdidx =>
    if 0 ≤ firstIdx ∧ lastIdx < nextdidx then (kvs,0)
    else if nextdidx = -1 then (kvs,0)
    else (kvs,addHashtableIndexToCursor b nextdidx 0))

def scanHashtable (env : Env) (didx : Fin (2^b)) (cursor : BitVec 64) (firstIdx lastIdx : Int)
    (skip : Hashtable L α → Bool) (pending : List (List (Removal b κ))) (kvs : Kvstore L b α) : Option (Kvstore L b α × BitVec 64) :=
  match kvs.kvstoreGetHashtable didx with
  | none => kvs.scanNextHashtable didx firstIdx lastIdx
  | some ht =>
    if skip ht then kvs.scanNextHashtable didx firstIdx lastIdx
    else
      let asked := kvs.kvstoreIsImporting ty env didx
      if asked.2 then asked.1.scanNextHashtable didx firstIdx lastIdx
      else
        match (scanHost ty didx).hashtableScan ty.toHashtableType env (ht.childBuckets + 1) (cursor.setWidth L.sizeBits)
          ⟨asked.1,pending,false⟩ with
        | .error _ => none
        | .ok (run,next) =>
          if run.aborted then none
          else
            let freed := run.kvs.freeHashtableIfNeeded didx
            if next = 0 then freed.scanNextHashtable didx firstIdx lastIdx
            else some (freed,addHashtableIndexToCursor b didx (next.setWidth 64))

def kvstoreScan (env : Env) (cursor : BitVec 64) (firstIdx lastIdx : Int) (skip : Hashtable L α → Bool)
    (pending : List (List (Removal b κ))) (kvs : Kvstore L b α) : Option (Kvstore L b α × BitVec 64) :=
  let start : Fin (2^b) × BitVec 64 := getAndClearHashtableIndexFromCursor cursor
  if 0 ≤ firstIdx then
    if lastIdx < firstIdx ∨ 2^b ≤ lastIdx then none
    else if start.1 < firstIdx then kvs.scanHashtable ty env (indexOf firstIdx.toNat) 0 firstIdx lastIdx skip pending
    else if lastIdx < start.1 then some (kvs,0)
    else kvs.scanHashtable ty env start.1 start.2 firstIdx lastIdx skip pending
  else kvs.scanHashtable ty env start.1 start.2 firstIdx lastIdx skip pending

end Calls

section Maintenance
variable [Inhabited α]

def kvstoreHashtableExpand (ty : KvstoreType α κ) (env : Env) (didx : Fin (2^b)) (size : Nat) (kvs : Kvstore L b α) : Kvstore L b α × Bool :=
  if size = 0 then (kvs,false)
  else
    let created := kvs.createHashtableIfNeeded didx
    let expanded := created.2.hashtableExpand ty.toHashtableType env size
    (created.1.settle didx expanded.1,expanded.2)

def kvstoreHashtableTryExpand (ty : KvstoreType α κ) (env : Env) (didx : Fin (2^b)) (size : Nat) (kvs : Kvstore L b α) : Kvstore L b α × Bool :=
  if size = 0 then (kvs,false)
  else
    let created := kvs.createHashtableIfNeeded didx
    let expanded := created.2.tryExpand ty.toHashtableType env size
    (created.1.settle didx expanded.1,expanded.2)

def expandEach (ty : KvstoreType α κ) (env : Env) (newsize : Nat) (tryExpand : Bool) (skip : Fin (2^b) → Bool) :
    List (Fin (2^b)) → Kvstore L b α → Kvstore L b α × Bool
  | [], kvs => (kvs,true)
  | didx::rest, kvs =>
    if skip didx then expandEach ty env newsize tryExpand skip rest kvs
    else if tryExpand then
      let tried := kvs.kvstoreHashtableTryExpand ty env didx newsize
      if tried.2 then expandEach ty env newsize tryExpand skip rest tried.1 else (tried.1,false)
    else expandEach ty env newsize tryExpand skip rest (kvs.kvstoreHashtableExpand ty env didx newsize).1

def kvstoreExpand (ty : KvstoreType α κ) (env : Env) (newsize : Nat) (tryExpand : Bool) (skip : Fin (2^b) → Bool) (kvs : Kvstore L b α) :
    Kvstore L b α × Bool :=
  if newsize = 0 then (kvs,true) else expandEach ty env newsize tryExpand skip (List.finRange (2^b)) kvs

def resizeNext (ty : KvstoreType α κ) (env : Env) (kvs : Kvstore L b α) : Kvstore L b α :=
  let resized := match kvs.kvstoreGetHashtable kvs.resizeCursor with
    | none => kvs
    | some ht => kvs.settle kvs.resizeCursor (ht.rightsizeIfNeeded ty.toHashtableType env).1
  {resized with resizeCursor := indexOf (kvs.resizeCursor + 1)}

def resizeMany (ty : KvstoreType α κ) (env : Env) : Nat → Kvstore L b α → Kvstore L b α
  | 0, kvs => kvs
  | rounds + 1, kvs => resizeMany ty env rounds (kvs.resizeNext ty env)

def kvstoreTryResizeHashtables (ty : KvstoreType α κ) (env : Env) (limit : Nat) (kvs : Kvstore L b α) : Kvstore L b α :=
  resizeMany ty env (min limit (2^b)) kvs

def pointee (pointer : HashtablePointer b) (kvs : Kvstore L b α) : Option (Hashtable L α) :=
  ((kvs.hashtables pointer.didx).filter (·.serial = pointer.serial)).map (·.hashtable)

/-- `kvstoreIncrementallyRehash`, one clock for each round until the time limit is reached;
`none` if the list holds a dangling pointer. -/
def kvstoreIncrementallyRehash (ty : KvstoreType α κ) (env : Env) : List (Nat → Bool) → Kvstore L b α → Option (Kvstore L b α)
  | [], kvs => some kvs
  | elapsed::rest, kvs =>
    match kvs.rehashing with
    | [] => some kvs
    | first::_ =>
      match kvs.pointee first.value with
      | none => none
      | some ht => kvstoreIncrementallyRehash ty env rest
          (kvs.settle first.value.didx (ht.rehashMicroseconds ty.toHashtableType env elapsed).1)

end Maintenance

inductive Call (L : Layout) (b : Nat) (α κ : Type*) where
  | find (didx : Fin (2^b)) (key : κ)
  | add (didx : Fin (2^b)) (entry : α)
  | insertTwoPhase (didx : Fin (2^b)) (entry : α)
  | remove (removal : RemovalCall) (didx : Fin (2^b)) (key : κ)
  | setIsImporting (didx : Fin (2^b)) (isImporting : Bool)
  | scan (cursor : BitVec 64) (firstIdx lastIdx : Int) (skip : Hashtable L α → Bool) (pending : List (List (Removal b κ)))
  | empty
  | expand (newsize : Nat) (tryExpand : Bool) (skip : Fin (2^b) → Bool)
  | expandOne (didx : Fin (2^b)) (size : Nat) (tryExpand : Bool)
  | tryResize (limit : Nat)
  | incrementallyRehash (clocks : List (Nat → Bool))

/-- What the callers of the interface promise: only an empty hash table is marked as
importing, and the range of a scan is a range of indexes. -/
def allowed (kvs : Kvstore L b α) : Call L b α κ → Bool
  | .setIsImporting didx isImporting => !isImporting || kvs.kvstoreHashtableSize didx == 0
  | .scan _ firstIdx lastIdx _ _ => decide (firstIdx < 0) || (decide (firstIdx ≤ lastIdx) && decide (lastIdx < 2^b))
  | _ => true

section Running
variable [Inhabited α] [DecidableEq κ]

def step (ty : KvstoreType α κ) (env : Env) (kvs : Kvstore L b α) : Call L b α κ → Option (Kvstore L b α)
  | .find didx key => some (kvs.kvstoreHashtableFind ty env didx key).1
  | .add didx entry => (kvs.kvstoreHashtableAdd ty env didx entry).map (·.1)
  | .insertTwoPhase didx entry => kvs.insertTwoPhase ty env didx entry
  | .remove call didx key => kvs.remove ty ⟨call,env,didx,key⟩
  | .setIsImporting didx isImporting => kvs.kvstoreSetIsImporting ty env didx isImporting
  | .scan cursor firstIdx lastIdx skip pending => (kvs.kvstoreScan ty env cursor firstIdx lastIdx skip pending).map (·.1)
  | .empty => some kvs.kvstoreEmpty
  | .expand newsize tryExpand skip => some (kvs.kvstoreExpand ty env newsize tryExpand skip).1
  | .expandOne didx size tryExpand => some (if tryExpand then (kvs.kvstoreHashtableTryExpand ty env didx size).1
      else (kvs.kvstoreHashtableExpand ty env didx size).1)
  | .tryResize limit => some (kvs.kvstoreTryResizeHashtables ty env limit)
  | .incrementallyRehash clocks => kvs.kvstoreIncrementallyRehash ty env clocks

inductive Reachable (ty : KvstoreType α κ) : Kvstore L b α → Prop where
  | create (flags : KvstoreFlags) (kvs : Kvstore L b α) (created : kvstoreCreate flags = some kvs) : Reachable ty kvs
  | step (kvs next : Kvstore L b α) (env : Env) (call : Call L b α κ) (reached : Reachable ty kvs) (promised : kvs.allowed call = true)
      (stepped : kvs.step ty env call = some next) : Reachable ty next

def run (ty : KvstoreType α κ) : List (Env × Call L b α κ) → Kvstore L b α → Option (Kvstore L b α)
  | [], kvs => some kvs
  | (env,call)::rest, kvs => if kvs.allowed call then (kvs.step ty env call).bind (run ty rest) else none

theorem run_reachable {ty : KvstoreType α κ} (script : List (Env × Call L b α κ)) (kvs final : Kvstore L b α) (reachable : Reachable ty kvs)
    (ran : run ty script kvs = some final) : Reachable ty final := by
  induction script generalizing kvs with
  | nil => exact Option.some.inj ran ▸ reachable
  | cons first rest ih =>
    obtain ⟨env,call⟩ := first
    unfold run at ran
    split at ran
    · rename_i promised
      obtain ⟨next,stepped,later⟩ := Option.bind_eq_some_iff.mp ran
      exact ih next (.step kvs next env call reachable promised stepped) later
    · simp at ran

end Running

end ValkeyWasm.Kvstore
