import ValkeyWasm.Hashtable.Paused
import ValkeyWasm.Library.ReverseOrder
import Mathlib.Tactic.IntervalCases

/-! Scanning with a reverse-binary cursor.
The scan runs inside a host: whatever state its caller and its callback keep, together
with the hash table that is scanned. A bucket pointer names the allocation it points
into, so that it stays with its bucket when the two tables are swapped. -/
namespace ValkeyWasm.Hashtable
open Library.ReverseOrder Option Nat BitVec Int

variable {L : Layout} {α κ σ : Type*} (ht : Hashtable L α) (ref : BucketRef)

def bswap64 (v : BitVec 64) : BitVec 64 :=
  v.extractLsb' 0 8 ++ v.extractLsb' 8 8 ++ v.extractLsb' 16 8 ++ v.extractLsb' 24 8 ++
    v.extractLsb' 32 8 ++ v.extractLsb' 40 8 ++ v.extractLsb' 48 8 ++ v.extractLsb' 56 8

def bswap32 (v : BitVec 32) : BitVec 32 :=
  v.extractLsb' 0 8 ++ v.extractLsb' 8 8 ++ v.extractLsb' 16 8 ++ v.extractLsb' 24 8

/-- `rev` on a 64-bit `size_t`: odd and even bits, pairs, nibbles, then bytes. -/
def rev64 (v : BitVec 64) : BitVec 64 :=
  bswap64 (swapBits 4 0x0F0F0F0F0F0F0F0F#64 (swapBits 2 0x3333333333333333#64 (swapBits 1 0x5555555555555555#64 v)))

def rev32 (v : BitVec 32) : BitVec 32 :=
  bswap32 (swapBits 4 0x0F0F0F0F#32 (swapBits 2 0x33333333#32 (swapBits 1 0x55555555#32 v)))

def rev : (L : Layout) → BitVec L.sizeBits → BitVec L.sizeBits
  | .bits64, v => rev64 v
  | .bits32, v => rev32 v

def nextCursor (v mask : BitVec L.sizeBits) : BitVec L.sizeBits := rev L (rev L (v ||| ~~~mask) + 1)

def cursorMask (L : Layout) (exp : Int) : BitVec L.sizeBits := BitVec.ofNat _ (expToMask exp)

structure BucketRef where
  address : Nat
  index : Nat
  depth : Nat
  deriving DecidableEq, Repr

def tableAt (address : Nat) : Option (Fin 2) :=
  if ht.table0.bucketExp ≠ -1 ∧ ht.table0.address = address then some 0
  else if ht.table1.bucketExp ≠ -1 ∧ ht.table1.address = address then some 1
  else none

def chainOf : Option (Chain L α) :=
  (ht.tableAt ref.address).bind (fun t => (ht.table t).buckets[ref.index]?)

def slotOf (p : L.Pos) : Option (Slot α) :=
  (ht.chainOf ref).bind (·.slotAt ref.depth p)

def chainedOf : Bool := (ht.chainOf ref).any (·.chainedAt ref.depth)

def smallTable : Fin 2 := if ht.table0.bucketExp ≤ ht.table1.bucketExp then 0 else 1

def largeTable : Fin 2 := if ht.table0.bucketExp ≤ ht.table1.bucketExp then 1 else 0

/-- What surrounds a scan: the scanned table inside the caller's state, the callback
`fn(privdata, entry)`, and a record of every index used on `tables[t]`. -/
structure ScanHost (σ : Type*) (L : Layout) (α : Type*) where
  get : σ → Hashtable L α
  set : σ → Hashtable L α → σ
  visit : σ → α → σ
  record : σ → Fin 2 → Nat → σ

namespace ScanHost

def emitPositions (host : ScanHost σ L α) (ty : HashtableType α κ) (ref : BucketRef) : List L.Pos → σ → σ
  | [], s => s
  | p::rest, s =>
    match (host.get s).slotOf ref p with
    | some slot => host.emitPositions ty ref rest (if ty.validateElementIfNeeded slot.entry then host.visit s slot.entry else s)
    | none => host.emitPositions ty ref rest s

/-- The loop over the buckets of a chain. The callback may lengthen the chain, so the
rounds are given; the error is the state in which they ran out. -/
def emitChain (host : ScanHost σ L α) (ty : HashtableType α κ) : Nat → BucketRef → σ → Except σ σ
  | 0, _, s => .error s
  | rounds + 1, ref, s =>
    let emitted := host.emitPositions ty ref L.positions s
    if (host.get emitted).chainedOf ref then host.emitChain ty rounds {ref with depth := ref.depth + 1} emitted
    else .ok emitted

section Indices
variable [Inhabited α] (host : ScanHost σ L α) (ty : HashtableType α κ) (rounds : Nat)

def emitIndex (t : Fin 2) (index : Nat) (s : σ) : Except σ σ :=
  let usedBefore := ((host.get s).table t).used
  match host.emitChain ty rounds ⟨((host.get s).table t).address,index,0⟩ (host.record s t index) with
  | .error stopped => .error stopped
  | .ok emitted =>
    if ((host.get emitted).table t).used < usedBefore then
      let compacting := host.record emitted t index
      .ok (host.set compacting ((host.get compacting).compactBucketChain index t))
    else .ok emitted

/-- `table == 1 || ht->rehash_idx == -1 || idx >= ht->rehash_idx`, then the index. -/
def emitIndexIfPending (t : Fin 2) (index : Nat) (s : σ) : Except σ σ :=
  if t = 0 ∧ (host.get s).alreadyRehashed index = true then .ok s else host.emitIndex ty rounds t index s

def emitLarge (host : ScanHost σ L α) (ty : HashtableType α κ) (rounds : Nat) (large : Fin 2) (maskSmall maskLarge : BitVec L.sizeBits) :
    Nat → BitVec L.sizeBits → σ → Except σ (σ × BitVec L.sizeBits)
  | 0, _, s => .error s
  | indices + 1, cursor, s =>
    match host.emitIndexIfPending ty rounds large (cursor &&& maskLarge).toNat s with
    | .error stopped => .error stopped
    | .ok emitted =>
      let next := nextCursor cursor maskLarge
      if next &&& (maskSmall ^^^ maskLarge) ≠ 0 then host.emitLarge ty rounds large maskSmall maskLarge indices next emitted
      else .ok (emitted,next)

/-- The part of `hashtableScan` between pausing and resuming; `ht` is the table before
any callback, from which the call takes its masks. -/
def emitAll (ht : Hashtable L α) (cursor : BitVec L.sizeBits) (s : σ) :
    Except σ (σ × BitVec L.sizeBits) :=
  if !ht.isRehashing then
    let mask := cursorMask L ht.table0.bucketExp
    match host.emitIndex ty rounds 0 (cursor &&& mask).toNat s with
    | .error stopped => .error stopped
    | .ok emitted => .ok (emitted,nextCursor cursor mask)
  else
    let maskSmall := cursorMask L (ht.table ht.smallTable).bucketExp
    let maskLarge := cursorMask L (ht.table ht.largeTable).bucketExp
    match host.emitIndexIfPending ty rounds ht.smallTable (cursor &&& maskSmall).toNat s with
    | .error stopped => .error stopped
    | .ok emitted =>
      host.emitLarge ty rounds ht.largeTable maskSmall maskLarge (numBuckets (ht.table ht.largeTable).bucketExp) cursor emitted

/-- `hashtableScan`: the new state and cursor. `env` is in force when rehashing resumes. -/
def hashtableScan (env : Env) (rounds : Nat) (cursor : BitVec L.sizeBits) (s : σ) :
    Except σ (σ × BitVec L.sizeBits) :=
  let ht := host.get s
  if ht.size = 0 then .ok (s,0)
  else
    match host.emitAll ty rounds ht cursor (host.set s ht.hashtablePauseRehashing) with
    | .error stopped => .error stopped
    | .ok (emitted,next) => .ok (host.set emitted ((host.get emitted).hashtableResumeRehashing ty env),next)

theorem emitAll_pause (ht : Hashtable L α) (cursor : BitVec L.sizeBits) (s : σ) :
    host.emitAll ty rounds ht.hashtablePauseRehashing cursor s = host.emitAll ty rounds ht cursor s := rfl

end Indices

end ScanHost

variable {ty : HashtableType α κ} {ht : Hashtable L α}

section
variable (wf : ht.WF ty) (t : Fin 2) (allocated : (ht.table t).bucketExp ≠ -1)
include wf t allocated

theorem WF.tableAt_address : ht.tableAt (ht.table t).address = some t := by
  revert t
  refine Fin.forall_fin_two.mpr ⟨?_,?_⟩
  · intro allocated
    exact if_pos ⟨allocated,rfl⟩
  intro allocated
  have running : ht.rehashIdx ≠ none := by
    intro idle
    rw [table_one,wf.idle idle] at allocated
    exact allocated rfl
  rw [tableAt,if_neg (fun first => wf.owned.apart running first.2),if_pos ⟨allocated,rfl⟩]

theorem WF.slotOf_eq (ref : BucketRef) (address : ref.address = (ht.table t).address) (p : L.Pos) :
    ht.slotOf ref p = ht.slotAt ⟨t,ref.index,ref.depth,p⟩ := by
  simp [slotOf,chainOf,address,wf.tableAt_address t allocated,bind_some,slotAt]

theorem WF.chainedOf_eq [Inhabited α] (ref : BucketRef) (address : ref.address = (ht.table t).address)
    (bound : ref.index < numBuckets (ht.table t).bucketExp) :
    ht.chainedOf ref = ((ht.table t).chain ref.index).chainedAt ref.depth := by
  rw [← (wf.table t).length] at bound
  simp [chainedOf,chainOf,address,wf.tableAt_address t allocated,Table.getElem?_chain _ _ bound]

end

theorem getLsbD_bswap64 (v : BitVec 64) {i : Nat} (inside : i < 64) : (bswap64 v).getLsbD i = v.getLsbD (i ^^^ 56) := by
  simp only [bswap64,getLsbD_append,getLsbD_extractLsb']
  interval_cases i <;> rfl

theorem getLsbD_bswap32 (v : BitVec 32) {i : Nat} (inside : i < 32) : (bswap32 v).getLsbD i = v.getLsbD (i ^^^ 24) := by
  simp only [bswap32,getLsbD_append,getLsbD_extractLsb']
  interval_cases i <;> rfl

/-- Bytes, nibbles, pairs and bits change places one after the other. -/
theorem reverse_of_swaps {w k : Nat} {bswap : BitVec w → BitVec w} {nibbles pairs bits : BitVec w}
    (swapped : ∀ v : BitVec w, ∀ i < w, (bswap v).getLsbD i = v.getLsbD (i ^^^ k))
    (mirrored : ∀ i < w, i ^^^ k < w ∧ i ^^^ k ^^^ 4 < w ∧ i ^^^ k ^^^ 4 ^^^ 2 < w ∧ i ^^^ k ^^^ 4 ^^^ 2 ^^^ 1 = w - 1 - i)
    (four : Selects 4 nibbles) (two : Selects 2 pairs) (one : Selects 1 bits) (v : BitVec w) :
    bswap (swapBits 4 nibbles (swapBits 2 pairs (swapBits 1 bits v))) = v.reverse := by
  apply eq_of_getLsbD_eq
  intro i inside
  obtain ⟨bytes,nibbles,pairs,equal⟩ := mirrored i inside
  rw [getLsbD_reverse,getMsbD_eq_getLsbD,swapped _ i inside,getLsbD_swapBits 4 _ four bytes,getLsbD_swapBits 2 _ two nibbles,
    getLsbD_swapBits 1 _ one pairs,equal]
  simp [inside]

theorem rev_eq_reverse (L : Layout) (v : BitVec L.sizeBits) : rev L v = v.reverse := by
  cases L with
  | bits64 => exact reverse_of_swaps (fun v _ => getLsbD_bswap64 v) (by decide) (by decide) (by decide) (by decide) v
  | bits32 => exact reverse_of_swaps (fun v _ => getLsbD_bswap32 v) (by decide) (by decide) (by decide) (by decide) v

theorem nextCursor_eq_advance (v mask : BitVec L.sizeBits) : nextCursor v mask = advance v mask := by
  simp [nextCursor,advance,rev_eq_reverse]

theorem getLsbD_cursorMask (L : Layout) (e : Nat) (i : Nat) (inside : i < L.sizeBits) :
    (cursorMask L e).getLsbD i = decide (i < e) := by
  have allocated : (e : Int) ≠ -1 := by omega
  rw [cursorMask,expToMask,if_neg allocated,numBuckets_eq _ allocated,getLsbD_ofNat,toNat_natCast,
    testBit_two_pow_sub_one]
  simp [inside]

theorem toNat_and_cursorMask (cursor : BitVec L.sizeBits) (e : Nat) :
    (cursor &&& cursorMask L e).toNat = cursor.toNat % 2^e := by
  apply eq_of_testBit_eq
  intro i
  rw [testBit_toNat,getLsbD_and,testBit_mod_two_pow,testBit_toNat]
  by_cases inside : i < L.sizeBits
  · rw [getLsbD_cursorMask L e i inside,Bool.and_comm]
  · simp [getLsbD_of_ge _ _ (Nat.le_of_not_lt inside)]

theorem toNat_and_cursorMask_lt (cursor : BitVec L.sizeBits) (e : Nat) : (cursor &&& cursorMask L e).toNat < numBuckets (e : Int) := by
  rw [toNat_and_cursorMask]
  exact mod_lt _ (Nat.two_pow_pos _)

theorem cursorMask_lowMask (L : Layout) (e : Nat) (fits : e ≤ L.sizeBits) : LowMask (cursorMask L e) e :=
  ⟨fits,getLsbD_cursorMask L e⟩

def hashWord (L : Layout) (hash : BitVec 64) : BitVec L.sizeBits := BitVec.ofNat _ hash.toNat

theorem bucketIndex_eq_hashWord (hash : BitVec 64) (e : Nat) (fits : e ≤ L.sizeBits) :
    bucketIndex hash (e : Int) = (hashWord L hash).toNat % 2^e := by
  have allocated : (e : Int) ≠ -1 := by omega
  rw [bucketIndex_eq_mod hash _ allocated]
  exact (mod_mod_of_dvd _ (pow_dvd_pow 2 fits)).symm

theorem WF.exp_eq (wf : ht.WF ty) (t : Fin 2) (allocated : (ht.table t).bucketExp ≠ -1) :
    ∃ e : Nat, (ht.table t).bucketExp = e ∧ e ≤ L.sizeBits := by
  have low := (wf.table t).expLow
  have high := (wf.table t).expHigh
  obtain ⟨e,equal⟩ := eq_ofNat_of_zero_le (show 0 ≤ (ht.table t).bucketExp by omega)
  exact ⟨e,equal,by omega⟩

theorem smallTable_le (ht : Hashtable L α) : (ht.table ht.smallTable).bucketExp ≤ (ht.table ht.largeTable).bucketExp := by
  unfold smallTable largeTable
  split
  · rename_i le
    exact le
  · rename_i lt
    exact (not_le.mp lt).le

theorem eq_smallTable_or_largeTable (ht : Hashtable L α) (t : Fin 2) : t = ht.smallTable ∨ t = ht.largeTable := by
  unfold smallTable largeTable
  split <;> omega

theorem nextCursor_progress (cursor : BitVec L.sizeBits) (e f : Nat) (fits : f ≤ L.sizeBits)
    (more : nextCursor cursor (cursorMask L f) &&& (cursorMask L e ^^^ cursorMask L f) ≠ 0) :
    order cursor / 2^(L.sizeBits - f) + 1 ≤ order (nextCursor cursor (cursorMask L f)) / 2^(L.sizeBits - f) := by
  rw [nextCursor_eq_advance] at more ⊢
  rcases advance_cases cursor _ f (cursorMask_lowMask L f fits) with ⟨wrapped,_⟩ | inside
  · simp [wrapped] at more
  · rw [inside,Nat.mul_div_cancel _ (Nat.two_pow_pos _)]

theorem block_lt (cursor : BitVec L.sizeBits) {f : Nat} (fits : f ≤ L.sizeBits) : order cursor / 2^(L.sizeBits - f) < 2^f := by
  rw [Nat.div_lt_iff_lt_mul (Nat.two_pow_pos _),← pow_add,Nat.add_sub_cancel' fits]
  exact order_lt cursor

namespace ScanHost

variable [Inhabited α]

/-- A predicate on the host's state that callbacks, index records and compactions keep,
and under which no chain is deeper than the bound. -/
structure Keeps (host : ScanHost σ L α) (P : σ → Prop) (bound : Nat) : Prop where
  visit : ∀ s entry, P s → P (host.visit s entry)
  record : ∀ s t index, P s → P (host.record s t index)
  compact : ∀ before s t index, P before → P s → ((host.get s).table t).used < ((host.get before).table t).used →
    P (host.set (host.record s t index) ((host.get (host.record s t index)).compactBucketChain index t))
  shallow : ∀ s ref, P s → (host.get s).chainedOf ref = true → ref.depth < bound

variable {host : ScanHost σ L α} {P : σ → Prop} {bound : Nat} (keeps : host.Keeps P bound) (ty : HashtableType α κ)
include keeps

theorem emitPositions_keeps (ref : BucketRef) (positions : List L.Pos) (s : σ) (holds : P s) : P (host.emitPositions ty ref positions s) := by
  induction positions generalizing s with
  | nil => exact holds
  | cons p rest ih =>
    unfold emitPositions
    split
    · apply ih
      split
      · exact keeps.visit s _ holds
      · exact holds
    · exact ih s holds

theorem emitChain_returns (rounds : Nat) (ref : BucketRef) (s : σ) (holds : P s)
    (deep : ref.depth ≤ bound) (enough : bound < rounds + ref.depth) : ∃ out, host.emitChain ty rounds ref s = .ok out ∧ P out := by
  induction rounds generalizing ref s with
  | zero => omega
  | succ rounds ih =>
    have emitted := emitPositions_keeps keeps ty ref L.positions s holds
    unfold emitChain
    dsimp only
    split
    · rename_i chained
      have below := keeps.shallow _ ref emitted chained
      exact ih _ _ emitted below (by dsimp only; omega)
    · exact ⟨_,rfl,emitted⟩

variable (rounds : Nat) (enough : bound < rounds)
include enough

theorem emitIndex_returns (t : Fin 2) (index : Nat) (s : σ) (holds : P s) : ∃ out, host.emitIndex ty rounds t index s = .ok out ∧ P out := by
  obtain ⟨emitted,returned,kept⟩ := emitChain_returns keeps ty rounds ⟨((host.get s).table t).address,index,0⟩ _
    (keeps.record s t index holds) (zero_le _) enough
  simp only [emitIndex,returned]
  split
  · rename_i deleted
    exact ⟨_,rfl,keeps.compact s emitted t index holds kept deleted⟩
  · exact ⟨_,rfl,kept⟩

theorem emitIndexIfPending_returns (t : Fin 2) (index : Nat) (s : σ) (holds : P s) : ∃ out, host.emitIndexIfPending ty rounds t index s = .ok out ∧ P out := by
  unfold emitIndexIfPending
  split
  · exact ⟨s,rfl,holds⟩
  · exact emitIndex_returns keeps ty rounds enough t index s holds

theorem emitLarge_returns (large : Fin 2) (e f : Nat) (fits : f ≤ L.sizeBits) (indices : Nat) (cursor : BitVec L.sizeBits)
    (left : 2^f ≤ order cursor / 2^(L.sizeBits - f) + indices) (s : σ) (holds : P s) :
    ∃ out next, host.emitLarge ty rounds large (cursorMask L e) (cursorMask L f) indices cursor s = .ok (out,next) ∧ P out := by
  induction indices generalizing cursor s with
  | zero =>
    have block := block_lt cursor fits
    omega
  | succ indices ih =>
    obtain ⟨emitted,returned,kept⟩ := emitIndexIfPending_returns keeps ty rounds enough large (cursor &&& cursorMask L f).toNat s holds
    simp only [emitLarge,returned]
    split
    · rename_i more
      have progress := nextCursor_progress cursor e f fits more
      exact ih _ (by omega) emitted kept
    · exact ⟨_,_,rfl,kept⟩

theorem emitAll_returns (ht : Hashtable L α) (wf : ht.WF ty) (allocated : ht.table0.bucketExp ≠ -1) (cursor : BitVec L.sizeBits) (s : σ) (holds : P s) :
    ∃ out next, host.emitAll ty rounds ht cursor s = .ok (out,next) ∧ P out := by
  unfold emitAll
  rcases running : ht.rehashIdx with _ | r
  · obtain ⟨emitted,returned,kept⟩ := emitIndex_returns keeps ty rounds enough 0 (cursor &&& cursorMask L ht.table0.bucketExp).toNat s holds
    simp only [isRehashing,running,returned]
    exact ⟨_,_,rfl,kept⟩
  have tables : ∀ t, (ht.table t).bucketExp ≠ -1 := Fin.forall_fin_two.mpr ⟨allocated,(wf.running r running).2.1⟩
  obtain ⟨e,small,_⟩ := wf.exp_eq ht.smallTable (tables _)
  obtain ⟨f,large,fits⟩ := wf.exp_eq ht.largeTable (tables _)
  have buckets : numBuckets (f : Int) = 2^f := by rw [numBuckets_eq _ (by omega),toNat_natCast]
  obtain ⟨emitted,returned,kept⟩ := emitIndexIfPending_returns keeps ty rounds enough ht.smallTable (cursor &&& cursorMask L e).toNat s holds
  simp only [isRehashing,running,small,large,returned,buckets]
  exact emitLarge_returns keeps ty rounds enough _ e f fits (2^f) cursor (le_add_left _ _) emitted kept

end ScanHost

theorem table_childBuckets_le (ht : Hashtable L α) (t : Fin 2) : (ht.table t).childBuckets ≤ ht.childBuckets := by
  revert t
  exact Fin.forall_fin_two.mpr ⟨le_add_right _ _,le_add_left _ _⟩

theorem WF.depth_lt_childBuckets [Inhabited α] (wf : ht.WF ty) (ref : BucketRef)
    (chained : ht.chainedOf ref = true) : ref.depth < ht.childBuckets := by
  obtain ⟨c,located,links⟩ := (any_eq_true _ _).mp chained
  obtain ⟨t,_,held⟩ := bind_eq_some_iff.mp located
  have bound := (List.getElem?_eq_some_iff.mp held).1
  have counted := (wf.table t).childCount_le ref.index bound
  rw [Table.chain_eq _ _ c held] at counted
  have deep := Chain.lt_childCount_of_chainedAt c ref.depth links
  have total := table_childBuckets_le ht t
  omega

theorem WF.slots_of_null (wf : ht.WF ty) (null : ht.table0.bucketExp = -1) :
    ht.slots = 0 := by
  simp [slots,Table.slots,wf.first.buckets_nil null,wf.idle (wf.idle_of_null null),Table.reset]

theorem WF.allocated_of_size (wf : ht.WF ty) (filled : ht.size ≠ 0) :
    ht.table0.bucketExp ≠ -1 := by
  intro null
  rw [wf.size_eq,wf.slots_of_null null] at filled
  exact filled rfl

end ValkeyWasm.Hashtable
