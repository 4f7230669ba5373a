import ValkeyWasm.Library.Occupancy

/-! Cache-line buckets of the hash table and the chains they form.
A bucket keeps one presence bit, one hash byte and one entry word for each of its
positions. A chained bucket gives up its last entry word for the child pointer, so
a chain is either an unchained bucket or a chained bucket followed by its child. -/
namespace ValkeyWasm.Hashtable
open Library.Occupancy Function List

/-- `SIZE_MAX` selects the 64-bit or the 32-bit bucket layout. -/
inductive Layout where
  | bits64
  | bits32
  deriving DecidableEq, Repr

namespace Layout

def sizeBits : Layout → Nat
  | bits64 => 64
  | bits32 => 32

def entriesPerBucket : Layout → Nat
  | bits64 => 7
  | bits32 => 12

def bucketFactor : Layout → Nat
  | bits64 => 5
  | bits32 => 3

def bucketDivisor : Nat := 32

theorem two_le_entriesPerBucket (L : Layout) : 2 ≤ L.entriesPerBucket := by
  cases L <;> decide

abbrev Pos (L : Layout) := Fin L.entriesPerBucket

def firstPos (L : Layout) : L.Pos := ⟨0,by have := L.two_le_entriesPerBucket; omega⟩

def secondPos (L : Layout) : L.Pos := ⟨1,by have := L.two_le_entriesPerBucket; omega⟩

/-- `ENTRIES_PER_BUCKET - 1`, the position whose word holds the child pointer. -/
def lastPos (L : Layout) : L.Pos := ⟨L.entriesPerBucket - 1,by have := L.two_le_entriesPerBucket; omega⟩

def positions (L : Layout) : List L.Pos := List.finRange L.entriesPerBucket

@[simp] theorem mem_positions (L : Layout) (p : L.Pos) : p ∈ L.positions := mem_finRange p

theorem positions_nodup (L : Layout) : L.positions.Nodup := nodup_finRange _

theorem secondPos_ne_firstPos (L : Layout) : L.secondPos ≠ L.firstPos := by
  cases L <;> decide

end Layout

variable {L : Layout} {α : Type*}

structure Slot (α : Type*) where
  hash : BitVec 8
  entry : α
  deriving DecidableEq, Repr

/-- `struct hashtableBucket` without the `chained` bit and the child pointer. -/
structure Bucket (L : Layout) (α : Type*) where
  presence : L.Pos → Bool
  hashes : L.Pos → BitVec 8
  entries : L.Pos → α

namespace Bucket

def zeroed [Inhabited α] : Bucket L α := ⟨fun _ => false,fun _ => 0,fun _ => default⟩

def isPositionFilled (b : Bucket L α) (p : L.Pos) : Bool := b.presence p

def slot (b : Bucket L α) (p : L.Pos) : Option (Slot α) :=
  bif b.isPositionFilled p then some ⟨b.hashes p,b.entries p⟩ else none

def slots (b : Bucket L α) : Multiset (Slot α) := contents L.positions b.slot

def isEmpty (b : Bucket L α) : Bool := L.positions.all (fun p => !b.isPositionFilled p)

def popcount (b : Bucket L α) : Nat := L.positions.countP b.isPositionFilled

def ctz (b : Bucket L α) : Option L.Pos := L.positions.find? b.isPositionFilled

def firstFree (b : Bucket L α) : Option L.Pos := L.positions.find? (fun p => !b.isPositionFilled p)

def setHash (b : Bucket L α) (p : L.Pos) (h2 : BitVec 8) : Bucket L α :=
  {b with hashes := Function.update b.hashes p h2}

def setEntry (b : Bucket L α) (p : L.Pos) (entry : α) : Bucket L α :=
  {b with entries := Function.update b.entries p entry}

def setPresence (b : Bucket L α) (p : L.Pos) : Bucket L α :=
  {b with presence := Function.update b.presence p true}

def clearPresence (b : Bucket L α) (p : L.Pos) : Bucket L α :=
  {b with presence := Function.update b.presence p false}

/-- The three writes of `rehashEntry` and `insert`. -/
def place (b : Bucket L α) (p : L.Pos) (h2 : BitVec 8) (entry : α) : Bucket L α :=
  ((b.setEntry p entry).setHash p h2).setPresence p

def moveEntry (target : Bucket L α) (posTo : L.Pos) (source : Bucket L α) (posFrom : L.Pos) : Bucket L α × Bucket L α :=
  (target.place posTo (source.hashes posFrom) (source.entries posFrom),source.clearPresence posFrom)

section
variable (b : Bucket L α) (p : L.Pos)
include b p

theorem slot_eq_none : b.slot p = none ↔ b.presence p = false := by
  cases filled : b.presence p <;> simp [slot,isPositionFilled,filled]

theorem slot_eq_some (s : Slot α) :
    b.slot p = some s ↔ b.presence p = true ∧ b.hashes p = s.hash ∧ b.entries p = s.entry := by
  obtain ⟨-,-⟩ := s
  cases filled : b.presence p <;> simp [slot,isPositionFilled,filled]

theorem slot_place (h2 : BitVec 8) (entry : α) :
    (b.place p h2 entry).slot = update b.slot p (some ⟨h2,entry⟩) := by
  funext q
  by_cases same : q = p
  · subst q
    simp [place,slot,isPositionFilled,setEntry,setHash,setPresence]
  · simp [place,slot,isPositionFilled,setEntry,setHash,setPresence,update_of_ne same]

theorem slot_clearPresence :
    (b.clearPresence p).slot = update b.slot p none := by
  funext q
  by_cases same : q = p
  · subst q
    simp [slot,isPositionFilled,clearPresence]
  · simp [slot,isPositionFilled,clearPresence,update_of_ne same]

theorem slot_setEntry {s : Slot α} (entry : α) (held : b.slot p = some s) :
    (b.setEntry p entry).slot = update b.slot p (some ⟨s.hash,entry⟩) := by
  obtain ⟨filled,hash,_⟩ := (slot_eq_some b p s).mp held
  funext q
  by_cases same : q = p
  · subst q
    simp [slot,isPositionFilled,setEntry,filled,hash]
  · simp [slot,isPositionFilled,setEntry,update_of_ne same]

theorem slots_place (h2 : BitVec 8) (entry : α) (free : b.slot p = none) :
    (b.place p h2 entry).slots = ⟨h2,entry⟩ ::ₘ b.slots := by
  unfold slots
  rw [slot_place]
  exact contents_fill _ L.positions_nodup _ _ (L.mem_positions p) free _

theorem slots_clearPresence (s : Slot α) (held : b.slot p = some s) :
    b.slots = s ::ₘ (b.clearPresence p).slots := by
  unfold slots
  rw [slot_clearPresence]
  exact contents_clear _ L.positions_nodup _ _ (L.mem_positions p) held

theorem slots_setEntry (s : Slot α) (entry : α) (held : b.slot p = some s) :
    (b.setEntry p entry).slots = ⟨s.hash,entry⟩ ::ₘ (b.clearPresence p).slots := by
  have rewritten : (b.setEntry p entry).slot = update (b.clearPresence p).slot p (some ⟨s.hash,entry⟩) := by
    rw [slot_setEntry b p entry held,slot_clearPresence,update_idem]
  unfold slots
  rw [rewritten]
  exact contents_fill _ L.positions_nodup _ _ (L.mem_positions p) (by rw [slot_clearPresence,update_self]) _

end

theorem mem_slots (b : Bucket L α) (s : Slot α) : s ∈ b.slots ↔ ∃ p, b.slot p = some s := by
  simp [slots,mem_contents]

section
variable (b : Bucket L α)
include b

theorem popcount_eq_card : b.popcount = b.slots.card := by
  unfold slots contents
  rw [Multiset.coe_card,length_filterMap_eq_countP]
  apply countP_congr
  intro p _
  cases filled : b.presence p <;> simp [slot,isPositionFilled,filled]

theorem slots_eq_zero_of_isEmpty (empty : b.isEmpty = true) : b.slots = 0 := by
  apply Multiset.eq_zero_of_forall_notMem
  intro s member
  obtain ⟨p,held⟩ := (mem_slots b s).mp member
  have unfilled : b.isPositionFilled p = false := by
    simpa using all_eq_true.mp empty p (L.mem_positions p)
  simp [slot,unfilled] at held

omit b in
theorem slots_zeroed [Inhabited α] : (zeroed : Bucket L α).slots = 0 :=
  slots_eq_zero_of_isEmpty _ (by simp [isEmpty,isPositionFilled,zeroed])

theorem ctz_some {p : L.Pos} (found : b.ctz = some p) :
    b.slot p = some ⟨b.hashes p,b.entries p⟩ := by
  have filled : b.isPositionFilled p = true := find?_some found
  simp [slot,filled]

theorem ctz_none (missing : b.ctz = none) : b.slots = 0 := by
  apply slots_eq_zero_of_isEmpty
  rw [isEmpty,all_eq_true]
  intro p member
  simpa using find?_eq_none.mp missing p member

theorem firstFree_some {p : L.Pos} (found : b.firstFree = some p) : b.slot p = none := by
  have unfilled := find?_some found
  rw [slot_eq_none]
  simpa [isPositionFilled] using unfilled

theorem firstFree_le {p : L.Pos} (free : b.slot p = none) :
    ∃ q, b.firstFree = some q ∧ q ≤ p := by
  have unfilled : (!b.isPositionFilled p) = true := by simpa [isPositionFilled] using (slot_eq_none b p).mp free
  cases found : b.firstFree with
  | none => exact absurd unfilled (find?_eq_none.mp found p (L.mem_positions p))
  | some q =>
    refine ⟨q,rfl,?_⟩
    obtain ⟨_,before,after,split,skipped⟩ := find?_eq_some_iff_append.mp found
    have located : p ∈ before ++ q::after := split ▸ L.mem_positions p
    have ordered : (before ++ q::after).Pairwise (· < ·) := by
      rw [← split]
      exact pairwise_lt_finRange _
    rcases mem_append.mp located with early | late
    · exact absurd unfilled (by simpa using skipped p early)
    · rcases mem_cons.mp late with same | later
      · exact le_of_eq same.symm
      · exact le_of_lt ((pairwise_cons.mp (pairwise_append.mp ordered).2.1).1 p later)

end

end Bucket

end ValkeyWasm.Hashtable
