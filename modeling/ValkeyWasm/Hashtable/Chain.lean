import ValkeyWasm.Hashtable.Bucket

/-! Bucket chains: search, insertion, hole filling and pruning.
Every operation is specified by what it does to the multiset of stored slots, to
the number of child buckets and to the rule that a chained bucket never uses its
last position. -/
namespace ValkeyWasm.Hashtable
open Function List Option Bool Multiset

variable {L : Layout} {α : Type*}

/-- A bucket chain. The `chained` bit of a bucket says which constructor it is in. -/
inductive Chain (L : Layout) (α : Type*) where
  | last (bucket : Bucket L α)
  | link (bucket : Bucket L α) (child : Chain L α)

def numBucketPositions (L : Layout) (chained : Bool) : Nat :=
  L.entriesPerBucket - (if chained then 1 else 0)

def bucketIsFull (b : Bucket L α) (chained : Bool) : Bool :=
  L.positions.all (fun p => b.presence p == decide (p.val < numBucketPositions L chained))

variable {b : Bucket L α}

theorem slot_of_full {chained : Bool} (full : bucketIsFull b chained = true) (p : L.Pos) :
    b.presence p = decide (p.val < numBucketPositions L chained) := by
  simpa using List.all_eq_true.mp full p (L.mem_positions p)

private theorem filled_of_not_free (b : Bucket L α) (p : L.Pos) (held : ¬b.slot p = none) : b.presence p = true := by
  simpa [Bucket.slot_eq_none] using held

theorem exists_free_of_not_full (notFull : bucketIsFull b false = false) :
    ∃ p, b.slot p = none := by
  by_contra occupied
  push Not at occupied
  have full : bucketIsFull b false = true := by
    rw [bucketIsFull,List.all_eq_true]
    intro p _
    simp [filled_of_not_free b p (occupied p),numBucketPositions]
  simp [full] at notFull

theorem exists_free_of_not_full_chained (notFull : bucketIsFull b true = false)
    (lastFree : b.slot L.lastPos = none) : ∃ p, p < L.lastPos ∧ b.slot p = none := by
  by_contra occupied
  push Not at occupied
  have full : bucketIsFull b true = true := by
    rw [bucketIsFull,List.all_eq_true]
    intro p _
    by_cases early : p < L.lastPos
    · have bound : p.val < L.entriesPerBucket - 1 := early
      simp [filled_of_not_free b p (occupied p early),numBucketPositions,bound]
    have same : p = L.lastPos := by
      apply Fin.ext
      have lower : ¬p.val < L.entriesPerBucket - 1 := early
      change p.val = L.entriesPerBucket - 1
      omega
    have unfilled : b.presence p = false := same ▸ (Bucket.slot_eq_none b _).mp lastFree
    have bound : ¬p.val < L.entriesPerBucket - 1 := early
    simp [unfilled,numBucketPositions,bound]
  simp [full] at notFull

namespace Chain

def chained : Chain L α → Bool
  | last _ => false
  | link _ _ => true

def top : Chain L α → Bucket L α
  | last b => b
  | link b _ => b

def getChildBucket : Chain L α → Chain L α
  | last b => last b
  | link _ child => child

def childCount : Chain L α → Nat
  | last _ => 0
  | link _ child => child.childCount + 1

def slots : Chain L α → Multiset (Slot α)
  | last b => b.slots
  | link b child => b.slots + child.slots

def bucketAt : Chain L α → Nat → Option (Bucket L α)
  | last b, 0 => some b
  | link b _, 0 => some b
  | last _, _ + 1 => none
  | link _ child, depth + 1 => child.bucketAt depth

def slotAt (c : Chain L α) (depth : Nat) (p : L.Pos) : Option (Slot α) :=
  (c.bucketAt depth).bind (·.slot p)

def LinksFree : Chain L α → Prop
  | last _ => True
  | link b child => b.slot L.lastPos = none ∧ child.LinksFree

def modifyBucket : Nat → (Bucket L α → Bucket L α) → Chain L α → Chain L α
  | 0, f, last b => last (f b)
  | 0, f, link b child => link (f b) child
  | _ + 1, _, last b => last b
  | depth + 1, f, link b child => link b (child.modifyBucket depth f)

def chainedAt : Chain L α → Nat → Bool
  | last _, _ => false
  | link _ _, 0 => true
  | link _ child, depth + 1 => child.chainedAt depth

def findPos (matching : Slot α → Bool) : Chain L α → Option (Nat × L.Pos)
  | last b => (L.positions.find? (fun p => decide (p.val < numBucketPositions L false) && (b.slot p).any matching)).map (0,·)
  | link b child =>
    match L.positions.find? (fun p => decide (p.val < numBucketPositions L true) && (b.slot p).any matching) with
    | some p => some (0,p)
    | none => (child.findPos matching).map (fun found => (found.1 + 1,found.2))

section Insertion
variable [Inhabited α]

def empty : Chain L α := last Bucket.zeroed

def bucketConvertToChained (b : Bucket L α) : Bucket L α × Bucket L α :=
  let moved := Bucket.moveEntry Bucket.zeroed L.firstPos b L.lastPos
  (moved.2,moved.1)

/-- Where `findBucketForInsert` stops in a chain, and the chain it leaves behind. -/
structure Room (L : Layout) (α : Type*) where
  chain : Chain L α
  depth : Nat
  pos : L.Pos
  added : Nat

def findRoom : Chain L α → Room L α
  | last b =>
    if bucketIsFull b false then
      let converted := bucketConvertToChained b
      ⟨link converted.1 (last converted.2),1,converted.2.firstFree.getD L.lastPos,1⟩
    else ⟨last b,0,b.firstFree.getD L.lastPos,0⟩
  | link b child =>
    if bucketIsFull b true then
      let room := child.findRoom
      ⟨link b room.chain,room.depth + 1,room.pos,room.added⟩
    else ⟨link b child,0,b.firstFree.getD L.lastPos,0⟩

end Insertion

def Free (c : Chain L α) (depth : Nat) (p : L.Pos) : Prop :=
  ∃ b, c.bucketAt depth = some b ∧ b.slot p = none ∧ (c.chainedAt depth = true → p ≠ L.lastPos)

/-- Takes the entry of the lowest filled position of the last bucket of a chain. -/
def takeFromLast : Chain L α → Option (Slot α) × Chain L α
  | last b =>
    match b.ctz with
    | some p => (b.slot p,last (b.clearPresence p))
    | none => (none,last b)
  | link b child => (child.takeFromLast.1,link b child.takeFromLast.2)

def pruneLastBucket (beforeLast lastBucket : Bucket L α) : Bucket L α :=
  match lastBucket.ctz with
  | some p => (Bucket.moveEntry beforeLast L.lastPos lastBucket p).1
  | none => beforeLast

/-- The final test of `fillBucketHole`; the number is that of freed buckets. -/
def pruneIfSparse : Bucket L α → Chain L α → Chain L α × Nat
  | b, last l => if l.isEmpty || l.popcount == 1 then (last (pruneLastBucket b l),1) else (link b (last l),0)
  | b, link next child =>
    let rest := pruneIfSparse next child
    (link b rest.1,rest.2)

def fillBucketHole (b : Bucket L α) (p : L.Pos) (child : Chain L α) : Chain L α × Nat :=
  match child.takeFromLast with
  | (some s,rest) => pruneIfSparse (b.place p s.hash s.entry) rest
  | (none,rest) => pruneIfSparse b rest

def fillHoleAt : Nat → L.Pos → Chain L α → Chain L α × Nat
  | _, _, last b => (last b,0)
  | 0, p, link b child => fillBucketHole b p child
  | depth + 1, p, link b child =>
    let rest := child.fillHoleAt depth p
    (link b rest.1,rest.2)

def fillHoles : List L.Pos → Bucket L α → Chain L α → Chain L α × Nat
  | [], b, child => (link b child,0)
  | p::rest, b, child =>
    if b.isPositionFilled p then fillHoles rest b child
    else
      match fillBucketHole b p child with
      | (last unchained,freed) => (last unchained,freed)
      | (link bucket child,freed) =>
        let filled := fillHoles rest bucket child
        (filled.1,freed + filled.2)

def fillBucketHoles (b : Bucket L α) (child : Chain L α) : Chain L α × Nat :=
  if b.popcount < L.entriesPerBucket - 1 then fillHoles (L.positions.filter (· ≠ L.lastPos)) b child
  else (link b child,0)

/-- The outer loop of `compactBucketChain`. Each round frees a bucket or moves to
the next one, so the number of child buckets bounds the rounds. -/
def compactLoop : Nat → Chain L α → Chain L α × Nat
  | _, last b => (last b,0)
  | 0, link b child => (link b child,0)
  | rounds + 1, link b child =>
    if child.chained && child.top.isEmpty then
      -- an empty bucket in the middle of the chain
      let compacted := compactLoop rounds (link b child.getChildBucket)
      (compacted.1,compacted.2 + 1)
    else if !child.chained && (child.top.isEmpty || child.top.popcount == 1) then
      (last (pruneLastBucket b child.top),1)
    else
      match fillBucketHoles b child with
      | (last unchained,freed) => (last unchained,freed)
      | (link bucket child,freed) =>
        let compacted := compactLoop rounds child
        (link bucket compacted.1,freed + compacted.2)

def compactBucketChain (c : Chain L α) : Chain L α × Nat := compactLoop c.childCount c

section
variable (c : Chain L α)
include c

theorem slotAt_eq_some (depth : Nat) (p : L.Pos) (s : Slot α) :
    c.slotAt depth p = some s ↔ ∃ b, c.bucketAt depth = some b ∧ b.slot p = some s := by
  simp [slotAt,bind_eq_some_iff]

theorem mem_slots (s : Slot α) : s ∈ c.slots ↔ ∃ depth p, c.slotAt depth p = some s := by
  induction c with
  | last b =>
    rw [slots,Bucket.mem_slots]
    constructor
    · rintro ⟨p,held⟩
      exact ⟨0,p,held⟩
    rintro ⟨depth,p,held⟩
    cases depth with
    | zero => exact ⟨p,held⟩
    | succ depth => simp [slotAt,bucketAt] at held
  | link b child ih =>
    rw [slots,mem_add,Bucket.mem_slots,ih]
    constructor
    · rintro (⟨p,held⟩ | ⟨depth,p,held⟩)
      · exact ⟨0,p,held⟩
      · exact ⟨depth + 1,p,held⟩
    rintro ⟨depth,p,held⟩
    cases depth with
    | zero => exact Or.inl ⟨p,held⟩
    | succ depth => exact Or.inr ⟨depth,p,held⟩

section
variable (depth : Nat) (f : Bucket L α → Bucket L α)
include depth f

theorem childCount_modifyBucket :
    (c.modifyBucket depth f).childCount = c.childCount := by
  induction c generalizing depth with
  | last b => cases depth <;> rfl
  | link b child ih => cases depth <;> simp [modifyBucket,childCount,ih]

theorem chainedAt_modifyBucket (i : Nat) :
    (c.modifyBucket depth f).chainedAt i = c.chainedAt i := by
  induction c generalizing depth i with
  | last b => cases depth <;> rfl
  | link b child ih => cases depth <;> cases i <;> simp [modifyBucket,chainedAt,ih]

theorem bucketAt_modifyBucket (i : Nat) :
    (c.modifyBucket depth f).bucketAt i = if i = depth then (c.bucketAt i).map f else c.bucketAt i := by
  induction c generalizing depth i with
  | last b => cases depth <;> cases i <;> simp [modifyBucket,bucketAt]
  | link b child ih => cases depth <;> cases i <;> simp [modifyBucket,bucketAt,ih]

theorem slots_modifyBucket
    (located : c.bucketAt depth = some b) :
    (c.modifyBucket depth f).slots + b.slots = c.slots + (f b).slots := by
  induction c generalizing depth with
  | last bucket =>
    cases depth with
    | zero =>
      have same : bucket = b := by simpa [bucketAt] using located
      subst same
      simp [modifyBucket,slots,add_comm]
    | succ depth => simp [bucketAt] at located
  | link bucket child ih =>
    cases depth with
    | zero =>
      have same : bucket = b := by simpa [bucketAt] using located
      subst same
      simp only [slots]
      ac_rfl
    | succ depth =>
      simp only [modifyBucket,slots]
      rw [add_assoc,ih depth located,add_assoc]

theorem linksFree_modifyBucket (free : c.LinksFree)
    (keep : ∀ b, c.bucketAt depth = some b → c.chainedAt depth = true → b.slot L.lastPos = none →
      (f b).slot L.lastPos = none) :
    (c.modifyBucket depth f).LinksFree := by
  induction c generalizing depth with
  | last bucket => cases depth <;> trivial
  | link bucket child ih =>
    cases depth with
    | zero => exact ⟨keep bucket rfl rfl free.1,free.2⟩
    | succ depth => exact ⟨free.1,ih depth free.2 keep⟩

end

section
variable (depth : Nat) (p : L.Pos)
include depth p

theorem slots_clearPresence (s : Slot α)
    (held : c.slotAt depth p = some s) :
    c.slots = s ::ₘ (c.modifyBucket depth (·.clearPresence p)).slots := by
  obtain ⟨b,located,filled⟩ := (slotAt_eq_some c depth p s).mp held
  have exchanged := slots_modifyBucket c depth (·.clearPresence p) located
  rw [Bucket.slots_clearPresence b p s filled] at exchanged
  apply add_right_cancel (b := (b.clearPresence p).slots)
  rw [← exchanged]
  simp

theorem linksFree_clearPresence (free : c.LinksFree) :
    (c.modifyBucket depth (·.clearPresence p)).LinksFree := by
  apply linksFree_modifyBucket c depth _ free
  intro b _ _ lastFree
  rw [Bucket.slot_clearPresence]
  by_cases same : L.lastPos = p
  · rw [same,update_self]
  · rw [update_of_ne same,lastFree]

theorem slots_setEntry (s : Slot α) (entry : α)
    (held : c.slotAt depth p = some s) :
    (c.modifyBucket depth (·.setEntry p entry)).slots = ⟨s.hash,entry⟩ ::ₘ (c.modifyBucket depth (·.clearPresence p)).slots := by
  obtain ⟨b,located,filled⟩ := (slotAt_eq_some c depth p s).mp held
  have exchanged := slots_modifyBucket c depth (·.setEntry p entry) located
  rw [slots_clearPresence c depth p s held,Bucket.slots_setEntry b p s entry filled,
    Bucket.slots_clearPresence b p s filled] at exchanged
  apply add_right_cancel (b := s ::ₘ (b.clearPresence p).slots)
  rw [exchanged]
  simp only [add_cons,cons_add]
  rw [cons_swap]

theorem linksFree_setEntry (entry : α) (free : c.LinksFree) :
    (c.modifyBucket depth (·.setEntry p entry)).LinksFree := by
  apply linksFree_modifyBucket c depth _ free
  intro b _ _ lastFree
  rw [Bucket.slot_eq_none] at lastFree ⊢
  exact lastFree

theorem slots_place (h2 : BitVec 8) (entry : α) (free : c.Free depth p) :
    (c.modifyBucket depth (·.place p h2 entry)).slots = ⟨h2,entry⟩ ::ₘ c.slots := by
  obtain ⟨b,located,unfilled,_⟩ := free
  have exchanged := slots_modifyBucket c depth (·.place p h2 entry) located
  rw [Bucket.slots_place b p h2 entry unfilled] at exchanged
  apply add_right_cancel (b := b.slots)
  rw [exchanged]
  simp

theorem linksFree_place (h2 : BitVec 8) (entry : α)
    (free : c.Free depth p) (links : c.LinksFree) :
    (c.modifyBucket depth (·.place p h2 entry)).LinksFree := by
  obtain ⟨b,-,_,usable⟩ := free
  apply linksFree_modifyBucket c depth _ links
  intro bucket _ isChained lastFree
  rw [Bucket.slot_place,update_of_ne (Ne.symm (usable isChained)),lastFree]

end

end

theorem findPos_some (matching : Slot α → Bool) (c : Chain L α) (depth : Nat) (p : L.Pos)
    (found : c.findPos matching = some (depth,p)) : ∃ s, c.slotAt depth p = some s ∧ matching s = true := by
  induction c generalizing depth with
  | last b =>
    simp only [findPos,map_eq_some_iff] at found
    obtain ⟨q,hit,rfl,rfl⟩ := found
    have accepted := find?_some hit
    simp only [and_eq_true,Option.any_eq_true] at accepted
    exact accepted.2
  | link b child ih =>
    simp only [findPos] at found
    split at found
    · rename_i q hit
      obtain ⟨rfl,rfl⟩ := found
      have accepted := find?_some hit
      simp only [and_eq_true,Option.any_eq_true] at accepted
      exact accepted.2
    · simp only [map_eq_some_iff] at found
      obtain ⟨⟨d,q⟩,hit,rfl,rfl⟩ := found
      exact ih d hit

theorem findPos_none (matching : Slot α → Bool) (c : Chain L α) (links : c.LinksFree)
    (missing : c.findPos matching = none) (s : Slot α) (member : s ∈ c.slots) : matching s = false := by
  induction c with
  | last b =>
    obtain ⟨p,held⟩ := (Bucket.mem_slots b s).mp member
    simp only [findPos,map_eq_none_iff] at missing
    have rejected := find?_eq_none.mp missing p (L.mem_positions p)
    simpa [held,numBucketPositions] using rejected
  | link b child ih =>
    simp only [findPos] at missing
    split at missing
    · simp at missing
    rename_i rejected
    rcases mem_add.mp member with here | below
    · obtain ⟨p,held⟩ := (Bucket.mem_slots b s).mp here
      have bound : p.val < numBucketPositions L true := by
        have usable : p ≠ L.lastPos := by
          intro same
          rw [same,links.1] at held
          simp at held
        have apart : p.val ≠ L.entriesPerBucket - 1 := fun equal => usable (Fin.ext equal)
        simp only [numBucketPositions,if_true]
        omega
      have skipped := find?_eq_none.mp rejected p (L.mem_positions p)
      simpa [held,bound] using skipped
    · exact ih links.2 (by simpa using missing) below

section Insertion
variable [Inhabited α]

theorem bucketConvertToChained_slots {s : Slot α} (held : b.slot L.lastPos = some s) :
    (bucketConvertToChained b).1.slots + (bucketConvertToChained b).2.slots = b.slots := by
  obtain ⟨_,hash,entry⟩ := (Bucket.slot_eq_some b _ s).mp held
  simp only [bucketConvertToChained,Bucket.moveEntry,hash,entry]
  rw [Bucket.slots_place _ _ _ _ (by simp [Bucket.slot,Bucket.isPositionFilled,Bucket.zeroed]),
    Bucket.slots_zeroed,Bucket.slots_clearPresence b L.lastPos s held,cons_zero,add_comm,singleton_add]

theorem findRoom_spec (c : Chain L α) (links : c.LinksFree) :
    c.findRoom.chain.LinksFree ∧ c.findRoom.chain.slots = c.slots ∧
      c.findRoom.chain.childCount = c.childCount + c.findRoom.added ∧
      c.findRoom.chain.Free c.findRoom.depth c.findRoom.pos := by
  induction c with
  | last b =>
    cases full : bucketIsFull b false with
    | false =>
      simp only [findRoom,full,false_eq_true,if_false]
      obtain ⟨p,free⟩ := exists_free_of_not_full full
      obtain ⟨q,found,_⟩ := b.firstFree_le free
      refine ⟨trivial,trivial,rfl,b,rfl,?_,by simp [chainedAt]⟩
      simpa [found] using b.firstFree_some found
    | true =>
      have filled : b.presence L.lastPos = true := by
        rw [slot_of_full full]
        simp [numBucketPositions]
      have held : b.slot L.lastPos = some ⟨b.hashes L.lastPos,b.entries L.lastPos⟩ := by
        simp [Bucket.slot,Bucket.isPositionFilled,filled]
      simp only [findRoom,full]
      refine ⟨⟨?_,trivial⟩,bucketConvertToChained_slots held,rfl,(bucketConvertToChained b).2,rfl,?_,by simp [chainedAt]⟩
      · simp [bucketConvertToChained,Bucket.moveEntry,Bucket.slot_clearPresence]
      have free : (bucketConvertToChained b).2.slot L.secondPos = none := by
        simp only [bucketConvertToChained,Bucket.moveEntry,Bucket.slot_place]
        rw [update_of_ne L.secondPos_ne_firstPos]
        simp [Bucket.slot,Bucket.isPositionFilled,Bucket.zeroed]
      obtain ⟨q,found,_⟩ := Bucket.firstFree_le _ free
      simpa [found] using Bucket.firstFree_some _ found
  | link b child ih =>
    cases full : bucketIsFull b true with
    | false =>
      simp only [findRoom,full,false_eq_true,if_false]
      obtain ⟨p,early,free⟩ := exists_free_of_not_full_chained full links.1
      obtain ⟨q,found,before⟩ := b.firstFree_le free
      refine ⟨links,trivial,rfl,b,rfl,?_,?_⟩
      · simpa [found] using b.firstFree_some found
      · intro _
        simpa [found] using ne_of_lt (lt_of_le_of_lt before early)
    | true =>
      obtain ⟨free,same,count,open_⟩ := ih links.2
      simp only [findRoom,full,if_true]
      refine ⟨⟨links.1,free⟩,by simp [slots,same],?_,open_⟩
      simp only [childCount]
      omega

end Insertion

theorem takeFromLast_spec {c : Chain L α} (links : c.LinksFree) :
    c.takeFromLast.2.LinksFree ∧ c.takeFromLast.2.childCount = c.childCount ∧
      c.slots = (c.takeFromLast.1.toList : Multiset (Slot α)) + c.takeFromLast.2.slots := by
  induction c with
  | last b =>
    simp only [takeFromLast]
    split
    · rename_i p found
      have held := b.ctz_some found
      refine ⟨trivial,rfl,?_⟩
      simp only [slots]
      rw [Bucket.slots_clearPresence b p _ held,held]
      simp
    · exact ⟨trivial,rfl,by simp⟩
  | link b child ih =>
    obtain ⟨free,count,taken⟩ := ih links.2
    refine ⟨⟨links.1,free⟩,by simp [takeFromLast,childCount,count],?_⟩
    simp only [slots]
    rw [taken]
    ac_rfl

theorem pruneLastBucket_slots (b l : Bucket L α) (lastFree : b.slot L.lastPos = none)
    (sparse : (l.isEmpty || l.popcount == 1) = true) : (pruneLastBucket b l).slots = b.slots + l.slots := by
  unfold pruneLastBucket
  split
  · rename_i p found
    have held := l.ctz_some found
    have single : l.popcount = 1 := by
      rcases or_eq_true _ _ ▸ sparse with empty | one
      · have none_left := l.slots_eq_zero_of_isEmpty empty
        rw [Bucket.slots_clearPresence l p _ held] at none_left
        simp at none_left
      · simpa using one
    have alone : (l.clearPresence p).slots = 0 := by
      rw [Bucket.popcount_eq_card,Bucket.slots_clearPresence l p _ held] at single
      simpa using single
    rw [Bucket.moveEntry,Bucket.slots_place b _ _ _ lastFree,Bucket.slots_clearPresence l p _ held,alone,
      cons_zero,add_comm,singleton_add]
  · rename_i missing
    simp [l.ctz_none missing]

/-- A chain with the number of buckets freed on the way to it: it holds `held`, and has `children` child buckets with
the freed ones. -/
structure Repacked (held : Multiset (Slot α)) (children : Nat) (result : Chain L α × Nat) : Prop where
  links : result.1.LinksFree
  same : result.1.slots = held
  count : result.1.childCount + result.2 = children

theorem Repacked.link {held : Multiset (Slot α)} {children : Nat} {result : Chain L α × Nat} (rest : Repacked held children result)
    (lastFree : b.slot L.lastPos = none) : Repacked (b.slots + held) (children + 1) (.link b result.1,result.2) := by
  refine ⟨⟨lastFree,rest.links⟩,congrArg _ rest.same,?_⟩
  rw [childCount,Nat.add_right_comm,rest.count]

theorem pruneIfSparse_spec (b : Bucket L α) (c : Chain L α) (lastFree : b.slot L.lastPos = none)
    (links : c.LinksFree) : Repacked (b.slots + c.slots) (c.childCount + 1) (pruneIfSparse b c) := by
  induction c generalizing b with
  | last l =>
    cases sparse : (l.isEmpty || l.popcount == 1) with
    | false =>
      simp only [pruneIfSparse,sparse]
      exact ⟨⟨lastFree,trivial⟩,rfl,rfl⟩
    | true =>
      simp only [pruneIfSparse,sparse]
      exact ⟨trivial,pruneLastBucket_slots b l lastFree sparse,rfl⟩
  | link next child ih => exact (ih next links.1 links.2).link lastFree

theorem fillBucketHole_spec (b : Bucket L α) (p : L.Pos) (c : Chain L α) (hole : b.slot p = none)
    (usable : p ≠ L.lastPos) (lastFree : b.slot L.lastPos = none) (links : c.LinksFree) :
    Repacked (b.slots + c.slots) (c.childCount + 1) (fillBucketHole b p c) := by
  obtain ⟨free,count,taken⟩ := takeFromLast_spec links
  unfold fillBucketHole
  split
  · rename_i s rest split
    simp only [split] at free count taken
    have stillFree : (b.place p s.hash s.entry).slot L.lastPos = none := by
      rw [Bucket.slot_place,update_of_ne (Ne.symm usable),lastFree]
    obtain ⟨pruned,same,freed⟩ := pruneIfSparse_spec _ rest stillFree free
    refine ⟨pruned,?_,by omega⟩
    rw [same,Bucket.slots_place b p _ _ hole,taken]
    simp
  · rename_i rest split
    simp only [split] at free count taken
    obtain ⟨pruned,same,freed⟩ := pruneIfSparse_spec b rest lastFree free
    refine ⟨pruned,?_,by omega⟩
    rw [same,taken]
    simp

theorem fillHoleAt_spec (c : Chain L α) (depth : Nat) (p : L.Pos) (links : c.LinksFree)
    (hole : c.slotAt depth p = none) (usable : p ≠ L.lastPos) : Repacked c.slots c.childCount (c.fillHoleAt depth p) := by
  induction c generalizing depth with
  | last b => cases depth <;> exact ⟨trivial,rfl,rfl⟩
  | link b child ih =>
    cases depth with
    | zero =>
      have unfilled : b.slot p = none := by simpa [slotAt,bucketAt] using hole
      exact fillBucketHole_spec b p child unfilled usable links.1 links.2
    | succ depth => exact (ih depth links.2 hole).link links.1

theorem fillHoles_spec (positions : List L.Pos) (usable : ∀ p ∈ positions, p ≠ L.lastPos) (b : Bucket L α)
    (c : Chain L α) (lastFree : b.slot L.lastPos = none) (links : c.LinksFree) :
    Repacked (b.slots + c.slots) (c.childCount + 1) (fillHoles positions b c) := by
  induction positions generalizing b c with
  | nil => exact ⟨⟨lastFree,links⟩,rfl,rfl⟩
  | cons p rest ih =>
    have restUsable : ∀ q ∈ rest, q ≠ L.lastPos := fun q member => usable q (by simp [member])
    unfold fillHoles
    split
    · exact ih restUsable b c lastFree links
    rename_i unfilled
    have hole : b.slot p = none := (Bucket.slot_eq_none b p).mpr (by simpa [Bucket.isPositionFilled] using unfilled)
    have step := fillBucketHole_spec b p c hole (usable p (by simp)) lastFree links
    split
    · rename_i result
      rwa [result] at step
    rename_i bucket child freed result
    rw [result] at step
    obtain ⟨free,same,count⟩ := step
    obtain ⟨filled,kept,total⟩ := ih restUsable bucket child free.1 free.2
    refine ⟨filled,kept.trans same,?_⟩
    simp only [childCount] at count ⊢
    omega

theorem fillBucketHoles_spec (b : Bucket L α) (c : Chain L α) (lastFree : b.slot L.lastPos = none)
    (links : c.LinksFree) : Repacked (b.slots + c.slots) (c.childCount + 1) (fillBucketHoles b c) := by
  unfold fillBucketHoles
  split
  · exact fillHoles_spec _ (fun p member => by simpa using (mem_filter.mp member).2) b c lastFree links
  · exact ⟨⟨lastFree,links⟩,rfl,rfl⟩

theorem compactLoop_spec (rounds : Nat) (c : Chain L α) (links : c.LinksFree) :
    Repacked c.slots c.childCount (compactLoop rounds c) := by
  induction rounds generalizing c with
  | zero => cases c <;> exact ⟨links,rfl,rfl⟩
  | succ rounds ih =>
    cases c with
    | last b => exact ⟨trivial,rfl,rfl⟩
    | link b child =>
      unfold compactLoop
      split
      · -- an empty bucket in the middle holds nothing, so dropping it keeps the slots
        rename_i middle
        cases child with
        | last next => simp [chained] at middle
        | link next rest =>
          have vacant : next.slots = 0 := next.slots_eq_zero_of_isEmpty (by simpa [chained,top] using middle)
          obtain ⟨free,same,count⟩ := ih (link b rest) ⟨links.1,links.2.2⟩
          refine ⟨free,by simpa [getChildBucket,slots,vacant] using same,?_⟩
          simp only [getChildBucket,childCount] at count ⊢
          omega
      · split
        · rename_i sparse
          cases child with
          | link next rest => simp [chained] at sparse
          | last next =>
            have few : (next.isEmpty || next.popcount == 1) = true := by simpa [chained,top] using sparse
            exact ⟨trivial,pruneLastBucket_slots b next links.1 few,rfl⟩
        · have step := fillBucketHoles_spec b child links.1 links.2
          split
          · rename_i result
            rwa [result] at step
          rename_i bucket rest freed result
          rw [result] at step
          obtain ⟨free,same,count⟩ := step
          obtain ⟨compacted,kept,total⟩ := ih rest free.2
          refine ⟨⟨free.1,compacted⟩,(congrArg _ kept).trans same,?_⟩
          simp only [childCount] at count ⊢
          omega

theorem compactBucketChain_spec (c : Chain L α) (links : c.LinksFree) : Repacked c.slots c.childCount c.compactBucketChain :=
  compactLoop_spec _ c links

end Chain

end ValkeyWasm.Hashtable
