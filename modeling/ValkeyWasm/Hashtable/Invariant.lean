import ValkeyWasm.Hashtable.Operations

/-! Well-formed tables and hash tables.
A table counts what it holds, keeps every slot in the chain its hash selects and
leaves the last position of chained buckets free. During rehashing the chains of
table 0 below the rehashing index are empty. -/
namespace ValkeyWasm.Hashtable
open Library.Occupancy List Option Nat Multiset

variable {L : Layout} {α κ : Type*}

def HashtableType.hashOf (ty : HashtableType α κ) (entry : α) : BitVec 64 := ty.hashKey (ty.entryGetKey entry)

def Homed (ty : HashtableType α κ) (exp : Int) (index : Nat) (s : Slot α) : Prop :=
  bucketIndex (ty.hashOf s.entry) exp = index ∧ s.hash = highBits (ty.hashOf s.entry)

theorem numBuckets_eq (exp : Int) (allocated : exp ≠ -1) : numBuckets exp = 2^exp.toNat := by
  simp [numBuckets,allocated]

theorem numBuckets_pos (exp : Int) (allocated : exp ≠ -1) : 0 < numBuckets exp := by
  rw [numBuckets_eq exp allocated]
  exact Nat.two_pow_pos _

theorem allocated_of_numBuckets_pos {exp : Int} (positive : 0 < numBuckets exp) : exp ≠ -1 := by
  rintro rfl
  simp [numBuckets] at positive

theorem bucketIndex_eq_mod (hash : BitVec 64) (exp : Int) (allocated : exp ≠ -1) :
    bucketIndex hash exp = hash.toNat % numBuckets exp := by
  simp only [bucketIndex,expToMask,allocated,numBuckets_eq exp allocated]
  exact and_two_pow_sub_one_eq_mod _ _

theorem bucketIndex_lt (hash : BitVec 64) (exp : Int) (allocated : exp ≠ -1) :
    bucketIndex hash exp < numBuckets exp := by
  rw [bucketIndex_eq_mod hash exp allocated]
  exact mod_lt _ (numBuckets_pos exp allocated)

theorem numBuckets_dvd {small large : Int} (low : 0 ≤ small) (le : small ≤ large) :
    numBuckets small ∣ numBuckets large := by
  rw [numBuckets_eq small (by omega),numBuckets_eq large (by omega)]
  exact pow_dvd_pow 2 (by omega)

theorem bucketIndex_ofIndex (hash : BitVec 64) {small large : Int} (low : 0 ≤ small) (le : small ≤ large)
    (high : large < 64) :
    bucketIndex (BitVec.ofNat 64 (bucketIndex hash large)) small = bucketIndex hash small := by
  have bound := bucketIndex_lt hash large (by omega)
  have fits : numBuckets large ≤ 2^64 := by
    rw [numBuckets_eq large (by omega)]
    exact Nat.pow_le_pow_right (by decide) (by omega)
  rw [bucketIndex_eq_mod _ small (by omega),bucketIndex_eq_mod hash small (by omega),BitVec.toNat_ofNat,
    mod_eq_of_lt (lt_of_lt_of_le bound fits),bucketIndex_eq_mod hash large (by omega)]
  exact mod_mod_of_dvd _ (numBuckets_dvd low le)

variable {ty : HashtableType α κ}

namespace Table

def slots (table : Table L α) : Multiset (Slot α) := (table.buckets.map Chain.slots).sum

def childTotal (table : Table L α) : Nat := (table.buckets.map Chain.childCount).sum

structure WF (ty : HashtableType α κ) (table : Table L α) : Prop where
  expLow : -1 ≤ table.bucketExp
  expHigh : table.bucketExp + 6 < L.sizeBits
  length : table.buckets.length = numBuckets table.bucketExp
  used : table.used = table.slots.card
  children : table.childBuckets = table.childTotal
  links : ∀ c ∈ table.buckets, c.LinksFree
  placed : ∀ index c, table.buckets[index]? = some c → ∀ s ∈ c.slots, Homed ty table.bucketExp index s

theorem reset_wf (ty : HashtableType α κ) : (reset : Table L α).WF ty where
  expLow := by simp [reset]
  expHigh := by cases L <;> simp [reset,Layout.sizeBits]
  length := by simp [reset,numBuckets]
  used := by simp [reset,slots]
  children := by simp [reset,childTotal]
  links := by simp [reset]
  placed := by simp [reset]

theorem exp_lt {ty : HashtableType α κ} {table : Table L α} (wf : table.WF ty) : table.bucketExp < 58 := by
  have high := wf.expHigh
  have width : (L.sizeBits : Int) ≤ 64 := by cases L <;> simp [Layout.sizeBits]
  omega

theorem mem_slots (table : Table L α) (s : Slot α) :
    s ∈ table.slots ↔ ∃ (index : Nat) (c : Chain L α), table.buckets[index]? = some c ∧ s ∈ c.slots := by
  rw [slots,Library.Occupancy.mem_sum]
  constructor
  · rintro ⟨_,member,inside⟩
    obtain ⟨c,located,rfl⟩ := mem_map.mp member
    obtain ⟨index,bound,rfl⟩ := getElem_of_mem located
    exact ⟨index,_,getElem?_eq_getElem bound,inside⟩
  · rintro ⟨index,c,located,inside⟩
    exact ⟨_,mem_map_of_mem (mem_of_getElem? located),inside⟩

@[simp] theorem setChain_setChain (table : Table L α) (index : Nat) (first second : Chain L α) :
    (table.setChain index first).setChain index second = table.setChain index second := by
  simp [setChain]

section Chains
variable [Inhabited α]

section
variable (table : Table L α) (index : Nat)
include table index

theorem chain_eq (c : Chain L α) (located : table.buckets[index]? = some c) :
    table.chain index = c := by
  simp [chain,located]

theorem getElem?_chain (bound : index < table.buckets.length) :
    table.buckets[index]? = some (table.chain index) := by
  simp [chain,bound]

theorem chain_mem (bound : index < table.buckets.length) :
    table.chain index ∈ table.buckets := mem_of_getElem? (getElem?_chain table index bound)

theorem chain_setChain (c : Chain L α) (bound : index < table.buckets.length) :
    (table.setChain index c).chain index = c := by
  simp [setChain,chain,bound]

theorem getElem_eq_chain (bound : index < table.buckets.length) :
    table.buckets[index] = table.chain index := by
  simp [chain,bound]

theorem slots_setChain (c : Chain L α) (bound : index < table.buckets.length) :
    (table.setChain index c).slots + (table.chain index).slots = table.slots + c.slots := by
  rw [← getElem_eq_chain table index bound]
  exact sum_map_set Chain.slots table.buckets index bound c

theorem childTotal_setChain (c : Chain L α) (bound : index < table.buckets.length) :
    (table.setChain index c).childTotal + (table.chain index).childCount = table.childTotal + c.childCount := by
  rw [← getElem_eq_chain table index bound]
  exact sum_map_set Chain.childCount table.buckets index bound c

end

theorem WF.exchange {table : Table L α} (wf : table.WF ty) (index : Nat)
    (bound : index < table.buckets.length) (c : Chain L α) (links : c.LinksFree)
    (placed : ∀ s ∈ c.slots, Homed ty table.bucketExp index s) (used children : Nat)
    (counted : used + (table.chain index).slots.card = table.used + c.slots.card)
    (linked : children + (table.chain index).childCount = table.childBuckets + c.childCount) :
    WF ty (⟨table.bucketExp,table.buckets.set index c,used,children,table.address⟩ : Table L α) where
  expLow := wf.expLow
  expHigh := wf.expHigh
  length := by simpa using wf.length
  used := by
    have total := congrArg Multiset.card (slots_setChain table index c bound)
    simp only [card_add] at total
    rw [wf.used] at counted
    change used = (table.setChain index c).slots.card
    omega
  children := by
    have total := childTotal_setChain table index c bound
    rw [wf.children] at linked
    change children = (table.setChain index c).childTotal
    omega
  links := by
    intro d member
    rcases mem_or_eq_of_mem_set member with old | rfl
    · exact wf.links d old
    · exact links
  placed := by
    intro i d located s inside
    rw [getElem?_set] at located
    split at located
    · rename_i same
      subst same
      simp only [some.injEq] at located
      exact placed s (located ▸ inside)
    · exact wf.placed i d located s inside

def insertSlot (table : Table L α) (index : Nat) (h2 : BitVec 8) (entry : α) : Table L α :=
  let room := (table.chain index).findRoom
  ⟨table.bucketExp,table.buckets.set index (room.chain.modifyBucket room.depth (·.place room.pos h2 entry)),
    table.used + 1,table.childBuckets + room.added,table.address⟩

theorem WF.insertSlot {table : Table L α} (wf : table.WF ty) (index : Nat)
    (bound : index < table.buckets.length) (h2 : BitVec 8) (entry : α)
    (homed : Homed ty table.bucketExp index ⟨h2,entry⟩) :
    (table.insertSlot index h2 entry).WF ty ∧ (table.insertSlot index h2 entry).slots = ⟨h2,entry⟩ ::ₘ table.slots := by
  have member := chain_mem table index bound
  obtain ⟨links,same,count,free⟩ := Chain.findRoom_spec (table.chain index) (wf.links _ member)
  have placed := Chain.slots_place _ _ _ h2 entry free
  constructor
  · apply wf.exchange index bound _ (Chain.linksFree_place _ _ _ h2 entry free links)
    · intro s inside
      rw [placed,Multiset.mem_cons,same] at inside
      rcases inside with rfl | old
      · exact homed
      · exact wf.placed index _ (getElem?_chain table index bound) s old
    · rw [placed,same,card_cons]
      omega
    · rw [Chain.childCount_modifyBucket]
      omega
  · have exchanged := slots_setChain table index
      ((table.chain index).findRoom.chain.modifyBucket (table.chain index).findRoom.depth
        (·.place (table.chain index).findRoom.pos h2 entry)) bound
    rw [placed,same] at exchanged
    apply add_right_cancel (b := (table.chain index).slots)
    rw [cons_add,← add_cons]
    exact exchanged

end Chains

end Table

def slots (ht : Hashtable L α) : Multiset (Slot α) := ht.table0.slots + ht.table1.slots

def MovedOut (table : Table L α) (r : Nat) : Prop :=
  ∀ (index : Nat) (c : Chain L α), index < r → table.buckets[index]? = some c → c.slots = 0 ∧ c.childCount = 0

structure Owned (ht : Hashtable L α) : Prop where
  first : ht.table0.bucketExp ≠ -1 → ht.table0.address < ht.nextAddress
  second : ht.table1.bucketExp ≠ -1 → ht.table1.address < ht.nextAddress
  apart : ht.rehashIdx ≠ none → ht.table0.address ≠ ht.table1.address

structure WF (ty : HashtableType α κ) (ht : Hashtable L α) : Prop where
  first : ht.table0.WF ty
  second : ht.table1.WF ty
  idle : ht.rehashIdx = none → ht.table1 = .reset
  running : ∀ r, ht.rehashIdx = some r → r < numBuckets ht.table0.bucketExp ∧ ht.table1.bucketExp ≠ -1 ∧
    ht.table0.bucketExp ≠ ht.table1.bucketExp ∧ MovedOut ht.table0 r
  distinct : (ht.slots.map (fun s => ty.entryGetKey s.entry)).Nodup
  owned : ht.Owned

theorem create_wf (ty : HashtableType α κ) : (create : Hashtable L α).WF ty where
  first := Table.reset_wf ty
  second := Table.reset_wf ty
  idle := fun _ => rfl
  running := by simp [create]
  distinct := by simp [create,slots,Table.slots,Table.reset]
  owned := by constructor <;> simp [create,Table.reset]

structure Framed (ht next : Hashtable L α) : Prop where
  pauseRehash : next.pauseRehash = ht.pauseRehash
  pauseAutoShrink : next.pauseAutoShrink = ht.pauseAutoShrink
  safeIterators : next.safeIterators = ht.safeIterators

variable {ht : Hashtable L α}

theorem Framed.trans {middle next : Hashtable L α} (first : Framed ht middle) (second : Framed middle next) : Framed ht next :=
  ⟨second.pauseRehash.trans first.pauseRehash,second.pauseAutoShrink.trans first.pauseAutoShrink,
    second.safeIterators.trans first.safeIterators⟩

/-- `next` is well formed, holds the slots of `ht` and differs from it only in how they
are spread over the tables. -/
structure Rearranged (ty : HashtableType α κ) (ht next : Hashtable L α) : Prop where
  wf : next.WF ty
  slots : next.slots = ht.slots
  allocated : ht.table0.bucketExp ≠ -1 → next.table0.bucketExp ≠ -1
  framed : Framed ht next

theorem Rearranged.refl (wf : ht.WF ty) : Rearranged ty ht ht :=
  ⟨wf,rfl,id,rfl,rfl,rfl⟩

theorem Rearranged.trans {middle next : Hashtable L α}
    (first : Rearranged ty ht middle) (second : Rearranged ty middle next) : Rearranged ty ht next :=
  ⟨second.wf,second.slots.trans first.slots,second.allocated ∘ first.allocated,first.framed.trans second.framed⟩

@[simp] theorem table_zero (ht : Hashtable L α) : ht.table 0 = ht.table0 := rfl

@[simp] theorem table_one (ht : Hashtable L α) : ht.table 1 = ht.table1 := rfl

@[simp] theorem modifyTable_zero (ht : Hashtable L α) (f : Table L α → Table L α) :
    ht.modifyTable 0 f = {ht with table0 := f ht.table0} := rfl

@[simp] theorem modifyTable_one (ht : Hashtable L α) (f : Table L α → Table L α) :
    ht.modifyTable 1 f = {ht with table1 := f ht.table1} := rfl

theorem WF.table (wf : ht.WF ty) (t : Fin 2) : (ht.table t).WF ty := by
  revert t
  exact Fin.forall_fin_two.mpr ⟨wf.first,wf.second⟩

section
variable (ht : Hashtable L α) (t : Fin 2) (f : Table L α → Table L α)

theorem modifyTable_modifyTable (g : Table L α → Table L α) :
    (ht.modifyTable t f).modifyTable t g = ht.modifyTable t (g ∘ f) := by
  revert t
  exact Fin.forall_fin_two.mpr ⟨rfl,rfl⟩

theorem modifyTable_eq {next : Table L α}
    (equal : f (ht.table t) = next) : ht.modifyTable t f = ht.modifyTable t (fun _ => next) := by
  subst equal
  revert t
  exact Fin.forall_fin_two.mpr ⟨rfl,rfl⟩

end

def insertTable (ht : Hashtable L α) : Fin 2 := if ht.isRehashing then 1 else 0

theorem WF.insertTable_allocated (wf : ht.WF ty)
    (allocated : ht.table0.bucketExp ≠ -1) : (ht.table ht.insertTable).bucketExp ≠ -1 := by
  cases running : ht.rehashIdx with
  | none => simpa [insertTable,isRehashing,running] using allocated
  | some r => simpa [insertTable,isRehashing,running] using (wf.running r running).2.1

theorem WF.insertIndex_lt (wf : ht.WF ty)
    (allocated : ht.table0.bucketExp ≠ -1) (hash : BitVec 64) :
    bucketIndex hash (ht.table ht.insertTable).bucketExp < (ht.table ht.insertTable).buckets.length := by
  rw [(wf.table _).length]
  exact bucketIndex_lt hash _ (wf.insertTable_allocated allocated)

section Insertion
variable [Inhabited α]

theorem findBucketForInsert_modifyBucket (ht : Hashtable L α) (hash : BitVec 64) (f : Bucket L α → Bucket L α)
    (bound : bucketIndex hash (ht.table ht.insertTable).bucketExp < (ht.table ht.insertTable).buckets.length) :
    (ht.findBucketForInsert hash).1.modifyBucket (ht.findBucketForInsert hash).2 f =
      ht.modifyTable ht.insertTable (fun table =>
        let index := bucketIndex hash table.bucketExp
        let room := (table.chain index).findRoom
        ⟨table.bucketExp,table.buckets.set index (room.chain.modifyBucket room.depth f),table.used,
          table.childBuckets + room.added,table.address⟩) := by
  have reread := fun c => Table.chain_setChain _ _ c bound
  simp only [modifyBucket,findBucketForInsert,modifyTable_modifyTable]
  refine (modifyTable_eq ht _ _ ?_).trans (modifyTable_eq ht _ _ rfl).symm
  simp only [insertTable,Function.comp_apply,Table.setChain,Table.chain,set_set] at reread ⊢
  rw [reread]

end Insertion

end ValkeyWasm.Hashtable
