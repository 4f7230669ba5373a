import ValkeyWasm.Kvstore.Booking
import ValkeyWasm.Hashtable.Refinement
import ValkeyWasm.Library.Fenwick
import Mathlib.Data.Nat.Factorization.Basic

/-! The counters of keys.
The hash tables that are not importing are counted by the key count, by the number of
non-empty hash tables and by the binary indexed tree, the importing ones by a count of
their own. -/
namespace ValkeyWasm.Kvstore
open Hashtable Library.Fenwick Function Option Bool Nat BitVec Finset

variable {L : Layout} {b : Nat} {α κ : Type*}

theorem lowestBit_lowest (i : Nat) (positive : 0 < i) (small : i < 2^32) : LowestBit i (lowestBit i) := by
  obtain ⟨k,-,⟨m,rfl⟩,rfl⟩ := exists_eq_two_pow_mul_odd (pos_iff_ne_zero.mp positive)
  refine ⟨k,m,rfl,?_⟩
  have inside : k < 32 := by
    have low : 2^k ≤ 2^k * (2 * m + 1) := Nat.le_mul_of_pos_right _ (by omega)
    exact (Nat.pow_lt_pow_iff_right (by omega)).mp (low.trans_lt small)
  have bits : ∀ j, j < 32 → (BitVec.ofNat 32 (2^k * (2 * m + 1))).getLsbD j = (decide (k ≤ j) && (2 * m + 1).testBit (j - k)) := by
    intro j below
    rw [getLsbD_ofNat,testBit_two_pow_mul]
    simp [below]
  have single : BitVec.ofNat 32 (2^k * (2 * m + 1)) &&& -BitVec.ofNat 32 (2^k * (2 * m + 1)) = BitVec.twoPow 32 k := by
    apply eq_of_getLsbD_eq
    intro j below
    rw [getLsbD_and,getLsbD_neg,getLsbD_twoPow,bits j below]
    -- the complement keeps the bits above the lowest one and the carry stops there
    rcases Nat.lt_trichotomy j k with before | rfl | after
    · simp [Nat.not_le_of_lt before,before.ne']
    · have none_below : ¬∃ i < j, (BitVec.ofNat 32 (2^j * (2 * m + 1))).getLsbD i = true := by
        rintro ⟨i,early,set⟩
        rw [bits i (by omega)] at set
        simp [Nat.not_le_of_lt early] at set
      simp [none_below,below]
    · have some_below : ∃ i < j, (BitVec.ofNat 32 (2^k * (2 * m + 1))).getLsbD i = true := by
        refine ⟨k,after,?_⟩
        rw [bits k inside]
        simp
      simp [some_below,after.ne,below]
  rw [lowestBit,single,toNat_twoPow,mod_eq_of_lt (Nat.pow_lt_pow_right (by omega) inside)]

theorem plural_of (several : b ≠ 0) : ¬(2^b : Nat) = 1 := by simpa using several

theorem word_of (small : b ≤ 16) : 2^b < 2^32 := (Nat.pow_le_pow_right (by omega) small).trans_lt (by norm_num : 2^16 < 2^32)

variable {f : Nat → Int}

theorem readIndex_spec {index : Nat → Int} {n : Nat} (small : n < 2^32) (indexes : Indexes lowestBit n index f) (rounds d : Nat)
    (enough : d ≤ rounds) (bound : d ≤ n) (sum : Int) : readIndex index rounds d sum = sum + ∑ j ∈ Finset.range d, f j := by
  induction rounds generalizing d sum with
  | zero =>
    obtain rfl : d = 0 := by omega
    simp [readIndex]
  | succ rounds ih =>
    unfold readIndex
    split
    · rename_i positive
      have lowest := (lowestBit_lowest d positive (by omega)).pos
      rw [ih _ (by omega) (by omega),indexes.sum_range positive bound,add_assoc]
    · obtain rfl : d = 0 := by omega
      simp

theorem addIndex_spec {n : Nat} {delta : Int} (small : n < 2^32) (nonneg : ∀ j, 0 ≤ f j) (rounds d : Nat)
    (index : Nat → Int) (positive : 0 < d) (some_left : 0 < rounds) (enough : n + 1 < rounds + d)
    (owing : Owing lowestBit n index f delta d) : ∃ next, addIndex n delta rounds d index = some next ∧ Indexes lowestBit n next f := by
  induction rounds generalizing d index with
  | zero => omega
  | succ rounds ih =>
    unfold addIndex
    split
    · rename_i past
      exact ⟨index,rfl,owing.done past⟩
    have bound : d ≤ n := by omega
    have lowest := lowestBit_lowest d positive (by omega)
    have sum : 0 ≤ index d + delta := by
      rw [owing.here lowest positive bound]
      exact sum_nonneg (fun j _ => nonneg j)
    rw [if_neg (by omega)]
    have paid := owing.step (fun i above below => lowestBit_lowest i above (by omega)) positive bound
    have step := lowest.pos
    exact ih _ _ (by omega) (by omega) (by omega) paid

def values (v : Fin (2^b) → Nat) (j : Nat) : Int := if h : j < 2^b then v ⟨j,h⟩ else 0

theorem values_nonneg (v : Fin (2^b) → Nat) (j : Nat) : 0 ≤ values v j := by
  unfold values
  split <;> omega

theorem values_update (v : Fin (2^b) → Nat) (didx : Fin (2^b)) (n : Nat) :
    values (update v didx n) = update (values v) didx (n : Int) := by
  funext j
  by_cases same : j = didx
  · subst same
    simp [values]
  rw [update_of_ne same]
  unfold values
  split
  · rw [update_of_ne (fun equal => same (by rw [← equal]))]
  · rfl

theorem sum_values (v : Fin (2^b) → Nat) (didx : Fin (2^b)) :
    ∑ j ∈ Finset.range (didx + 1), values v j = ∑ i, if i ≤ didx then (v i : Int) else 0 := by
  have upTo : ∑ j ∈ Finset.range (didx + 1), values v j = ∑ j ∈ Finset.range (2^b), if j ≤ didx then values v j else 0 := by
    rw [← sum_filter]
    congr 1
    ext j
    simp only [mem_range,mem_filter]
    omega
  rw [upTo,sum_range]
  simp [values]

structure Tallies (kvs : Kvstore L b α) (v : Fin (2^b) → Nat) : Prop where
  keyCount : kvs.keyCount = ∑ i, (v i : Int)
  nonEmpty : kvs.nonEmptyHashtables = ∑ i, if v i = 0 then (0 : Int) else 1
  index : b ≠ 0 → Indexes lowestBit (2^b) kvs.hashtableSizeIndex (values v)

def Members (ty : KvstoreType α κ) (kvs : Kvstore L b α) (importing : Fin (2^b) → Bool) : Prop :=
  ∃ map, Simulates ty.intHashtableType 0 kvs.importing map ∧ ∀ didx : Fin (2^b), (map didx).isSome = importing didx

structure Counts (ty : KvstoreType α κ) (kvs : Kvstore L b α) (size : Fin (2^b) → Nat) (importing : Fin (2^b) → Bool) : Prop where
  members : Members ty kvs importing
  visible : Tallies kvs (fun i => if importing i then 0 else size i)
  hidden : kvs.importingKeyCount = ∑ i, if importing i then (size i : Int) else 0

structure SameTables (kvs next : Kvstore L b α) : Prop where
  flags : next.flags = kvs.flags
  hashtables : next.hashtables = kvs.hashtables
  rehashing : next.rehashing = kvs.rehashing
  bucketCount : next.bucketCount = kvs.bucketCount
  overhead : next.overheadHashtableRehashing = kvs.overheadHashtableRehashing
  nextNode : next.nextNode = kvs.nextNode
  releasedBuckets : next.releasedBuckets = kvs.releasedBuckets
  strandedBuckets : next.strandedBuckets = kvs.strandedBuckets

variable {next : Kvstore L b α}

theorem SameTables.get {kvs : Kvstore L b α} (same : SameTables kvs next) : next.kvstoreGetHashtable = kvs.kvstoreGetHashtable := by
  ext1 didx
  rw [kvstoreGetHashtable,same.hashtables,kvstoreGetHashtable]

theorem SameTables.booked {kvs : Kvstore L b α} (same : SameTables kvs next) (booked : Booked kvs kvs.shapes) :
    Booked next next.shapes := by
  have shapes : next.shapes = kvs.shapes := congrArg (fun get i => (get i).elim noShape Hashtable.shape) same.get
  obtain ⟨⟨buckets,overhead,kept⟩,linked,listed,unlisted,fresh,nodes⟩ := booked
  rw [shapes]
  refine ⟨⟨?_,?_,?_⟩,?_,?_,?_,?_,?_⟩
  · rw [same.bucketCount,same.releasedBuckets]; exact buckets
  · rw [same.overhead,same.strandedBuckets]; exact overhead
  · rw [same.flags,same.releasedBuckets]; exact kept
  · rw [same.rehashing,same.hashtables]; exact linked
  · rw [same.rehashing,same.hashtables]; exact listed
  · rw [same.hashtables]; exact unlisted
  · rw [same.rehashing,same.nextNode]; exact fresh
  · rw [same.rehashing]; exact nodes

theorem nonEmptyChange_eq {before after : Nat} {delta : Int} (grown : (after : Int) = before + delta) :
    nonEmptyChange after delta = (if after = 0 then 0 else 1) - (if before = 0 then 0 else 1) := by
  unfold nonEmptyChange
  split_ifs <;> omega

section Importing
variable {ty : KvstoreType α κ} {kvs : Kvstore L b α} {importing : Fin (2^b) → Bool}

theorem isImporting_spec (members : Members ty kvs importing) (env : Env) (didx : Fin (2^b)) :
    (kvs.kvstoreIsImporting ty env didx).2 = importing didx ∧ Members ty (kvs.kvstoreIsImporting ty env didx).1 importing := by
  obtain ⟨map,sim,marked⟩ := members
  obtain ⟨next,found⟩ := findRef_simulates sim rfl env (didx : Nat)
  refine ⟨?_,map,next,marked⟩
  rw [← marked didx,← found]
  rfl

theorem isImporting_sameTables (env : Env) (didx : Fin (2^b)) : SameTables kvs (kvs.kvstoreIsImporting ty env didx).1 :=
  ⟨rfl,rfl,rfl,rfl,rfl,rfl,rfl,rfl⟩

variable {didx : Fin (2^b)}

theorem cumulativeKeyCountAdd_visible (members : Members ty kvs importing) {v : Fin (2^b) → Nat} (tallies : Tallies kvs v)
    (small : b ≤ 16) (env : Env) (plain : importing didx = false) {ht : Hashtable L α}
    (present : kvs.kvstoreGetHashtable didx = some ht) (delta : Int) (grown : (ht.size : Int) = v didx + delta) :
    ∃ next, kvs.cumulativeKeyCountAdd ty env didx delta = some next ∧ Members ty next importing ∧
      Tallies next (update v didx ht.size) ∧ next.importingKeyCount = kvs.importingKeyCount ∧ SameTables kvs next := by
  obtain ⟨answer,nextMembers⟩ := isImporting_spec members env didx
  have asked : (kvs.kvstoreIsImporting ty env didx).1.kvstoreGetHashtable didx = some ht := present
  have keyCount : kvs.keyCount + delta = ∑ i, (update v didx ht.size i : Int) := by
    rw [sum_update (fun _ (n : Nat) => (n : Int)),tallies.keyCount,grown]
    ring
  have nonEmpty : kvs.nonEmptyHashtables + nonEmptyChange ht.size delta =
      ∑ i, if update v didx ht.size i = 0 then (0 : Int) else 1 := by
    rw [sum_update (fun _ (n : Nat) => if n = 0 then (0 : Int) else 1),tallies.nonEmpty,nonEmptyChange_eq grown]
    ring
  unfold cumulativeKeyCountAdd
  simp only [answer,plain,false_eq_true,if_false,asked]
  by_cases single : 2^b = 1
  · rw [if_pos single]
    refine ⟨_,rfl,nextMembers,⟨keyCount,nonEmpty,?_⟩,rfl,rfl,rfl,rfl,rfl,rfl,rfl,rfl,rfl⟩
    intro several
    exact absurd single (plural_of several)
  rw [if_neg single]
  have several : b ≠ 0 := by rintro rfl; exact single rfl
  have owing := (tallies.index several).owing delta (didx : Nat)
  have value : values v didx + delta = (ht.size : Int) := by simp [values,grown]
  rw [value,← values_update] at owing
  obtain ⟨index,added,indexes⟩ := addIndex_spec (word_of small) (values_nonneg _) (2^b + 1) (didx + 1)
    kvs.hashtableSizeIndex (Nat.succ_pos _) (Nat.succ_pos _) (Nat.lt_add_of_pos_right (Nat.succ_pos _)) owing
  refine ⟨{(kvs.kvstoreIsImporting ty env didx).1 with
    keyCount := kvs.keyCount + delta
    nonEmptyHashtables := kvs.nonEmptyHashtables + nonEmptyChange ht.size delta
    hashtableSizeIndex := index},?_,nextMembers,⟨keyCount,nonEmpty,fun _ => indexes⟩,rfl,rfl,rfl,rfl,rfl,rfl,rfl,rfl,rfl⟩
  rw [map_eq_some_iff]
  exact ⟨index,added,rfl⟩

variable {size : Fin (2^b) → Nat}

theorem cumulativeKeyCountAdd_spec (counts : Counts ty kvs size importing) (small : b ≤ 16) (env : Env) {ht : Hashtable L α} (present : kvs.kvstoreGetHashtable didx = some ht) {delta : Int}
    (grown : (ht.size : Int) = size didx + delta) :
    ∃ next, kvs.cumulativeKeyCountAdd ty env didx delta = some next ∧ Counts ty next (update size didx ht.size) importing ∧
      SameTables kvs next := by
  obtain ⟨members,visible,hidden⟩ := counts
  cases marked : importing didx with
  | true =>
    obtain ⟨answer,nextMembers⟩ := isImporting_spec members env didx
    refine ⟨{(kvs.kvstoreIsImporting ty env didx).1 with importingKeyCount := kvs.importingKeyCount + delta},?_,
      ⟨nextMembers,?_,?_⟩,rfl,rfl,rfl,rfl,rfl,rfl,rfl,rfl⟩
    · unfold cumulativeKeyCountAdd
      simp only [answer,marked]
      rfl
    · have unseen := update_eq_self didx (fun i => if importing i = true then 0 else size i)
      rw [if_pos marked] at unseen
      simp only [apply_update fun i (n : Nat) => if importing i = true then 0 else n,if_pos marked,unseen]
      exact ⟨visible.keyCount,visible.nonEmpty,visible.index⟩
    rw [sum_update (fun i (n : Nat) => if importing i = true then (n : Int) else 0)]
    rw [hidden,marked,grown]
    simp only [if_true]
    ring
  | false =>
    obtain ⟨next,added,nextMembers,tallies,same,tables⟩ := cumulativeKeyCountAdd_visible members visible small env marked present
      delta (by simpa [marked] using grown)
    refine ⟨next,added,⟨nextMembers,?_,?_⟩,tables⟩
    · simp only [apply_update fun i (n : Nat) => if importing i = true then 0 else n,marked]
      exact tallies
    · rw [same,hidden,sum_update (fun i (n : Nat) => if importing i = true then (n : Int) else 0)]
      simp [marked]

theorem Members.add (members : Members ty kvs importing) (env : Env) (didx : Fin (2^b)) :
    Members ty {kvs with importing := (kvs.importing.add ty.intHashtableType env didx).1} (update importing didx true) := by
  obtain ⟨map,sim,marked⟩ := members
  obtain ⟨_,next⟩ := addOrFind_simulates sim rfl env (didx : Nat)
  refine ⟨_,next,?_⟩
  intro i
  rw [show ty.intHashtableType.entryGetKey (didx : Nat) = didx from rfl]
  by_cases same : i = didx
  · subst same
    rw [update_self]
    split
    · assumption
    · rw [update_self]
      rfl
  · rw [update_of_ne same,← marked i]
    split
    · rfl
    · rw [update_of_ne (fun equal => same (Fin.ext equal))]

theorem Members.delete (members : Members ty kvs importing) (env : Env) (didx : Fin (2^b)) :
    (kvs.importing.delete ty.intHashtableType env didx).2 = importing didx ∧
      Members ty {kvs with importing := (kvs.importing.delete ty.intHashtableType env didx).1} (update importing didx false) := by
  obtain ⟨map,sim,marked⟩ := members
  obtain ⟨reply,next⟩ := removal_simulates sim (pop_spec sim.wf rfl env (didx : Nat))
  refine ⟨by rw [← marked didx,← reply]; rfl,_,next,?_⟩
  intro i
  by_cases same : i = didx
  · subst same
    simp
  · rw [update_of_ne same,← marked i,update_of_ne (fun equal => same (Fin.ext equal))]

theorem Counts.relabel (counts : Counts ty kvs size importing)
    {mark : Bool} (still : size didx = 0 ∨ importing didx = mark) (members : Members ty next (update importing didx mark))
    (keyCount : next.keyCount = kvs.keyCount) (nonEmpty : next.nonEmptyHashtables = kvs.nonEmptyHashtables)
    (index : next.hashtableSizeIndex = kvs.hashtableSizeIndex) (hidden : next.importingKeyCount = kvs.importingKeyCount) :
    Counts ty next size (update importing didx mark) := by
  have same : ∀ i, size i = 0 ∨ update importing didx mark i = importing i := by
    intro i
    by_cases here : i = didx
    · subst here
      rw [update_self]
      exact still.imp_right Eq.symm
    · exact Or.inr (update_of_ne here _ _)
  have visible : (fun i => if update importing didx mark i = true then 0 else size i) =
      fun i => if importing i = true then 0 else size i := by
    funext i
    rcases same i with none | equal
    · simp [none]
    · rw [equal]
  refine ⟨members,?_,?_⟩
  · rw [visible]
    exact ⟨by rw [keyCount]; exact counts.visible.keyCount,by rw [nonEmpty]; exact counts.visible.nonEmpty,
      by rw [index]; exact counts.visible.index⟩
  rw [hidden,counts.hidden]
  apply sum_congr rfl
  intro i _
  rcases same i with none | equal
  · simp [none]
  · rw [equal]

theorem setIsImporting_spec (counts : Counts ty kvs kvs.kvstoreHashtableSize importing) (small : b ≤ 16) (env : Env)
    {isImporting : Bool} (promised : isImporting = true → kvs.kvstoreHashtableSize didx = 0) :
    ∃ next, kvs.kvstoreSetIsImporting ty env didx isImporting = some next ∧
      Counts ty next kvs.kvstoreHashtableSize (update importing didx isImporting) ∧ SameTables kvs next := by
  cases isImporting with
  | true =>
    have vacant := promised rfl
    refine ⟨{kvs with importing := (kvs.importing.add ty.intHashtableType env didx).1},by simp [kvstoreSetIsImporting,vacant],?_,
      rfl,rfl,rfl,rfl,rfl,rfl,rfl,rfl⟩
    exact counts.relabel (Or.inl vacant) (counts.members.add env didx) rfl rfl rfl rfl
  | false =>
    obtain ⟨answer,members⟩ := counts.members.delete env didx
    by_cases still : kvs.kvstoreHashtableSize didx = 0 ∨ importing didx = false
    · refine ⟨{kvs with importing := (kvs.importing.delete ty.intHashtableType env didx).1},?_,?_,rfl,rfl,rfl,rfl,rfl,rfl,rfl,rfl⟩
      · rcases still with vacant | plain
        · simp [kvstoreSetIsImporting,vacant]
        · simp [kvstoreSetIsImporting,answer,plain]
      · exact counts.relabel still members rfl rfl rfl rfl
    · obtain ⟨filled,marked⟩ := not_or.mp still
      rw [not_eq_false] at marked
      obtain ⟨ht,found⟩ : ∃ ht, kvs.kvstoreGetHashtable didx = some ht := by
        rcases found : kvs.kvstoreGetHashtable didx with _ | ht
        · simp [kvstoreHashtableSize,found] at filled
        · exact ⟨ht,rfl⟩
      have size : kvs.kvstoreHashtableSize didx = ht.size := by rw [kvstoreHashtableSize,found,elim_some]
      have tallies : Tallies {kvs with importing := (kvs.importing.delete ty.intHashtableType env didx).1}
          (fun i => if importing i = true then 0 else kvs.kvstoreHashtableSize i) :=
        ⟨counts.visible.keyCount,counts.visible.nonEmpty,counts.visible.index⟩
      obtain ⟨next,added,nextMembers,visible,hidden,same⟩ := cumulativeKeyCountAdd_visible members tallies small env
        (update_self _ _ _) found (kvs.kvstoreHashtableSize didx : Int) (by simp [marked,size])
      refine ⟨{next with importingKeyCount := next.importingKeyCount - kvs.kvstoreHashtableSize didx},?_,⟨nextMembers,?_,?_⟩,
        same.flags,same.hashtables,same.rehashing,same.bucketCount,same.overhead,same.nextNode,same.releasedBuckets,same.strandedBuckets⟩
      · simp only [kvstoreSetIsImporting,false_eq_true,if_false,answer,marked,Bool.true_and,bne_iff_ne,ne_eq,filled,
          not_false_eq_true,if_true,added,map_some]
      · simp only [apply_update fun i m => if m = true then 0 else kvs.kvstoreHashtableSize i,size]
        exact ⟨visible.keyCount,visible.nonEmpty,visible.index⟩
      rw [sum_update (fun i m => if m = true then (kvs.kvstoreHashtableSize i : Int) else 0),hidden]
      rw [counts.hidden,marked]
      simp only [if_true,false_eq_true,if_false]
      ring

end Importing

end ValkeyWasm.Kvstore
