import ValkeyWasm.Vset.Insertion

/-! The invariant of a volatile set, and that adding an entry keeps it. -/
namespace ValkeyWasm.Vset
open Library.Shelves List Option

variable {E : Type}

/-- A vector of the top level is in the order of expiry, a hashtable is only found in a radix
tree, and a radix tree has more than one entry. -/
def Kept (ex : E → Int) : VolatileSet E → Prop
  | .plain .none => True
  | .plain (.single entry) => Accepted (ex entry)
  | .plain (.vector pv) => (Bucket.vector pv).Sound ∧ pv.Nodup ∧ (∀ e ∈ pv, Accepted (ex e)) ∧ pv.Pairwise fun a b => ex a ≤ ex b
  | .plain (.hashtable _) => False
  | .rax buckets => Filed ex buckets ∧ 2 ≤ (contents Bucket.entries buckets).length

section Basics
variable {ex : E → Int} {set : VolatileSet E}

theorem Kept.accepted (kept : Kept ex set) : ∀ e ∈ set.entries, Accepted (ex e) := by
  intro e member
  match set, kept with
  | .plain (.single entry), accepted => rwa [mem_singleton.mp member]
  | .plain (.vector pv), ⟨_,_,accepted,_⟩ => exact accepted e member
  | .rax buckets, ⟨filed,_⟩ => exact filed.accepted member

theorem Kept.nodup (kept : Kept ex set) : set.entries.Nodup := by
  match set, kept with
  | .plain .none, _ => exact nodup_nil
  | .plain (.single entry), _ => exact nodup_singleton entry
  | .plain (.vector pv), ⟨_,nodup,_,_⟩ => exact nodup
  | .rax buckets, ⟨filed,_⟩ => exact filed.nodup

theorem Kept.congr {ex' : E → Int} (kept : Kept ex set) (same : ∀ e ∈ set.entries, ex' e = ex e) : Kept ex' set := by
  match set, kept with
  | .plain .none, _ => trivial
  | .plain (.single entry), accepted =>
    have equal := same entry (mem_singleton_self entry)
    exact show Accepted (ex' entry) from equal ▸ accepted
  | .plain (.vector pv), ⟨sound,nodup,accepted,sorted⟩ =>
    refine ⟨sound,nodup,fun e member => same e member ▸ accepted e member,sorted.imp_of_mem fun {a b} first second le => ?_⟩
    rw [same a first,same b second]
    exact le
  | .rax buckets, ⟨filed,many⟩ => exact ⟨filed.congr same,many⟩

theorem Kept.vsetIsEmpty_iff (kept : Kept ex set) : vsetIsEmpty set = true ↔ set.entries = [] := by
  match set, kept with
  | .plain .none, _ => simp [vsetIsEmpty,VolatileSet.entries,Bucket.entries]
  | .plain (.single entry), _ => simp [vsetIsEmpty,VolatileSet.entries,Bucket.entries]
  | .plain (.vector pv), ⟨sound,_⟩ =>
    have nonempty : pv ≠ [] := sound.nonempty
    simp [vsetIsEmpty,VolatileSet.entries,Bucket.entries,nonempty]
  | .rax buckets, ⟨_,many⟩ =>
    have nonempty : contents Bucket.entries buckets ≠ [] := ne_nil_of_length_pos (by omega)
    simp [vsetIsEmpty,VolatileSet.entries,nonempty]

end Basics

section Add
variable {ex : E → Int} {pv : List E} {expiry : Int}

theorem insertPositionLoop_spec (sorted : pv.Pairwise fun a b => ex a ≤ ex b) (rounds left right : Nat)
    (enough : right < left + rounds) (ordered : left ≤ right) (inside : right ≤ pv.length)
    (low : ∀ i e, i < left → pv[i]? = some e → ex e < expiry) (high : ∀ i e, right ≤ i → pv[i]? = some e → expiry ≤ ex e) :
    ∃ pos, insertPositionLoop ex pv expiry rounds left right = some pos ∧ pos ≤ pv.length ∧
      (∀ i e, i < pos → pv[i]? = some e → ex e < expiry) ∧ ∀ i e, pos ≤ i → pv[i]? = some e → expiry ≤ ex e := by
  induction rounds generalizing left right with
  | zero => omega
  | succ rounds ih =>
    rw [insertPositionLoop]
    by_cases open' : left < right
    · have bound : (left + right) / 2 < pv.length := by omega
      have there := getElem?_eq_getElem bound
      rw [if_pos open']
      dsimp only
      rw [there,bind_eq_bind,bind_some]
      split
      · rename_i le
        refine ih left _ (by omega) (by omega) (by omega) low fun i e beyond found => ?_
        exact le.trans (sorted_le sorted beyond there found)
      · rename_i gt
        refine ih _ right (by omega) (by omega) inside (fun i e before found => ?_) high
        exact (sorted_le sorted (by omega) found there).trans_lt (not_le.mp gt)
    · rw [if_neg open']
      have equal : left = right := by omega
      subst equal
      exact ⟨left,rfl,inside,low,high⟩

theorem findInsertPosition_spec (expiry : Int) (sorted : pv.Pairwise fun a b => ex a ≤ ex b) :
    ∃ pos, findInsertPosition ex pv expiry = some pos ∧ pos ≤ pv.length ∧
      (∀ i e, i < pos → pv[i]? = some e → ex e < expiry) ∧ ∀ i e, pos ≤ i → pv[i]? = some e → expiry ≤ ex e :=
  insertPositionLoop_spec sorted _ 0 pv.length (by omega) (Nat.zero_le _) le_rfl (fun i _ before => by omega) fun i e beyond found => by
    obtain ⟨bound,-⟩ := List.getElem?_eq_some_iff.mp found
    omega

theorem insertIdx_eq_take_drop {pos : Nat} (entry : E) (inside : pos ≤ pv.length) :
    pv.insertIdx pos entry = pv.take pos ++ entry :: pv.drop pos := by
  induction pv generalizing pos with
  | nil => rw [Nat.le_zero.mp inside]; rfl
  | cons a pv ih =>
    cases pos with
    | zero => rfl
    | succ pos => rw [insertIdx_succ_cons,ih (Nat.le_of_succ_le_succ inside),take_succ_cons,drop_succ_cons,cons_append]

theorem sorted_insertIdx {pos : Nat} {entry : E} (sorted : pv.Pairwise fun a b => ex a ≤ ex b) (inside : pos ≤ pv.length)
    (low : ∀ i e, i < pos → pv[i]? = some e → ex e < ex entry) (high : ∀ i e, pos ≤ i → pv[i]? = some e → ex entry ≤ ex e) :
    (pv.insertIdx pos entry).Pairwise fun a b => ex a ≤ ex b := by
  have front : ∀ a ∈ pv.take pos, ex a ≤ ex entry := by
    intro a member
    obtain ⟨i,-,rfl⟩ := mem_take_iff_getElem.mp member
    exact (low i _ (by omega) (getElem?_eq_getElem (by omega))).le
  have back : ∀ b ∈ pv.drop pos, ex entry ≤ ex b := by
    intro b member
    obtain ⟨i,-,rfl⟩ := mem_drop_iff_getElem.mp member
    exact high (pos + i) _ (Nat.le_add_right pos i) (getElem?_eq_getElem (by omega))
  rw [insertIdx_eq_take_drop entry inside]
  refine pairwise_append.mpr ⟨sorted.sublist (take_sublist pos pv),
    pairwise_cons.mpr ⟨back,sorted.sublist (drop_sublist pos pv)⟩,fun a first b second => ?_⟩
  rcases mem_cons.mp second with rfl | later
  · exact front a first
  · exact (front a first).trans (back b later)

theorem filed_vector {first last : E} (sound : (Bucket.vector pv).Sound) (nodup : pv.Nodup) (accepted : ∀ e ∈ pv, Accepted (ex e))
    (sorted : pv.Pairwise fun a b => ex a ≤ ex b) (low : pv[0]? = some first) (high : pv[pv.length - 1]? = some last)
    (window : getMaxBucketTs (ex first) = getMaxBucketTs (ex last)) :
    Filed ex [(encodeNewExpiryBucketKey (ex last),.vector pv)] := by
  have stampFirst := getMaxBucketTs_eq (accepted first (mem_of_getElem? low))
  have stampLast := getMaxBucketTs_eq (accepted last (mem_of_getElem? high))
  have ⟨zero,top⟩ := accepted last (mem_of_getElem? high)
  have code : (encodeNewExpiryBucketKey (ex last) : Int) = getMaxBucketTs (ex last) := encodeExpiryKey_eq (by omega) (by omega)
  have between : ∀ e ∈ pv, ex first ≤ ex e ∧ ex e ≤ ex last := by
    intro e member
    obtain ⟨i,there⟩ := getElem?_of_mem member
    obtain ⟨bound,-⟩ := List.getElem?_eq_some_iff.mp there
    exact ⟨sorted_le sorted (Nat.zero_le i) low there,sorted_le sorted (by omega) there high⟩
  have none' : Filed ex ([] ++ []) := filed_nil
  refine none'.insert (x := (_,.vector pv)) sound (by dsimp only; omega) (fun e member => ?_) nofun nodup
  have stamp := getMaxBucketTs_eq (accepted e member)
  have bounds := between e member
  exact ⟨accepted e member,by dsimp only; omega,by dsimp only; omega,nofun,not_mem_nil⟩

variable [DecidableEq E]

theorem insert_all (choices : Choices E) {moved : List E} (nodup : moved.Nodup) (accepted : ∀ e ∈ moved, Accepted (ex e)) :
    ∃ buckets, moved.foldlM (fun buckets moved => insertToBucketRax choices ex buckets moved (ex moved)) [] = some buckets ∧
      Filed ex buckets ∧ buckets.entries.Perm moved := by
  refine Library.Loops.foldlM_invariant (fun done buckets => Filed ex buckets ∧ (Rax.entries buckets).Perm done)
    (fun done e rest buckets whole before => ?_) ⟨filed_nil,List.Perm.refl _⟩
  obtain ⟨filed,perm⟩ := before
  have absent : e ∉ Rax.entries buckets := fun member => by
    rw [whole] at nodup
    exact (nodup_append.mp nodup).2.2 e (perm.mem_iff.mp member) e mem_cons_self rfl
  obtain ⟨next,step,filed',more⟩ := insertToBucketRax_spec choices filed absent (accepted e (by simp [whole]))
  exact ⟨next,step,filed',more.trans ((perm.cons e).trans (perm_append_singleton e done).symm)⟩

theorem vsetAddEntry_spec (choices : Choices E) {set : VolatileSet E} {entry : E} (kept : Kept ex set) (fresh : entry ∉ set.entries)
    (accepted : Accepted (ex entry)) :
    ∃ set', vsetAddEntry choices ex set entry = some set' ∧ Kept ex set' ∧ set'.entries.Perm (entry :: set.entries) := by
  -- once the entries are in a tree
  have finish : ∀ buckets, Filed ex buckets → buckets.entries.Perm set.entries → set.entries ≠ [] →
      ∃ set', (insertToBucketRax choices ex buckets entry (ex entry)).map VolatileSet.rax = some set' ∧ Kept ex set' ∧
        set'.entries.Perm (entry :: set.entries) := by
    intro buckets filed perm nonempty
    obtain ⟨buckets',step,filed',more⟩ := insertToBucketRax_spec choices filed (fun member => fresh (perm.mem_iff.mp member)) accepted
    have all := more.trans (perm.cons entry)
    refine ⟨.rax buckets',by rw [step]; rfl,⟨filed',?_⟩,all⟩
    have size : (contents Bucket.entries buckets').length = _ := all.length_eq
    have positive := length_pos_of_ne_nil nonempty
    rw [length_cons] at size
    omega
  match set, kept with
  | .plain .none, _ => exact ⟨_,rfl,accepted,List.Perm.refl [entry]⟩
  | .plain (.single currEntry), curr =>
    have differ : entry ≠ currEntry := fun same => fresh (mem_singleton.mpr same)
    simp only [vsetAddEntry,insertToBucketSingle]
    split
    · rename_i lt
      refine ⟨_,rfl,⟨Bucket.sound_pair currEntry entry,by simpa using differ.symm,?_,by simpa using lt.le⟩,List.Perm.swap entry currEntry []⟩
      simpa using ⟨curr,accepted⟩
    · rename_i ge
      refine ⟨_,rfl,⟨Bucket.sound_pair entry currEntry,by simpa using differ,?_,by simpa using ge⟩,List.Perm.refl [entry,currEntry]⟩
      simpa using ⟨accepted,curr⟩
  | .plain (.vector vec), ⟨sound,nodup,all,sorted⟩ =>
    have short := sound.short vec rfl
    have positive : 0 < vec.length := length_pos_of_ne_nil sound.nonempty
    rw [vsetAddEntry]
    by_cases full : vec.length = volatilesetVectorBucketMaxSize
    · have low := getElem?_eq_getElem positive
      have high := getElem?_eq_getElem (Nat.sub_lt positive Nat.one_pos)
      rw [if_pos full,low,high]
      dsimp only [bind_eq_bind,bind_some]
      split
      · rename_i window
        exact finish _ (filed_vector sound nodup all sorted low high window) (List.Perm.of_eq (append_nil vec)) sound.nonempty
      · obtain ⟨buckets,steps,filed,perm⟩ := insert_all choices nodup all
        rw [steps]
        exact finish buckets filed perm sound.nonempty
    · obtain ⟨pos,found,inside,low,high⟩ := findInsertPosition_spec (ex entry) sorted
      rw [if_neg full,found,bind_eq_bind,bind_some,insertToBucketVector,if_neg (by omega)]
      simp only [if_pos inside]
      have perm : (vec.insertIdx pos entry).Perm (entry :: vec) := perm_insertIdx entry vec inside
      refine ⟨_,rfl,⟨Bucket.sound_vector ?_ ?_,perm.nodup_iff.mpr (nodup_cons.mpr ⟨fresh,nodup⟩),fun e member => ?_,
        sorted_insertIdx sorted inside low high⟩,perm⟩
      · exact ne_nil_of_length_pos (by rw [perm.length_eq]; exact Nat.succ_pos _)
      · rw [perm.length_eq,length_cons]; omega
      · rcases mem_cons.mp (perm.mem_iff.mp member) with rfl | old
        exacts [accepted,all e old]
  | .rax buckets, ⟨filed,many⟩ =>
    exact finish buckets filed (List.Perm.refl _) (ne_nil_of_length_pos (by change 0 < (contents Bucket.entries buckets).length; omega))

end Add

end ValkeyWasm.Vset
