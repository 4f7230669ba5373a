import ValkeyWasm.Vset.Kept

/-! Removing and exchanging entries of a volatile set. -/
namespace ValkeyWasm.Vset
open Library.Shelves List Option

variable {E : Type}

section Buckets
variable {pv ht : List E} {entry : E}

theorem pvSwap_last (a b : List E) (entry last : E) :
    pvSwap (a ++ entry :: (b ++ [last])) a.length (a.length + b.length + 1) = some (a ++ last :: (b ++ [entry])) := by
  have first : (a ++ entry :: (b ++ [last]))[a.length]? = some entry := by simp
  have second : (a ++ entry :: (b ++ [last]))[a.length + b.length + 1]? = some last := by
    rw [getElem?_append_right (by omega),show a.length + b.length + 1 - a.length = b.length + 1 by omega]
    simp
  simp only [pvSwap,first,second,bind_eq_bind,bind_some]
  rw [set_append_right _ _ le_rfl,Nat.sub_self,set_cons_zero,set_append_right _ _ (by omega),
    show a.length + b.length + 1 - a.length = b.length + 1 by omega,set_cons_succ,set_append_right _ _ le_rfl,Nat.sub_self,
    set_cons_zero]

variable [DecidableEq E]

theorem pvFind_append {a b : List E} (absent : entry ∉ a) : pvFind (a ++ entry :: b) entry = a.length := by
  rw [pvFind,findIdx_append,findIdx_eq_length_of_false]
  · simp [findIdx_cons]
  · intro e member
    exact decide_eq_false fun same => absent (same ▸ member)

theorem pvFind_absent (absent : entry ∉ pv) : pvFind pv entry = pv.length :=
  findIdx_eq_length_of_false fun _ member => decide_eq_false fun same => absent (same ▸ member)

theorem removeFromBucketVector_spec (pop : Bool) (sound : (Bucket.vector pv).Sound) (nodup : pv.Nodup) (member : entry ∈ pv) :
    ∃ bucket, removeFromBucketVector pv entry pop = some (bucket,true) ∧ pv.Perm (entry :: bucket.entries) ∧
      (bucket = .none ∨ (∃ other, bucket = .single other) ∨ ∃ rest, bucket = .vector rest ∧ (Bucket.vector rest).Sound) ∧
      (pop = false → bucket.entries.Sublist pv) := by
  obtain ⟨a,b,rfl,absent⟩ : ∃ a b, pv = a ++ entry :: b ∧ entry ∉ a := eq_append_cons_of_mem member
  have found := pvFind_append (b := b) absent
  have short := sound.short _ rfl
  have shift : (a ++ entry :: b).Perm (entry :: (a ++ b)) := perm_middle
  have sub : (a ++ b).Sublist (a ++ entry :: b) := (List.Sublist.refl a).append (sublist_cons_self entry b)
  rw [length_append,length_cons] at short
  simp only [removeFromBucketVector,found,length_append,length_cons]
  by_cases small : a.length + (b.length + 1) ≤ 2
  · match a, b with
    | [], [] => exact ⟨_,rfl,List.Perm.refl _,.inl rfl,fun _ => nil_sublist _⟩
    | [other], [] => exact ⟨_,rfl,shift,.inr (.inl ⟨other,rfl⟩),fun _ => sub⟩
    | [], [other] => exact ⟨_,rfl,shift,.inr (.inl ⟨other,rfl⟩),fun _ => sub⟩
    | _ :: _ :: _, _ => simp at small; omega
    | [_], _ :: _ => simp at small; omega
    | [], _ :: _ :: _ => simp at small
  · have rest : ∀ rest : List E, rest.Perm (a ++ b) → (Bucket.vector rest).Sound := fun rest perm => by
      have size := perm.length_eq
      rw [length_append] at size
      exact Bucket.sound_vector (ne_nil_of_length_pos (by omega)) (by omega)
    rw [if_neg small]
    cases pop with
    | false =>
      have erased : (a ++ entry :: b).eraseIdx a.length = a ++ b := by
        rw [eraseIdx_append_of_length_le le_rfl,Nat.sub_self,eraseIdx_cons_zero]
      simp only [Bool.false_eq_true,if_false,pvRemove,found,length_append,length_cons]
      rw [if_pos (by omega),erased]
      exact ⟨_,rfl,shift,.inr (.inr ⟨_,rfl,rest _ (List.Perm.refl _)⟩),fun _ => sub⟩
    | true =>
      rw [if_pos rfl,if_pos (by omega)]
      rcases eq_nil_or_concat b with rfl | ⟨b,last,rfl⟩
      · have place : (a ++ [entry])[a.length]? = some entry := by simp
        have swapped : pvSwap (a ++ [entry]) a.length (a.length + (([] : List E).length + 1) - 1) = some (a ++ [entry]) := by
          simp only [pvSwap,length_nil,Nat.add_sub_cancel,place,bind_eq_bind,bind_some]
          rw [set_append_right _ _ le_rfl,Nat.sub_self,set_cons_zero,set_append_right _ _ le_rfl,Nat.sub_self,
            set_cons_zero]
        rw [swapped,bind_eq_bind,bind_some,guard_holds (by simp),dropLast_concat]
        exact ⟨_,rfl,perm_append_singleton entry a,.inr (.inr ⟨_,rfl,rest _ (by rw [append_nil])⟩),nofun⟩
      · rw [concat_eq_append] at *
        have swapped := pvSwap_last a b entry last
        have shape : a ++ last :: (b ++ [entry]) = (a ++ last :: b) ++ [entry] := by simp
        rw [shape] at swapped
        rw [show a.length + ((b ++ [last]).length + 1) - 1 = a.length + b.length + 1 by simp; omega,swapped,bind_eq_bind,
          bind_some,guard_holds getLast?_concat,bind_eq_bind,bind_some,dropLast_concat]
        have moved : (a ++ last :: b).Perm (a ++ (b ++ [last])) := (perm_append_singleton last b).symm.append_left a
        exact ⟨_,rfl,shift.trans (moved.symm.cons entry),.inr (.inr ⟨_,rfl,rest _ moved⟩),nofun⟩

theorem removeFromBucketVector_absent (pop : Bool) (absent : entry ∉ pv) : removeFromBucketVector pv entry pop = some (.vector pv,false) := by
  simp only [removeFromBucketVector,pvFind_absent absent,pvRemove,lt_irrefl,if_false]
  split_ifs <;> rfl

theorem removeFromBucketHashtable_spec (crowded : 2 ≤ ht.length) (member : entry ∈ ht) :
    ∃ bucket : Bucket E, removeFromBucketHashtable ht entry = some (bucket,true) ∧ ht.Perm (entry :: bucket.entries) ∧ bucket.Sound := by
  have perm := perm_cons_erase member
  have size := perm.length_eq
  rw [removeFromBucketHashtable,hashtableDelete,if_pos member]
  match rest : ht.erase entry with
  | [] => simp [rest] at size; omega
  | [ptr] => exact ⟨_,rfl,(by rw [rest] at perm; exact perm),Bucket.sound_single ptr⟩
  | a :: b :: more => exact ⟨_,rfl,(by rw [rest] at perm; exact perm),Bucket.sound_hashtable (by simp)⟩

theorem removeFromBucketHashtable_absent (absent : entry ∉ ht) : removeFromBucketHashtable ht entry = some (.hashtable ht,false) := by
  rw [removeFromBucketHashtable,hashtableDelete,if_neg absent]

end Buckets

section Tree
variable {ex : E → Int} {l r : Rax E} {key : Nat} {bucket : Bucket E} {entry : E} {buckets : Rax E}

theorem split_entry {e : E} (member : e ∈ buckets.entries) :
    ∃ l key bucket r, buckets = l ++ (key,bucket) :: r ∧ e ∈ bucket.entries := by
  obtain ⟨⟨key,bucket⟩,there,inside⟩ := mem_flatMap.mp member
  obtain ⟨l,r,rfl⟩ := append_of_mem there
  exact ⟨l,key,bucket,r,rfl,inside⟩

theorem shrinkRaxBucketIfPossible_spec (choices : Choices E) (filed : Filed ex buckets) (nonempty : buckets ≠ []) :
    Kept ex (shrinkRaxBucketIfPossible choices ex buckets) ∧
      (shrinkRaxBucketIfPossible choices ex buckets).entries.Perm buckets.entries := by
  match buckets, nonempty with
  | [(key,.single entry)], _ =>
    have placed := filed.placed _ mem_cons_self
    exact ⟨placed.accepted entry (mem_singleton_self entry),List.Perm.refl [entry]⟩
  | [(key,.vector pv)], _ =>
    have placed := filed.placed _ mem_cons_self
    have whole : Rax.entries [(key,Bucket.vector pv)] = pv := append_nil pv
    have perm := choices.qsort_perm ex pv
    rw [shrinkRaxBucketIfPossible,whole]
    split
    · rename_i room
      refine ⟨⟨Bucket.sound_vector ?_ (perm.length_eq ▸ room.le),perm.nodup_iff.mpr (whole ▸ filed.nodup),?_,
        choices.qsort_sorted ex pv⟩,perm⟩
      · exact fun empty => placed.sound.nonempty (List.Perm.nil_eq (empty ▸ perm)).symm
      · exact fun e member => placed.accepted e (perm.mem_iff.mp member)
    · rename_i full
      refine ⟨⟨filed,?_⟩,List.Perm.of_eq whole⟩
      have size : volatilesetVectorBucketMaxSize ≤ pv.length := not_lt.mp full
      exact (le_trans (by decide) size).trans_eq (congrArg List.length whole.symm)
  | [(key,.none)], _ => exact absurd rfl (filed.placed _ mem_cons_self).sound.nonempty
  | [(key,.hashtable ht)], _ =>
    have crowded := (filed.placed _ mem_cons_self).sound.crowded ht rfl
    have whole : Rax.entries [(key,Bucket.hashtable ht)] = ht := append_nil ht
    exact ⟨⟨filed,crowded.trans_eq (congrArg List.length whole.symm)⟩,List.Perm.refl _⟩
  | x :: y :: more, _ =>
    have first := length_pos_of_ne_nil (filed.placed x (by simp)).sound.nonempty
    have second := length_pos_of_ne_nil (filed.placed y (by simp)).sound.nonempty
    have stays : shrinkRaxBucketIfPossible choices ex (x :: y :: more) = .rax (x :: y :: more) := by
      obtain ⟨-,bucket⟩ := x
      cases bucket <;> rfl
    rw [stays]
    refine ⟨⟨filed,?_⟩,List.Perm.refl _⟩
    simp only [contents,flatMap_cons,length_append]
    omega

variable [DecidableEq E]

theorem removeEntryFromRaxBucket_spec (filed : Filed ex (l ++ (key,bucket) :: r)) (member : entry ∈ bucket.entries) :
    ∃ buckets, removeEntryFromRaxBucket (l ++ (key,bucket) :: r) entry key bucket = some (buckets,true) ∧ Filed ex buckets ∧
      (Rax.entries (l ++ (key,bucket) :: r)).Perm (entry :: buckets.entries) := by
  have placed := filed.here
  -- the bucket goes away with its only entry
  have emptied : bucket.entries.Perm [entry] → Filed ex (l ++ r) ∧
      (Rax.entries (l ++ (key,bucket) :: r)).Perm (entry :: Rax.entries (l ++ r)) := fun perm =>
    ⟨filed.remove,(entries_perm l r (key,bucket)).trans (perm.append_right _)⟩
  have reduced : ∀ bucket' : Bucket E, bucket'.Sound → bucket.entries.Perm (entry :: bucket'.entries) →
      Filed ex (l ++ (key,bucket') :: r) ∧
        (Rax.entries (l ++ (key,bucket) :: r)).Perm (entry :: Rax.entries (l ++ (key,bucket') :: r)) := by
    intro bucket' sound perm
    exact ⟨filed.narrow sound (fun e inside => perm.mem_iff.mpr (mem_cons_of_mem entry inside))
      (nodup_cons.mp (perm.nodup_iff.mp filed.bucket_nodup)).2,entries_grow perm⟩
  cases bucket with
  | none => exact absurd member not_mem_nil
  | single currEntry =>
    have same := mem_singleton.mp member
    subst same
    rw [removeEntryFromRaxBucket,removeFromBucketSingle,if_pos rfl]
    rw [filed.discard_eq]
    exact ⟨_,rfl,emptied (List.Perm.refl _)⟩
  | vector pv =>
    obtain ⟨bucket',step,perm,shape,-⟩ := removeFromBucketVector_spec true placed.sound filed.bucket_nodup member
    rw [removeEntryFromRaxBucket,step]
    rcases shape with rfl | ⟨other,rfl⟩ | ⟨rest,rfl,sound⟩
    · rw [filed.discard_eq]
      exact ⟨_,rfl,emptied perm⟩
    · dsimp only
      rw [filed.replace_eq]
      exact ⟨_,rfl,reduced _ (Bucket.sound_single other) perm⟩
    · dsimp only
      rw [filed.replace_eq]
      exact ⟨_,rfl,reduced _ sound perm⟩
  | hashtable ht =>
    obtain ⟨bucket',step,perm,sound⟩ := removeFromBucketHashtable_spec (placed.sound.crowded ht rfl) member
    rw [removeEntryFromRaxBucket,step,map_some]
    dsimp only
    rw [filed.replace_eq]
    exact ⟨_,rfl,reduced _ sound perm⟩

theorem removeEntryFromRaxBucket_absent (filed : Filed ex (l ++ (key,bucket) :: r)) (absent : entry ∉ bucket.entries) :
    removeEntryFromRaxBucket (l ++ (key,bucket) :: r) entry key bucket = some (l ++ (key,bucket) :: r,false) := by
  cases bucket with
  | none => exact absurd rfl filed.here.sound.nonempty
  | single currEntry =>
    have differ : currEntry ≠ entry := fun same => absent (mem_singleton.mpr same.symm)
    rw [removeEntryFromRaxBucket,removeFromBucketSingle,if_neg differ]
  | vector pv =>
    rw [removeEntryFromRaxBucket,removeFromBucketVector_absent true (show entry ∉ pv from absent)]
    dsimp only
    rw [filed.replace_eq]
  | hashtable ht =>
    rw [removeEntryFromRaxBucket,removeFromBucketHashtable_absent (show entry ∉ ht from absent),map_some]
    dsimp only
    rw [filed.replace_eq]

end Tree

section Remove
variable [DecidableEq E] {ex getExpiry : E → Int} {set : VolatileSet E} {entry : E}

theorem vsetRemoveEntryWithExpiry_spec (choices : Choices E) (kept : Kept ex set) (member : entry ∈ set.entries)
    (same : ∀ e ∈ set.entries, e ≠ entry → getExpiry e = ex e) :
    ∃ set', vsetRemoveEntryWithExpiry choices getExpiry set entry (ex entry) = some (set',true) ∧ Kept ex set' ∧
      set.entries.Perm (entry :: set'.entries) := by
  match set, kept with
  | .plain (.single currEntry), _ =>
    have equal := mem_singleton.mp member
    subst equal
    exact ⟨.plain .none,by simp [vsetRemoveEntryWithExpiry,removeFromBucketSingle],trivial,List.Perm.refl [entry]⟩
  | .plain (.vector pv), ⟨sound,nodup,accepted,sorted⟩ =>
    obtain ⟨bucket,step,perm,shape,sub⟩ := removeFromBucketVector_spec false sound nodup member
    refine ⟨.plain bucket,by rw [vsetRemoveEntryWithExpiry,step]; rfl,?_,perm⟩
    have sub := sub rfl
    rcases shape with rfl | ⟨other,rfl⟩ | ⟨rest,rfl,good⟩
    · trivial
    · exact accepted other (sub.subset (mem_singleton_self other))
    · exact ⟨good,nodup.sublist sub,fun e inside => accepted e (sub.subset inside),sorted.sublist sub⟩
  | .rax buckets, ⟨filed,many⟩ =>
    obtain ⟨l,key,bucket,r,rfl,inside⟩ := split_entry member
    obtain ⟨left,step,filed',perm⟩ := removeEntryFromRaxBucket_spec filed inside
    have others : ∀ e ∈ left.entries, getExpiry e = ex e := by
      intro e there
      refine same e (perm.mem_iff.mpr (mem_cons_of_mem entry there)) ?_
      rintro rfl
      exact (nodup_cons.mp (perm.nodup_iff.mp filed.nodup)).1 there
    have nonempty : left ≠ [] := by
      rintro rfl
      have size : (contents Bucket.entries (l ++ (key,bucket) :: r)).length = 1 := perm.length_eq
      omega
    obtain ⟨good,whole⟩ := shrinkRaxBucketIfPossible_spec choices (filed'.congr others) nonempty
    refine ⟨shrinkRaxBucketIfPossible choices getExpiry left,?_,good.congr fun e there => ?_,perm.trans (whole.symm.cons entry)⟩
    · rw [vsetRemoveEntryWithExpiry,removeFromBucketRax,filed.findBucket_entry inside]
      dsimp only [bind_eq_bind,bind_some]
      rw [step]
      rfl
    · exact (others e (whole.mem_iff.mp there)).symm

/-- An entry that is not there is not removed, unless no bucket covers its expiry: then the
assertion fails. -/
theorem vsetRemoveEntryWithExpiry_absent (choices : Choices E) {expiry : Int} (kept : Kept ex set) (absent : entry ∉ set.entries)
    (accepted : Accepted expiry) (same : ∀ e ∈ set.entries, getExpiry e = ex e) :
    (∃ set', vsetRemoveEntryWithExpiry choices getExpiry set entry expiry = some (set',false) ∧ Kept ex set' ∧
      set'.entries.Perm set.entries) ∨
    ∃ buckets, set = .rax buckets ∧ findBucket buckets expiry = none ∧
      vsetRemoveEntryWithExpiry choices getExpiry set entry expiry = none := by
  match set, kept with
  | .plain .none, _ => exact .inl ⟨_,rfl,trivial,List.Perm.refl _⟩
  | .plain (.single currEntry), curr =>
    have differ : currEntry ≠ entry := fun equal => absent (mem_singleton.mpr equal.symm)
    exact .inl ⟨.plain (.single currEntry),by simp [vsetRemoveEntryWithExpiry,removeFromBucketSingle,differ],curr,List.Perm.refl _⟩
  | .plain (.vector pv), kept =>
    refine .inl ⟨.plain (.vector pv),?_,kept,List.Perm.refl _⟩
    rw [vsetRemoveEntryWithExpiry,removeFromBucketVector_absent false (show entry ∉ pv from absent)]
    rfl
  | .rax buckets, ⟨filed,many⟩ =>
    rcases filed.findBucket_cases accepted with ⟨missing,-⟩ | ⟨l,key,bucket,r,rfl,found,-⟩
    · refine .inr ⟨buckets,rfl,missing,?_⟩
      rw [vsetRemoveEntryWithExpiry,removeFromBucketRax,missing]
      rfl
    have outside : entry ∉ bucket.entries := fun inside => absent (mem_contents (x := (key,bucket)) (by simp) inside)
    obtain ⟨good,whole⟩ := shrinkRaxBucketIfPossible_spec choices (filed.congr same) (by simp)
    refine .inl ⟨_,?_,good.congr fun e there => (same e (whole.mem_iff.mp there)).symm,whole⟩
    rw [vsetRemoveEntryWithExpiry,removeFromBucketRax,found]
    dsimp only [bind_eq_bind,bind_some]
    rw [removeEntryFromRaxBucket_absent filed outside]
    rfl

end Remove

section Update
variable {ex getExpiry : E → Int} {l r : Rax E} {key : Nat} {old new : E} {rest : List E}

theorem Filed.swap {bucket bucket' : Bucket E} (filed : Filed ex (l ++ (key,bucket) :: r))
    (before : bucket.entries.Perm (old :: rest)) (after : bucket'.entries.Perm (new :: rest)) (sound : bucket'.Sound)
    (accepted : Accepted (getExpiry new)) (window : getBucketTs (ex old) = getBucketTs (getExpiry new))
    (fresh : new ∉ rest ++ Rax.entries (l ++ r))
    (same : ∀ e ∈ rest ++ Rax.entries (l ++ r), getExpiry e = ex e) : Filed getExpiry (l ++ (key,bucket') :: r) := by
  have aligned : 16 ∣ key := filed.here.aligned
  obtain ⟨acceptedOld,nearOld,belowOld,leftOld,-⟩ := filed.suits (before.mem_iff.mpr mem_cons_self)
  rw [getBucketTs_eq acceptedOld,getBucketTs_eq accepted] at window
  rw [getMaxBucketTs_eq acceptedOld] at nearOld
  have others : Filed getExpiry (l ++ r) := filed.remove.congr fun e member => same e (mem_append_right rest member)
  refine others.insert (x := (key,bucket')) sound aligned (fun e inside => ?_) (fun b member => ⟨(filed.right member).1,fun e inside => ?_⟩) ?_
  · rcases mem_cons.mp (after.mem_iff.mp inside) with rfl | kept
    · refine ⟨accepted,?_,by dsimp only; omega,fun a member => ?_,fun member => fresh (mem_append_right rest member)⟩
      · rw [getMaxBucketTs_eq accepted]
        omega
      · have bound := leftOld a member
        have even := (filed.placed a (mem_append_left _ member)).aligned
        omega
    · exact (filed.suits (before.mem_iff.mpr (mem_cons_of_mem old kept))).congr (same e (mem_append_left _ kept))
  · rw [same e (mem_append_right rest (mem_contents (mem_append_right l member) inside))]
    exact (filed.right member).2 e inside
  · refine after.nodup_iff.mpr (nodup_cons.mpr ⟨fun member => fresh (mem_append_left _ member),?_⟩)
    exact (nodup_cons.mp (before.nodup_iff.mp filed.bucket_nodup)).2

/-- What is left without the old entry does not contain the new one and is known to the getter. -/
theorem rest_apart {all : List E} (nodup : all.Nodup) (fresh : new = old ∨ new ∉ all)
    (same : ∀ e ∈ all, e ≠ old → getExpiry e = ex e) (perm : all.Perm (old :: rest)) : new ∉ rest ∧ ∀ e ∈ rest, getExpiry e = ex e := by
  have absent := (nodup_cons.mp (perm.nodup_iff.mp nodup)).1
  refine ⟨fun there => ?_,fun e there => same e (perm.mem_iff.mpr (mem_cons_of_mem old there)) fun equal => absent (equal ▸ there)⟩
  rcases fresh with rfl | outside
  · exact absent there
  · exact outside (perm.mem_iff.mpr (mem_cons_of_mem old there))

variable [DecidableEq E]

theorem vsetBucketUpdateEntryVector_spec {pv : List E} (new : E) (member : old ∈ pv) :
    ∃ a b, pv = a ++ old :: b ∧ vsetBucketUpdateEntryVector pv old new = .vector (a ++ new :: b) := by
  obtain ⟨a,b,rfl,absent⟩ : ∃ a b, pv = a ++ old :: b ∧ old ∉ a := eq_append_cons_of_mem member
  refine ⟨a,b,rfl,?_⟩
  rw [vsetBucketUpdateEntryVector,pvFind_append absent]
  rw [if_neg (by simp),set_append_right _ _ le_rfl,Nat.sub_self,set_cons_zero]

theorem vsetBucketUpdateEntryRax_spec (choices : Choices E) {buckets : Rax E} (filed : Filed ex buckets)
    (member : old ∈ buckets.entries) (fresh : new = old ∨ new ∉ buckets.entries)
    (accepted : Accepted (getExpiry new)) (same : ∀ e ∈ buckets.entries, e ≠ old → getExpiry e = ex e) :
    ∃ buckets' rest, vsetBucketUpdateEntryRax choices getExpiry buckets old new (ex old) (getExpiry new) = some (some buckets') ∧
      Filed getExpiry buckets' ∧ buckets.entries.Perm (old :: rest) ∧ buckets'.entries.Perm (new :: rest) := by
  obtain ⟨l,key,bucket,r,rfl,inside⟩ := split_entry member
  have found := filed.findBucket_entry inside
  rw [vsetBucketUpdateEntryRax]
  split
  · rename_i window
    rw [found]
    have placed := filed.here
    have exchanged : ∀ (bucket' : Bucket E) (rest : List E), bucket.entries.Perm (old :: rest) → bucket'.entries.Perm (new :: rest) →
        bucket'.Sound → ∃ buckets' all, some (some (l ++ (key,bucket') :: r)) = some (some buckets') ∧ Filed getExpiry buckets' ∧
          (Rax.entries (l ++ (key,bucket) :: r)).Perm (old :: all) ∧ (Rax.entries buckets').Perm (new :: all) := by
      intro bucket' rest before after sound
      have whole := (entries_perm l r (key,bucket)).trans (before.append_right _)
      obtain ⟨outside,known⟩ := rest_apart filed.nodup fresh same whole
      exact ⟨_,_,rfl,filed.swap before after sound accepted window outside known,whole,
        (entries_perm l r (key,bucket')).trans (after.append_right _)⟩
    cases bucket with
    | none => exact absurd inside not_mem_nil
    | single currEntry =>
      have equal := mem_singleton.mp inside
      subst equal
      dsimp only
      rw [vsetBucketUpdateEntrySingle,if_pos rfl,filed.replace_eq]
      exact exchanged _ [] (List.Perm.refl _) (List.Perm.refl _) (Bucket.sound_single new)
    | vector pv =>
      obtain ⟨a,b,rfl,step⟩ := vsetBucketUpdateEntryVector_spec new (show old ∈ pv from inside)
      dsimp only
      rw [step,filed.replace_eq]
      refine exchanged _ (a ++ b) perm_middle perm_middle (Bucket.sound_vector (by simp) ?_)
      have short := placed.sound.short _ rfl
      simpa using short
    | hashtable ht =>
      have before := perm_cons_erase inside
      have crowded := placed.sound.crowded ht rfl
      dsimp only
      rw [vsetBucketUpdateEntryHashtable]
      split
      · rename_i equal
        subst equal
        rw [map_some,filed.replace_eq]
        exact exchanged _ _ before before (Bucket.sound_hashtable crowded)
      have outside : new ∉ ht.erase old := fun there =>
        (rest_apart filed.nodup fresh same ((entries_perm l r _).trans (before.append_right _))).1 (mem_append_left _ there)
      rw [hashtableDelete,if_pos (show old ∈ ht from inside),getD_some,hashtableAdd,if_neg outside,map_some,
        map_some,filed.replace_eq]
      refine exchanged _ _ before (List.Perm.refl (new :: ht.erase old)) (Bucket.sound_hashtable ?_)
      have size := before.length_eq
      rw [length_cons] at ⊢
      change ht.length = (ht.erase old).length + 1 at size
      omega
  · rw [found]
    dsimp only
    obtain ⟨left,step,filed',perm⟩ := removeEntryFromRaxBucket_spec filed inside
    obtain ⟨outside,known⟩ := rest_apart filed.nodup fresh same perm
    obtain ⟨buckets',insert,good,more⟩ := insertToBucketRax_spec choices (filed'.congr known) outside accepted
    rw [step]
    dsimp only
    rw [insert]
    exact ⟨_,_,rfl,good,perm,more⟩

theorem vsetUpdateEntry_spec (choices : Choices E) {set : VolatileSet E} (kept : Kept ex set) (member : old ∈ set.entries)
    (fresh : new = old ∨ new ∉ set.entries) (accepted : Accepted (getExpiry new))
    (same : ∀ e ∈ set.entries, e ≠ old → getExpiry e = ex e) (change : ¬ (old = new ∧ ex old = getExpiry new)) :
    ∃ set' rest, vsetUpdateEntry choices getExpiry set (some old) (some new) (ex old) (getExpiry new) = some (set',true) ∧
      Kept getExpiry set' ∧ set.entries.Perm (old :: rest) ∧ set'.entries.Perm (new :: rest) := by
  have oldAccepted := kept.accepted old member
  have tracked : ex old ≠ -1 ∧ getExpiry new ≠ -1 := by
    have first := oldAccepted.1
    have second := accepted.1
    omega
  simp only [vsetUpdateEntry,some.injEq,if_neg change,filter_some,decide_eq_true tracked.1,decide_eq_true tracked.2,if_true]
  match set, kept with
  | .plain (.single currEntry), _ =>
    have equal := mem_singleton.mp member
    subst equal
    simp only [vsetBucketUpdateEntrySingle]
    exact ⟨_,[],rfl,accepted,List.Perm.refl _,List.Perm.refl _⟩
  | .plain (.vector pv), kept =>
    dsimp only
    split
    · obtain ⟨left,step,good,perm⟩ := vsetRemoveEntryWithExpiry_spec choices kept member same
      obtain ⟨outside,known⟩ := rest_apart kept.nodup fresh same perm
      obtain ⟨set',add,good',more⟩ := vsetAddEntry_spec choices (good.congr known) outside accepted
      rw [step]
      dsimp only
      rw [add]
      exact ⟨_,_,rfl,good',perm,more⟩
    · rename_i equal
      obtain ⟨sound,nodup,all,sorted⟩ := kept
      have equal : ex old = getExpiry new := not_not.mp equal
      obtain ⟨a,b,rfl,step⟩ := vsetBucketUpdateEntryVector_spec new (show old ∈ pv from member)
      have perm : (a ++ old :: b).Perm (old :: (a ++ b)) := perm_middle
      have perm' : (a ++ new :: b).Perm (new :: (a ++ b)) := perm_middle
      obtain ⟨outside,known⟩ := rest_apart nodup fresh same perm
      have expiries : (a ++ new :: b).map getExpiry = (a ++ old :: b).map ex := by
        rw [map_append,map_append,map_cons,map_cons,equal,map_congr_left fun e there => known e (mem_append_left b there),
          map_congr_left fun e there => known e (mem_append_right a there)]
      rw [step]
      refine ⟨_,_,rfl,⟨Bucket.sound_vector (by simp) ?_,?_,fun e there => ?_,?_⟩,perm,perm'⟩
      · have short := sound.short _ rfl
        simpa using short
      · exact perm'.nodup_iff.mpr (nodup_cons.mpr ⟨outside,(nodup_cons.mp (perm.nodup_iff.mp nodup)).2⟩)
      · rcases mem_cons.mp (perm'.mem_iff.mp there) with rfl | stays
        · exact accepted
        · rw [known e stays]
          exact all e (perm.mem_iff.mpr (mem_cons_of_mem old stays))
      · rw [← pairwise_map] at sorted ⊢
        rwa [expiries]
  | .rax buckets, ⟨filed,many⟩ =>
    obtain ⟨buckets',rest,step,good,perm,perm'⟩ := vsetBucketUpdateEntryRax_spec choices filed member fresh accepted same
    dsimp only
    rw [step]
    refine ⟨_,rest,rfl,⟨good,?_⟩,perm,perm'⟩
    rw [perm'.length_eq]
    rw [perm.length_eq] at many
    exact many

end Update

end ValkeyWasm.Vset
