import ValkeyWasm.Vset.Removal

/-! What `vsetRemoveExpired` hands to its callback and what it leaves. -/
namespace ValkeyWasm.Vset
open Library.Shelves List Nat

variable {E M : Type}

def Frees (getExpiry : M → E → Int) (expiryFunc : E → M → M) : Prop :=
  ∀ e mem x, x ≠ e → getExpiry (expiryFunc e mem) x = getExpiry mem x

variable {getExpiry : M → E → Int} {expiryFunc : E → M → M}

theorem Frees.foldl (frees : Frees getExpiry expiryFunc) {x : E} (gone : List E) (mem : M) (stays : x ∉ gone) :
    getExpiry (gone.foldl (fun mem e => expiryFunc e mem) mem) x = getExpiry mem x := by
  induction gone generalizing mem with
  | nil => rfl
  | cons e gone ih =>
    rw [foldl_cons,ih _ fun member => stays (mem_cons_of_mem e member)]
    exact frees e mem x fun same => stays (same ▸ mem_cons_self)

theorem frees_zero (expiryFunc : E → M → M) : Frees vsetGetExpiryZero expiryFunc := fun _ _ _ _ => rfl

theorem removeExpiredVectorLoop_spec (frees : Frees getExpiry expiryFunc) (now : Int) (mem : M) (len : Nat) {pv : List E} (nodup : pv.Nodup) :
    ∃ rest, pv = removeExpiredVectorLoop getExpiry expiryFunc now mem len pv ++ rest ∧
      (∀ e ∈ removeExpiredVectorLoop getExpiry expiryFunc now mem len pv, getExpiry mem e ≤ now) ∧
      (removeExpiredVectorLoop getExpiry expiryFunc now mem len pv).length ≤ len ∧
      ((removeExpiredVectorLoop getExpiry expiryFunc now mem len pv).length = len ∨ ∀ e ∈ rest.head?, now < getExpiry mem e) := by
  induction pv generalizing mem len with
  | nil => cases len <;> exact ⟨[],by simp [removeExpiredVectorLoop]⟩
  | cons entry pv ih =>
    cases len with
    | zero => exact ⟨entry :: pv,by simp [removeExpiredVectorLoop]⟩
    | succ len =>
      rw [removeExpiredVectorLoop]
      split
      · rename_i late
        exact ⟨entry :: pv,rfl,nofun,zero_le _,.inr (by simpa using late)⟩
      rename_i due
      obtain ⟨absent,nodup⟩ := nodup_cons.mp nodup
      obtain ⟨rest,shape,old,count,stop⟩ := ih (expiryFunc entry mem) len nodup
      have same : ∀ e ∈ pv, getExpiry (expiryFunc entry mem) e = getExpiry mem e := fun e member =>
        frees entry mem e fun equal => absent (equal ▸ member)
      refine ⟨rest,congrArg (entry :: ·) shape,fun e member => ?_,succ_le_succ count,stop.imp (congrArg (· + 1)) fun next e head => ?_⟩
      · rcases mem_cons.mp member with rfl | later
        · exact not_lt.mp due
        · rw [← same e (shape ▸ mem_append_left rest later)]
          exact old e later
      · rw [← same e (shape ▸ mem_append_right _ (mem_of_mem_head? head))]
        exact next e head

section Buckets

theorem vsetBucketRemoveExpiredVector_spec (frees : Frees getExpiry expiryFunc) (now : Int) (mem : M) (maxCount : Nat) {pv : List E}
    (sound : (Bucket.vector pv).Sound) (nodup : pv.Nodup) :
    ∃ bucket gone, vsetBucketRemoveExpiredVector getExpiry expiryFunc mem pv now maxCount = (bucket,gone) ∧ pv = gone ++ bucket.entries ∧
      (bucket = .none ∨ bucket.Sound ∧ ∃ rest, bucket = .vector rest) ∧ (∀ e ∈ gone, getExpiry mem e ≤ now) ∧
      gone.length ≤ maxCount ∧ (gone.length = maxCount ∨ ∀ e ∈ bucket.entries.head?, now < getExpiry mem e) := by
  obtain ⟨rest,shape,old,count,stop⟩ := removeExpiredVectorLoop_spec frees now mem (min pv.length maxCount) nodup
  have short := sound.short pv rfl
  rw [vsetBucketRemoveExpiredVector]
  generalize removeExpiredVectorLoop getExpiry expiryFunc now mem (min pv.length maxCount) pv = expired at *
  have stop' : expired.length = maxCount ∨ ∀ e ∈ rest.head?, now < getExpiry mem e := by
    rcases stop with all | late
    · rcases le_total maxCount pv.length with le | le
      · exact .inl (all.trans (min_eq_right le))
      have size := congrArg List.length shape
      rw [length_append] at size
      have empty : rest = [] := length_eq_zero_iff.mp (by omega)
      exact .inr (by simp [empty])
    · exact .inr late
  split
  · subst shape
    exact ⟨_,_,rfl,rfl,.inr ⟨sound,_,rfl⟩,nofun,zero_le _,stop'⟩
  have dropped : pv.drop expired.length = rest := by rw [shape,drop_left]
  rw [dropped]
  split
  · rename_i empty
    subst empty
    exact ⟨_,_,rfl,shape,.inl rfl,old,by omega,.inr (by simp [Bucket.entries])⟩
  rename_i more
  refine ⟨_,_,rfl,shape,.inr ⟨Bucket.sound_vector more ?_,rest,rfl⟩,old,by omega,stop'⟩
  have size := congrArg List.length shape
  rw [length_append] at size
  omega

theorem vsetBucketRemoveExpiredHashtable_spec (choices : Choices E) (maxCount : Nat) (ht : List E) :
    ∃ bucket gone, vsetBucketRemoveExpiredHashtable choices ht maxCount = (bucket,gone) ∧ ht.Perm (gone ++ bucket.entries) ∧
      (bucket = .none ∨ bucket.Sound ∧ gone.length = maxCount) ∧ gone.length ≤ maxCount := by
  have perm := choices.order_perm ht
  have whole := take_append_drop maxCount (choices.order ht)
  have size : (choices.order ht).drop maxCount ≠ [] → ((choices.order ht).take maxCount).length = maxCount := by
    intro more
    have positive := length_pos_of_ne_nil more
    rw [length_drop] at positive
    rw [length_take]
    omega
  have fits : ((choices.order ht).take maxCount).length ≤ maxCount := length_take_le maxCount _
  rw [vsetBucketRemoveExpiredHashtable]
  match rest : (choices.order ht).drop maxCount with
  | [] =>
    rw [rest] at whole
    exact ⟨_,_,rfl,perm.symm.trans (List.Perm.of_eq whole.symm),.inl rfl,fits⟩
  | [ptr] =>
    rw [rest] at whole size
    exact ⟨_,_,rfl,perm.symm.trans (List.Perm.of_eq whole.symm),.inr ⟨Bucket.sound_single ptr,size (cons_ne_nil _ _)⟩,fits⟩
  | a :: b :: more =>
    rw [rest] at whole size
    exact ⟨_,_,rfl,perm.symm.trans (List.Perm.of_eq whole.symm),
      .inr ⟨Bucket.sound_hashtable (by simp),size (cons_ne_nil _ _)⟩,fits⟩

end Buckets

section Tree
variable {ex : E → Int} {buckets : Rax E}

theorem Filed.late {now : Int} (filed : Filed ex buckets) (late : ∀ x ∈ buckets, now < x.1) :
    ∀ e ∈ buckets.entries, now - 8192 < ex e := by
  intro e member
  obtain ⟨x,there,inside⟩ := mem_flatMap.mp member
  have placed := filed.placed x there
  have near := placed.near e inside
  rw [getMaxBucketTs_eq (placed.accepted e inside)] at near
  have gt := late x there
  omega

/-- A removal of expired entries: at most `maxCount` go, all of them due, and if fewer go then none that stays is due for long. -/
structure Swept (ex : E → Int) (now : Int) (maxCount : Nat) (before gone after : List E) : Prop where
  perm : before.Perm (gone ++ after)
  old : ∀ e ∈ gone, ex e ≤ now
  count : gone.length ≤ maxCount
  stop : gone.length < maxCount → ∀ e ∈ after, now - 8192 < ex e

theorem Swept.none {now : Int} {maxCount : Nat} {before : List E} (late : 0 < maxCount → ∀ e ∈ before, now - 8192 < ex e) :
    Swept ex now maxCount before [] before :=
  ⟨List.Perm.refl _,nofun,zero_le _,late⟩

def SweepsTo (ex : E → Int) (now : Int) (maxCount : Nat) (buckets : Rax E) (result : Option (Rax E × List E)) : Prop :=
  ∃ left gone, result = some (left,gone) ∧ Filed ex left ∧
    Swept ex now maxCount (contents Bucket.entries buckets) gone (contents Bucket.entries left)

section Head
variable {key : Nat} {bucket : Bucket E} {rest : Rax E} {now : Int} {maxCount : Nat} {gone : List E}
  (filed : Filed ex ([] ++ (key,bucket) :: rest)) (old : ∀ e ∈ bucket.entries, ex e ≤ now)
include old

theorem SweepsTo.emptied {result : Option (Rax E × List E)} (perm : bucket.entries.Perm gone) (fits : gone.length ≤ maxCount)
    (more : SweepsTo ex now (maxCount - gone.length) rest result) :
    SweepsTo ex now maxCount ((key,bucket) :: rest) (result.map fun (left,more) => (left,gone ++ more)) := by
  obtain ⟨left,more,rfl,filed,swept⟩ := more
  have count := swept.count
  refine ⟨left,gone ++ more,rfl,filed,?_,fun e member => ?_,?_,fun less => swept.stop ?_⟩
  · rw [append_assoc]
    exact perm.append swept.perm
  · rcases mem_append.mp member with first | second
    exacts [old e (perm.mem_iff.mpr first),swept.old e second]
  · rw [length_append]; omega
  · rw [length_append] at less; omega

include filed

theorem SweepsTo.stopped {bucket' : Bucket E} (sound : bucket'.Sound) (perm : bucket.entries.Perm (gone ++ bucket'.entries))
    (full : gone.length = maxCount) : SweepsTo ex now maxCount ((key,bucket) :: rest) (some ((key,bucket') :: rest,gone)) := by
  refine ⟨_,gone,rfl,?_,?_,fun e member => old e (perm.mem_iff.mpr (mem_append_left _ member)),full.le,fun less => by omega⟩
  · exact filed.narrow sound (fun e inside => perm.mem_iff.mpr (mem_append_right gone inside))
      (nodup_append.mp (perm.nodup_iff.mp filed.bucket_nodup)).2.1
  · change (bucket.entries ++ rest.entries).Perm (gone ++ (bucket'.entries ++ rest.entries))
    rw [← append_assoc]
    exact perm.append_right _

end Head

theorem removeExpiredRaxLoop_spec (choices : Choices E) (expiryFunc : E → M → M) (now : Int) (mem : M) (maxCount : Nat) (filed : Filed ex buckets) :
    SweepsTo ex now maxCount buckets (removeExpiredRaxLoop choices expiryFunc now mem maxCount buckets) := by
  induction buckets generalizing mem maxCount with
  | nil => exact ⟨[],[],rfl,filed,.none fun _ => by simp [contents]⟩
  | cons x rest ih =>
    obtain ⟨key,bucket⟩ := x
    have placed := filed.placed _ mem_cons_self
    have decode : decodeExpiryKey key = key := placed.decodeExpiryKey_eq
    have head : Filed ex ([] ++ (key,bucket) :: rest) := filed
    rw [removeExpiredRaxLoop.eq_def]
    dsimp only
    rw [decode]
    split
    · exact ⟨_,[],rfl,filed,.none fun positive => by omega⟩
    split
    · rename_i later
      refine ⟨_,[],rfl,filed,.none fun _ => filed.late fun y member => ?_⟩
      rcases mem_cons.mp member with rfl | behind
      · exact later
      · have order : key < y.1 := (head.right behind).1
        omega
    · rename_i some' due
      have old : ∀ e ∈ bucket.entries, ex e ≤ now := fun e inside => by
        have below : ex e < key := (head.suits inside).below
        omega
      have start : (0 : Int) ≤ now := by omega
      have further := fun mem maxCount => ih mem maxCount head.remove
      cases bucket with
      | none => exact absurd rfl placed.sound.nonempty
      | single entry =>
        dsimp only
        rw [vsetBucketRemoveExpiredSingle,if_pos ⟨some',start⟩]
        exact .emptied old (List.Perm.refl [entry]) (by rw [length_singleton]; omega) (further _ _)
      | vector pv =>
        obtain ⟨bucket',gone,step,shape,kind,-,count,stop⟩ := vsetBucketRemoveExpiredVector_spec
          (frees_zero expiryFunc) now mem maxCount placed.sound head.bucket_nodup
        dsimp only
        rw [step]
        rcases kind with rfl | ⟨sound,more,rfl⟩
        · exact .emptied old (List.Perm.of_eq (shape.trans (append_nil gone))) count (further _ _)
        refine .stopped head old sound (List.Perm.of_eq shape) (stop.resolve_right fun late => ?_)
        obtain ⟨e,tail,shape'⟩ := exists_cons_of_ne_nil sound.nonempty
        have impossible := late e (by rw [shape']; rfl)
        rw [vsetGetExpiryZero] at impossible
        omega
      | hashtable ht =>
        obtain ⟨bucket',gone,step,perm,kind,count⟩ := vsetBucketRemoveExpiredHashtable_spec choices maxCount ht
        dsimp only
        rw [step]
        rcases kind with rfl | ⟨sound,full⟩
        · exact .emptied old (perm.trans (List.Perm.of_eq (append_nil gone))) count (further _ _)
        have other := SweepsTo.stopped head old sound perm full
        cases bucket' with
        | none => exact absurd rfl sound.nonempty
        | single ptr => exact other
        | vector pv => exact other
        | hashtable ht => exact other

end Tree

theorem vsetRemoveExpired_spec (choices : Choices E) (frees : Frees getExpiry expiryFunc) (now : Int) (mem : M) (maxCount : Nat)
    {ex : E → Int} {set : VolatileSet E} (kept : Kept ex set) (same : ∀ e ∈ set.entries, getExpiry mem e = ex e) :
    ∃ set' gone, vsetRemoveExpired choices getExpiry expiryFunc mem set now maxCount = some (set',gone) ∧ Kept ex set' ∧
      Swept ex now maxCount set.entries gone set'.entries := by
  match set, kept with
  | .plain .none, _ => exact ⟨_,[],rfl,trivial,.none nofun⟩
  | .plain (.single entry), accepted =>
    have known := same entry (mem_singleton_self entry)
    simp only [vsetRemoveExpired,vsetBucketRemoveExpiredSingle,known]
    split
    · rename_i due
      exact ⟨_,_,rfl,trivial,List.Perm.refl [entry],by simpa using due.2,by simp; omega,
        nofun⟩
    refine ⟨_,_,rfl,accepted,.none fun less e member => ?_⟩
    rw [mem_singleton.mp member]
    omega
  | .plain (.vector pv), ⟨sound,nodup,accepted,sorted⟩ =>
    obtain ⟨bucket,gone,step,shape,kind,old,count,stop⟩ := vsetBucketRemoveExpiredVector_spec frees now mem maxCount sound nodup
    have inside : ∀ e ∈ bucket.entries, e ∈ pv := fun e member => shape ▸ mem_append_right gone member
    have sub : bucket.entries.Sublist pv := by
      have tail := sublist_append_right gone bucket.entries
      rwa [← shape] at tail
    refine ⟨.plain bucket,gone,by simp only [vsetRemoveExpired,step],?_,List.Perm.of_eq shape,fun e member => ?_,count,fun less e member => ?_⟩
    · rcases kind with rfl | ⟨good,rest,rfl⟩
      · trivial
      · exact ⟨good,nodup.sublist sub,fun e member => accepted e (inside e member),sorted.sublist sub⟩
    · rw [← same e (shape ▸ mem_append_left _ member)]
      exact old e member
    -- the first entry left is late, and the others are later
    change e ∈ bucket.entries at member
    obtain ⟨first,rest,shape'⟩ := exists_cons_of_ne_nil (ne_nil_of_mem member)
    have late := stop.resolve_left (by omega) first (by rw [shape']; rfl)
    rw [same first (inside first (shape' ▸ mem_cons_self))] at late
    have order := sorted.sublist sub
    rw [shape'] at order member
    rcases mem_cons.mp member with rfl | later
    · omega
    · have le := (pairwise_cons.mp order).1 e later
      omega
  | .rax buckets, ⟨filed,many⟩ =>
    obtain ⟨left,gone,step,filed',swept⟩ := removeExpiredRaxLoop_spec choices expiryFunc now mem maxCount filed
    have perm := swept.perm
    have after : ∀ e ∈ left.entries, getExpiry (gone.foldl (fun mem e => expiryFunc e mem) mem) e = ex e := by
      intro e member
      rw [frees.foldl gone mem fun removed => ?_]
      · exact same e (perm.mem_iff.mpr (mem_append_right gone member))
      · exact (nodup_append.mp (perm.nodup_iff.mp filed.nodup)).2.2 e removed e member rfl
    simp only [vsetRemoveExpired,vsetBucketRemoveExpiredRax,step]
    split
    · contradiction
    · rename_i expired same'
      cases same'
      exact ⟨_,_,rfl,trivial,swept⟩
    rename_i left' expired nonempty same'
    cases same'
    obtain ⟨good,whole⟩ := shrinkRaxBucketIfPossible_spec choices (filed'.congr after) nonempty
    exact ⟨_,_,rfl,good.congr fun e member => (after e (whole.mem_iff.mp member)).symm,perm.trans (whole.symm.append_left gone),swept.old,
      swept.count,fun less e member => swept.stop less e (whole.mem_iff.mp member)⟩

end ValkeyWasm.Vset
