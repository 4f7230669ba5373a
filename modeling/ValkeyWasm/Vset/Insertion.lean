import ValkeyWasm.Vset.Windows

/-! Insertion into the radix tree: where a full vector is split, and that a bounded number of
searches places the entry. -/
namespace ValkeyWasm.Vset
open Library.Shelves List Option

variable {E : Type}

section Transition
variable {ex : E → Int} {pv : List E}

theorem getBucketTs_mono {a b : Int} (first : Accepted a) (second : Accepted b) (le : a ≤ b) : getBucketTs a ≤ getBucketTs b := by
  rw [getBucketTs_eq first,getBucketTs_eq second]
  omega

theorem transitionAt_eq_some {i : Nat} {ts : Int} (found : transitionAt ex pv i = some ts) :
    ∃ a b, pv[i - 1]? = some a ∧ pv[i]? = some b ∧ ts = getBucketTs (ex a) ∧ ts < getBucketTs (ex b) := by
  obtain ⟨a,first,found⟩ := bind_eq_some_iff.mp found
  obtain ⟨b,second,found⟩ := bind_eq_some_iff.mp found
  split at found
  · rename_i lt
    cases found
    exact ⟨a,b,first,second,rfl,lt⟩
  · cases found

theorem getBucketTs_constant (sorted : pv.Pairwise fun a b => ex a ≤ ex b) (accepted : ∀ e ∈ pv, Accepted (ex e))
    (still : ∀ p, 0 < p → p < pv.length → transitionAt ex pv p = none) {first e : E} (low : pv[0]? = some first) {i : Nat}
    (there : pv[i]? = some e) : getBucketTs (ex e) = getBucketTs (ex first) := by
  induction i generalizing e with
  | zero => rw [Option.some.inj (low.symm.trans there)]
  | succ i ih =>
    obtain ⟨inside,rfl⟩ := List.getElem?_eq_some_iff.mp there
    have below : i < pv.length := by omega
    have quiet := still (i + 1) (by omega) inside
    have mono := getBucketTs_mono (accepted _ (getElem_mem below)) (accepted _ (getElem_mem inside))
      (pairwise_iff_getElem.mp sorted i (i + 1) below inside (by omega))
    rw [← ih (getElem?_eq_getElem below)]
    simp only [transitionAt,Nat.add_sub_cancel,getElem?_eq_getElem below,getElem?_eq_getElem inside,
      bind_eq_bind,bind_some] at quiet
    split at quiet
    · cases quiet
    · omega

theorem splitPositionLoop_spec {mid : Nat} (middle : mid ≤ pv.length) (rounds offset : Nat)
    (enough : rounds + offset = pv.length) (within : offset < pv.length)
    (seen : ∀ p, 0 < p → p < pv.length → mid < p + offset → p < mid + offset → transitionAt ex pv p = none) :
    (∃ i ts, splitPositionLoop ex pv mid rounds offset = some (i,some ts) ∧ 0 < i ∧ transitionAt ex pv i = some ts) ∨
      ∀ p, 0 < p → p < pv.length → transitionAt ex pv p = none := by
  induction rounds generalizing offset with
  | zero => omega
  | succ rounds ih =>
    rw [splitPositionLoop]
    split
    · rename_i ts onLeft
      split at onLeft
      · exact .inl ⟨mid - offset,ts,rfl,by omega,onLeft⟩
      · cases onLeft
    · rename_i ts _ onRight
      split at onRight
      · rename_i positive
        exact .inl ⟨mid + offset,ts,rfl,positive.1,onRight⟩
      · cases onRight
    · rename_i onLeft onRight
      have wider : ∀ p, 0 < p → p < pv.length → mid < p + (offset + 1) → p < mid + (offset + 1) → transitionAt ex pv p = none := by
        intro p positive bounded after before
        rcases Nat.lt_trichotomy (p + offset) mid with low | low | low
        · omega
        · have place : p = mid - offset := by omega
          rwa [if_pos (by omega),← place] at onLeft
        rcases Nat.lt_or_ge p (mid + offset) with high | high
        · exact seen p positive bounded low high
        · have place : p = mid + offset := by omega
          rwa [if_pos (by omega),← place] at onRight
      split
      · exact .inr fun p positive bounded => wider p positive bounded (by omega) (by omega)
      · exact ih (offset + 1) (by omega) (by omega) wider

theorem findSplitPosition_spec (sorted : pv.Pairwise fun a b => ex a ≤ ex b) (accepted : ∀ e ∈ pv, Accepted (ex e))
    {first last : E} (low : pv[0]? = some first) (high : pv[pv.length - 1]? = some last)
    (differ : getBucketTs (ex first) ≠ getBucketTs (ex last)) :
    ∃ i ts, findSplitPosition ex pv = some (i,some ts) ∧ 0 < i ∧ transitionAt ex pv i = some ts := by
  obtain ⟨zero,-⟩ := List.getElem?_eq_some_iff.mp low
  have long : ¬ pv.length < 2 := by
    intro small
    have single : pv.length - 1 = 0 := by omega
    rw [single,low] at high
    exact differ (by rw [Option.some.inj high])
  rw [findSplitPosition,if_neg long]
  rcases splitPositionLoop_spec (Nat.div_le_self pv.length 2) pv.length 0 rfl zero (fun p _ _ after before => by omega) with found | still
  · exact found
  · exact absurd (getBucketTs_constant sorted accepted still low high).symm differ

end Transition

section Weight
variable {ex : E → Int} {l r : Rax E} {x : Nat × Bucket E}

/-- How many more searches a bucket can cause: a full vector is moved when its key is not tight,
and split when it is. -/
def weight (ex : E → Int) (x : Nat × Bucket E) : Nat :=
  match x.2 with
  | .vector pv =>
    if pv.length = volatilesetVectorBucketMaxSize then if ∀ e ∈ pv, getBucketTs (ex e) < x.1 then 2 else 1 else 0
  | _ => 0

def potential (ex : E → Int) (buckets : Rax E) : Nat := (buckets.map (weight ex)).sum

theorem weight_le (ex : E → Int) (x : Nat × Bucket E) : weight ex x ≤ 2 := by
  unfold weight
  split
  · split_ifs <;> omega
  · omega

theorem potential_le (buckets : Rax E) : potential ex buckets ≤ 2 * buckets.length := by
  induction buckets with
  | nil => exact Nat.zero_le _
  | cons x buckets ih =>
    have one := weight_le ex x
    simp only [potential,map_cons,sum_cons,length_cons] at ih ⊢
    omega

theorem potential_middle : potential ex (l ++ x :: r) = weight ex x + potential ex (l ++ r) := by
  simp only [potential,map_append,map_cons,sum_append,sum_cons]
  omega

theorem weight_short {key : Nat} {pv : List E} (short : pv.length ≠ volatilesetVectorBucketMaxSize) :
    weight ex (key,.vector pv) = 0 := if_neg short

end Weight

section Split
variable {ex : E → Int} {l r : Rax E} {key : Nat} {pv : List E}

theorem sorted_le (sorted : pv.Pairwise fun a b => ex a ≤ ex b) {i j : Nat} {a b : E} (le : i ≤ j) (first : pv[i]? = some a)
    (second : pv[j]? = some b) : ex a ≤ ex b := by
  obtain ⟨low,rfl⟩ := List.getElem?_eq_some_iff.mp first
  obtain ⟨high,rfl⟩ := List.getElem?_eq_some_iff.mp second
  rcases Nat.lt_or_eq_of_le le with lt | rfl
  · exact pairwise_iff_getElem.mp sorted i j low high lt
  · exact le_rfl

theorem lookup_at {bucket : Bucket E} (left : ∀ a ∈ l, a.1 ≠ key) : (l ++ (key,bucket) :: r).lookup key = some bucket := by
  induction l with
  | nil => simp
  | cons a l ih =>
    have other := left a mem_cons_self
    rw [cons_append,lookup_cons,beq_eq_false_iff_ne.mpr other.symm]
    exact ih fun b member => left b (mem_cons_of_mem a member)

section
variable (filed : Filed ex (l ++ (key,.vector pv) :: r)) (sorted : pv.Pairwise fun a b => ex a ≤ ex b)
include filed sorted

theorem Filed.tighten {last : E}
    (high : pv[pv.length - 1]? = some last) (wide : getBucketTs (ex last) < key) :
    Filed ex (l ++ (encodeExpiryKey (getBucketTs (ex last)),.vector pv) :: r) ∧
      (encodeExpiryKey (getBucketTs (ex last)) : Int) = getBucketTs (ex last) := by
  have placed := filed.here
  have accepted := placed.accepted last (mem_of_getElem? high)
  have stamp := getBucketTs_eq accepted
  have code : (encodeExpiryKey (getBucketTs (ex last)) : Int) = getBucketTs (ex last) :=
    encodeExpiryKey_eq (by have low := accepted.1; omega) (by have bound := placed.key_lt; dsimp only at bound; omega)
  refine ⟨filed.remove.insert (x := (_,.vector pv)) placed.sound (by dsimp only; omega) (fun e inside => ?_) (fun b member => ?_)
    filed.bucket_nodup,code⟩
  · obtain ⟨accepted,near,-,left,fresh⟩ := filed.suits inside
    obtain ⟨i,there⟩ : ∃ i, pv[i]? = some e := getElem?_of_mem inside
    obtain ⟨bound,-⟩ := List.getElem?_eq_some_iff.mp there
    have le := sorted_le sorted (by omega) there high
    exact ⟨accepted,by dsimp only at near ⊢; omega,by dsimp only; omega,left,fresh⟩
  · obtain ⟨lt,le⟩ := filed.right member
    exact ⟨by omega,fun e inside => by have bound := le e inside; omega⟩

theorem Filed.cut {i : Nat} {ts : Int}
    (positive : 0 < i) (transition : transitionAt ex pv i = some ts) :
    i < pv.length ∧ ts < key ∧
      Filed ex (l ++ (encodeExpiryKey ts,.vector (pv.take i)) :: (key,.vector (pv.drop i)) :: r) ∧
      (encodeExpiryKey ts : Int) = ts ∧ ∀ a ∈ l, (a.1 : Int) < ts := by
  obtain ⟨a,b,first,second,rfl,lt⟩ := transitionAt_eq_some transition
  obtain ⟨inside,-⟩ := List.getElem?_eq_some_iff.mp second
  have placed := filed.here
  have atA : a ∈ pv := mem_of_getElem? first
  have atB : b ∈ pv := mem_of_getElem? second
  have stampA := getBucketTs_eq (placed.accepted a atA)
  have stampB := getBucketTs_eq (placed.accepted b atB)
  have belowB : ex b < key := (filed.suits atB).below
  have lowA := (placed.accepted a atA).1
  have before : getBucketTs (ex a) < key := by omega
  have code : (encodeExpiryKey (getBucketTs (ex a)) : Int) = getBucketTs (ex a) :=
    encodeExpiryKey_eq (by omega) (by have bound := placed.key_lt; dsimp only at bound; omega)
  have short := placed.sound.short pv rfl
  have lower : ∀ e ∈ pv.take i, ex e ≤ ex a := by
    intro e member
    obtain ⟨j,-,rfl⟩ := mem_take_iff_getElem.mp member
    exact sorted_le sorted (by omega) (getElem?_eq_getElem (by omega)) first
  have upper : ∀ e ∈ pv.drop i, ex b ≤ ex e := by
    intro e member
    obtain ⟨j,-,rfl⟩ := mem_drop_iff_getElem.mp member
    exact sorted_le sorted (by omega) second (getElem?_eq_getElem (by omega))
  have nodup : (pv.take i ++ pv.drop i).Nodup := by
    rw [take_append_drop]
    exact filed.bucket_nodup
  have rest : Filed ex (l ++ (key,.vector (pv.drop i)) :: r) := by
    refine filed.narrow (Bucket.sound_vector ?_ ?_) (fun e member => mem_of_mem_drop member) (nodup_append.mp nodup).2.1
    · exact ne_nil_of_length_pos (by rw [length_drop]; omega)
    · rw [length_drop]; omega
  refine ⟨inside,before,rest.insert (x := (_,.vector (pv.take i))) (Bucket.sound_vector ?_ ?_) ?_ (fun e member => ?_) ?_ ?_,code,?_⟩
  · exact ne_nil_of_length_pos (by rw [length_take]; omega)
  · rw [length_take]; omega
  · dsimp only; omega
  · obtain ⟨accepted,near,-,left,fresh⟩ := filed.suits (mem_of_mem_take member)
    have le := lower e member
    refine ⟨accepted,by dsimp only at near ⊢; omega,by dsimp only; omega,left,fun there => ?_⟩
    rcases mem_append.mp ((entries_perm l r (key,.vector (pv.drop i))).mem_iff.mp there) with same | other
    · exact (nodup_append.mp nodup).2.2 e member e same rfl
    · exact fresh other
  · intro c member
    rcases mem_cons.mp member with rfl | after
    · refine ⟨by dsimp only; omega,fun e inside => ?_⟩
      have le := upper e inside
      omega
    · obtain ⟨later,le⟩ := filed.right after
      exact ⟨by omega,fun e inside => by have bound := le e inside; omega⟩
  · exact (nodup_append.mp nodup).1
  · intro c member
    have bound := (filed.left member).2 a atA
    omega

end

theorem guard_holds {p : Prop} [Decidable p] (holds : p) : (guard p : Option Unit) = some () := if_pos holds

theorem splitBucketIfPossible_spec [DecidableEq E] (choices : Choices E) {vector : List E}
    (filed : Filed ex (l ++ (key,.vector vector) :: r)) (full : vector.length = volatilesetVectorBucketMaxSize) :
    (∃ pv, splitBucketIfPossible choices ex (l ++ (key,.vector vector) :: r) key vector = some (.impossible pv) ∧ pv.Perm vector) ∨
    ∃ buckets, splitBucketIfPossible choices ex (l ++ (key,.vector vector) :: r) key vector = some (.done buckets) ∧
      Filed ex buckets ∧ buckets.entries.Perm (Rax.entries (l ++ (key,.vector vector) :: r)) ∧
      potential ex buckets < potential ex (l ++ (key,.vector vector) :: r) := by
  obtain ⟨pv,made⟩ : ∃ pv, choices.qsort ex vector = pv := ⟨_,rfl⟩
  have perm : pv.Perm vector := made ▸ choices.qsort_perm ex vector
  have sorted : pv.Pairwise fun a b => ex a ≤ ex b := made ▸ choices.qsort_sorted ex vector
  have length := perm.length_eq.trans full
  have inPlace : Filed ex (l ++ (key,.vector pv) :: r) :=
    filed.narrow (Bucket.sound_vector (ne_nil_of_length_pos (by rw [length]; decide)) length.le)
      (fun e inside => perm.mem_iff.mp inside) (perm.nodup_iff.mpr filed.bucket_nodup)
  have placed := inPlace.here
  have decode : decodeExpiryKey key = key := placed.decodeExpiryKey_eq
  have keyCode : encodeExpiryKey key = key := by
    have bound := placed.key_lt
    have exact' := encodeExpiryKey_eq (Int.natCast_nonneg key) bound
    omega
  have whole : (Rax.entries (l ++ (key,.vector vector) :: r)).Perm (pv ++ Rax.entries (l ++ r)) :=
    (entries_perm l r (key,.vector vector)).trans (perm.symm.append_right _)
  obtain ⟨last,high⟩ : ∃ last, pv[pv.length - 1]? = some last :=
    ⟨_,getElem?_eq_getElem (by rw [length]; decide)⟩
  obtain ⟨first,low⟩ : ∃ first, pv[0]? = some first := ⟨_,getElem?_eq_getElem (by rw [length]; decide)⟩
  have old : weight ex (key,.vector vector) = if ∀ e ∈ vector, getBucketTs (ex e) < (key : Int) then 2 else 1 := if_pos full
  simp only [splitBucketIfPossible,made,filed.replace_eq,inPlace.replace_eq,high,low,decode,keyCode,bind_eq_bind,
    bind_some]
  by_cases wide : getBucketTs (ex last) < key
  · -- the window of the last entry ends before the key
    obtain ⟨moved,stamp⟩ := inPlace.tighten sorted high wide
    have left : ∀ a ∈ l, a.1 < encodeExpiryKey (getBucketTs (ex last)) := fun a member => (moved.left member).1
    have right : ∀ b ∈ r, encodeExpiryKey (getBucketTs (ex last)) < b.1 := fun b member => (moved.right member).1
    refine .inr ⟨_,?_,moved,?_,?_⟩
    · rw [if_pos wide,lookup_at filed.others.1,guard_holds rfl,bind_some,inPlace.discard_eq,put_between left right]
    · exact (entries_perm l r _).trans whole.symm
    rw [potential_middle,potential_middle,old,if_pos fun e member => ?_]
    · have one : weight ex (encodeExpiryKey (getBucketTs (ex last)),.vector pv) = 1 := by
        refine (if_pos length).trans (if_neg fun all => ?_)
        have strict := all last (mem_of_getElem? high)
        omega
      omega
    · obtain ⟨i,there⟩ := getElem?_of_mem (perm.mem_iff.mpr member)
      obtain ⟨bound,-⟩ := List.getElem?_eq_some_iff.mp there
      have mono := getBucketTs_mono (placed.accepted e (perm.mem_iff.mpr member)) (placed.accepted last (mem_of_getElem? high))
        (sorted_le sorted (by omega) there high)
      omega
  · rw [if_neg wide]
    by_cases same : getBucketTs (ex first) = getBucketTs (ex last)
    · exact .inl ⟨pv,by rw [if_neg (not_not.mpr same)],perm⟩
    obtain ⟨i,ts,found,positive,transition⟩ := findSplitPosition_spec sorted placed.accepted low high same
    obtain ⟨inside,before,cut,code,left⟩ := inPlace.cut sorted positive transition
    have keep : ∀ a ∈ l, a.1 < encodeExpiryKey ts := fun a member => by have bound := left a member; omega
    have after : ∀ b ∈ (key,Bucket.vector (pv.drop i)) :: r, encodeExpiryKey ts < b.1 := fun b member => (cut.right member).1
    refine .inr ⟨_,?_,cut,?_,?_⟩
    · rw [if_pos same,found]
      dsimp only [bind_some,getD_some]
      rw [guard_holds before,guard_holds inside.ne,guard_holds (by rw [length_take]; omega),
        guard_holds (by rw [length_drop]; omega)]
      dsimp only [bind_some]
      rw [put_between keep after]
    · refine (entries_perm l _ _).trans (((entries_perm l r _).append_left _).trans ?_)
      refine List.Perm.trans ?_ whole.symm
      rw [← append_assoc]
      exact (List.Perm.of_eq (take_append_drop i pv)).append_right _
    · have upper : weight ex (key,.vector (pv.drop i)) = 0 := weight_short (by rw [length_drop]; omega)
      have lower : weight ex (encodeExpiryKey ts,.vector (pv.take i)) = 0 := weight_short (by rw [length_take]; omega)
      have some' : 0 < weight ex (key,.vector vector) := by rw [old]; split_ifs <;> omega
      rw [potential_middle,potential_middle,potential_middle]
      omega

end Split

section Insert
variable {ex : E → Int} {buckets l r : Rax E} {key : Nat} {entry : E} {bucket bucket' : Bucket E}

theorem entries_grow (perm : bucket'.entries.Perm (entry :: bucket.entries)) :
    (Rax.entries (l ++ (key,bucket') :: r)).Perm (entry :: Rax.entries (l ++ (key,bucket) :: r)) :=
  (entries_perm l r (key,bucket')).trans ((perm.append_right _).trans ((entries_perm l r (key,bucket)).symm.cons entry))

theorem Filed.grow (filed : Filed ex (l ++ (key,bucket) :: r)) (absent : entry ∉ bucket.entries) (suits : Suits ex l key r entry)
    (bucket' : Bucket E) (sound : bucket'.Sound) (perm : bucket'.entries.Perm (entry :: bucket.entries)) :
    Filed ex (l ++ (key,bucket') :: r) ∧
      (Rax.entries (l ++ (key,bucket') :: r)).Perm (entry :: Rax.entries (l ++ (key,bucket) :: r)) := by
  have nodup := perm.nodup_iff.mpr (nodup_cons.mpr ⟨absent,filed.bucket_nodup⟩)
  refine ⟨filed.exchange sound (fun e inside => ?_) nodup,entries_grow perm⟩
  rcases mem_cons.mp (perm.mem_iff.mp inside) with rfl | old
  exacts [suits,filed.suits old]

theorem Filed.found (filed : Filed ex (l ++ r)) (fresh : entry ∉ Rax.entries (l ++ r)) (accepted : Accepted (ex entry))
    (left : ∀ a ∈ l, (a.1 : Int) ≤ ex entry) (right : ∀ b ∈ r, getMaxBucketTs (ex entry) < b.1) :
    put (encodeNewExpiryBucketKey (ex entry)) (.single entry) (l ++ r) =
      l ++ (encodeNewExpiryBucketKey (ex entry),.single entry) :: r ∧
    Filed ex (l ++ (encodeNewExpiryBucketKey (ex entry),.single entry) :: r) := by
  have stamp := getMaxBucketTs_eq accepted
  have ⟨low,high⟩ := accepted
  have code : (encodeNewExpiryBucketKey (ex entry) : Int) = getMaxBucketTs (ex entry) :=
    encodeExpiryKey_eq (by omega) (by omega)
  refine ⟨put_between (fun a member => ?_) (fun b member => ?_),
    filed.insert (x := (_,.single entry)) (Bucket.sound_single entry) ?_ (fun e inside => ?_) (fun b member => ?_) (nodup_singleton entry)⟩
  · have bound := left a member
    omega
  · have bound := right b member
    omega
  · dsimp only; omega
  · rw [mem_singleton.mp inside]
    exact ⟨accepted,code.le,by dsimp only; omega,left,fresh⟩
  · have bound := right b member
    have placed := filed.placed b (mem_append_right l member)
    refine ⟨by dsimp only; omega,fun e inside => ?_⟩
    have near := placed.near e inside
    rw [getMaxBucketTs_eq (placed.accepted e inside)] at near
    omega

variable [DecidableEq E]

theorem hashtableAdd_fold (list ht : List E) (nodup : (ht ++ list).Nodup) :
    (list.foldl (fun ht e => (hashtableAdd ht e).getD ht) ht).Perm (ht ++ list) := by
  induction list generalizing ht with
  | nil => rw [append_nil]; exact List.Perm.refl ht
  | cons e list ih =>
    have moved : (ht ++ e :: list).Perm (e :: ht ++ list) := perm_middle
    have absent : e ∉ ht := fun member => (nodup_append.mp nodup).2.2 e member e mem_cons_self rfl
    rw [foldl_cons,hashtableAdd,if_neg absent]
    exact (ih (e :: ht) (moved.nodup_iff.mp nodup)).trans moved.symm

theorem insertToBucketRaxLoop_spec (choices : Choices E) (rounds : Nat) (filed : Filed ex buckets)
    (fresh : entry ∉ buckets.entries) (accepted : Accepted (ex entry)) (enough : potential ex buckets < rounds) :
    ∃ buckets', insertToBucketRaxLoop choices ex entry (ex entry) rounds buckets = some buckets' ∧ Filed ex buckets' ∧
      buckets'.entries.Perm (entry :: buckets.entries) := by
  induction rounds generalizing buckets with
  | zero => omega
  | succ rounds ih =>
    rw [insertToBucketRaxLoop]
    rcases filed.findBucket_cases accepted with ⟨missing,l,r,rfl,left,right⟩ | ⟨l,key,bucket,r,rfl,found,left,below,near⟩
    · obtain ⟨shape,made⟩ := filed.found fresh accepted left right
      exact ⟨_,by rw [missing]; exact congrArg some shape,made,entries_perm l r _⟩
    have placed := filed.here
    have ⟨absent,outside⟩ : entry ∉ bucket.entries ∧ entry ∉ Rax.entries (l ++ r) := by
      rwa [(entries_perm l r (key,bucket)).mem_iff,mem_append,not_or] at fresh
    have grow := filed.grow absent ⟨accepted,near,below,left,outside⟩
    rw [found]
    cases bucket with
    | none => exact absurd rfl placed.sound.nonempty
    | single currEntry =>
      dsimp only
      rw [filed.replace_eq,insertToBucketSingle]
      split
      · exact ⟨_,rfl,grow _ (Bucket.sound_pair currEntry entry) (List.Perm.swap entry currEntry [])⟩
      · exact ⟨_,rfl,grow _ (Bucket.sound_pair entry currEntry) (List.Perm.refl [entry,currEntry])⟩
    | vector pv =>
      have short := placed.sound.short pv rfl
      dsimp only
      split
      · rename_i full
        rcases splitBucketIfPossible_spec choices filed full with ⟨sorted,split',perm⟩ | ⟨buckets',split',filed',perm,less⟩
        · have nodup : (sorted ++ [entry]).Nodup :=
            perm_append_comm.nodup_iff.mp ((perm.cons entry).nodup_iff.mpr (nodup_cons.mpr ⟨absent,filed.bucket_nodup⟩))
          have table := hashtableAdd_fold (sorted ++ [entry]) [] nodup
          rw [nil_append] at table
          have size := perm.length_eq.trans full
          rw [split']
          dsimp only
          rw [insertToBucketVector,if_pos size.ge]
          dsimp only
          rw [filed.replace_eq]
          refine ⟨_,rfl,grow _ (Bucket.sound_hashtable ?_) ?_⟩
          · rw [table.length_eq,length_append,size,length_singleton]
            decide
          · exact table.trans ((perm_append_singleton entry sorted).trans (perm.cons entry))
        · obtain ⟨result,done,good,more⟩ := ih filed' (fun member => fresh (perm.mem_iff.mp member)) (by omega)
          exact ⟨result,by rw [split']; exact done,good,more.trans (perm.cons entry)⟩
      · rw [insertToBucketVector,if_neg (by omega),map_some,filed.replace_eq]
        refine ⟨_,rfl,grow _ (Bucket.sound_vector (by simp) ?_) perm_append_comm⟩
        rw [length_append,length_singleton]
        omega
    | hashtable ht =>
      have crowded := placed.sound.crowded ht rfl
      dsimp only
      rw [insertToBucketHashtable,hashtableAdd,if_neg (show entry ∉ ht from absent),map_some,map_some,filed.replace_eq]
      refine ⟨_,rfl,grow _ (Bucket.sound_hashtable ?_) (List.Perm.refl (entry :: ht))⟩
      rw [length_cons]
      omega

theorem insertToBucketRax_spec (choices : Choices E) (filed : Filed ex buckets) (fresh : entry ∉ buckets.entries)
    (accepted : Accepted (ex entry)) :
    ∃ buckets', insertToBucketRax choices ex buckets entry (ex entry) = some buckets' ∧ Filed ex buckets' ∧
      buckets'.entries.Perm (entry :: buckets.entries) :=
  insertToBucketRaxLoop_spec choices _ filed fresh accepted (Nat.lt_succ_of_le (potential_le buckets))

end Insert

end ValkeyWasm.Vset
