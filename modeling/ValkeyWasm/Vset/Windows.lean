import ValkeyWasm.Vset.Vset

/-! Which bucket of the radix tree an entry belongs to, as long as no timestamp overflows. -/
namespace ValkeyWasm.Vset
open Library.Shelves List

def Accepted (expiry : Int) : Prop := 0 ≤ expiry ∧ expiry < 2^63 - 8192

instance (expiry : Int) : Decidable (Accepted expiry) := inferInstanceAs (Decidable (_ ∧ _))

section Timestamps
variable {expiry : Int}

theorem wrap64_eq {v : Int} (low : -2^63 ≤ v) (high : v < 2^63) : wrap64 v = v := by
  rw [wrap64,Int.bmod_def]
  split <;> omega

theorem getBucketTs_eq (accepted : Accepted expiry) : getBucketTs expiry = expiry - expiry % 16 + 16 := by
  obtain ⟨low,high⟩ := accepted
  exact wrap64_eq (by rw [volatilesetBucketIntervalMin]; omega) (by rw [volatilesetBucketIntervalMin]; omega)

theorem getMaxBucketTs_eq (accepted : Accepted expiry) : getMaxBucketTs expiry = expiry - expiry % 8192 + 8192 := by
  obtain ⟨low,high⟩ := accepted
  exact wrap64_eq (by rw [volatilesetBucketIntervalMax]; omega) (by rw [volatilesetBucketIntervalMax]; omega)

theorem encodeExpiryKey_eq (low : 0 ≤ expiry) (high : expiry < 2^63) : (encodeExpiryKey expiry : Int) = expiry := by
  rw [encodeExpiryKey]
  omega

theorem Accepted.encodeExpiryKey_eq (accepted : Accepted expiry) : (encodeExpiryKey expiry : Int) = expiry := by
  obtain ⟨low,high⟩ := accepted
  exact Vset.encodeExpiryKey_eq low (by omega)

theorem Accepted.le_encodeExpiryKey (accepted : Accepted expiry) {key : Nat} : key ≤ encodeExpiryKey expiry ↔ (key : Int) ≤ expiry := by
  have code := accepted.encodeExpiryKey_eq
  omega

theorem decodeExpiryKey_eq {key : Nat} (high : (key : Int) < 2^63) : decodeExpiryKey key = key :=
  wrap64_eq (by omega) high

end Timestamps

variable {E : Type}

structure Bucket.Sound (bucket : Bucket E) : Prop where
  nonempty : bucket.entries ≠ []
  short : ∀ pv, bucket = .vector pv → pv.length ≤ volatilesetVectorBucketMaxSize
  crowded : ∀ ht, bucket = .hashtable ht → 2 ≤ ht.length

theorem Bucket.sound_single (entry : E) : (Bucket.single entry).Sound :=
  ⟨cons_ne_nil entry [],nofun,nofun⟩

theorem Bucket.sound_vector {pv : List E} (nonempty : pv ≠ []) (short : pv.length ≤ volatilesetVectorBucketMaxSize) :
    (Bucket.vector pv).Sound :=
  ⟨nonempty,fun _ same => Bucket.vector.inj same ▸ short,nofun⟩

theorem Bucket.sound_pair (a b : E) : (Bucket.vector [a,b]).Sound :=
  Bucket.sound_vector (cons_ne_nil a [b]) (Nat.le_of_ble_eq_true rfl)

theorem Bucket.sound_hashtable {ht : List E} (crowded : 2 ≤ ht.length) : (Bucket.hashtable ht).Sound :=
  ⟨fun empty => by rw [Bucket.entries] at empty; simp [empty] at crowded,nofun,
    fun _ same => Bucket.hashtable.inj same ▸ crowded⟩

/-- A bucket of the radix tree by itself: its window begins no earlier than 8192 ms before its
end, with respect to each of its entries. -/
structure Placed (ex : E → Int) (x : Nat × Bucket E) : Prop where
  sound : x.2.Sound
  aligned : 16 ∣ x.1
  accepted : ∀ e ∈ x.2.entries, Accepted (ex e)
  near : ∀ e ∈ x.2.entries, (x.1 : Int) ≤ getMaxBucketTs (ex e)

structure Filed (ex : E → Int) (buckets : Rax E) : Prop where
  shelved : Shelved (fun e => encodeExpiryKey (ex e)) Bucket.entries buckets
  placed : ∀ x ∈ buckets, Placed ex x
  nodup : (contents Bucket.entries buckets).Nodup

abbrev Rax.entries (buckets : Rax E) : List E := contents Bucket.entries buckets

/-- The entry may stand in a bucket of this key between the buckets on the left and on the right. -/
structure Suits (ex : E → Int) (l : Rax E) (key : Nat) (r : Rax E) (e : E) : Prop where
  accepted : Accepted (ex e)
  near : (key : Int) ≤ getMaxBucketTs (ex e)
  below : ex e < key
  left : ∀ a ∈ l, (a.1 : Int) ≤ ex e
  fresh : e ∉ Rax.entries (l ++ r)

section Filing
variable {ex : E → Int} {buckets l r : Rax E} {x : Nat × Bucket E} {key : Nat} {e : E}

theorem mem_contents (member : x ∈ buckets) (inside : e ∈ x.2.entries) : e ∈ buckets.entries :=
  mem_flatMap.mpr ⟨x,member,inside⟩

theorem entries_perm (l r : Rax E) (x : Nat × Bucket E) : (Rax.entries (l ++ x :: r)).Perm (x.2.entries ++ Rax.entries (l ++ r)) :=
  contents_perm Bucket.entries l r x

theorem Placed.key_lt (placed : Placed ex x) : (x.1 : Int) < 2^63 := by
  obtain ⟨e,inside⟩ := exists_mem_of_ne_nil _ placed.sound.nonempty
  have accepted := placed.accepted e inside
  have near := placed.near e inside
  rw [getMaxBucketTs_eq accepted] at near
  obtain ⟨-,high⟩ := accepted
  omega

theorem Placed.decodeExpiryKey_eq (placed : Placed ex x) : decodeExpiryKey x.1 = x.1 := Vset.decodeExpiryKey_eq placed.key_lt

variable {ex' : E → Int}

theorem Placed.congr (placed : Placed ex x) (same : ∀ e ∈ x.2.entries, ex' e = ex e) : Placed ex' x where
  sound := placed.sound
  aligned := placed.aligned
  accepted e inside := same e inside ▸ placed.accepted e inside
  near e inside := same e inside ▸ placed.near e inside

theorem Suits.congr (suits : Suits ex l key r e) (same : ex' e = ex e) : Suits ex' l key r e where
  accepted := same ▸ suits.accepted
  near := same ▸ suits.near
  below := same ▸ suits.below
  left := same ▸ suits.left
  fresh := suits.fresh

theorem Placed.precedes_iff (placed : Placed ex x) {a : Nat × Bucket E} :
    Precedes (fun e => encodeExpiryKey (ex e)) Bucket.entries a x ↔ a.1 < x.1 ∧ ∀ e ∈ x.2.entries, (a.1 : Int) ≤ ex e :=
  and_congr_right fun _ => forall₂_congr fun e inside => (placed.accepted e inside).le_encodeExpiryKey

theorem filed_nil : Filed ex [] where
  shelved := ⟨List.Pairwise.nil,nofun⟩
  placed _ member := absurd member not_mem_nil
  nodup := nodup_nil

theorem Filed.congr (filed : Filed ex buckets) (same : ∀ e ∈ buckets.entries, ex' e = ex e) :
    Filed ex' buckets where
  shelved := filed.shelved.congr fun e member => by rw [same e member]
  placed y member := (filed.placed y member).congr fun e inside => same e (mem_contents member inside)
  nodup := filed.nodup

theorem Filed.accepted (filed : Filed ex buckets) (member : e ∈ buckets.entries) : Accepted (ex e) := by
  obtain ⟨y,there,inside⟩ := mem_flatMap.mp member
  exact (filed.placed y there).accepted e inside

theorem Filed.below (filed : Filed ex buckets) (member : x ∈ buckets) (inside : e ∈ x.2.entries) : ex e < x.1 := by
  have below : encodeExpiryKey (ex e) < x.1 := filed.shelved.below x member e inside
  have code := ((filed.placed x member).accepted e inside).encodeExpiryKey_eq
  omega

section
variable (filed : Filed ex (l ++ x :: r))
include filed

theorem Filed.here : Placed ex x := filed.placed x (by simp)

theorem Filed.left {a : Nat × Bucket E} (member : a ∈ l) : a.1 < x.1 ∧ ∀ e ∈ x.2.entries, (a.1 : Int) ≤ ex e :=
  filed.here.precedes_iff.mp (filed.shelved.cut.1 a member)

theorem Filed.right {b : Nat × Bucket E} (member : b ∈ r) : x.1 < b.1 ∧ ∀ e ∈ b.2.entries, (x.1 : Int) ≤ ex e :=
  (filed.placed b (by simp [member])).precedes_iff.mp (filed.shelved.cut.2 b member)

theorem Filed.others : (∀ a ∈ l, a.1 ≠ x.1) ∧ ∀ b ∈ r, b.1 ≠ x.1 :=
  ⟨fun _ member => (filed.left member).1.ne,fun _ member => (filed.right member).1.ne'⟩

theorem Filed.apart : (x.2.entries ++ Rax.entries (l ++ r)).Nodup := (entries_perm l r x).nodup_iff.mp filed.nodup

theorem Filed.bucket_nodup : x.2.entries.Nodup := (nodup_append.mp filed.apart).1

theorem Filed.remove : Filed ex (l ++ r) := by
  have sub : (l ++ r).Sublist (l ++ x :: r) := (List.Sublist.refl l).append (sublist_cons_self x r)
  exact ⟨filed.shelved.sublist sub,fun y member => filed.placed y (sub.subset member),(nodup_append.mp filed.apart).2.1⟩

theorem Filed.suits (inside : e ∈ x.2.entries) : Suits ex l x.1 r e where
  accepted := filed.here.accepted e inside
  near := filed.here.near e inside
  below := filed.below (by simp) inside
  left _ member := (filed.left member).2 e inside
  fresh there := (nodup_append.mp filed.apart).2.2 e inside e there rfl

end

theorem Filed.insert (filed : Filed ex (l ++ r)) (sound : x.2.Sound) (aligned : 16 ∣ x.1) (suits : ∀ e ∈ x.2.entries, Suits ex l x.1 r e)
    (right : ∀ b ∈ r, x.1 < b.1 ∧ ∀ e ∈ b.2.entries, (x.1 : Int) ≤ ex e) (nodup : x.2.entries.Nodup) : Filed ex (l ++ x :: r) := by
  have placed : Placed ex x := ⟨sound,aligned,fun e inside => (suits e inside).accepted,fun e inside => (suits e inside).near⟩
  refine ⟨filed.shelved.insert (fun a member => ?_) (fun b member => ?_) fun e standing => ?_,fun y member => ?_,?_⟩
  · obtain ⟨e,inside⟩ := exists_mem_of_ne_nil _ sound.nonempty
    have lower := (suits e inside).left a member
    have upper := (suits e inside).below
    exact placed.precedes_iff.mpr ⟨by omega,fun e inside => (suits e inside).left a member⟩
  · exact (filed.placed b (mem_append_right l member)).precedes_iff.mpr (right b member)
  · have code := (suits e standing).accepted.encodeExpiryKey_eq
    have bound := (suits e standing).below
    omega
  · rcases mem_append.mp member with head | tail
    · exact filed.placed y (mem_append_left r head)
    · rcases mem_cons.mp tail with rfl | tail
      · exact placed
      · exact filed.placed y (mem_append_right l tail)
  · refine (entries_perm l r x).nodup_iff.mpr (nodup_append.mpr ⟨nodup,filed.nodup,?_⟩)
    rintro e inside _ there rfl
    exact (suits e inside).fresh there

variable {bucket bucket' : Bucket E}

section
variable (filed : Filed ex (l ++ (key,bucket) :: r))
include filed

theorem Filed.replace_eq : replace key bucket' (l ++ (key,bucket) :: r) = l ++ (key,bucket') :: r :=
  replace_at filed.others.1 filed.others.2

theorem Filed.discard_eq : discard key (l ++ (key,bucket) :: r) = l ++ r := discard_at filed.others.1 filed.others.2

theorem Filed.exchange (sound : bucket'.Sound) (suits : ∀ e ∈ bucket'.entries, Suits ex l key r e) (nodup : bucket'.entries.Nodup) :
    Filed ex (l ++ (key,bucket') :: r) :=
  filed.remove.insert sound filed.here.aligned suits (fun _ member => filed.right member) nodup

theorem Filed.narrow (sound : bucket'.Sound) (sub : ∀ e ∈ bucket'.entries, e ∈ bucket.entries) (nodup : bucket'.entries.Nodup) :
    Filed ex (l ++ (key,bucket') :: r) :=
  filed.exchange sound (fun e inside => filed.suits (sub e inside)) nodup

end

theorem Filed.findBucket_cases (filed : Filed ex buckets) {expiry : Int} (accepted : Accepted expiry) :
    (findBucket buckets expiry = none ∧ ∃ l r, buckets = l ++ r ∧ (∀ a ∈ l, (a.1 : Int) ≤ expiry) ∧
      ∀ b ∈ r, getMaxBucketTs expiry < b.1) ∨
    ∃ l key bucket r, buckets = l ++ (key,bucket) :: r ∧ findBucket buckets expiry = some (key,bucket) ∧
      (∀ a ∈ l, (a.1 : Int) ≤ expiry) ∧ expiry < key ∧ (key : Int) ≤ getMaxBucketTs expiry := by
  have code := accepted.encodeExpiryKey_eq
  cases found : above (encodeExpiryKey expiry) buckets with
  | none =>
    refine .inl ⟨by rw [findBucket,found],buckets,[],(append_nil buckets).symm,fun a member => ?_,by simp⟩
    have bound := above_eq_none.mp found a member
    omega
  | some x =>
    obtain ⟨key,bucket⟩ := x
    obtain ⟨l,r,rfl,gt,left⟩ := above_eq_some found
    have decode := filed.here.decodeExpiryKey_eq
    have before : ∀ a ∈ l, (a.1 : Int) ≤ expiry := fun a member => by have bound := left a member; omega
    by_cases far : getMaxBucketTs expiry < key
    · refine .inl ⟨by rw [findBucket,found]; dsimp only; rw [decode,if_pos far],l,(key,bucket) :: r,rfl,before,fun b member => ?_⟩
      rcases mem_cons.mp member with rfl | after
      · exact far
      · have later : key < b.1 := (filed.right after).1
        omega
    · exact .inr ⟨l,key,bucket,r,rfl,by rw [findBucket,found]; dsimp only; rw [decode,if_neg far],before,by omega,not_lt.mp far⟩

theorem Filed.findBucket_entry (filed : Filed ex (l ++ (key,bucket) :: r)) (inside : e ∈ bucket.entries) :
    findBucket (l ++ (key,bucket) :: r) (ex e) = some (key,bucket) := by
  have placed := filed.here
  have found := filed.shelved.above_mark (x := (key,bucket)) inside
  rw [findBucket,found]
  dsimp only
  rw [placed.decodeExpiryKey_eq,if_neg (not_lt.mpr (placed.near e inside))]

end Filing

end ValkeyWasm.Vset
