import ValkeyWasm.Vset.Kept

/-! Iteration with `vsetNext` returns every entry once. -/
namespace ValkeyWasm.Vset
open Library.Shelves List

variable {E : Type} {choices : Choices E}

def Bucket.listing (choices : Choices E) : Bucket E → List E
  | .none => []
  | .single entry => [entry]
  | .vector pv => pv
  | .hashtable ht => choices.order ht

theorem Bucket.listing_perm (choices : Choices E) (bucket : Bucket E) : (bucket.listing choices).Perm bucket.entries := by
  cases bucket with
  | none => exact List.Perm.refl _
  | single entry => exact List.Perm.refl _
  | vector pv => exact List.Perm.refl _
  | hashtable ht => exact choices.order_perm ht

/-- What the iterator has still to return from its bucket. -/
inductive Here (choices : Choices E) (it : Iterator E) : List E → Prop where
  | start (bucket : Bucket E) (at' : it.bucket = .plain bucket) (fresh : it.iterationState = .none) (some' : bucket ≠ .none) :
      Here choices it (bucket.listing choices)
  | single (entry : E) (at' : it.bucket = .plain (.single entry)) (state : it.iterationState = .single) : Here choices it []
  | vector (pv : List E) (at' : it.bucket = .plain (.vector pv)) (state : it.iterationState = .vector) :
      Here choices it (pv.drop (it.viter + 1))
  | hashtable (ht : List E) (at' : it.bucket = .plain (.hashtable ht)) (state : it.iterationState = .hashtable) :
      Here choices it it.hiter

/-- What it has still to return from the buckets after it. -/
inductive Beyond (choices : Choices E) (it : Iterator E) : List E → Prop where
  | alone (parent : it.parentBucket = .plain .none) : Beyond choices it []
  | tree (buckets : Rax E) (parent : it.parentBucket = .rax buckets) (sound : ∀ x ∈ it.riter, x.2.Sound) :
      Beyond choices it (contents (Bucket.listing choices) it.riter)

variable {it : Iterator E} {beyond : List E}

theorem Beyond.same {it' : Iterator E} (ahead : Beyond choices it beyond) (parent : it'.parentBucket = it.parentBucket)
    (riter : it'.riter = it.riter) : Beyond choices it' beyond := by
  cases ahead with
  | alone none' => exact .alone (parent.trans none')
  | tree buckets tree sound =>
    rw [← riter] at sound ⊢
    exact .tree buckets (parent.trans tree) sound

theorem next_here {e : E} {here : List E} (rounds : Nat) (ahead : Here choices it (e :: here)) :
    ∃ it', vsetNextLoop choices (rounds + 1) it = some (it',some e) ∧ Here choices it' here ∧
      it'.bucket = it.bucket ∧ it'.parentBucket = it.parentBucket ∧ it'.riter = it.riter := by
  rw [vsetNextLoop]
  generalize shape : e :: here = all at ahead
  cases ahead with
  | start bucket at' fresh some' =>
    rw [at']
    cases bucket with
    | none => exact absurd rfl some'
    | single entry =>
      cases shape
      simp only [vsetBucketNextSingle,fresh]
      exact ⟨_,rfl,.single e at' rfl,at',rfl,rfl⟩
    | vector pv =>
      subst shape
      simp only [vsetBucketNextVector,fresh]
      exact ⟨_,rfl,.vector (e :: here) at' rfl,at',rfl,rfl⟩
    | hashtable ht =>
      change e :: here = choices.order ht at shape
      simp only [vsetBucketNextHashtable,fresh,← shape]
      exact ⟨_,rfl,.hashtable ht at' rfl,at',rfl,rfl⟩
  | single entry at' state => cases shape
  | vector pv at' state =>
    have found : pv[it.viter + 1]? = some e := by
      rw [← head?_drop,← shape]
      rfl
    have rest : here = pv.drop (it.viter + 1 + 1) := by
      rw [← drop_drop,← shape]
      rfl
    rw [at']
    simp only [vsetBucketNextVector,state,reduceCtorEq,if_false,found]
    refine ⟨_,rfl,?_,at',rfl,rfl⟩
    rw [rest]
    exact .vector pv at' rfl
  | hashtable ht at' state =>
    rw [at']
    simp only [vsetBucketNextHashtable,state,reduceCtorEq,if_false,← shape]
    exact ⟨_,rfl,.hashtable ht at' rfl,at',rfl,rfl⟩

theorem next_leave (rounds : Nat) (ahead : Here choices it [])
    (sound : ∀ bucket, it.bucket = .plain bucket → bucket.Sound) :
    ∃ it', vsetNextLoop choices (rounds + 1) it = vsetNextLoop choices rounds it' ∧ it'.bucket = it.parentBucket ∧
      it'.iterationState = vsetBucketType it.parentBucket ∧ it'.parentBucket = it.parentBucket ∧ it'.riter = it.riter := by
  rw [vsetNextLoop]
  generalize shape : ([] : List E) = all at ahead
  cases ahead with
  | start bucket at' fresh some' =>
    have empty : bucket.entries = [] := (shape ▸ bucket.listing_perm choices).nil_eq.symm
    exact absurd empty (sound bucket at').nonempty
  | single entry at' state =>
    rw [at']
    simp only [vsetBucketNextSingle,state]
    exact ⟨_,rfl,rfl,rfl,rfl,rfl⟩
  | vector pv at' state =>
    have found : pv[it.viter + 1]? = none := by rw [← head?_drop,← shape]; rfl
    rw [at']
    simp only [vsetBucketNextVector,state,reduceCtorEq,if_false,found]
    exact ⟨_,rfl,rfl,rfl,rfl,rfl⟩
  | hashtable ht at' state =>
    rw [at']
    simp only [vsetBucketNextHashtable,state,reduceCtorEq,if_false,← shape]
    exact ⟨_,rfl,rfl,rfl,rfl,rfl⟩

variable {bucket : Bucket E}

theorem next_tree {buckets riter : Rax E} {key : Nat} (rounds : Nat) (at' : it.bucket = .rax buckets)
    (state : it.iterationState = .rax) (rest : it.riter = (key,bucket) :: riter) :
    vsetNextLoop choices (rounds + 1) it =
      vsetNextLoop choices rounds { it with iterationState := .none, bucket := .plain bucket, riter } := by
  rw [vsetNextLoop,at']
  simp [state,rest]

theorem Bucket.Sound.listing (choices : Choices E) (sound : bucket.Sound) :
    ∃ e more, bucket.listing choices = e :: more :=
  exists_cons_of_ne_nil fun empty => sound.nonempty (empty ▸ bucket.listing_perm choices).nil_eq.symm

theorem Bucket.Sound.ne_none (sound : bucket.Sound) : bucket ≠ .none := by
  rintro rfl
  exact sound.nonempty rfl

theorem vsetScan_enter {calls rounds : Nat} {fresh : Iterator E} {next : Bucket E}
    (step : vsetNext choices it = vsetNextLoop choices (rounds + 1) fresh) (state : fresh.iterationState = .none)
    (at' : fresh.bucket = .plain next) (sound : next.Sound) (after : Beyond choices fresh beyond)
    (rest : ∀ it' here, Here choices it' here → Beyond choices it' beyond → (∀ bucket, it'.bucket = .plain bucket → bucket.Sound) →
      (here ++ beyond).length < calls → vsetScan choices calls it' = some (here ++ beyond))
    (enough : (next.listing choices ++ beyond).length < calls + 1) :
    vsetScan choices (calls + 1) it = some (next.listing choices ++ beyond) := by
  obtain ⟨e,here,listing⟩ := sound.listing choices
  have inside : Here choices fresh (e :: here) := listing ▸ .start next at' state sound.ne_none
  obtain ⟨it',returned,inside',same,parent,riter⟩ := next_here rounds inside
  rw [listing] at enough ⊢
  rw [vsetScan,step,returned]
  dsimp only
  rw [rest it' here inside' (after.same parent riter) (fun bucket there => ?_) (Nat.lt_of_succ_lt_succ enough)]
  · rfl
  · rw [same,at'] at there
    cases there
    exact sound

theorem vsetScan_ahead {calls : Nat} {here : List E} (inside : Here choices it here)
    (after : Beyond choices it beyond) (sound : ∀ bucket, it.bucket = .plain bucket → bucket.Sound)
    (enough : (here ++ beyond).length < calls) : vsetScan choices calls it = some (here ++ beyond) := by
  induction calls generalizing it here beyond with
  | zero => omega
  | succ calls ih =>
    obtain ⟨rounds,turns⟩ : ∃ rounds, turns it = rounds + 3 := ⟨_,rfl⟩
    cases here with
    | cons e here =>
      obtain ⟨it',step,inside',same,parent,riter⟩ := next_here (rounds + 2) inside
      rw [vsetScan,vsetNext,turns,step]
      dsimp only
      rw [ih inside' (after.same parent riter) (by rwa [same]) (Nat.lt_of_succ_lt_succ enough)]
      rfl
    | nil =>
      obtain ⟨it',step,bucket,state,parent,riter⟩ := next_leave (rounds + 2) inside sound
      cases after with
      | alone none' =>
        rw [none'] at bucket
        rw [vsetScan,vsetNext,turns,step,vsetNextLoop,bucket]
        rfl
      | tree buckets tree all =>
        rw [tree] at bucket state
        cases rest : it.riter with
        | nil =>
          rw [rest] at riter
          rw [vsetScan,vsetNext,turns,step,vsetNextLoop,bucket]
          simp only [state,vsetBucketType,reduceCtorEq,if_false,riter]
          rfl
        | cons x more =>
          obtain ⟨key,next⟩ := x
          rw [rest] at riter all enough
          have entered := step.trans (next_tree (rounds + 1) bucket state riter)
          rw [← turns] at entered
          exact vsetScan_enter entered rfl rfl (all (key,next) mem_cons_self)
            (.tree buckets (parent.trans tree) fun y member => all y (mem_cons_of_mem _ member))
            (fun _ _ inside' after' sound' enough' => ih inside' after' sound' enough') enough

theorem contents_listing_perm (choices : Choices E) (buckets : Rax E) :
    (contents (Bucket.listing choices) buckets).Perm (contents Bucket.entries buckets) := by
  induction buckets with
  | nil => exact List.Perm.refl _
  | cons x buckets ih => exact (x.2.listing_perm choices).append ih

theorem vsetScan_spec (choices : Choices E) {ex : E → Int} {set : VolatileSet E} (kept : Kept ex set) {calls : Nat}
    (enough : set.entries.length < calls) :
    ∃ entries, vsetScan choices calls (vsetInitIterator set) = some entries ∧ entries.Perm set.entries := by
  match set, kept with
  | .plain .none, _ =>
    cases calls with
    | zero => omega
    | succ calls => exact ⟨[],rfl,List.Perm.refl _⟩
  | .plain (.single entry), _ =>
    have inside : Here choices (vsetInitIterator (.plain (.single entry))) [entry] := .start (.single entry) rfl rfl (by simp)
    exact ⟨_,vsetScan_ahead inside (.alone rfl) (fun b at' => by cases at'; exact Bucket.sound_single entry) enough,List.Perm.refl _⟩
  | .plain (.vector pv), ⟨sound,_⟩ =>
    have inside : Here choices (vsetInitIterator (.plain (.vector pv))) pv := .start (.vector pv) rfl rfl (by simp)
    rw [← append_nil (VolatileSet.entries _)] at enough ⊢
    exact ⟨_,vsetScan_ahead inside (.alone rfl) (fun b at' => by cases at'; exact sound) enough,List.Perm.refl _⟩
  | .rax ((key,next) :: more), ⟨filed,_⟩ =>
    have perm := contents_listing_perm choices ((key,next) :: more)
    have entered : vsetNext choices (vsetInitIterator (.rax ((key,next) :: more))) = vsetNextLoop choices (_ + 1)
        { iterationState := .none, bucket := .plain next, parentBucket := .rax ((key,next) :: more), riter := more, viter := 0, hiter := [] } := rfl
    cases calls with
    | zero => omega
    | succ calls =>
      refine ⟨_,vsetScan_enter entered rfl rfl (filed.placed (key,next) mem_cons_self).sound
        (.tree ((key,next) :: more) rfl fun y member => (filed.placed y (mem_cons_of_mem _ member)).sound)
        (fun _ _ inside after sound enough => vsetScan_ahead inside after sound enough) ?_,perm⟩
      exact perm.length_eq ▸ enough

end ValkeyWasm.Vset
