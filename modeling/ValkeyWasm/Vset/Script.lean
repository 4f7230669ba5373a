import ValkeyWasm.Vset.Expiry
import ValkeyWasm.Vset.Iteration

/-! Runs of calls on a volatile set that starts empty, beside the set of timed entries that its
owner has in mind. -/
namespace ValkeyWasm.Vset
open Function Option

inductive Call (E : Type) where
  | addEntry (entry : E)
  | removeEntry (entry : E)
  | updateEntry (oldEntry newEntry : Option E) (oldExpiry newExpiry : Int)
  | removeExpired (now : Int) (maxCount : Nat)

/-- A call with the memory that it finds and with what the libraries choose in it. -/
structure Step (E M : Type) where
  choices : Choices E
  mem : M
  call : Call E

structure Timed (E : Type) where
  set : VolatileSet E
  tracked : E → Option Int

def Timed.vsetInit {E : Type} : Timed E := ⟨.plain .none,fun _ => none⟩

section Run
variable {E M : Type} [DecidableEq E] (getExpiry : M → E → Int) (expiryFunc : E → M → M)

/-- What the owner tracks after an update: an entry that is `NULL` or has the expiry -1 is not
tracked. -/
def retrack (tracked : E → Option Int) (oldEntry newEntry : Option E) (oldExpiry newExpiry : Int) : E → Option Int :=
  let without := match oldEntry.filter fun _ => oldExpiry ≠ -1 with
    | some old => Function.update tracked old none
    | none => tracked
  match newEntry.filter fun _ => newExpiry ≠ -1 with
  | some new => Function.update without new (some newExpiry)
  | none => without

def Timed.perform (s : Timed E) (step : Step E M) : Option (Timed E) :=
  match step.call with
  | .addEntry entry =>
    (vsetAddEntry step.choices (getExpiry step.mem) s.set entry).map fun set =>
      ⟨set,Function.update s.tracked entry (some (getExpiry step.mem entry))⟩
  | .removeEntry entry =>
    (vsetRemoveEntry step.choices (getExpiry step.mem) s.set entry).map fun (set,_) => ⟨set,Function.update s.tracked entry none⟩
  | .updateEntry oldEntry newEntry oldExpiry newExpiry =>
    (vsetUpdateEntry step.choices (getExpiry step.mem) s.set oldEntry newEntry oldExpiry newExpiry).map fun (set,_) =>
      ⟨set,retrack s.tracked oldEntry newEntry oldExpiry newExpiry⟩
  | .removeExpired now maxCount =>
    (vsetRemoveExpired step.choices getExpiry expiryFunc step.mem s.set now maxCount).map fun (set,gone) =>
      ⟨set,fun e => if e ∈ gone then none else s.tracked e⟩

def Timed.run (s : Timed E) (steps : List (Step E M)) : Option (Timed E) := steps.foldlM (Timed.perform getExpiry expiryFunc) s

/-- What the owner takes care of, for expiries up to `top`: only untracked entries are added, the
old entry of an update is tracked with the given expiry, the new one is not tracked by another
entry, and the memory has the expiries of the tracked entries. -/
def Timed.Allows (top : Int) (s : Timed E) (step : Step E M) : Prop :=
  match step.call with
  | .addEntry entry =>
    s.tracked entry = none ∧ (0 ≤ getExpiry step.mem entry ∧ getExpiry step.mem entry ≤ top) ∧
      ∀ e expiry, s.tracked e = some expiry → getExpiry step.mem e = expiry
  | .removeEntry entry =>
    (0 ≤ getExpiry step.mem entry ∧ getExpiry step.mem entry ≤ top) ∧ ∀ e expiry, s.tracked e = some expiry → getExpiry step.mem e = expiry
  | .updateEntry oldEntry newEntry oldExpiry newExpiry =>
    (∀ old ∈ oldEntry, oldExpiry ≠ -1 → s.tracked old = some oldExpiry) ∧
      (∀ new ∈ newEntry, newExpiry ≠ -1 → getExpiry step.mem new = newExpiry ∧ (0 ≤ newExpiry ∧ newExpiry ≤ top) ∧
        (s.tracked new = none ∨ oldEntry = some new ∧ oldExpiry ≠ -1)) ∧
      ∀ e expiry, ¬ (oldEntry = some e ∧ oldExpiry ≠ -1) → s.tracked e = some expiry → getExpiry step.mem e = expiry
  | .removeExpired _ _ => ∀ e expiry, s.tracked e = some expiry → getExpiry step.mem e = expiry

/-- A removal from a tree asks for an expiry that a bucket covers, as that of every tracked entry
is. -/
def Timed.Covered (s : Timed E) (step : Step E M) : Prop :=
  match step.call, s.set with
  | .removeEntry entry, .rax buckets => findBucket buckets (getExpiry step.mem entry) ≠ none
  | _, _ => True

def Timed.Permits (top : Int) (also : Timed E → Step E M → Prop) (s : Timed E) : List (Step E M) → Prop
  | [] => True
  | step :: steps =>
    s.Allows getExpiry top step ∧ also s step ∧ ∀ s', s.perform getExpiry expiryFunc step = some s' → s'.Permits top also steps

def Timed.Good (s : Timed E) : Prop :=
  Kept (fun e => (s.tracked e).getD 0) s.set ∧ ∀ e, e ∈ s.set.entries ↔ (s.tracked e).isSome

end Run

section Steps
variable {E M : Type} {s : Timed E}

theorem Timed.Good.mem_iff (good : s.Good) {e : E} : e ∈ s.set.entries ↔ ∃ expiry, s.tracked e = some expiry :=
  (good.2 e).trans isSome_iff_exists

theorem Timed.Good.absent_iff (good : s.Good) {e : E} : e ∉ s.set.entries ↔ s.tracked e = none := by
  rw [good.2 e,Bool.not_eq_true,isSome_eq_false_iff,isNone_iff_eq_none]

variable {g : E → Int}

theorem Timed.Good.eq_getD (good : s.Good) {e : E} (member : e ∈ s.set.entries)
    (knows : ∀ expiry, s.tracked e = some expiry → g e = expiry) : g e = (s.tracked e).getD 0 := by
  obtain ⟨expiry,known⟩ := good.mem_iff.mp member
  rw [knows expiry known,known,getD_some]

theorem Timed.Good.kept (good : s.Good) (knows : ∀ e expiry, s.tracked e = some expiry → g e = expiry) : Kept g s.set :=
  good.1.congr fun e member => good.eq_getD member (knows e)

variable {set : VolatileSet E} {tracked : E → Option Int}

theorem good_of_kept (kept : Kept g set)
    (same : ∀ e ∈ set.entries, tracked e = some (g e)) (none' : ∀ e, e ∉ set.entries → tracked e = none) : (⟨set,tracked⟩ : Timed E).Good := by
  refine ⟨kept.congr fun e member => by dsimp only; rw [same e member,getD_some],fun e => ⟨fun member => ?_,fun known => ?_⟩⟩
  · dsimp only
    rw [same e member]
    rfl
  by_contra absent
  dsimp only at known
  rw [none' e absent] at known
  cases known

variable [DecidableEq E]

theorem Timed.Good.exchange (good : s.Good) (out into : Option E)
    (kept : Kept g set) (entries : ∀ e, e ∈ set.entries ↔ e ∈ into ∨ e ∈ s.set.entries ∧ e ∉ out)
    (knows : ∀ e expiry, e ∉ out → s.tracked e = some expiry → g e = expiry)
    (come : ∀ e ∈ into, tracked e = some (g e)) (gone : ∀ e ∈ out, e ∉ into → tracked e = none)
    (others : ∀ e, e ∉ into → e ∉ out → tracked e = s.tracked e) : (⟨set,tracked⟩ : Timed E).Good := by
  refine good_of_kept kept (fun e member => ?_) fun e absent => ?_
  · by_cases new : e ∈ into
    · exact come e new
    · obtain ⟨old,stays⟩ := ((entries e).mp member).resolve_left new
      obtain ⟨expiry,known⟩ := good.mem_iff.mp old
      rw [others e new stays,knows e expiry stays known,known]
  · have new : e ∉ into := fun new => absent ((entries e).mpr (.inl new))
    by_cases left : e ∈ out
    · exact gone e left new
    · rw [others e new left]
      exact good.absent_iff.mp fun old => absent ((entries e).mpr (.inr ⟨old,left⟩))

omit [DecidableEq E] in
theorem mem_rest {l rest : List E} {a : E} (nodup : l.Nodup) (perm : l.Perm (a :: rest)) (e : E) : e ∈ rest ↔ e ∈ l ∧ e ≠ a := by
  have absent := (List.nodup_cons.mp (perm.nodup_iff.mp nodup)).1
  rw [perm.mem_iff,List.mem_cons]
  refine ⟨fun member => ⟨.inr member,fun same => absent (same ▸ member)⟩,fun ⟨either,differ⟩ => either.resolve_left differ⟩

theorem Timed.Good.add (good : s.Good) (choices : Choices E) {entry : E} (absent : s.tracked entry = none)
    (accepted : Accepted (g entry)) (knows : ∀ e expiry, s.tracked e = some expiry → g e = expiry) :
    ∃ set, vsetAddEntry choices g s.set entry = some set ∧ (⟨set,Function.update s.tracked entry (some (g entry))⟩ : Timed E).Good := by
  obtain ⟨set,step,kept,perm⟩ := vsetAddEntry_spec choices (good.kept knows) (good.absent_iff.mpr absent) accepted
  refine ⟨set,step,good.exchange none (some entry) kept (fun e => ?_) (fun e expiry _ => knows e expiry) ?_ (by simp) ?_⟩
  · rw [perm.mem_iff]
    simp [eq_comm]
  · intro e new
    cases new
    exact update_self ..
  · intro e new _
    exact update_of_ne (fun same => new (congrArg some same.symm)) ..

theorem Timed.Good.remove (good : s.Good) (choices : Choices E) {entry : E} {expiry : Int} (tracked : s.tracked entry = some expiry)
    (knows : ∀ e expiry, e ≠ entry → s.tracked e = some expiry → g e = expiry) :
    ∃ set, vsetRemoveEntryWithExpiry choices g s.set entry expiry = some (set,true) ∧
      (⟨set,Function.update s.tracked entry none⟩ : Timed E).Good := by
  have member : entry ∈ s.set.entries := good.mem_iff.mpr ⟨expiry,tracked⟩
  have known : ∀ e ∈ s.set.entries, e ≠ entry → g e = (s.tracked e).getD 0 := fun e inside differ =>
    good.eq_getD inside fun expiry => knows e expiry differ
  obtain ⟨set,step,kept,perm⟩ := vsetRemoveEntryWithExpiry_spec choices good.1 member known
  rw [tracked] at step
  have rest := mem_rest good.1.nodup perm
  have kept' : Kept g set := kept.congr fun e inside => known e ((rest e).mp inside).1 ((rest e).mp inside).2
  refine ⟨set,step,good.exchange (some entry) none kept' (fun e => ?_) ?_ (by simp) ?_ ?_⟩
  · rw [rest e]
    simp [eq_comm]
  · exact fun e other stays => knows e other fun same => stays (congrArg some same.symm)
  · intro e old _
    cases old
    exact update_self ..
  · intro e _ stays
    exact update_of_ne (fun same => stays (congrArg some same.symm)) ..

theorem Timed.Good.unchanged (good : s.Good) (kept : Kept g set) (perm : set.entries.Perm s.set.entries)
    (knows : ∀ e expiry, s.tracked e = some expiry → g e = expiry) : (⟨set,s.tracked⟩ : Timed E).Good :=
  good.exchange none none kept (fun e => by rw [perm.mem_iff]; simp) (fun e expiry _ => knows e expiry) (by simp) (by simp)
    fun _ _ _ => rfl

theorem Timed.Good.update (good : s.Good) (choices : Choices E) {oldEntry newEntry : Option E} {oldExpiry newExpiry : Int}
    (old' : ∀ old ∈ oldEntry, oldExpiry ≠ -1 → s.tracked old = some oldExpiry)
    (new' : ∀ new ∈ newEntry, newExpiry ≠ -1 → g new = newExpiry ∧ Accepted newExpiry ∧
      (s.tracked new = none ∨ oldEntry = some new ∧ oldExpiry ≠ -1))
    (knows : ∀ e expiry, ¬ (oldEntry = some e ∧ oldExpiry ≠ -1) → s.tracked e = some expiry → g e = expiry) :
    ∃ set reply, vsetUpdateEntry choices g s.set oldEntry newEntry oldExpiry newExpiry = some (set,reply) ∧
      (⟨set,retrack s.tracked oldEntry newEntry oldExpiry newExpiry⟩ : Timed E).Good := by
  by_cases same : oldEntry = newEntry ∧ oldExpiry = newExpiry
  · -- nothing to do
    obtain ⟨rfl,rfl⟩ := same
    refine ⟨s.set,true,by rw [vsetUpdateEntry,if_pos ⟨rfl,rfl⟩],?_⟩
    have again : retrack s.tracked oldEntry oldEntry oldExpiry oldExpiry = s.tracked := by
      unfold retrack
      cases tracked : oldEntry.filter fun _ => oldExpiry ≠ -1 with
      | none => rfl
      | some old =>
        obtain ⟨there,valid⟩ := filter_eq_some_iff.mp tracked
        dsimp only
        rw [update_idem,← old' old there (of_decide_eq_true valid),update_eq_self]
    rw [again]
    exact good
  · rw [vsetUpdateEntry,if_neg same]
    unfold retrack
    cases first : oldEntry.filter fun _ => oldExpiry ≠ -1 with
    | none =>
      have untracked : ∀ e, ¬ (oldEntry = some e ∧ oldExpiry ≠ -1) := by
        rintro e ⟨rfl,valid⟩
        simp [valid] at first
      cases second : newEntry.filter fun _ => newExpiry ≠ -1 with
      | none => exact ⟨s.set,false,rfl,good⟩
      | some new =>
        obtain ⟨rfl,valid⟩ := filter_eq_some_iff.mp second
        obtain ⟨expiry,accepted,absent⟩ := new' new rfl (of_decide_eq_true valid)
        subst expiry
        obtain ⟨set,step,good'⟩ := good.add choices (absent.resolve_right (untracked new)) accepted fun e other => knows e other (untracked e)
        exact ⟨set,true,by dsimp only; rw [step]; rfl,good'⟩
    | some old =>
      obtain ⟨rfl,valid⟩ := filter_eq_some_iff.mp first
      have valid := of_decide_eq_true valid
      have tracked := old' old rfl valid
      have knows : ∀ e expiry, e ≠ old → s.tracked e = some expiry → g e = expiry := fun e expiry differ =>
        knows e expiry fun both => differ (some.inj both.1).symm
      cases second : newEntry.filter fun _ => newExpiry ≠ -1 with
      | none =>
        obtain ⟨set,step,good'⟩ := good.remove choices tracked knows
        exact ⟨set,true,step,good'⟩
      | some new =>
        obtain ⟨rfl,valid'⟩ := filter_eq_some_iff.mp second
        obtain ⟨expiry,accepted,absent⟩ := new' new rfl (of_decide_eq_true valid')
        subst expiry
        have member : old ∈ s.set.entries := good.mem_iff.mpr ⟨oldExpiry,tracked⟩
        have exOld : (s.tracked old).getD 0 = oldExpiry := by rw [tracked,getD_some]
        have fresh : new = old ∨ new ∉ s.set.entries := by
          rcases absent with none' | ⟨there,_⟩
          · exact .inr (good.absent_iff.mpr none')
          · exact .inl (some.inj there).symm
        obtain ⟨set,rest,step,kept,perm,perm'⟩ := vsetUpdateEntry_spec choices good.1 member fresh accepted
          (fun e inside differ => good.eq_getD inside fun expiry => knows e expiry differ) fun both => same ⟨congrArg some both.1,exOld.symm.trans both.2⟩
        have stays := mem_rest good.1.nodup perm
        rw [exOld,vsetUpdateEntry,if_neg same,first,second] at step
        refine ⟨set,true,step,good.exchange (some old) (some new) kept (fun e => ?_) ?_ ?_ ?_ ?_⟩
        · rw [perm'.mem_iff,List.mem_cons,stays e]
          simp [eq_comm]
        · exact fun e expiry left => knows e expiry fun equal => left (congrArg some equal.symm)
        · intro e into
          cases into
          exact update_self ..
        · intro e out into
          cases out
          dsimp only
          rw [update_of_ne fun equal => into (congrArg some equal.symm)]
          exact update_self ..
        · intro e into out
          dsimp only
          rw [update_of_ne fun equal => into (congrArg some equal.symm),
            update_of_ne fun equal => out (congrArg some equal.symm)]

end Steps

section Runs
variable {E M : Type} [DecidableEq E] {getExpiry : M → E → Int} {expiryFunc : E → M → M} {top : Int} {s : Timed E}

theorem Timed.Good.perform (frees : Frees getExpiry expiryFunc) (small : top < 2^63 - 2^13) (good : s.Good) {step : Step E M}
    (allows : s.Allows getExpiry top step) :
    (s.Covered getExpiry step → ∃ s', s.perform getExpiry expiryFunc step = some s' ∧ s'.Good) ∧
      (¬ s.Covered getExpiry step → s.perform getExpiry expiryFunc step = none) := by
  have accepted : ∀ expiry : Int, 0 ≤ expiry ∧ expiry ≤ top → Accepted expiry := fun expiry range => ⟨range.1,by omega⟩
  obtain ⟨choices,mem,call⟩ := step
  cases call with
  | addEntry entry =>
    obtain ⟨absent,range,knows⟩ := allows
    obtain ⟨set,step,good'⟩ := good.add choices absent (accepted _ range) knows
    exact ⟨fun _ => ⟨_,congrArg (Option.map _) step,good'⟩,fun uncovered => absurd trivial uncovered⟩
  | removeEntry entry =>
    obtain ⟨range,knows⟩ := allows
    cases tracked : s.tracked entry with
    | some expiry =>
      have expiry' := knows entry expiry tracked
      obtain ⟨set,step,good'⟩ := good.remove choices tracked fun e other _ => knows e other
      rw [← expiry'] at step
      refine ⟨fun _ => ⟨_,congrArg (Option.map _) step,good'⟩,fun uncovered => ?_⟩
      -- a tracked entry is in a bucket
      have kept := good.kept knows
      have member : entry ∈ s.set.entries := good.mem_iff.mpr ⟨expiry,tracked⟩
      unfold Timed.Covered at uncovered
      split at uncovered
      · rename_i entry' buckets same tree
        cases same
        rw [tree] at kept member
        obtain ⟨l,key,bucket,r,rfl,inside⟩ := split_entry member
        rw [kept.1.findBucket_entry inside] at uncovered
        exact absurd (some_ne_none _) uncovered
      · exact absurd trivial uncovered
    | none =>
      have unmoved : Function.update s.tracked entry none = s.tracked := by rw [← tracked,update_eq_self]
      rcases vsetRemoveEntryWithExpiry_absent choices (good.kept knows) (good.absent_iff.mpr tracked) (accepted _ range) (fun _ _ => rfl)
        with ⟨set,step,kept,perm⟩ | ⟨buckets,tree,missing,step⟩
      · refine ⟨fun _ => ⟨⟨set,Function.update s.tracked entry none⟩,congrArg (Option.map _) step,?_⟩,fun uncovered => ?_⟩
        · rw [unmoved]
          exact good.unchanged kept perm knows
        unfold Timed.Covered at uncovered
        split at uncovered
        · rename_i entry' buckets same tree
          cases same
          have missing := not_not.mp uncovered
          rw [tree,vsetRemoveEntryWithExpiry,removeFromBucketRax,missing] at step
          cases step
        · exact absurd trivial uncovered
      · refine ⟨fun covered => ?_,fun _ => congrArg (Option.map _) step⟩
        unfold Timed.Covered at covered
        rw [tree] at covered
        exact absurd missing covered
  | updateEntry oldEntry newEntry oldExpiry newExpiry =>
    obtain ⟨old,new,knows⟩ := allows
    have new' : ∀ e ∈ newEntry, newExpiry ≠ -1 → getExpiry mem e = newExpiry ∧ Accepted newExpiry ∧
        (s.tracked e = none ∨ oldEntry = some e ∧ oldExpiry ≠ -1) := by
      intro e there valid
      obtain ⟨reads,range,fresh⟩ := new e there valid
      exact ⟨reads,accepted _ range,fresh⟩
    obtain ⟨set,reply,step,good'⟩ := good.update choices old new' knows
    exact ⟨fun _ => ⟨_,congrArg (Option.map _) step,good'⟩,fun uncovered => absurd trivial uncovered⟩
  | removeExpired now maxCount =>
    have knows := allows
    obtain ⟨set,gone,step,kept,⟨perm,-,-,-⟩⟩ := vsetRemoveExpired_spec choices frees now mem maxCount (good.kept knows) fun _ _ => rfl
    refine ⟨fun _ => ⟨_,congrArg (Option.map _) step,good_of_kept kept (fun e member => ?_) fun e absent => ?_⟩,
      fun uncovered => absurd trivial uncovered⟩
    · have inside := perm.mem_iff.mpr (List.mem_append_right gone member)
      obtain ⟨expiry,known⟩ := good.mem_iff.mp inside
      have stays : e ∉ gone := fun removed =>
        (List.nodup_append.mp (perm.nodup_iff.mp good.1.nodup)).2.2 e removed e member rfl
      rw [if_neg stays,known]
      exact congrArg some (knows e expiry known).symm
    · by_cases removed : e ∈ gone
      · exact if_pos removed
      · rw [if_neg removed]
        refine good.absent_iff.mp fun inside => ?_
        exact (List.mem_append.mp (perm.mem_iff.mp inside)).elim removed absent

omit [DecidableEq E] in
theorem good_vsetInit : (Timed.vsetInit : Timed E).Good := ⟨trivial,fun e => by simp [Timed.vsetInit,VolatileSet.entries,Bucket.entries]⟩

section
variable (frees : Frees getExpiry expiryFunc) (small : top < 2^63 - 2^13) (good : s.Good) (steps : List (Step E M))
include frees small good steps

theorem Timed.Good.run {also : Timed E → Step E M → Prop} (permits : s.Permits getExpiry expiryFunc top also steps) {s' : Timed E}
    (reached : s.run getExpiry expiryFunc steps = some s') : s'.Good := by
  induction steps generalizing s with
  | nil =>
    cases reached
    exact good
  | cons step steps ih =>
    obtain ⟨allows,-,rest⟩ := permits
    obtain ⟨next,first,later⟩ := bind_eq_some_iff.mp reached
    obtain ⟨covered,uncovered⟩ := good.perform frees small allows
    by_cases cover : s.Covered getExpiry step
    · obtain ⟨next',first',good'⟩ := covered cover
      cases first.symm.trans first'
      exact ih good' (rest _ first) later
    · cases first.symm.trans (uncovered cover)

theorem Timed.Good.run_some
    (permits : s.Permits getExpiry expiryFunc top (Timed.Covered getExpiry) steps) : ∃ s', s.run getExpiry expiryFunc steps = some s' := by
  induction steps generalizing s with
  | nil => exact ⟨s,rfl⟩
  | cons step steps ih =>
    obtain ⟨allows,cover,rest⟩ := permits
    obtain ⟨next,first,good'⟩ := (good.perform frees small allows).1 cover
    obtain ⟨s',later⟩ := ih good' (rest next first)
    exact ⟨s',by rw [Timed.run,List.foldlM_cons,first]; exact later⟩

end

end Runs

section Results
variable {E M : Type} {s : Timed E}

/-- What a volatile set promises about its entries and about itself. -/
structure Timed.Orderly (s : Timed E) : Prop where
  nodup : s.set.entries.Nodup
  stored : ∀ e, e ∈ s.set.entries ↔ (s.tracked e).isSome
  bucket : ∀ buckets, s.set = .rax buckets → ∀ x ∈ buckets, ∀ e ∈ x.2.entries, ∀ expiry, s.tracked e = some expiry →
    IsLeast {ts | ts ∈ buckets.map (fun y => decodeExpiryKey y.1) ∧ expiry < ts} (decodeExpiryKey x.1) ∧
      decodeExpiryKey x.1 ≤ getMaxBucketTs expiry
  sorted : ∀ pv, s.set = .plain (.vector pv) → pv.Pairwise fun a b => ∀ x y, s.tracked a = some x → s.tracked b = some y → x ≤ y
  crowded : (∀ ht, s.set = .plain (.hashtable ht) → 2 ≤ ht.length) ∧
    ∀ buckets, s.set = .rax buckets → ∀ x ∈ buckets, ∀ ht, x.2 = .hashtable ht → 2 ≤ ht.length
  empty : vsetIsEmpty s.set = true ↔ ∀ e, s.tracked e = none
  iteration : ∀ choices : Choices E, ∃ entries, vsetScan choices (s.set.entries.length + 1) (vsetInitIterator s.set) = some entries ∧
    entries.Nodup ∧ ∀ e, e ∈ entries ↔ (s.tracked e).isSome

theorem Filed.isLeast {ex : E → Int} {buckets : Rax E} (filed : Filed ex buckets) {x : Nat × Bucket E} (member : x ∈ buckets) {e : E}
    (inside : e ∈ x.2.entries) :
    IsLeast {ts | ts ∈ buckets.map (fun y => decodeExpiryKey y.1) ∧ ex e < ts} (decodeExpiryKey x.1) := by
  have placed := filed.placed x member
  have code := (placed.accepted e inside).encodeExpiryKey_eq
  obtain ⟨⟨-,-⟩,least⟩ := filed.shelved.isLeast member inside
  refine ⟨⟨List.mem_map_of_mem member,?_⟩,?_⟩
  · rw [placed.decodeExpiryKey_eq]
    exact filed.below member inside
  rintro ts ⟨known,gt⟩
  obtain ⟨y,there,rfl⟩ := List.mem_map.mp known
  rw [(filed.placed y there).decodeExpiryKey_eq] at gt ⊢
  rw [placed.decodeExpiryKey_eq]
  have le := least ⟨List.mem_map_of_mem there,by omega⟩
  omega

theorem Timed.Good.orderly (good : s.Good) : s.Orderly where
  nodup := good.1.nodup
  stored := good.2
  bucket := by
    intro buckets tree x member e inside expiry tracked
    have kept := good.1
    rw [tree] at kept
    have read : (s.tracked e).getD 0 = expiry := by rw [tracked,getD_some]
    have least := kept.1.isLeast member inside
    have near := (kept.1.placed x member).near e inside
    have decode := (kept.1.placed x member).decodeExpiryKey_eq
    rw [read] at least near
    exact ⟨least,by rw [decode]; exact near⟩
  sorted := by
    intro pv vector
    have kept := good.1
    rw [vector] at kept
    refine kept.2.2.2.imp fun {a b} le x y first second => ?_
    change (s.tracked a).getD 0 ≤ (s.tracked b).getD 0 at le
    rwa [first,second] at le
  crowded := by
    refine ⟨fun ht table => ?_,fun buckets tree x member ht table => ?_⟩
    · have kept := good.1
      rw [table] at kept
      exact kept.elim
    · have kept := good.1
      rw [tree] at kept
      exact (kept.1.placed x member).sound.crowded ht table
  empty := by
    rw [good.1.vsetIsEmpty_iff,List.eq_nil_iff_forall_not_mem]
    exact forall_congr' fun e => good.absent_iff
  iteration := by
    intro choices
    obtain ⟨entries,scan,perm⟩ := vsetScan_spec choices good.1 (Nat.lt_succ_self _)
    exact ⟨entries,scan,perm.nodup_iff.mpr good.1.nodup,fun e => perm.mem_iff.trans (good.2 e)⟩

variable [DecidableEq E]

def Choices.stable (E : Type) : Choices E where
  qsort getExpiry pv := pv.insertionSort fun a b => getExpiry a ≤ getExpiry b
  order ht := ht
  qsort_perm _ pv := List.perm_insertionSort _ pv
  qsort_sorted getExpiry pv := by
    have total : Std.Total fun a b => getExpiry a ≤ getExpiry b := ⟨fun a b => le_total (getExpiry a) (getExpiry b)⟩
    have trans : IsTrans E fun a b => getExpiry a ≤ getExpiry b := ⟨fun _ _ _ => le_trans⟩
    exact List.pairwise_insertionSort _ pv
  order_perm ht := List.Perm.refl ht

def filling (mem : Nat → Int) (start count : Nat) : List (Step Nat (Nat → Int)) :=
  (List.range' start count).map fun entry => ⟨Choices.stable Nat,mem,.addEntry entry⟩

theorem permits_filling {mem : Nat → Int} {top : Int} {start count : Nat} {expiryFunc : Nat → (Nat → Int) → Nat → Int} {s : Timed Nat}
    {also : Timed Nat → Step Nat (Nat → Int) → Prop} {more : List (Step Nat (Nat → Int))}
    (range : ∀ e, 0 ≤ mem e ∧ mem e ≤ top) (before : ∀ e expiry, s.tracked e = some expiry → e < start ∧ mem e = expiry)
    (covered : ∀ s entry, also s ⟨Choices.stable Nat,mem,.addEntry entry⟩)
    (after : ∀ s' : Timed Nat, (∀ e expiry, s'.tracked e = some expiry → e < start + count ∧ mem e = expiry) →
      s'.Permits (fun mem => mem) expiryFunc top also more) :
    s.Permits (fun mem => mem) expiryFunc top also (filling mem start count ++ more) := by
  induction count generalizing start s with
  | zero => exact after s before
  | succ count ih =>
    refine ⟨⟨?_,range start,fun e expiry known => (before e expiry known).2⟩,covered s start,fun s' step => ?_⟩
    · by_contra known
      obtain ⟨expiry,known⟩ := ne_none_iff_exists'.mp known
      exact absurd (before start expiry known).1 (Nat.lt_irrefl start)
    obtain ⟨-,-,rfl⟩ := map_eq_some_iff.mp step
    refine ih (fun e expiry known => ?_) fun s' all => after s' fun e expiry known => ?_
    · dsimp only at known
      by_cases same : e = start
      · subst same
        rw [update_self] at known
        exact ⟨Nat.lt_succ_self e,some.inj known⟩
      · rw [update_of_ne same] at known
        exact ⟨Nat.lt_succ_of_lt (before e expiry known).1,(before e expiry known).2⟩
    · obtain ⟨bound,read⟩ := all e expiry known
      exact ⟨by omega,read⟩

/-- As long as no untracked entry is removed whose expiry no bucket covers, no assertion fails and
the set holds the timed entries in good order. That removal is the only one to fail. -/
theorem vset_refines_timed_entries (getExpiry : M → E → Int) (expiryFunc : E → M → M) (frees : Frees getExpiry expiryFunc)
    (steps : List (Step E M)) (permits : Timed.vsetInit.Permits getExpiry expiryFunc (2^63 - 2^14) (Timed.Covered getExpiry) steps) :
    ∃ s : Timed E, Timed.vsetInit.run getExpiry expiryFunc steps = some s ∧ s.Orderly ∧
      ∀ step, s.Allows getExpiry (2^63 - 2^14) step → (s.perform getExpiry expiryFunc step = none ↔ ¬ s.Covered getExpiry step) := by
  have small : (2^63 - 2^14 : Int) < 2^63 - 2^13 := by omega
  obtain ⟨s,reached⟩ := good_vsetInit.run_some frees small steps permits
  have good := good_vsetInit.run frees small steps permits reached
  refine ⟨s,reached,good.orderly,fun step allows => ⟨fun failed covered => ?_,fun uncovered => ?_⟩⟩
  · obtain ⟨s',done,-⟩ := (good.perform frees small allows).1 covered
    cases failed.symm.trans done
  · exact (good.perform frees small allows).2 uncovered

theorem vset_refines_timed_entries_filled :
    ∃ s : Timed Nat, Timed.vsetInit.run (fun mem => mem) (fun _ mem => mem) (filling (fun _ => 5) 0 3 ++ []) = some s ∧ s.Orderly ∧
      ∀ step, s.Allows (fun mem => mem) (2^63 - 2^14) step →
        (s.perform (fun mem => mem) (fun _ mem => mem) step = none ↔ ¬ s.Covered (fun mem => mem) step) :=
  vset_refines_timed_entries (fun mem => mem) (fun _ mem => mem) (fun _ _ _ _ => rfl) (filling (fun _ => 5) 0 3 ++ [])
    (permits_filling (fun _ => by decide) (by simp [Timed.vsetInit]) (fun _ _ => trivial) fun _ _ => trivial)

/-- With 128 entries of expiry 0 in the set, removing an untracked entry of expiry 100000 fails
the assertion, though the function documents that it returns false for an entry not found. -/
theorem vsetRemoveEntry_untracked_asserts :
    Timed.vsetInit.Permits (fun mem => mem) (fun _ mem => mem) (2^63 - 2^14) (fun _ _ => True)
      (filling (fun e => if e = 128 then 100000 else 0) 0 128 ++
        [⟨Choices.stable Nat,fun e => if e = 128 then 100000 else 0,.removeEntry 128⟩]) ∧
    (Timed.vsetInit.run (fun mem => mem) (fun _ mem => mem) (filling (fun e => if e = 128 then 100000 else 0) 0 128)).isSome = true ∧
    (Timed.vsetInit.run (fun mem => mem) (fun _ mem => mem) (filling (fun e => if e = 128 then 100000 else 0) 0 128 ++
      [⟨Choices.stable Nat,fun e => if e = 128 then 100000 else 0,.removeEntry 128⟩])).isNone = true := by
  refine ⟨permits_filling (fun e => ?_) (by simp [Timed.vsetInit]) (fun _ _ => trivial) fun s' known => ?_,by decide +kernel,by decide +kernel⟩
  · split <;> omega
  · exact ⟨⟨by decide,fun e expiry tracked => (known e expiry tracked).2⟩,trivial,fun _ _ => trivial⟩

/-- Below the last 8192 ms before 2^63 no entry is handed over before its time. -/
theorem vsetRemoveExpired_not_early (getExpiry : M → E → Int) (expiryFunc : E → M → M) (frees : Frees getExpiry expiryFunc)
    (steps : List (Step E M)) (permits : Timed.vsetInit.Permits getExpiry expiryFunc (2^63 - 2^13 - 1) (fun _ _ => True) steps) (s : Timed E)
    (reached : Timed.vsetInit.run getExpiry expiryFunc steps = some s) (choices : Choices E) (mem : M)
    (knows : ∀ e expiry, s.tracked e = some expiry → getExpiry mem e = expiry) (now : Int) (maxCount : Nat) :
    ∃ set gone, vsetRemoveExpired choices getExpiry expiryFunc mem s.set now maxCount = some (set,gone) ∧
      (∀ e ∈ gone, ∃ expiry, s.tracked e = some expiry ∧ expiry ≤ now) ∧
      (gone.length < maxCount → ∀ e ∈ set.entries, ∃ expiry, s.tracked e = some expiry ∧ now - 8192 < expiry) := by
  have good := good_vsetInit.run frees (by omega) steps permits reached
  obtain ⟨set,gone,step,-,⟨perm,due,-,late⟩⟩ := vsetRemoveExpired_spec choices frees now mem maxCount (good.kept knows) fun _ _ => rfl
  have read : ∀ e ∈ gone ++ set.entries, s.tracked e = some (getExpiry mem e) := by
    intro e member
    obtain ⟨expiry,known⟩ := good.mem_iff.mp (perm.mem_iff.mpr member)
    rw [known,knows e expiry known]
  refine ⟨set,gone,step,fun e member => ⟨_,read e (List.mem_append_left _ member),due e member⟩,fun less e member => ?_⟩
  exact ⟨_,read e (List.mem_append_right gone member),late less e member⟩

theorem vsetRemoveExpired_not_early_filled :
    ∃ set gone, vsetRemoveExpired (Choices.stable Nat) (fun mem => mem) (fun _ mem => mem) (fun _ => 5) (.plain (.vector [1,0])) 7 1 =
        some (set,gone) ∧
      (∀ e ∈ gone, ∃ expiry, Function.update (Function.update (fun _ => none) 0 (some 5)) 1 (some 5) e = some expiry ∧ expiry ≤ (7 : Int)) ∧
      (gone.length < 1 → ∀ e ∈ set.entries, ∃ expiry,
        Function.update (Function.update (fun _ => none) 0 (some 5)) 1 (some 5) e = some expiry ∧ (7 : Int) - 8192 < expiry) :=
  vsetRemoveExpired_not_early (fun mem => mem) (fun _ mem => mem) (fun _ _ _ _ => rfl) (filling (fun _ => 5) 0 2 ++ [])
    (permits_filling (fun _ => by decide) (by simp [Timed.vsetInit]) (fun _ _ => trivial) fun _ _ => trivial)
    ⟨.plain (.vector [1,0]),Function.update (Function.update (fun _ => none) 0 (some 5)) 1 (some 5)⟩ rfl (Choices.stable Nat) (fun _ => 5)
    (fun e expiry tracked => by
      simp only [update_apply] at tracked
      split at tracked
      · exact some.inj tracked
      · split at tracked
        · exact some.inj tracked
        · cases tracked)
    7 1

/-- An expiry of 2^63 - 1 is accepted, and with 128 entries of that expiry all of them are handed
over at time 0. -/
theorem vsetRemoveExpired_early :
    convertExpireArgumentToUnixTime llongMax 0 false = some llongMax ∧
    Timed.vsetInit.Permits (fun mem => mem) (fun _ mem => mem) llongMax (fun _ _ => True) (filling (fun _ => llongMax) 0 128 ++ []) ∧
    ((Timed.vsetInit.run (fun mem => mem) (fun _ mem => mem) (filling (fun _ => llongMax) 0 128 ++ [])).bind fun s =>
      (vsetRemoveExpired (Choices.stable Nat) (fun mem => mem) (fun _ mem => mem) (fun _ => llongMax) s.set 0 1000).map fun (set,gone) =>
        (vsetIsEmpty set,gone.length)) = some (true,128) := by
  refine ⟨by decide,permits_filling (fun _ => by decide) (by simp [Timed.vsetInit]) (fun _ _ => trivial) fun _ _ => trivial,by decide +kernel⟩

end Results

end ValkeyWasm.Vset
