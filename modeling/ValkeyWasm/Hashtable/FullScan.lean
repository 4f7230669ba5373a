import ValkeyWasm.Hashtable.ScanCallback

/-! Full scans.
A full scan starts with the cursor zero and passes every cursor on to the next call
until zero comes back. Between its calls anything may happen to the table. Every entry
whose reversed hash is below the reversed cursor has been emitted, if it was there. -/
namespace ValkeyWasm.Hashtable
open Library.ReverseOrder List Option Nat

variable {L : Layout} {α κ : Type*}

structure ScanRound (α κ : Type*) where
  env : Env
  between : List (Env × Op α κ)

/-- A scan that has been carried on for some rounds: the table at the start of each
call, everything the callback received, and whether zero came back. -/
structure FullScan (L : Layout) (α : Type*) where
  tables : List (Hashtable L α)
  emitted : List α
  finished : Bool

variable {ty : HashtableType α κ} {ht : Hashtable L α}

theorem resume_rearranged [Inhabited α] (wf : ht.WF ty) (fit : ht.PausesFit) (env : Env) :
    Reshaped ty ht (ht.hashtablePauseRehashing.hashtableResumeRehashing ty env) := by
  have ⟨rehash,shrink,rehashRoom,shrinkRoom⟩ := fit
  have resumed : ht.hashtablePauseRehashing.hashtableResumeRehashing ty env =
      (ht.withPauses ht.pauseRehash (ht.pauseAutoShrink + 1)).hashtableResumeAutoShrink ty env := by
    rw [hashtablePauseRehashing_eq fit]
    change (ht.withPauses (int16 (ht.pauseRehash + 1 - 1)) (ht.pauseAutoShrink + 1)).hashtableResumeAutoShrink ty env = _
    rw [int16_eq (by omega) (by omega),add_sub_cancel_right]
  rw [resumed]
  have rearranged := hashtableResumeAutoShrink_rearranged (wf.withPauses ht.pauseRehash (ht.pauseAutoShrink + 1)) env
    (by rw [withPauses_pauseAutoShrink]; omega) (by rw [withPauses_pauseAutoShrink]; omega)
  rw [withPauses_pauseAutoShrink,add_sub_cancel_right] at rearranged
  exact rearranged

section Calls
variable [Inhabited α] [DecidableEq κ]

def scanCall (ty : HashtableType α κ) (env : Env) (cursor : BitVec L.sizeBits) (ht : Hashtable L α) :
    Except (CallbackRun L α) (CallbackRun L α × BitVec L.sizeBits) :=
  (callbackHost ty).hashtableScan ty env (ht.childBuckets + 1) cursor ⟨ht,[],[],[],false⟩

structure Untouched (ht : Hashtable L α) (run : CallbackRun L α) : Prop where
  hashtable : run.hashtable = ht
  pending : run.pending = []
  disturbed : run.disturbed = false

theorem untouched_keeps (wf : ht.WF ty) :
    (callbackHost ty).Keeps (Untouched ht) ht.childBuckets where
  visit := by
    intro run entry same
    simp only [CallbackRun.visit,same.pending]
    exact ⟨same.hashtable,by simp [CallbackRun.enter,same.pending],same.disturbed⟩
  record := fun run t index same => ⟨same.hashtable,same.pending,same.disturbed⟩
  compact := by
    intro before run t index first second deleted
    change (run.hashtable.table t).used < (before.hashtable.table t).used at deleted
    rw [first.hashtable,second.hashtable] at deleted
    exact absurd deleted (lt_irrefl _)
  shallow := by
    intro run ref same chained
    change run.hashtable.chainedOf ref = true at chained
    rw [same.hashtable] at chained
    exact wf.depth_lt_childBuckets ref chained

theorem scanCall_spec (plain : ty.validateEntry = none) (env : Env) (cursor : BitVec L.sizeBits)
    (wf : ht.WF ty) (fit : ht.PausesFit) :
    ∃ final next, scanCall ty env cursor ht = .ok (final,next) ∧ Reshaped ty ht final.hashtable ∧
      ∀ s ∈ ht.slots, Covers cursor next (hashWord L (ty.hashOf s.entry)) → s.entry ∈ final.emitted := by
  have spec := hashtableScan_spec plain env ht wf fit cursor [] (ht.childBuckets + 1) (lt_succ_self _)
  unfold scanCall ScanHost.hashtableScan at spec ⊢
  by_cases vacant : ht.size = 0
  · simp only [vacant] at spec ⊢
    exact ⟨_,_,rfl,.refl wf,(spec rfl).2⟩
  have pausedWf : ht.hashtablePauseRehashing.WF ty := wf.withPauses _ _
  obtain ⟨out,next,returned,hashtable,_,quiet⟩ := ScanHost.emitAll_returns (untouched_keeps pausedWf) ty (ht.childBuckets + 1)
    (lt_succ_self _) ht wf (wf.allocated_of_size vacant) cursor ⟨ht.hashtablePauseRehashing,[],[],[],false⟩ ⟨rfl,rfl,rfl⟩
  simp only [vacant,returned] at spec ⊢
  refine ⟨_,next,rfl,?_,(spec quiet).2⟩
  rw [hashtable]
  exact resume_rearranged wf fit env

variable [DecidableEq α]

def fullScan (ty : HashtableType α κ) : List (ScanRound α κ) → BitVec L.sizeBits → Hashtable L α → Except (CallbackRun L α) (FullScan L α)
  | [], _, _ => .ok ⟨[],[],false⟩
  | round::rest, cursor, ht =>
    match scanCall ty round.env cursor ht with
    | .error stopped => .error stopped
    | .ok (final,next) =>
      if next = 0 then .ok ⟨[ht],final.emitted,true⟩
      else
        match fullScan ty rest next (final.hashtable.run ty round.between).1 with
        | .error stopped => .error stopped
        | .ok scan => .ok ⟨ht::scan.tables,final.emitted ++ scan.emitted,scan.finished⟩

theorem fullScan_spec (plain : ty.validateEntry = none) (rounds : List (ScanRound α κ)) (cursor : BitVec L.sizeBits)
    (paused : Nat) (ht : Hashtable L α) (map : κ → Option α) (sim : Simulates ty paused ht map)
    (allowed : permitted ty paused (rounds.flatMap (·.between)) = true) :
    ∃ scan, fullScan ty rounds cursor ht = .ok scan ∧ (scan.finished = true → ∀ entry,
      (∀ table ∈ scan.tables, ∃ p, table.entryAt p = some entry) →
        order cursor ≤ order (hashWord L (ty.hashOf entry)) → entry ∈ scan.emitted) := by
  induction rounds generalizing cursor paused ht map with
  | nil => exact ⟨_,rfl,by simp⟩
  | cons round rest ih =>
    obtain ⟨final,next,returned,rearranged,emitted⟩ := scanCall_spec plain round.env cursor sim.wf sim.pausesFit
    have reported : ∀ entry, (∃ p, ht.entryAt p = some entry) → Covers cursor next (hashWord L (ty.hashOf entry)) →
        entry ∈ final.emitted := by
      rintro entry ⟨p,held⟩ covered
      obtain ⟨s,slot,rfl⟩ := map_eq_some_iff.mp held
      exact emitted s ((mem_slots ht s).mpr ⟨p,slot⟩) covered
    simp only [fullScan,returned]
    by_cases done : next = 0
    · rw [if_pos done]
      refine ⟨_,rfl,?_⟩
      intro _ entry present ahead
      exact reported entry (present ht mem_cons_self) ⟨ahead,Or.inl done⟩
    rw [if_neg done]
    obtain ⟨_,pausedNext,remaining,nextSim⟩ := run_simulates plain round.between _ paused _ map (sim.rearranged rearranged) allowed
    obtain ⟨scan,rescanned,complete⟩ := ih next pausedNext _ _ nextSim remaining
    rw [rescanned]
    refine ⟨_,rfl,?_⟩
    intro finished entry present ahead
    rcases lt_or_ge (order (hashWord L (ty.hashOf entry))) (order next) with now | later
    · exact mem_append_left _ (reported entry (present ht mem_cons_self) ⟨ahead,Or.inr now⟩)
    · exact mem_append_right _ (complete finished entry (fun table member => present table (mem_cons_of_mem _ member)) later)

/-- Every call of a full scan returns, and an entry that is in the table at each of them
is emitted, whatever permitted calls come before the scan and between its calls. -/
theorem fullScan_complete (L : Layout) (ty : HashtableType α κ) (plain : ty.validateEntry = none) (before : List (Env × Op α κ))
    (rounds : List (ScanRound α κ)) (allowed : permitted ty 0 (before ++ rounds.flatMap (·.between)) = true) :
    ∃ scan, fullScan ty rounds 0 ((create : Hashtable L α).run ty before).1 = .ok scan ∧ (scan.finished = true →
      ∀ entry, (∀ table ∈ scan.tables, ∃ p, table.entryAt p = some entry) → entry ∈ scan.emitted) := by
  obtain ⟨_,paused,remaining,sim⟩ := run_simulates plain before _ 0 create _ (create_simulates ty) allowed
  obtain ⟨scan,returned,complete⟩ := fullScan_spec plain rounds (0 : BitVec L.sizeBits) paused _ _ sim remaining
  refine ⟨scan,returned,?_⟩
  intro finished entry present
  exact complete finished entry present (by rw [order_zero]; exact zero_le _)

end Calls

def sparseScript : List (Env × Op Nat Nat) := [({},.expand 28),({},.add 0),({},.add 1)]

def sparseRounds : List (ScanRound Nat Nat) := [⟨{},[({resizePolicy := .forbid},.add 3)]⟩,⟨{},[]⟩]

theorem fullScan_complete_sparseRounds :
    ∃ scan, fullScan identityType sparseRounds 0 ((create : Hashtable .bits64 Nat).run identityType sparseScript).1 = .ok scan ∧
      scan.finished = true ∧ 1 ∈ scan.emitted := by
  obtain ⟨scan,returned,complete⟩ := fullScan_complete .bits64 identityType rfl sparseScript sparseRounds (by decide)
  have ended : (fullScan identityType sparseRounds 0 ((create : Hashtable .bits64 Nat).run identityType sparseScript).1).toOption.map
      (fun scan => (scan.finished,scan.tables.all (fun table => table.entryAt ⟨0,1,0,Layout.firstPos _⟩ == some 1))) =
      some (true,true) := by decide +kernel
  rw [returned] at ended
  simp only [Except.toOption,map_some,some.injEq,Prod.mk.injEq,List.all_eq_true,beq_iff_eq] at ended
  exact ⟨scan,returned,ended.1,complete ended.1 1 (fun table member => ⟨_,ended.2 table member⟩)⟩

end ValkeyWasm.Hashtable
