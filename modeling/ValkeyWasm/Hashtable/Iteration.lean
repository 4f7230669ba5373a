import ValkeyWasm.Hashtable.Iterator

/-! Whole iterations with a safe iterator.
The body of the loop inserts entries and deletes the entry just returned. Every entry
still ahead of the iterator is owed one return more than it has had, counting one for
being there at the start and one for each insertion. -/
namespace ValkeyWasm.Hashtable
open Function List Option

variable {L : Layout} {α κ : Type*}

/-- An iteration so far. `held` says that the entry returned last is still in its place. -/
structure IterRun (L : Layout) (α : Type*) where
  hashtable : Hashtable L α
  iter : Iter L
  held : Bool
  returned : List α
  inserted : List α
  removed : List α
  disturbed : Bool

def IterRun.start (ht : Hashtable L α) : IterRun L α :=
  ⟨ht.hashtableInitIterator.1,ht.hashtableInitIterator.2,false,[],[],[],false⟩

namespace IterRun

variable [Inhabited α]

def shiftsUnder (ty : HashtableType α κ) (env : Env) (entry : α) (run : IterRun L α) : Bool :=
  run.iter.position.any ((run.hashtable.expandIfNeeded ty env).1.shifts (ty.hashOf entry))

def take (run : IterRun L α) (ht : Hashtable L α) (it : Iter L) (entry : α) : IterRun L α :=
  {run with hashtable := ht, iter := it, held := true, returned := run.returned ++ [entry]}

variable [DecidableEq κ]

def act (ty : HashtableType α κ) (passed : α) (run : IterRun L α) : CallbackAction α → IterRun L α
  | .insert env entry =>
    let added := run.hashtable.add ty env entry
    {run with
      hashtable := added.1
      inserted := if added.2 then run.inserted ++ [entry] else run.inserted
      disturbed := run.disturbed ||
        (added.2 && (run.hashtable.insertDisturbs ty env || (run.held && run.shiftsUnder ty env entry)))}
  | .deletePassed env =>
    let popped := run.hashtable.pop ty env (ty.entryGetKey passed)
    {run with hashtable := popped.1, held := run.held && popped.2.isNone, removed := run.removed ++ popped.2.toList}

/-- `while (hashtableNext(...)) body`, one element of the script for each call; the flag
says whether `hashtableNext` returned false. -/
def iterate (ty : HashtableType α κ) : List (Env × List (CallbackAction α)) → IterRun L α → Except (IterRun L α) (IterRun L α × Bool)
  | [], run => .ok (run,false)
  | (env,body)::rest, run =>
    match hashtableNext ty env run.iter run.hashtable with
    | .error ht => .error {run with hashtable := ht}
    | .ok (ht,it,none) => .ok ({run with hashtable := ht, iter := it},true)
    | .ok (ht,it,some entry) => iterate ty rest (body.foldl (act ty entry) (run.take ht it entry))

end IterRun

variable {ht : Hashtable L α} {p : Position L}

theorem Iter.Placed.ahead_shifted {it : Iter L} (placed : it.Placed ht) (ahead : it.Ahead p) :
    it.Ahead p.shifted := by
  rw [placed.ahead_iff,Position.Precedes] at ahead ⊢
  simp only [Position.shifted] at ahead ⊢
  omega

theorem Iter.Placed.ahead_of_shifted {it : Iter L} (placed : it.Placed ht)
    (last : p.pos = L.lastPos) (ahead : it.Ahead p.shifted) : it.Reaches p := by
  rw [placed.ahead_iff,Position.Precedes] at ahead
  rw [placed.reaches_iff]
  have final : p.pos.val = L.entriesPerBucket - 1 := by rw [last]; rfl
  have first : L.firstPos.val = 0 := rfl
  simp only [Position.shifted] at ahead
  omega

theorem lastPos_of_shifts [Inhabited α] {hash : BitVec 64} (shifts : ht.shifts hash p = true) :
    p.pos = L.lastPos := by
  simp only [Hashtable.shifts,Bool.and_eq_true,decide_eq_true_eq] at shifts
  exact shifts.2

theorem calm_of_iterAct [Inhabited α] [DecidableEq κ] (ty : HashtableType α κ) (passed : α) (run : IterRun L α) (action : CallbackAction α)
    (calm : (run.act ty passed action).disturbed = false) : run.disturbed = false := by
  cases action with
  | insert env entry =>
    simp only [IterRun.act,Bool.or_eq_false_iff] at calm
    exact calm.1
  | deletePassed env => exact calm

section Accounting
variable [DecidableEq α]

def Owed (initial : Multiset α) (run : IterRun L α) (entry : α) : Prop :=
  run.returned.count entry + 1 ≤ initial.count entry + run.inserted.count entry

structure Accounted (ty : HashtableType α κ) (initial : Multiset α) (run : IterRun L α) : Prop where
  wf : run.hashtable.WF ty
  ready : run.iter.Ready run.hashtable
  paused : run.iter.fresh = false → run.hashtable.Paused
  single : ∀ entry, initial.count entry ≤ 1
  total : ∀ entry, run.returned.count entry ≤ initial.count entry + run.inserted.count entry
  ahead : ∀ p s, run.hashtable.slotAt p = some s → run.iter.Ahead p → Owed initial run s.entry
  under : run.held = false → ∀ p s, run.iter.position = some p → run.hashtable.slotAt p = some s → Owed initial run s.entry
  kept : ∀ entry ∈ initial, entry ∉ run.removed → run.inserted.count entry = 0 ∧ ∃ p s, run.hashtable.slotAt p = some s ∧
    s.entry = entry ∧ ((run.iter.Ahead p ∧ run.returned.count entry = 0) ∨ (¬run.iter.Ahead p ∧ run.returned.count entry = 1))

def Under (passed : α) (run : IterRun L α) : Prop :=
  run.held = true → ∃ p s, run.iter.position = some p ∧ run.hashtable.slotAt p = some s ∧ s.entry = passed

variable {ty : HashtableType α κ} {initial : Multiset α}

theorem accounted_start (wf : ht.WF ty) (fit : ht.PausesFit) :
    Accounted ty (ht.slots.map (·.entry)) (IterRun.start ht) := by
  have fresh : (IterRun.start ht).iter.fresh = true := rfl
  have everything : ∀ p, (IterRun.start ht).iter.Ahead p := by
    intro p q started
    simp [Iter.position,fresh] at started
  refine ⟨⟨wf.first,wf.second,wf.idle,wf.running,wf.distinct,wf.owned.first,wf.owned.second,wf.owned.apart⟩,
    Or.inl ⟨rfl,rfl,fit.rehash,fit.autoShrink,fit.rehashRoom,fit.autoShrinkRoom⟩,by simp [fresh],?_,by simp [IterRun.start],?_,?_,?_⟩
  · have distinct := wf.distinct
    rw [← comp_def ty.entryGetKey,← Multiset.map_map] at distinct
    exact Multiset.nodup_iff_count_le_one.mp (Multiset.Nodup.of_map _ distinct)
  · intro p s held _
    have member : s.entry ∈ ht.slots.map (·.entry) := Multiset.mem_map_of_mem _ ((mem_slots ht s).mpr ⟨p,held⟩)
    have counted := Multiset.count_pos.mpr member
    simp only [Owed,IterRun.start,count_nil]
    omega
  · intro _ p s position
    simp [Iter.position,fresh] at position
  · intro entry member _
    obtain ⟨s,stored,rfl⟩ := Multiset.mem_map.mp member
    obtain ⟨p,held⟩ := (mem_slots ht s).mp stored
    exact ⟨rfl,p,s,held,rfl,Or.inl ⟨everything p,rfl⟩⟩

variable {run : IterRun L α}

theorem accounted_take [Inhabited α] (accounted : Accounted ty initial run) {nextHt : Hashtable L α} {next : Iter L}
    {p : Position L} {s : Slot α} (stepped : Stepped ty run.hashtable run.iter nextHt next) (position : next.position = some p)
    (held : nextHt.slotAt p = some s) :
    Accounted ty initial (run.take nextHt next s.entry) ∧ Under s.entry (run.take nextHt next s.entry) := by
  have nextWf := stepped.anchored.wf
  obtain ⟨before,ahead⟩ := stepped.back p s held (Or.inl position)
  have unique : ∀ q x, nextHt.slotAt q = some x → x.entry = s.entry → q = p :=
    fun q x there same => nextWf.position_unique p q s x held there (by rw [same])
  have countOther : ∀ entry, entry ≠ s.entry → (run.returned ++ [s.entry]).count entry = run.returned.count entry := by
    intro entry other
    simp [Ne.symm other]
  have countSame : (run.returned ++ [s.entry]).count s.entry = run.returned.count s.entry + 1 := by simp [count_append]
  refine ⟨⟨nextWf,Or.inr stepped.placed,fun _ => ?_,accounted.single,?_,?_,by simp [IterRun.take],?_⟩,fun _ => ⟨p,s,position,held,rfl⟩⟩
  · have anchored := stepped.anchored
    cases fresh : run.iter.fresh with
    | false =>
      simp only [Iter.base,fresh] at anchored
      exact (accounted.paused fresh).anchored anchored
    | true =>
      simp only [Iter.base,fresh] at anchored
      have allocated : run.hashtable.table0.bucketExp ≠ -1 := by
        intro null
        have member := (mem_slots run.hashtable s).mpr ⟨p,before⟩
        simp [accounted.wf.slots_of_null null] at member
      rcases accounted.ready with ⟨_,_,fit⟩ | placed
      · exact (hashtablePauseRehashing_paused fit allocated).anchored anchored
      · rw [placed.started] at fresh
        simp at fresh
  · intro entry
    by_cases same : entry = s.entry
    · subst same
      have owed := accounted.ahead p s before ahead
      simp only [IterRun.take,countSame]
      exact owed
    · simp only [IterRun.take,countOther entry same]
      exact accounted.total entry
  · intro q x there later
    obtain ⟨earlier,owing⟩ := stepped.back q x there (Or.inr later)
    have other : x.entry ≠ s.entry := fun same => later.ne_position (unique q x there same ▸ position)
    simp only [Owed,IterRun.take,countOther _ other]
    exact accounted.ahead q x earlier owing
  · intro entry member present
    obtain ⟨never,q,x,there,rfl,state⟩ := accounted.kept entry member present
    refine ⟨never,?_⟩
    rcases state with ⟨later,unreturned⟩ | ⟨passed,once⟩
    · obtain ⟨still,reaches⟩ := stepped.forth q x there later
      refine ⟨q,x,still,rfl,?_⟩
      by_cases same : x.entry = s.entry
      · have here := unique q x still same
        refine Or.inr ⟨fun ahead => ahead.ne_position (here ▸ position),?_⟩
        simp only [IterRun.take,same,countSame]
        rw [← same,unreturned]
      refine Or.inl ⟨?_,by simp only [IterRun.take,countOther _ same,unreturned]⟩
      rcases reaches with here | ahead
      · rw [position] at here
        obtain rfl := Option.some.inj here
        rw [held] at still
        exact absurd (congrArg Slot.entry (Option.some.inj still)).symm same
      · exact ahead
    · obtain ⟨r,moved,unreached⟩ := stepped.passed q x there passed
      refine ⟨r,x,moved,rfl,Or.inr ⟨fun ahead => unreached (Or.inr ahead),?_⟩⟩
      have other : x.entry ≠ s.entry := fun same => unreached (Or.inl (unique r x moved same ▸ position))
      simp [IterRun.take,countOther _ other,once]

structure InBody (ty : HashtableType α κ) (initial : Multiset α) (passed : α) (run : IterRun L α) : Prop where
  accounted : Accounted ty initial run
  placed : run.iter.Placed run.hashtable
  under : Under passed run

section Body
variable [Inhabited α] {passed : α}

theorem insert_inBody (inBody : InBody ty initial passed run) (env : Env) (entry : α)
    (absent : ∀ s ∈ run.hashtable.slots, ty.entryGetKey s.entry ≠ ty.entryGetKey entry)
    (calm : run.hashtable.insertDisturbs ty env = false) (settled : (run.held && run.shiftsUnder ty env entry) = false)
    (next : IterRun L α) (disturbed : Bool)
    (equal : next = {run with
      hashtable := run.hashtable.insert ty env (ty.hashOf entry) entry, inserted := run.inserted ++ [entry], disturbed := disturbed}) :
    InBody ty initial passed next := by
  obtain ⟨accounted,placed,under⟩ := inBody
  have paused := accounted.paused placed.started
  have positive : run.hashtable.pauseRehash ≠ 0 := by
    have counter := paused.rehash
    omega
  obtain ⟨anchored,moves⟩ := insert_paused accounted.wf env positive paused.allocated calm entry absent
  have origin := insert_origin accounted.wf env positive paused.allocated calm entry absent
  have nextPlaced := placed.anchored anchored (chainsGrow_insert accounted.wf env positive paused.allocated calm entry)
  have grows : ∀ other, Owed initial run other → Owed initial next other := by
    intro other owed
    simp only [Owed,equal,count_append] at owed ⊢
    omega
  have fresh : Owed initial next entry := by
    have bounded := accounted.total entry
    simp only [Owed,equal,count_append,count_singleton_self]
    omega
  -- a shift under the iterator is only possible once the entry returned there is gone
  have vacated : ∀ p, run.iter.position = some p → (run.hashtable.expandIfNeeded ty env).1.shifts (ty.hashOf entry) p = true →
      run.held = false := by
    intro p here shifts
    cases standing : run.held with
    | false => rfl
    | true => simp [standing,IterRun.shiftsUnder,here,shifts] at settled
  have behind : ∀ q s, run.hashtable.slotAt q = some s → ¬run.iter.Ahead q → ¬Owed initial run s.entry →
      (run.hashtable.expandIfNeeded ty env).1.shifts (ty.hashOf entry) q = true → ¬run.iter.Ahead q.shifted := by
    intro q s earlier passedBy settledUp shifts ahead
    rcases placed.ahead_of_shifted (lastPos_of_shifts shifts) ahead with here | later
    · exact settledUp (accounted.under (vacated q here shifts) q s here earlier)
    · exact passedBy later
  subst equal
  refine ⟨⟨anchored.wf,Or.inr nextPlaced,fun _ => paused.anchored anchored,accounted.single,?_,?_,?_,?_⟩,nextPlaced,?_⟩
  · intro other
    have bounded := accounted.total other
    simp only [count_append]
    omega
  · intro p s there ahead
    rcases origin p s there with rfl | ⟨q,earlier,rfl | ⟨rfl,shifts⟩⟩
    · exact fresh
    · exact grows _ (accounted.ahead p s earlier ahead)
    · by_contra unpaid
      have before : ¬run.iter.Ahead q := fun later => unpaid (grows _ (accounted.ahead q s earlier later))
      exact behind q s earlier before (fun owed => unpaid (grows _ owed)) shifts ahead
  · intro gone p s here there
    rcases origin p s there with rfl | ⟨q,earlier,rfl | ⟨rfl,shifts⟩⟩
    · exact fresh
    · exact grows _ (accounted.under gone p s here earlier)
    -- the iterator would stand in a bucket that was not there before
    rw [placed.position_eq,some.injEq,Position.shifted,Position.mk.injEq] at here
    obtain ⟨table,index,depth,_⟩ := here
    obtain ⟨c,located,_⟩ := (slotAt_eq_some _ q s).mp earlier
    rw [← table,← index] at located
    have reached := placed.deep c located
    simp only [Hashtable.shifts,Bool.and_eq_true,decide_eq_true_eq] at shifts
    rw [← table,table_expandIfNeeded accounted.wf env paused.allocated calm _ placed.allocated,← index,
      Table.chain_eq _ _ c located] at shifts
    omega
  · intro other member present
    obtain ⟨never,q,s,earlier,rfl,state⟩ := accounted.kept other member present
    have stored := (mem_slots _ s).mpr ⟨q,earlier⟩
    have distinct : s.entry ≠ entry := fun same => absent s stored (by rw [same])
    refine ⟨by simp [never,Ne.symm distinct],?_⟩
    rcases moves q s earlier with there | ⟨shifts,moved⟩
    · exact ⟨q,s,there,rfl,state⟩
    refine ⟨q.shifted,s,moved,rfl,?_⟩
    rcases state with ⟨ahead,unreturned⟩ | ⟨passedBy,once⟩
    · exact Or.inl ⟨placed.ahead_shifted ahead,unreturned⟩
    refine Or.inr ⟨behind q s earlier passedBy ?_ shifts,once⟩
    have single := accounted.single s.entry
    simp only [Owed]
    omega
  · intro standing
    obtain ⟨p,s,here,earlier,same⟩ := under standing
    rcases moves p s earlier with there | ⟨shifts,_⟩
    · exact ⟨p,s,here,there,same⟩
    · rw [vacated p here shifts] at standing
      simp at standing

variable [DecidableEq κ]

theorem delete_inBody (plain : ty.validateEntry = none) (inBody : InBody ty initial passed run) (env : Env) :
    InBody ty initial passed (run.act ty passed (.deletePassed env)) := by
  obtain ⟨accounted,placed,under⟩ := inBody
  have paused := accounted.paused placed.started
  simp only [IterRun.act]
  rcases pop_paused accounted.wf plain env (ty.entryGetKey passed) paused.rehash paused.autoShrink with
    ⟨gone,slot,held,same,popped⟩ | ⟨_,popped⟩
  · rw [popped]
    have anchored := clearPosition_anchored accounted.wf held
    have nextPlaced := placed.anchored anchored (chainsGrow_clearPosition held)
    have former : ∀ p s, (run.hashtable.clearPosition gone).slotAt p = some s → p ≠ gone ∧ run.hashtable.slotAt p = some s := by
      intro p s there
      have apart : p ≠ gone := by
        rintro rfl
        rw [slotAt_clearPosition_self] at there
        simp at there
      rw [slotAt_clearPosition_of_ne _ apart] at there
      exact ⟨apart,there⟩
    refine ⟨⟨anchored.wf,Or.inr nextPlaced,fun _ => paused.anchored anchored,accounted.single,accounted.total,?_,?_,?_⟩,nextPlaced,
      by simp [Under]⟩
    · exact fun p s there ahead => accounted.ahead p s (former p s there).2 ahead
    · intro _ p s here there
      obtain ⟨apart,earlier⟩ := former p s there
      cases standing : run.held with
      | false => exact accounted.under standing p s here earlier
      | true =>
        obtain ⟨q,x,position,stored,returned⟩ := under standing
        have deleted := accounted.wf.position_unique q gone x slot stored held (by rw [same,returned])
        rw [position] at here
        exact absurd ((Option.some.inj here).symm.trans deleted.symm) apart
    · intro entry member present
      simp only [toList_some,mem_append,mem_singleton,not_or] at present
      obtain ⟨never,p,s,earlier,rfl,state⟩ := accounted.kept entry member present.1
      have apart : p ≠ gone := by
        rintro rfl
        rw [held] at earlier
        exact present.2 (congrArg Slot.entry (Option.some.inj earlier)).symm
      exact ⟨never,p,s,by rw [slotAt_clearPosition_of_ne _ apart]; exact earlier,rfl,state⟩
  · rw [popped]
    simp only [isNone_none,Bool.and_true,toList_none,append_nil]
    exact ⟨accounted,placed,under⟩

theorem act_inBody (plain : ty.validateEntry = none) (inBody : InBody ty initial passed run)
    (action : CallbackAction α) (calm : (run.act ty passed action).disturbed = false) :
    InBody ty initial passed (run.act ty passed action) := by
  cases action with
  | deletePassed env => exact delete_inBody plain inBody env
  | insert env entry =>
    have positive := (inBody.accounted.paused inBody.placed.started).rehash
    simp only [IterRun.act] at calm ⊢
    rcases add_paused inBody.accounted.wf plain env entry (by omega) with found | ⟨absent,added⟩
    · rw [found]
      obtain ⟨accounted,placed,under⟩ := inBody
      exact ⟨⟨accounted.wf,accounted.ready,accounted.paused,accounted.single,accounted.total,accounted.ahead,accounted.under,accounted.kept⟩,
        placed,under⟩
    · rw [added] at calm ⊢
      simp only [Bool.true_and,Bool.or_eq_false_iff] at calm
      exact insert_inBody inBody env entry absent calm.2.1 calm.2.2 _ _ rfl

theorem body_inBody (plain : ty.validateEntry = none) (passed : α) (body : List (CallbackAction α)) (run : IterRun L α)
    (before : run.disturbed = false → InBody ty initial passed run)
    (calm : (body.foldl (IterRun.act ty passed) run).disturbed = false) :
    InBody ty initial passed (body.foldl (IterRun.act ty passed) run) := by
  induction body generalizing run with
  | nil => exact before calm
  | cons action rest ih =>
    exact ih _ (fun quiet => act_inBody plain (before (calm_of_iterAct ty passed run action quiet)) action quiet) calm

theorem iterate_spec (plain : ty.validateEntry = none) (script : List (Env × List (CallbackAction α))) (run : IterRun L α)
    (before : run.disturbed = false → Accounted ty initial run) :
    match run.iterate ty script with
    | .error stopped => stopped.disturbed = true
    | .ok (final,finished) => final.disturbed = false →
        (∀ entry, final.returned.count entry ≤ initial.count entry + final.inserted.count entry) ∧
        (finished = true → ∀ entry ∈ initial, entry ∉ final.removed → final.returned.count entry = 1) := by
  induction script generalizing run with
  | nil => exact fun quiet => ⟨(before quiet).total,by simp⟩
  | cons round rest ih =>
    obtain ⟨env,body⟩ := round
    have fetched : run.disturbed = false → Fetched ty run.hashtable run.iter (hashtableNext ty env run.iter run.hashtable) :=
      fun quiet => hashtableNext_spec plain env (before quiet).wf (before quiet).ready
    simp only [IterRun.iterate]
    generalize hashtableNext ty env run.iter run.hashtable = result at fetched
    rcases result with stopped | ⟨nextHt,next,_ | entry⟩
    · by_contra quiet
      cases fetched (by simpa using quiet)
    · intro quiet
      have accounted := before quiet
      refine ⟨accounted.total,fun _ entry member present => ?_⟩
      cases fetched quiet with
      | done _ _ nothing =>
        obtain ⟨_,p,s,held,rfl,state⟩ := accounted.kept entry member present
        rcases state with ⟨ahead,_⟩ | ⟨_,once⟩
        · exact absurd ahead (nothing p s held)
        · exact once
    · apply ih
      intro quiet
      refine (body_inBody plain entry body _ ?_ quiet).accounted
      intro calm
      have accounted := before calm
      cases fetched calm with
      | entry _ _ p s stepped position held =>
        obtain ⟨taken,under⟩ := accounted_take accounted stepped position held
        exact ⟨taken,stepped.placed,under⟩

/-- A safe iteration whose body inserts entries and deletes the entry just returned, with
no insertion that moves that entry to a child bucket or replaces the table in one go.
`hashtableNext` always returns; no entry is returned more often than it was there at the
start or inserted; and if the iteration ends, each entry that was there at the start and
was not deleted has been returned exactly once. -/
theorem safeIterator_exactlyOnce (plain : ty.validateEntry = none) (ht : Hashtable L α) (wf : ht.WF ty) (fit : ht.PausesFit)
    (script : List (Env × List (CallbackAction α))) :
    (∀ stopped, (IterRun.start ht).iterate ty script = .error stopped → stopped.disturbed = true) ∧
      ∀ final finished, (IterRun.start ht).iterate ty script = .ok (final,finished) → final.disturbed = false →
        (∀ entry, final.returned.count entry ≤ (ht.slots.map (·.entry)).count entry + final.inserted.count entry) ∧
        (finished = true → ∀ p entry, ht.entryAt p = some entry → entry ∉ final.removed → final.returned.count entry = 1) := by
  have spec := iterate_spec plain script (IterRun.start ht) (fun _ => accounted_start wf fit)
  refine ⟨?_,?_⟩
  · intro stopped result
    rw [result] at spec
    exact spec
  intro final finished result quiet
  rw [result] at spec
  obtain ⟨total,once⟩ := spec quiet
  refine ⟨total,fun ended p entry held present => once ended entry ?_ present⟩
  obtain ⟨s,slot,rfl⟩ := map_eq_some_iff.mp held
  exact Multiset.mem_map_of_mem _ ((mem_slots ht s).mpr ⟨p,slot⟩)

end Body

end Accounting

def fullBucketScript : List (Env × Op Nat Nat) :=
  [({},.expand 14),({},.add 0),({},.add 4),({},.add 8),({},.add 12),({},.add 16),({},.add 20),({},.add 24)]

def fullBucketTable : Hashtable .bits64 Nat := ((create : Hashtable .bits64 Nat).run identityType fullBucketScript).1

theorem fullBucketTable_wf : fullBucketTable.WF identityType ∧ fullBucketTable.PausesFit := by
  exact run_wf rfl fullBucketScript (by decide)

def idleRounds (n : Nat) : List (Env × List (CallbackAction Nat)) := List.replicate n ({},[])

def calmBodies : List (Env × List (CallbackAction Nat)) := ({},[.deletePassed {},.insert {} 1])::idleRounds 8

theorem safeIterator_exactlyOnce_fullBucket :
    ∃ final, (IterRun.start fullBucketTable).iterate identityType calmBodies = .ok (final,true) ∧ final.returned.count 24 = 1 ∧
      final.returned.count 1 ≤ 1 := by
  obtain ⟨wf,fit⟩ := fullBucketTable_wf
  have spec := safeIterator_exactlyOnce rfl fullBucketTable wf fit calmBodies
  have ended : ((IterRun.start fullBucketTable).iterate identityType calmBodies).toOption.map
      (fun result => (result.2,result.1.disturbed,result.1.removed,result.1.inserted)) = some (true,false,[0],[1]) := by decide +kernel
  have stored : fullBucketTable.entryAt ⟨0,0,0,Layout.lastPos _⟩ = some 24 := by decide +kernel
  have absent : (fullBucketTable.slots.map (·.entry)).count 1 = 0 := by decide +kernel
  generalize (IterRun.start fullBucketTable).iterate identityType calmBodies = result at spec ended ⊢
  rcases result with stopped | ⟨final,finished⟩
  · simp [Except.toOption] at ended
  simp only [Except.toOption,map_some,some.injEq,Prod.mk.injEq] at ended
  obtain ⟨rfl,calm,removed,inserted⟩ := ended
  obtain ⟨total,once⟩ := spec.2 final true rfl calm
  refine ⟨final,rfl,once rfl _ 24 stored (by simp [removed]),?_⟩
  have bounded := total 1
  rw [absent,inserted] at bounded
  simpa using bounded

def shiftingBodies : List (Env × List (CallbackAction Nat)) := idleRounds 6 ++ ({},[.insert {} 28])::idleRounds 3

/-- The insertion moves the last entry to the first position of the child bucket, where
it is returned again. -/
theorem safeIterator_returnsTwice :
    ∃ final, (IterRun.start fullBucketTable).iterate identityType shiftingBodies = .ok (final,true) ∧ final.removed = [] ∧
      final.returned.count 24 = 2 := by
  have ended : ((IterRun.start fullBucketTable).iterate identityType shiftingBodies).toOption.map
      (fun result => (result.2,result.1.removed,result.1.returned)) = some (true,[],[0,4,8,12,16,20,24,24,28]) := by decide +kernel
  generalize (IterRun.start fullBucketTable).iterate identityType shiftingBodies = result at ended ⊢
  rcases result with stopped | ⟨final,finished⟩
  · simp [Except.toOption] at ended
  · simp only [Except.toOption,map_some,some.injEq,Prod.mk.injEq] at ended
    obtain ⟨rfl,removed,returned⟩ := ended
    exact ⟨final,rfl,removed,by rw [returned]; decide⟩

end ValkeyWasm.Hashtable
