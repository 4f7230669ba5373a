import ValkeyWasm.Hashtable.Scan
import ValkeyWasm.Hashtable.Refinement

/-! Scan callbacks that insert entries and delete the entry passed to them.
The callback is a script: what it does at its first invocation, at its second, and so
on. As long as no insertion swaps the tables, the slots of the table the call started
with are either emitted or still ahead of the scan in their chain. -/
namespace ValkeyWasm.Hashtable
open Library.ReverseOrder List Option Bool Nat

variable {L : Layout} {α κ : Type*}

structure Access where
  table : Fin 2
  index : Nat
  buckets : Nat
  deriving DecidableEq, Repr

inductive CallbackAction (α : Type*) where
  | insert (env : Env) (entry : α)
  | deletePassed (env : Env)

structure CallbackRun (L : Layout) (α : Type*) where
  hashtable : Hashtable L α
  pending : List (List (CallbackAction α))
  emitted : List α
  accesses : List Access
  disturbed : Bool

namespace CallbackRun

variable [Inhabited α] [DecidableEq κ]

def act (ty : HashtableType α κ) (passed : α) (run : CallbackRun L α) : CallbackAction α → CallbackRun L α
  | .insert env entry =>
    let added := run.hashtable.add ty env entry
    {run with hashtable := added.1, disturbed := run.disturbed || (added.2 && run.hashtable.insertDisturbs ty env)}
  | .deletePassed env => {run with hashtable := (run.hashtable.delete ty env (ty.entryGetKey passed)).1}

def enter (run : CallbackRun L α) (entry : α) : CallbackRun L α :=
  {run with pending := run.pending.tail, emitted := run.emitted ++ [entry]}

def visit (ty : HashtableType α κ) (run : CallbackRun L α) (entry : α) : CallbackRun L α :=
  (run.pending.headD []).foldl (act ty entry) (run.enter entry)

def record (run : CallbackRun L α) (t : Fin 2) (index : Nat) : CallbackRun L α :=
  {run with accesses := run.accesses ++ [⟨t,index,numBuckets (run.hashtable.table t).bucketExp⟩]}

end CallbackRun

abbrev callbackHost [Inhabited α] [DecidableEq κ] (ty : HashtableType α κ) : ScanHost (CallbackRun L α) L α :=
  ⟨(·.hashtable),fun run ht => {run with hashtable := ht},CallbackRun.visit ty,CallbackRun.record⟩

structure Paused (ht : Hashtable L α) : Prop where
  rehash : 0 < ht.pauseRehash
  autoShrink : ht.pauseAutoShrink ≠ 0
  allocated : ht.table0.bucketExp ≠ -1

variable {ty : HashtableType α κ} {ht : Hashtable L α}

theorem Paused.anchored {next : Hashtable L α} (paused : ht.Paused) (anchored : Anchored ty ht next) :
    next.Paused := by
  refine ⟨?_,?_,?_⟩
  · rw [anchored.framed.pauseRehash]
    exact paused.rehash
  · rw [anchored.framed.pauseAutoShrink]
    exact paused.autoShrink
  · rw [← table_zero next,(anchored.tables 0 paused.allocated).1]
    exact paused.allocated

def actionCount (pending : List (List (CallbackAction α))) : Nat := (pending.map List.length).sum

theorem actionCount_tail (pending : List (List (CallbackAction α))) :
    actionCount pending.tail + (pending.headD []).length = actionCount pending := by
  cases pending with
  | nil => rfl
  | cons first rest =>
    exact add_comm _ _

/-- The scan call so far, seen from the table it started with. The chains in `done` are
emitted; those in `known` have been indexed. -/
structure Tracks (ty : HashtableType α κ) (start : Hashtable L α) (bound : Nat) (known done : List (Fin 2 × Nat))
    (run : CallbackRun L α) : Prop where
  anchored : Anchored ty start run.hashtable
  children : run.hashtable.childBuckets + actionCount run.pending ≤ bound
  kept : ∀ p s, start.slotAt p = some s → s.entry ∈ run.emitted ∨
    ∃ q, run.hashtable.slotAt q = some s ∧ q.table = p.table ∧ q.index = p.index
  finished : ∀ p s, start.slotAt p = some s → (p.table,p.index) ∈ done → s.entry ∈ run.emitted
  recorded : ∀ a ∈ run.accesses, a.index < a.buckets ∧ (a.table,a.index) ∈ known

/-- The slots of one chain that the scan has yet to emit are below the depth it has
reached, or in its current bucket at a position it has yet to read. -/
def Due (start : Hashtable L α) (t : Fin 2) (ref : BucketRef) (positions : List L.Pos) (run : CallbackRun L α) : Prop :=
  ∀ p s, start.slotAt p = some s → p.table = t → p.index = ref.index → s.entry ∈ run.emitted ∨
    ∃ q, run.hashtable.slotAt q = some s ∧ q.table = t ∧ q.index = ref.index ∧
      (ref.depth < q.depth ∨ (q.depth = ref.depth ∧ q.pos ∈ positions))

/-- What the loops over one chain keep true as long as nothing disturbs the scan. -/
structure Within (ty : HashtableType α κ) (start : Hashtable L α) (bound : Nat) (known done : List (Fin 2 × Nat)) (t : Fin 2)
    (ref : BucketRef) (positions : List L.Pos) (run : CallbackRun L α) : Prop where
  tracks : Tracks ty start bound known done run
  address : ref.address = (start.table t).address
  due : Due start t ref positions run

variable {known done : List (Fin 2 × Nat)} {start : Hashtable L α} {run : CallbackRun L α} {bound : Nat} {t : Fin 2}

theorem Within.slotOf_eq {ref : BucketRef} {positions : List L.Pos}
    (within : Within ty start bound known done t ref positions run) (allocated : (start.table t).bucketExp ≠ -1) (p : L.Pos) :
    run.hashtable.slotOf ref p = run.hashtable.slotAt ⟨t,ref.index,ref.depth,p⟩ := by
  obtain ⟨exp,address⟩ := within.tracks.anchored.tables t allocated
  exact within.tracks.anchored.wf.slotOf_eq t (exp ▸ allocated) ref (within.address.trans address.symm) p

theorem slotAt_rechain [Inhabited α] (ht : Hashtable L α) (t : Fin 2) (index : Nat) (g : Chain L α → Chain L α × Nat)
    (q : Position L) (elsewhere : (q.table,q.index) ≠ (t,index)) : (ht.modifyTable t (·.rechain index g)).slotAt q = ht.slotAt q := by
  simp only [slotAt,table_modifyTable]
  split
  · rename_i table
    have apart : index ≠ q.index := fun same => elsewhere (by rw [table,same])
    rw [Table.rechain,Table.setChain,getElem?_set_ne apart,table]
  · rfl

theorem record_tracks (tracks : Tracks ty start bound known done run) {index : Nat}
    (allocated : (start.table t).bucketExp ≠ -1) (inside : index < numBuckets (start.table t).bucketExp) :
    Tracks ty start bound ((t,index)::known) done (run.record t index) := by
  refine ⟨tracks.anchored,tracks.children,tracks.kept,tracks.finished,?_⟩
  intro a member
  rcases mem_append.mp member with earlier | now
  · exact ⟨(tracks.recorded a earlier).1,mem_cons_of_mem _ (tracks.recorded a earlier).2⟩
  obtain rfl := mem_singleton.mp now
  refine ⟨?_,mem_cons_self⟩
  rw [← (tracks.anchored.tables t allocated).1] at inside
  exact inside

theorem compact_tracks [Inhabited α]
    (tracks : Tracks ty start bound known done run) {index : Nat}
    (emitted : (t,index) ∈ done) (allocated : (start.table t).bucketExp ≠ -1) (inside : index < numBuckets (start.table t).bucketExp) :
    Tracks ty start bound known done {run with hashtable := run.hashtable.compactBucketChain index t} := by
  have wf := tracks.anchored.wf
  have exp := (tracks.anchored.tables t allocated).1
  have reordered := compactBucketChain_rearranged wf index t (by rw [(wf.table t).length,exp]; exact inside)
  have anchored : Anchored ty run.hashtable (run.hashtable.compactBucketChain index t) := by
    apply anchored_modifyTable
    · exact fun _ => rfl
    · exact fun _ => rfl
    · exact reordered.wf
  refine ⟨tracks.anchored.trans anchored,?_,?_,tracks.finished,tracks.recorded⟩
  · exact (Nat.add_le_add_right (childBuckets_compactBucketChain_le index t run.hashtable) _).trans tracks.children
  intro p x there
  by_cases here : (p.table,p.index) = (t,index)
  · exact Or.inl (tracks.finished p x there (here ▸ emitted))
  rcases tracks.kept p x there with passed | ⟨q,now,table,same⟩
  · exact Or.inl passed
  · refine Or.inr ⟨q,?_,table,same⟩
    rw [← now]
    exact slotAt_rechain _ t index _ q (by rw [table,same]; exact here)

theorem hashtablePauseRehashing_paused (fit : ht.PausesFit) (allocated : ht.table0.bucketExp ≠ -1) :
    ht.hashtablePauseRehashing.Paused := by
  have low := fit.rehash
  have lowShrink := fit.autoShrink
  rw [hashtablePauseRehashing_eq fit]
  exact ⟨by simp only [withPauses_pauseRehash]; omega,by simp only [withPauses_pauseAutoShrink]; omega,allocated⟩

theorem tracks_start (wf : ht.WF ty) (pending : List (List (CallbackAction α))) :
    Tracks ty ht (ht.childBuckets + actionCount pending) [] [] ⟨ht,pending,[],[],false⟩ :=
  ⟨.refl wf,le_rfl,fun p _ held => Or.inr ⟨p,held,rfl,rfl⟩,by simp,by simp⟩

section Scanning
variable [Inhabited α] [DecidableEq κ]

theorem calm_of_act (ty : HashtableType α κ) (passed : α) (run : CallbackRun L α) (action : CallbackAction α)
    (calm : (run.act ty passed action).disturbed = false) : run.disturbed = false := by
  cases action with
  | insert env entry =>
    simp only [CallbackRun.act,or_eq_false_iff] at calm
    exact calm.1
  | deletePassed env => exact calm

theorem calm_of_actions (ty : HashtableType α κ) (passed : α) (actions : List (CallbackAction α)) (run : CallbackRun L α)
    (calm : (actions.foldl (CallbackRun.act ty passed) run).disturbed = false) : run.disturbed = false := by
  induction actions generalizing run with
  | nil => exact calm
  | cons action rest ih => exact calm_of_act ty passed run action (ih _ calm)

theorem act_forward (plain : ty.validateEntry = none) (passed : α) (run : CallbackRun L α)
    (action : CallbackAction α) (wf : run.hashtable.WF ty) (paused : run.hashtable.Paused)
    (calm : (run.act ty passed action).disturbed = false) :
    Forward ty (ty.entryGetKey passed) run.hashtable (run.act ty passed action).hashtable ∧
      (run.act ty passed action).hashtable.childBuckets ≤ run.hashtable.childBuckets + 1 := by
  have positive := paused.rehash
  cases action with
  | insert env entry =>
    simp only [CallbackRun.act,or_eq_false_iff] at calm
    exact add_forward wf plain _ (by omega) paused.allocated calm.2
  | deletePassed env =>
    obtain ⟨forward,children⟩ := delete_forward wf plain env (ty.entryGetKey passed) positive paused.autoShrink
    exact ⟨forward,children.le.trans (le_succ _)⟩

theorem actions_forward (plain : ty.validateEntry = none) (passed : α) (actions : List (CallbackAction α))
    (run : CallbackRun L α) (wf : run.hashtable.WF ty) (paused : run.hashtable.Paused)
    (calm : (actions.foldl (CallbackRun.act ty passed) run).disturbed = false) :
    Forward ty (ty.entryGetKey passed) run.hashtable (actions.foldl (CallbackRun.act ty passed) run).hashtable ∧
      (actions.foldl (CallbackRun.act ty passed) run).hashtable.childBuckets ≤ run.hashtable.childBuckets + actions.length := by
  induction actions generalizing run with
  | nil => exact ⟨.refl wf,le_rfl⟩
  | cons action rest ih =>
    obtain ⟨forward,grown⟩ := act_forward plain passed run action wf paused (calm_of_actions ty passed rest _ calm)
    obtain ⟨onward,total⟩ := ih _ forward.anchored.wf (paused.anchored forward.anchored) calm
    refine ⟨forward.trans onward,total.trans ?_⟩
    simp only [length_cons]
    omega

theorem actions_frame (ty : HashtableType α κ) (passed : α) (actions : List (CallbackAction α)) (run : CallbackRun L α) :
    let out := actions.foldl (CallbackRun.act ty passed) run
    out.pending = run.pending ∧ out.emitted = run.emitted ∧ out.accesses = run.accesses := by
  induction actions generalizing run with
  | nil => exact ⟨rfl,rfl,rfl⟩
  | cons action rest ih =>
    obtain ⟨pending,emitted,accesses⟩ := ih (run.act ty passed action)
    cases action <;> exact ⟨pending,emitted,accesses⟩

theorem calm_of_visit (ty : HashtableType α κ) (run : CallbackRun L α) (entry : α) (calm : (run.visit ty entry).disturbed = false) :
    run.disturbed = false := calm_of_actions ty entry _ (run.enter entry) calm

theorem emitted_visit (ty : HashtableType α κ) (run : CallbackRun L α) (entry : α) :
    (run.visit ty entry).emitted = run.emitted ++ [entry] := (actions_frame ty entry _ (run.enter entry)).2.1

theorem visit_spec (plain : ty.validateEntry = none) (paused : start.Paused)
    (tracks : Tracks ty start bound known done run)
    (p : Position L) (s : Slot α) (held : run.hashtable.slotAt p = some s) (calm : (run.visit ty s.entry).disturbed = false) :
    Tracks ty start bound known done (run.visit ty s.entry) ∧
      ∀ q x, run.hashtable.slotAt q = some x → x.entry ∈ (run.visit ty s.entry).emitted ∨
        ∃ r, (run.visit ty s.entry).hashtable.slotAt r = some x ∧ q.Before r := by
  have wf := tracks.anchored.wf
  obtain ⟨forward,children⟩ := actions_forward plain s.entry (run.pending.headD []) (run.enter s.entry) wf (paused.anchored tracks.anchored) calm
  obtain ⟨pending,emitted,accesses⟩ := actions_frame ty s.entry (run.pending.headD []) (run.enter s.entry)
  rw [← CallbackRun.visit] at children pending emitted accesses
  have onward : ∀ q x, run.hashtable.slotAt q = some x → x.entry ∈ (run.visit ty s.entry).emitted ∨
      ∃ r, (run.visit ty s.entry).hashtable.slotAt r = some x ∧ q.Before r := by
    intro q x there
    rcases forward.kept q x there with same | later
    · -- only the slot passed to the callback has its key
      obtain rfl := wf.position_unique p q s x held there same
      rw [held] at there
      obtain rfl := Option.some.inj there
      exact Or.inl (by simp [emitted,CallbackRun.enter])
    · exact Or.inr later
  refine ⟨⟨tracks.anchored.trans forward.anchored,?_,?_,?_,?_⟩,onward⟩
  · have counted := actionCount_tail run.pending
    have before := tracks.children
    rw [pending]
    simp only [CallbackRun.enter] at children ⊢
    omega
  · intro q x there
    rcases tracks.kept q x there with passed | ⟨r,now,table,index⟩
    · exact Or.inl (by simp [emitted,CallbackRun.enter,passed])
    rcases onward r x now with passed | ⟨r',next,before⟩
    · exact Or.inl passed
    refine Or.inr ⟨r',next,?_⟩
    rcases before with rfl | ⟨nextTable,nextIndex,_⟩
    · exact ⟨table,index⟩
    · exact ⟨nextTable.trans table,nextIndex.trans index⟩
  · intro q x there member
    simp [emitted,CallbackRun.enter,tracks.finished q x there member]
  · rw [accesses]
    exact tracks.recorded

variable {ty : HashtableType α κ} {start : Hashtable L α} {bound : Nat} {known done : List (Fin 2 × Nat)} {t : Fin 2}

theorem emitPositions_spec (plain : ty.validateEntry = none) (paused : start.Paused) (allocated : (start.table t).bucketExp ≠ -1)
    (ref : BucketRef) (positions : List L.Pos) (run : CallbackRun L α)
    (before : run.disturbed = false → Within ty start bound known done t ref positions run)
    (calm : ((callbackHost ty).emitPositions ty ref positions run).disturbed = false) :
    Within ty start bound known done t ref [] ((callbackHost ty).emitPositions ty ref positions run) := by
  induction positions generalizing run with
  | nil => exact before calm
  | cons p rest ih =>
    have accepted : ∀ entry, ty.validateElementIfNeeded entry = true := by simp [HashtableType.validateElementIfNeeded,plain]
    rcases found : run.hashtable.slotOf ref p with _ | slot
    · -- nothing at this position, so what is due is due later
      have skipped : (callbackHost ty).emitPositions ty ref (p::rest) run = (callbackHost ty).emitPositions ty ref rest run := by
        simp [ScanHost.emitPositions,found]
      rw [skipped] at calm ⊢
      apply ih run _ calm
      intro quiet
      have within := before quiet
      refine ⟨within.tracks,within.address,?_⟩
      intro q x there table index
      rcases within.due q x there table index with passed | ⟨r,now,rTable,rIndex,deeper | ⟨depth,member⟩⟩
      · exact Or.inl passed
      · exact Or.inr ⟨r,now,rTable,rIndex,Or.inl deeper⟩
      refine Or.inr ⟨r,now,rTable,rIndex,Or.inr ⟨depth,?_⟩⟩
      rcases mem_cons.mp member with here | later
      · obtain ⟨u,i,d,pos⟩ := r
        subst rTable rIndex depth here
        rw [within.slotOf_eq allocated,now] at found
        simp at found
      · exact later
    · have visited : (callbackHost ty).emitPositions ty ref (p::rest) run =
          (callbackHost ty).emitPositions ty ref rest (run.visit ty slot.entry) := by
        simp [ScanHost.emitPositions,found,accepted]
      rw [visited] at calm ⊢
      apply ih _ _ calm
      intro quiet
      have within := before (calm_of_visit ty run slot.entry quiet)
      have held : run.hashtable.slotAt ⟨t,ref.index,ref.depth,p⟩ = some slot := by rw [← within.slotOf_eq allocated,found]
      obtain ⟨tracks,onward⟩ := visit_spec plain paused within.tracks _ slot held quiet
      refine ⟨tracks,within.address,?_⟩
      intro q x there table index
      rcases within.due q x there table index with passed | ⟨r,now,rTable,rIndex,place⟩
      · exact Or.inl (by simp [emitted_visit,passed])
      rcases onward r x now with passed | ⟨r',next,before⟩
      · exact Or.inl passed
      rcases before with rfl | ⟨nextTable,nextIndex,further⟩
      · rcases place with deeper | ⟨depth,member⟩
        · exact Or.inr ⟨r',next,rTable,rIndex,Or.inl deeper⟩
        rcases mem_cons.mp member with here | later
        · obtain ⟨u,i,d,pos⟩ := r'
          subst rTable rIndex depth here
          rw [held] at now
          obtain rfl := Option.some.inj now
          exact Or.inl (by simp [emitted_visit])
        · exact Or.inr ⟨r',next,rTable,rIndex,Or.inr ⟨depth,later⟩⟩
      · refine Or.inr ⟨r',next,nextTable.trans rTable,nextIndex.trans rIndex,Or.inl ?_⟩
        rcases place with deeper | ⟨depth,_⟩ <;> omega

/-- A loop that stops for want of rounds has been disturbed; one that ends satisfies the
postcondition. -/
def Ends {β : Type*} (post : β → Prop) : Except (CallbackRun L α) β → Prop
  | .error stopped => stopped.disturbed = true
  | .ok value => post value

section
variable (plain : ty.validateEntry = none) (paused : start.Paused)
include plain paused

theorem emitChain_spec (allocated : (start.table t).bucketExp ≠ -1)
    (rounds : Nat) (ref : BucketRef) (inside : ref.index < numBuckets (start.table t).bucketExp) (run : CallbackRun L α)
    (before : run.disturbed = false → Within ty start bound known done t ref L.positions run ∧ ref.depth ≤ bound)
    (enough : bound < ref.depth + rounds) :
    Ends (fun out => out.disturbed = false → Tracks ty start bound known ((t,ref.index)::done) out)
      ((callbackHost ty).emitChain ty rounds ref run) := by
  induction rounds generalizing ref run with
  | zero =>
    change run.disturbed = true
    by_contra quiet
    have reached := (before (by simpa using quiet)).2
    omega
  | succ rounds ih =>
    have spec := emitPositions_spec (t := t) plain paused allocated ref L.positions run (fun quiet => (before quiet).1)
    simp only [ScanHost.emitChain]
    generalize (callbackHost ty).emitPositions ty ref L.positions run = emitted at spec
    have chain : emitted.disturbed = false → ref.index < (emitted.hashtable.table t).buckets.length ∧
        emitted.hashtable.chainedOf ref = ((emitted.hashtable.table t).chain ref.index).chainedAt ref.depth := by
      intro quiet
      have within := spec quiet
      obtain ⟨exp,address⟩ := within.tracks.anchored.tables t allocated
      rw [(within.tracks.anchored.wf.table t).length,exp]
      exact ⟨inside,within.tracks.anchored.wf.chainedOf_eq t (exp ▸ allocated) ref (within.address.trans address.symm) (exp ▸ inside)⟩
    by_cases chained : emitted.hashtable.chainedOf ref = true
    · rw [if_pos chained]
      apply ih {ref with depth := ref.depth + 1} inside
      · intro quiet
        obtain ⟨index,equal⟩ := chain quiet
        have within := spec quiet
        refine ⟨⟨within.tracks,within.address,?_⟩,?_⟩
        · intro q x there table same
          rcases within.due q x there table same with passed | ⟨r,now,rTable,rIndex,deeper | ⟨_,none_left⟩⟩
          · exact Or.inl passed
          · refine Or.inr ⟨r,now,rTable,rIndex,?_⟩
            rcases lt_or_eq_of_le (succ_le_of_lt deeper) with below | here
            · exact Or.inl below
            · exact Or.inr ⟨here.symm,L.mem_positions _⟩
          · simp at none_left
        · rw [equal] at chained
          have links := Chain.lt_childCount_of_chainedAt _ _ chained
          have counted := (within.tracks.anchored.wf.table t).childCount_le ref.index index
          have total := table_childBuckets_le emitted.hashtable t
          have limit := within.tracks.children
          dsimp only
          omega
      · dsimp only
        omega
    · rw [if_neg chained]
      intro quiet
      obtain ⟨-,equal⟩ := chain quiet
      have within := spec quiet
      refine ⟨within.tracks.anchored,within.tracks.children,within.tracks.kept,?_,within.tracks.recorded⟩
      intro q x there member
      rcases mem_cons.mp member with here | earlier
      · obtain ⟨table,same⟩ := Prod.mk.inj here
        rcases within.due q x there table same with passed | ⟨r,now,rTable,rIndex,deeper | ⟨_,none_left⟩⟩
        · exact passed
        · -- nothing hangs below a bucket that is not chained
          obtain ⟨c,located,held⟩ := (slotAt_eq_some _ r x).mp now
          rw [rTable,rIndex] at located
          rw [equal,Table.chain_eq _ _ c located] at chained
          have shallow := Chain.depth_le_of_not_chainedAt c ref.depth r.depth r.pos x (by simpa using chained) held
          omega
        · simp at none_left
      · exact within.tracks.finished q x there earlier

section
variable (allocated : (start.table t).bucketExp ≠ -1) (rounds : Nat) (enough : bound < rounds) (index : Nat)
  (inside : index < numBuckets (start.table t).bucketExp) (run : CallbackRun L α)
  (before : run.disturbed = false → Tracks ty start bound done done run)
include allocated enough inside before

theorem emitIndex_spec :
    Ends (fun out => out.disturbed = false → Tracks ty start bound ((t,index)::done) ((t,index)::done) out)
      ((callbackHost ty).emitIndex ty rounds t index run) := by
  have entered : (run.record t index).disturbed = false → Within ty start bound ((t,index)::done) done t
      ⟨(run.hashtable.table t).address,index,0⟩ L.positions (run.record t index) ∧ 0 ≤ bound := by
    intro quiet
    have tracks := before quiet
    refine ⟨⟨record_tracks tracks allocated inside,(tracks.anchored.tables t allocated).2,?_⟩,zero_le _⟩
    intro p x there table same
    rcases tracks.kept p x there with passed | ⟨q,now,qTable,qIndex⟩
    · exact Or.inl passed
    refine Or.inr ⟨q,now,qTable.trans table,qIndex.trans same,?_⟩
    rcases Nat.eq_zero_or_pos q.depth with top | below
    · exact Or.inr ⟨top,L.mem_positions _⟩
    · exact Or.inl below
  have spec := emitChain_spec plain paused allocated rounds _ inside _ entered (by simpa using enough)
  simp only [ScanHost.emitIndex]
  generalize (callbackHost ty).emitChain ty rounds ⟨(run.hashtable.table t).address,index,0⟩ (run.record t index) = result at spec ⊢
  rcases result with stopped | emitted
  · exact spec
  dsimp only
  by_cases deleted : (emitted.hashtable.table t).used < (run.hashtable.table t).used
  · rw [if_pos deleted]
    intro quiet
    have tracks := record_tracks (spec quiet) allocated inside
    have compacted := compact_tracks tracks mem_cons_self allocated inside
    refine ⟨compacted.anchored,compacted.children,compacted.kept,compacted.finished,?_⟩
    intro a member
    obtain ⟨fits,listed⟩ := compacted.recorded a member
    exact ⟨fits,by simpa using listed⟩
  · rw [if_neg deleted]
    exact spec

theorem emitIndexIfPending_spec (wf : start.WF ty) (r : Nat) (running : start.rehashIdx = some r) :
    Ends (fun out => out.disturbed = false → Tracks ty start bound ((t,index)::done) ((t,index)::done) out)
      ((callbackHost ty).emitIndexIfPending ty rounds t index run) := by
  unfold ScanHost.emitIndexIfPending
  by_cases passed : t = 0 ∧ run.hashtable.alreadyRehashed index = true
  · rw [if_pos passed]
    intro quiet
    have tracks := before quiet
    refine ⟨tracks.anchored,tracks.children,tracks.kept,?_,fun a member => ⟨(tracks.recorded a member).1,
      mem_cons_of_mem _ (tracks.recorded a member).2⟩⟩
    intro p x there member
    rcases mem_cons.mp member with here | earlier
    · -- the chain was moved to table 1 before the call
      obtain ⟨table,same⟩ := Prod.mk.inj here
      have pending := (wf.inPlace p x there).pending (table.trans passed.1) r running
      have rehashed := passed.2
      simp only [alreadyRehashed,tracks.anchored.rehashIdx r running,any_some,decide_eq_true_eq] at rehashed
      omega
    · exact tracks.finished p x there earlier
  · rw [if_neg passed]
    exact emitIndex_spec plain paused allocated rounds enough index inside run before

end

/-- The loop over the larger table covers every word from its first cursor to the cursor
it returns, and these words share one index in the smaller table. -/
theorem emitLarge_spec (wf : start.WF ty) (r : Nat)
    (running : start.rehashIdx = some r) (e f : Nat) (exp : (start.table t).bucketExp = f) (le : e ≤ f) (fits : f ≤ L.sizeBits)
    (rounds : Nat) (enough : bound < rounds) (indices : Nat) (cursor : BitVec L.sizeBits)
    (left : 2^f ≤ order cursor / 2^(L.sizeBits - f) + indices) (run : CallbackRun L α)
    (before : run.disturbed = false → Tracks ty start bound done done run) :
    Ends (fun result =>
        (∀ v, Covers cursor result.2 v → order v / 2^(L.sizeBits - e) = order cursor / 2^(L.sizeBits - e)) ∧
        (result.1.disturbed = false → ∃ all, Tracks ty start bound all all result.1 ∧ (∀ c ∈ done, c ∈ all) ∧
          ∀ v, Covers cursor result.2 v → (t,v.toNat % 2^f) ∈ all))
      ((callbackHost ty).emitLarge ty rounds t (cursorMask L e) (cursorMask L f) indices cursor run) := by
  have masksSmall := cursorMask_lowMask L e (le.trans fits)
  have masksLarge := cursorMask_lowMask L f fits
  have coarser : ∀ u v : BitVec L.sizeBits, order u / 2^(L.sizeBits - f) = order v / 2^(L.sizeBits - f) →
      order u / 2^(L.sizeBits - e) = order v / 2^(L.sizeBits - e) := by
    intro u v same
    have split : 2^(L.sizeBits - e) = 2^(L.sizeBits - f) * 2^(f - e) := by
      rw [← pow_add]
      congr 1
      omega
    rw [split,← Nat.div_div_eq_div_mul,← Nat.div_div_eq_div_mul,same]
  have allocated : (start.table t).bucketExp ≠ -1 := by rw [exp]; omega
  induction indices generalizing cursor run done with
  | zero =>
    have block := block_lt cursor fits
    omega
  | succ indices ih =>
    have spec := emitIndexIfPending_spec (t := t) plain paused allocated rounds enough (cursor &&& cursorMask L f).toNat
      (by rw [exp]; exact toNat_and_cursorMask_lt cursor f) run before wf r running
    have here : ∀ v, Covers cursor (nextCursor cursor (cursorMask L f)) v →
        order v / 2^(L.sizeBits - f) = order cursor / 2^(L.sizeBits - f) := by
      intro v covered
      rw [nextCursor_eq_advance] at covered
      exact block_of_covers cursor _ v f masksLarge covered
    have indexed : ∀ v, Covers cursor (nextCursor cursor (cursorMask L f)) v → v.toNat % 2^f = (cursor &&& cursorMask L f).toNat := by
      intro v covered
      rw [toNat_and_cursorMask]
      exact mod_eq_of_block_eq v cursor f fits (here v covered)
    simp only [ScanHost.emitLarge]
    generalize (callbackHost ty).emitIndexIfPending ty rounds t (cursor &&& cursorMask L f).toNat run = emission at spec
    rcases emission with stopped | emitted
    · exact spec
    dsimp only
    by_cases more : nextCursor cursor (cursorMask L f) &&& (cursorMask L e ^^^ cursorMask L f) ≠ 0
    · rw [if_pos more]
      have split : ∀ final v, Covers cursor final v → Covers cursor (nextCursor cursor (cursorMask L f)) v ∨
          Covers (nextCursor cursor (cursorMask L f)) final v := by
        intro final v covered
        rcases lt_or_ge (order v) (order (nextCursor cursor (cursorMask L f))) with early | late
        · exact Or.inl ⟨covered.1,Or.inr early⟩
        · exact Or.inr ⟨late,covered.2⟩
      have sameBlock : order (nextCursor cursor (cursorMask L f)) / 2^(L.sizeBits - e) = order cursor / 2^(L.sizeBits - e) := by
        rw [nextCursor_eq_advance] at more ⊢
        exact block_of_continues cursor _ _ e f le masksSmall masksLarge more
      have progress := nextCursor_progress cursor e f fits more
      have rest := ih (nextCursor cursor (cursorMask L f)) (by omega) emitted spec
      generalize (callbackHost ty).emitLarge ty rounds t (cursorMask L e) (cursorMask L f) indices _ emitted = result at rest
      rcases result with stopped | ⟨out,final⟩
      · exact rest
      obtain ⟨block,covers⟩ := rest
      refine ⟨?_,?_⟩
      · intro v covered
        rcases split final v covered with now | later
        · exact coarser v cursor (here v now)
        · exact (block v later).trans sameBlock
      intro quiet
      obtain ⟨all,tracks,earlier,later⟩ := covers quiet
      refine ⟨all,tracks,fun c member => earlier c (mem_cons_of_mem _ member),?_⟩
      intro v covered
      rcases split final v covered with now | after
      · rw [indexed v now]
        exact earlier _ mem_cons_self
      · exact later v after
    · rw [if_neg more]
      refine ⟨fun v covered => coarser v cursor (here v covered),?_⟩
      intro quiet
      refine ⟨_,spec quiet,fun c member => mem_cons_of_mem _ member,?_⟩
      intro v covered
      rw [indexed v covered]
      exact mem_cons_self

theorem emitAll_spec (wf : start.WF ty) (rounds : Nat) (enough : bound < rounds)
    (cursor : BitVec L.sizeBits) (run : CallbackRun L α) (before : run.disturbed = false → Tracks ty start bound [] [] run) :
    Ends (fun result => result.1.disturbed = false → ∃ all, Tracks ty start bound all all result.1 ∧
        ∀ s ∈ start.slots, Covers cursor result.2 (hashWord L (ty.hashOf s.entry)) → s.entry ∈ result.1.emitted)
      ((callbackHost ty).emitAll ty rounds start cursor run) := by
  unfold ScanHost.emitAll
  rcases running : start.rehashIdx with _ | r
  · -- one table
    obtain ⟨e,exp,fits⟩ := wf.exp_eq 0 paused.allocated
    have exp0 : start.table0.bucketExp = e := exp
    have idle : start.isRehashing = false := by simp [isRehashing,running]
    have spec := emitIndex_spec (t := 0) plain paused paused.allocated rounds enough (cursor &&& cursorMask L e).toNat
      (by rw [exp]; exact toNat_and_cursorMask_lt cursor e) run before
    simp only [idle,exp0]
    generalize (callbackHost ty).emitIndex ty rounds 0 (cursor &&& cursorMask L e).toNat run = emission at spec
    rcases emission with stopped | emitted
    · exact spec
    intro quiet
    have tracks := spec quiet
    refine ⟨_,tracks,?_⟩
    intro s member covered
    obtain ⟨p,held⟩ := (mem_slots start s).mp member
    have place := wf.inPlace p s held
    have first : p.table = 0 := by
      by_contra second
      have rehashing := place.rehashing (by omega)
      simp [idle] at rehashing
    rw [nextCursor_eq_advance] at covered
    have block := block_of_covers cursor _ _ e (cursorMask_lowMask L e fits) covered
    apply tracks.finished p s held
    rw [place.index,first,exp,bucketIndex_eq_hashWord _ e fits,toNat_and_cursorMask,mod_eq_of_block_eq _ cursor e fits block]
    exact mem_cons_self
  · have rehashing : start.isRehashing = true := by simp [isRehashing,running]
    have allocated : ∀ t, (start.table t).bucketExp ≠ -1 := Fin.forall_fin_two.mpr ⟨paused.allocated,(wf.running r running).2.1⟩
    have le := smallTable_le start
    have either := eq_smallTable_or_largeTable start
    simp only [rehashing]
    generalize start.smallTable = small at le either
    generalize start.largeTable = large at le either
    obtain ⟨e,exp,fits⟩ := wf.exp_eq small (allocated small)
    obtain ⟨f,expLarge,fitsLarge⟩ := wf.exp_eq large (allocated large)
    have buckets : numBuckets (start.table large).bucketExp = 2^f := by
      rw [numBuckets_eq _ (allocated large),expLarge,Int.toNat_natCast]
    rw [buckets,exp,expLarge]
    have spec := emitIndexIfPending_spec (t := small) plain paused (allocated small) rounds enough (cursor &&& cursorMask L e).toNat
      (by rw [exp]; exact toNat_and_cursorMask_lt cursor e) run before wf r running
    generalize (callbackHost ty).emitIndexIfPending ty rounds small (cursor &&& cursorMask L e).toNat run = emission at spec
    rcases emission with stopped | emitted
    · exact spec
    have loop := emitLarge_spec plain paused wf r running e f expLarge (by omega) fitsLarge rounds enough (2^f) cursor
      (le_add_left _ _) emitted spec
    dsimp only
    generalize (callbackHost ty).emitLarge ty rounds large (cursorMask L e) (cursorMask L f) (2^f) cursor emitted = result at loop
    rcases result with stopped | ⟨out,final⟩
    · exact loop
    intro quiet
    obtain ⟨block,covers⟩ := loop
    obtain ⟨all,tracks,earlier,later⟩ := covers quiet
    refine ⟨all,tracks,?_⟩
    intro s member covered
    obtain ⟨p,held⟩ := (mem_slots start s).mp member
    apply tracks.finished p s held
    rw [(wf.inPlace p s held).index]
    rcases either p.table with here | there
    · rw [here,exp,bucketIndex_eq_hashWord _ e fits,mod_eq_of_block_eq _ cursor e fits (block _ covered)]
      apply earlier
      rw [toNat_and_cursorMask]
      exact mem_cons_self
    · rw [there,expLarge,bucketIndex_eq_hashWord _ f fitsLarge]
      exact later _ covered

end

theorem hashtableScan_spec (plain : ty.validateEntry = none) (env : Env) (ht : Hashtable L α) (wf : ht.WF ty) (fit : ht.PausesFit)
    (cursor : BitVec L.sizeBits) (pending : List (List (CallbackAction α))) (rounds : Nat)
    (enough : ht.childBuckets + actionCount pending < rounds) :
    Ends (fun result => result.1.disturbed = false →
        (∀ a ∈ result.1.accesses, a.index < a.buckets ∧
          ∀ p s, ht.slotAt p = some s → p.table = a.table → p.index = a.index → s.entry ∈ result.1.emitted) ∧
        ∀ s ∈ ht.slots, Covers cursor result.2 (hashWord L (ty.hashOf s.entry)) → s.entry ∈ result.1.emitted)
      ((callbackHost ty).hashtableScan ty env rounds cursor ⟨ht,pending,[],[],false⟩) := by
  unfold ScanHost.hashtableScan
  by_cases vacant : ht.size = 0
  · have nothing := wf.slots_eq_zero vacant
    simp [vacant,Ends,nothing]
  have pausedWf : ht.hashtablePauseRehashing.WF ty := wf.withPauses _ _
  have spec := emitAll_spec plain (hashtablePauseRehashing_paused fit (wf.allocated_of_size vacant)) pausedWf rounds enough cursor
    _ (fun _ => tracks_start pausedWf pending)
  rw [ScanHost.emitAll_pause] at spec
  simp only [vacant]
  generalize (callbackHost ty).emitAll ty rounds ht cursor ⟨ht.hashtablePauseRehashing,pending,[],[],false⟩ = result at spec
  rcases result with stopped | ⟨out,next⟩
  · exact spec
  intro quiet
  obtain ⟨all,tracks,covers⟩ := spec quiet
  refine ⟨?_,covers⟩
  intro a member
  obtain ⟨fits,listed⟩ := tracks.recorded a member
  exact ⟨fits,fun p s held table index => tracks.finished p s held (by rw [table,index]; exact listed)⟩

/-- A scan call whose callback inserts entries and deletes entries passed to it, with no
insertion that aborts a shrink or replaces the table in one go. It returns; every index
it uses on a table is below the number of buckets there; and everything that was stored
in the chains it indexed has been emitted. -/
theorem hashtableScan_callback (plain : ty.validateEntry = none) (env : Env) (ht : Hashtable L α) (wf : ht.WF ty) (fit : ht.PausesFit)
    (cursor : BitVec L.sizeBits) (pending : List (List (CallbackAction α))) (rounds : Nat)
    (enough : ht.childBuckets + actionCount pending < rounds) :
    (∀ stopped, (callbackHost ty).hashtableScan ty env rounds cursor ⟨ht,pending,[],[],false⟩ = .error stopped → stopped.disturbed = true) ∧
      ∀ final next, (callbackHost ty).hashtableScan ty env rounds cursor ⟨ht,pending,[],[],false⟩ = .ok (final,next) →
        final.disturbed = false → ∀ a ∈ final.accesses, a.index < a.buckets ∧
          ∀ p s, ht.slotAt p = some s → p.table = a.table → p.index = a.index → s.entry ∈ final.emitted := by
  have spec := hashtableScan_spec plain env ht wf fit cursor pending rounds enough
  refine ⟨?_,?_⟩
  · intro stopped result
    rw [result] at spec
    exact spec
  · intro final next result quiet
    rw [result] at spec
    exact (spec quiet).1

end Scanning

def shrinkScript : List (Env × Op Nat Nat) := [({},.expand 28),({},.add 0),({},.shrinkIfNeeded)]

def shrinkingTable : Hashtable .bits64 Nat := ((create : Hashtable .bits64 Nat).run identityType shrinkScript).1

theorem shrinkingTable_wf : shrinkingTable.WF identityType ∧ shrinkingTable.PausesFit := by
  exact run_wf rfl shrinkScript (by decide)

theorem hashtableScan_callback_shrinkingTable :
    ∃ final next, (callbackHost identityType).hashtableScan identityType {} 50 0
        ⟨shrinkingTable,[[.insert {} 1,.deletePassed {}]],[],[],false⟩ = .ok (final,next) ∧
      final.disturbed = false ∧ ∀ a ∈ final.accesses, a.index < a.buckets := by
  obtain ⟨wf,fit⟩ := shrinkingTable_wf
  have spec := hashtableScan_callback rfl {} shrinkingTable wf fit 0 [[.insert {} 1,.deletePassed {}]] 50 (by decide +kernel)
  have quiet : ((callbackHost identityType).hashtableScan identityType {} 50 0
      ⟨shrinkingTable,[[.insert {} 1,.deletePassed {}]],[],[],false⟩).toOption.map (·.1.disturbed) = some false := by decide +kernel
  generalize (callbackHost identityType).hashtableScan identityType {} 50 0
    ⟨shrinkingTable,[[.insert {} 1,.deletePassed {}]],[],[],false⟩ = result at spec quiet ⊢
  rcases result with stopped | ⟨final,next⟩
  · simp [Except.toOption] at quiet
  · have calm : final.disturbed = false := by simpa [Except.toOption] using quiet
    exact ⟨final,next,rfl,calm,fun a member => (spec.2 final next rfl calm a member).1⟩

/-- Thirty-six insertions by one callback abort the shrink and swap the tables; the loop
over the eight buckets goes on in the table that has one. -/
theorem hashtableScan_abortedShrink :
    ∃ final next, (callbackHost identityType).hashtableScan identityType {} 50 0
        ⟨shrinkingTable,[(List.range 36).map (fun n => .insert {} (n + 1))],[],[],false⟩ = .ok (final,next) ∧
      ∃ a ∈ final.accesses, a.buckets ≤ a.index := by
  have outside : ((callbackHost identityType).hashtableScan identityType {} 50 0
      ⟨shrinkingTable,[(List.range 36).map (fun n => .insert {} (n + 1))],[],[],false⟩).toOption.map
        (·.1.accesses.any (fun a => decide (a.buckets ≤ a.index))) = some true := by decide +kernel
  generalize (callbackHost identityType).hashtableScan identityType {} 50 0
    ⟨shrinkingTable,[(List.range 36).map (fun n => .insert {} (n + 1))],[],[],false⟩ = result at outside ⊢
  rcases result with stopped | ⟨final,next⟩
  · simp [Except.toOption] at outside
  · exact ⟨final,next,rfl,by simpa [Except.toOption] using outside⟩

end ValkeyWasm.Hashtable
