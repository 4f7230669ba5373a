import ValkeyWasm.Hashtable.Contents
import ValkeyWasm.Library.KeyedContents

/-! The hash table refines a finite map.
A run is a sequence of calls, each with the policy and allocator answers in force at
that moment. The specification knows only the map; the simulation relation is carried
through every call and the placement invariants are read off at the end. -/
namespace ValkeyWasm.Hashtable
open Library.KeyedContents Function List Option Multiset

variable {L : Layout} {α κ : Type*}

inductive Op (α κ : Type*) where
  | find (key : κ)
  | findRef (key : κ)
  | add (entry : α)
  | addOrFind (entry : α)
  | insertTwoPhase (entry : α)
  | pop (key : κ)
  | delete (key : κ)
  | popTwoPhase (key : κ)
  | replaceReallocatedEntry (oldEntry newEntry : α)
  | expand (size : Nat)
  | tryExpand (size : Nat)
  | expandIfNeeded
  | shrinkIfNeeded
  | rightsizeIfNeeded
  | pauseAutoShrink
  | resumeAutoShrink
  | rehashMicroseconds (elapsed : Nat → Bool)

inductive Reply (α : Type*) where
  | entry (found : Option α)
  | flag (done : Bool)
  | silent
  deriving DecidableEq, Repr

structure Simulates (ty : HashtableType α κ) (paused : Nat) (ht : Hashtable L α) (map : κ → Option α) : Prop where
  wf : ht.WF ty
  contents : Represents ty.entryGetKey (ht.slots.map (·.entry)) map
  rehash : ht.pauseRehash = 0
  autoShrink : ht.pauseAutoShrink = paused
  room : paused + 2 < 2^15

variable {ty : HashtableType α κ} {map : κ → Option α} {ht : Hashtable L α} {paused : Nat}

section Simulation
variable (sim : Simulates ty paused ht map)
include sim

theorem Simulates.next {next : Hashtable L α} {nextMap : κ → Option α} (wf : next.WF ty) (framed : Framed ht next)
    (contents : Represents ty.entryGetKey (next.slots.map (·.entry)) nextMap) : Simulates ty paused next nextMap :=
  ⟨wf,contents,framed.pauseRehash.trans sim.rehash,framed.pauseAutoShrink.trans sim.autoShrink,sim.room⟩

theorem Simulates.rearranged {next : Hashtable L α} (rearranged : Reshaped ty ht next) : Simulates ty paused next map :=
  sim.next rearranged.wf rearranged.framed (rearranged.slots.symm ▸ sim.contents)

theorem Simulates.lookup_none (key : κ) (absent : ∀ s ∈ ht.slots, ty.entryGetKey s.entry ≠ key) : map key = none := by
  apply sim.contents.lookup_none
  intro entry member
  obtain ⟨s,stored,rfl⟩ := mem_map.mp member
  exact absent s stored

theorem Simulates.lookup_some (key : κ) (s : Slot α) (member : s ∈ ht.slots) (same : ty.entryGetKey s.entry = key) :
    map key = some s.entry :=
  sim.contents.lookup_some s.entry (mem_map_of_mem _ member) key same

theorem Simulates.distinct : ((ht.slots.map (·.entry)).map ty.entryGetKey).Nodup := by
  rw [Multiset.map_map]
  exact sim.wf.distinct

theorem Simulates.pausesFit : ht.PausesFit := by
  have room := sim.room
  constructor
  · rw [sim.rehash]
  · rw [sim.autoShrink]; omega
  · rw [sim.rehash]; omega
  · rw [sim.autoShrink]; omega

variable [DecidableEq κ]

theorem removal_simulates {key : κ} {result : Hashtable L α × Option α} (popped : Popped ty ht key result) :
    result.2 = map key ∧ Simulates ty paused result.1 (update map key none) := by
  rcases popped with ⟨s,same,found,wf,slots,framed,_⟩ | ⟨absent,missing,rearranged⟩
  · have member : s ∈ ht.slots := slots ▸ mem_cons_self s _
    refine ⟨found.trans (sim.lookup_some key s member same).symm,sim.next wf framed ?_⟩
    rw [← same]
    exact sim.contents.erase s.entry _ (by rw [slots,Multiset.map_cons]) sim.distinct
  have unmapped := sim.lookup_none key absent
  refine ⟨missing.trans unmapped.symm,?_⟩
  have unchanged : update map key none = map := by
    rw [← unmapped]
    exact update_eq_self key map
  rw [unchanged]
  exact sim.rearranged rearranged

variable [Inhabited α]

theorem findRef_simulates (plain : ty.validateEntry = none) (env : Env) (key : κ) :
    Simulates ty paused (ht.findRef ty env key).1 map ∧
      (ht.findRef ty env key).2.bind (ht.findRef ty env key).1.entryAt = map key := by
  unfold findRef
  split
  · rename_i vacant
    have nothing := sim.wf.slots_eq_zero vacant
    exact ⟨sim,(sim.lookup_none key (by simp [nothing])).symm⟩
  rcases findBucket_cases sim.wf plain env key with ⟨next,p,s,result,searched,held,same⟩ | ⟨next,result,searched,absent⟩
  · rw [result]
    refine ⟨sim.rearranged searched,?_⟩
    rw [bind_some,entryAt_eq _ p s held]
    exact (sim.lookup_some key s (searched.slots ▸ (mem_slots _ s).mpr ⟨p,held⟩) same).symm
  · rw [result]
    exact ⟨sim.rearranged searched,(sim.lookup_none key absent).symm⟩

theorem addOrFind_simulates (plain : ty.validateEntry = none) (env : Env) (entry : α) :
    (ht.addOrFind ty env entry).2 = map (ty.entryGetKey entry) ∧
      Simulates ty paused (ht.addOrFind ty env entry).1 (if (map (ty.entryGetKey entry)).isSome then map
        else update map (ty.entryGetKey entry) (some entry)) := by
  rcases addOrFind_spec sim.wf plain env entry with ⟨s,member,same,reply,rearranged⟩ | ⟨absent,reply,wf,slots,framed,_⟩
  · have present := sim.lookup_some _ s member same
    rw [present]
    exact ⟨reply,sim.rearranged rearranged⟩
  have missing := sim.lookup_none _ absent
  rw [missing]
  refine ⟨reply,sim.next wf framed ?_⟩
  rw [slots,Multiset.map_cons]
  apply sim.contents.insert
  intro stored member
  obtain ⟨s,inside,rfl⟩ := mem_map.mp member
  exact absent s inside

variable [DecidableEq α]

theorem replaceReallocatedEntry_simulates {oldEntry newEntry : α} (same : ty.entryGetKey newEntry = ty.entryGetKey oldEntry) :
    (ht.replaceReallocatedEntry ty oldEntry newEntry).2 = decide (map (ty.entryGetKey newEntry) = some oldEntry) ∧
      Simulates ty paused (ht.replaceReallocatedEntry ty oldEntry newEntry).1
        (if map (ty.entryGetKey newEntry) = some oldEntry then update map (ty.entryGetKey newEntry) (some newEntry)
          else map) := by
  rcases replaceReallocatedEntry_spec sim.wf same with ⟨s,rest,entry,slots,reply,wf,written,framed⟩ | ⟨absent,reply⟩
  · have member : s ∈ ht.slots := slots ▸ mem_cons_self s rest
    have present : map (ty.entryGetKey newEntry) = some oldEntry := by
      rw [sim.lookup_some (ty.entryGetKey newEntry) s member (by rw [entry,same]),entry]
    rw [if_pos present]
    refine ⟨by simp [reply,present],sim.next wf framed ?_⟩
    rw [written,Multiset.map_cons]
    exact sim.contents.replace s.entry newEntry _ (by rw [slots,Multiset.map_cons]) sim.distinct (by rw [entry,same])
  · have missing : map (ty.entryGetKey newEntry) ≠ some oldEntry := by
      intro present
      obtain ⟨member,_⟩ := sim.contents.complete _ _ present
      obtain ⟨s,inside,entry⟩ := mem_map.mp member
      exact absent s inside entry
    rw [if_neg missing,reply]
    exact ⟨by simp [missing],sim⟩

end Simulation

def Chain.presenceBits : Chain L α → Nat
  | .last b => b.popcount
  | .link b child => b.popcount + child.presenceBits

def Table.presenceBits (table : Table L α) : Nat := (table.buckets.map Chain.presenceBits).sum

theorem Chain.presenceBits_eq_card (c : Chain L α) : c.presenceBits = c.slots.card := by
  induction c with
  | last b => exact b.popcount_eq_card
  | link b child ih => rw [presenceBits,slots,card_add,b.popcount_eq_card,ih]

theorem Table.presenceBits_eq_card (table : Table L α) : table.presenceBits = table.slots.card := by
  rw [presenceBits,slots,ValkeyWasm.Library.Occupancy.card_sum,List.map_map]
  congr 1
  exact map_congr_left (fun c _ => c.presenceBits_eq_card)

theorem Chain.LinksFree.lastPos_free {c : Chain L α} (links : c.LinksFree) (depth : Nat) (b : Bucket L α)
    (chained : c.chainedAt depth = true) (located : c.bucketAt depth = some b) : b.isPositionFilled L.lastPos = false := by
  induction c generalizing depth with
  | last bucket => simp [chainedAt] at chained
  | link bucket child ih =>
    cases depth with
    | zero =>
      obtain rfl : bucket = b := by simpa [bucketAt] using located
      exact (Bucket.slot_eq_none bucket _).mp links.1
    | succ depth => exact ih links.2 depth chained located

theorem create_simulates (ty : HashtableType α κ) : Simulates ty 0 (create : Hashtable L α) (fun _ => none) :=
  ⟨create_wf ty,by simpa [create,slots,Table.slots,Table.reset] using represents_empty ty.entryGetKey,rfl,rfl,by decide⟩

section Running
variable [Inhabited α] [DecidableEq α] [DecidableEq κ]

def step (ty : HashtableType α κ) (env : Env) (ht : Hashtable L α) : Op α κ → Hashtable L α × Reply α
  | .find key => let r := ht.find ty env key; (r.1,.entry r.2)
  | .findRef key => let r := ht.findRef ty env key; (r.1,.entry (r.2.bind r.1.entryAt))
  | .add entry => let r := ht.add ty env entry; (r.1,.flag r.2)
  | .addOrFind entry => let r := ht.addOrFind ty env entry; (r.1,.entry r.2)
  | .insertTwoPhase entry => let r := ht.insertTwoPhase ty env entry; (r.1,.entry r.2)
  | .pop key => let r := ht.pop ty env key; (r.1,.entry r.2)
  | .delete key => let r := ht.delete ty env key; (r.1,.flag r.2)
  | .popTwoPhase key => let r := ht.popTwoPhase ty env key; (r.1,.entry r.2)
  | .replaceReallocatedEntry oldEntry newEntry => let r := ht.replaceReallocatedEntry ty oldEntry newEntry; (r.1,.flag r.2)
  | .expand size => ((ht.hashtableExpand ty env size).1,.silent)
  | .tryExpand size => ((ht.tryExpand ty env size).1,.silent)
  | .expandIfNeeded => ((ht.expandIfNeeded ty env).1,.silent)
  | .shrinkIfNeeded => ((ht.shrinkIfNeeded ty env).1,.silent)
  | .rightsizeIfNeeded => ((ht.rightsizeIfNeeded ty env).1,.silent)
  | .pauseAutoShrink => (ht.hashtablePauseAutoShrink,.silent)
  | .resumeAutoShrink => (ht.hashtableResumeAutoShrink ty env,.silent)
  | .rehashMicroseconds elapsed => ((ht.rehashMicroseconds ty env elapsed).1,.silent)

def run (ty : HashtableType α κ) : List (Env × Op α κ) → Hashtable L α → Hashtable L α × List (Reply α)
  | [], ht => (ht,[])
  | (env,op)::rest, ht =>
    let stepped := ht.step ty env op
    let final := run ty rest stepped.1
    (final.1,stepped.2::final.2)

def mapStep (ty : HashtableType α κ) (map : κ → Option α) : Op α κ → (κ → Option α) × Reply α
  | .find key => (map,.entry (map key))
  | .findRef key => (map,.entry (map key))
  | .add entry =>
    if (map (ty.entryGetKey entry)).isSome then (map,.flag false)
    else (Function.update map (ty.entryGetKey entry) (some entry),.flag true)
  | .addOrFind entry | .insertTwoPhase entry =>
    if (map (ty.entryGetKey entry)).isSome then (map,.entry (map (ty.entryGetKey entry)))
    else (Function.update map (ty.entryGetKey entry) (some entry),.entry none)
  | .pop key | .popTwoPhase key => (Function.update map key none,.entry (map key))
  | .delete key => (Function.update map key none,.flag (map key).isSome)
  | .replaceReallocatedEntry oldEntry newEntry =>
    if map (ty.entryGetKey newEntry) = some oldEntry then
      (Function.update map (ty.entryGetKey newEntry) (some newEntry),.flag true)
    else (map,.flag false)
  | _ => (map,.silent)

def mapRun (ty : HashtableType α κ) : List (Env × Op α κ) → (κ → Option α) → (κ → Option α) × List (Reply α)
  | [], map => (map,[])
  | (_,op)::rest, map =>
    let stepped := mapStep ty map op
    let final := mapRun ty rest stepped.1
    (final.1,stepped.2::final.2)

/-- The documented preconditions, with the number of outstanding pauses: auto shrink is
resumed only after it was paused, the pauses fit their counter, and a reallocated entry
keeps its key. -/
def permitted (ty : HashtableType α κ) : Nat → List (Env × Op α κ) → Bool
  | _, [] => true
  | paused, (_,.pauseAutoShrink)::rest => decide (paused + 3 < 2^15) && permitted ty (paused + 1) rest
  | paused, (_,.resumeAutoShrink)::rest => decide (0 < paused) && permitted ty (paused - 1) rest
  | paused, (_,.replaceReallocatedEntry oldEntry newEntry)::rest =>
    decide (ty.entryGetKey newEntry = ty.entryGetKey oldEntry) && permitted ty paused rest
  | paused, _::rest => permitted ty paused rest

theorem step_simulates
    (sim : Simulates ty paused ht map) (plain : ty.validateEntry = none) (env : Env) (op : Op α κ) (rest : List (Env × Op α κ))
    (allowed : permitted ty paused ((env,op)::rest) = true) :
    (ht.step ty env op).2 = (mapStep ty map op).2 ∧
      ∃ pausedNext, permitted ty pausedNext rest = true ∧ Simulates ty pausedNext (ht.step ty env op).1 (mapStep ty map op).1 := by
  cases op with
  | find key | findRef key =>
    obtain ⟨next,reply⟩ := findRef_simulates sim plain env key
    exact ⟨congrArg Reply.entry reply,paused,allowed,next⟩
  | add entry | addOrFind entry | insertTwoPhase entry =>
    obtain ⟨reply,next⟩ := addOrFind_simulates sim plain env entry
    simp only [step,add,insertTwoPhase_eq,mapStep,reply]
    cases present : map (ty.entryGetKey entry) <;> exact ⟨rfl,paused,allowed,by simpa [present] using next⟩
  | pop key =>
    obtain ⟨reply,next⟩ := removal_simulates sim (pop_spec sim.wf plain env key)
    exact ⟨congrArg Reply.entry reply,paused,allowed,next⟩
  | delete key =>
    obtain ⟨reply,next⟩ := removal_simulates sim (pop_spec sim.wf plain env key)
    exact ⟨congrArg (fun found => Reply.flag (Option.isSome found)) reply,paused,allowed,next⟩
  | popTwoPhase key =>
    obtain ⟨reply,next⟩ := removal_simulates sim (popTwoPhase_spec sim.wf sim.pausesFit plain env key)
    exact ⟨congrArg Reply.entry reply,paused,allowed,next⟩
  | replaceReallocatedEntry oldEntry newEntry =>
    simp only [permitted,Bool.and_eq_true,decide_eq_true_eq] at allowed
    obtain ⟨reply,next⟩ := replaceReallocatedEntry_simulates sim allowed.1
    simp only [step,mapStep,reply]
    by_cases present : map (ty.entryGetKey newEntry) = some oldEntry <;>
      exact ⟨by simp [present],paused,allowed.2,by simpa [present] using next⟩
  | expand size => exact ⟨rfl,paused,allowed,sim.rearranged (expand_rearranged sim.wf env false size)⟩
  | tryExpand size => exact ⟨rfl,paused,allowed,sim.rearranged (expand_rearranged sim.wf env true size)⟩
  | expandIfNeeded => exact ⟨rfl,paused,allowed,sim.rearranged (expandIfNeeded_rearranged sim.wf env)⟩
  | shrinkIfNeeded => exact ⟨rfl,paused,allowed,sim.rearranged (shrinkIfNeeded_rearranged sim.wf env)⟩
  | rightsizeIfNeeded => exact ⟨rfl,paused,allowed,sim.rearranged (rightsizeIfNeeded_rearranged sim.wf env)⟩
  | rehashMicroseconds elapsed =>
    exact ⟨rfl,paused,allowed,sim.rearranged (rehashMicroseconds_rearranged sim.wf env elapsed)⟩
  | pauseAutoShrink =>
    simp only [permitted,Bool.and_eq_true,decide_eq_true_eq] at allowed
    have counter := sim.autoShrink
    refine ⟨rfl,paused + 1,allowed.2,?_⟩
    simp only [step]
    rw [hashtablePauseAutoShrink_eq (by omega) (by omega)]
    exact ⟨sim.wf.withPauses _ _,sim.contents,sim.rehash,by rw [counter]; simp,by omega⟩
  | resumeAutoShrink =>
    simp only [permitted,Bool.and_eq_true,decide_eq_true_eq] at allowed
    have counter := sim.autoShrink
    have room := sim.room
    have resumed := hashtableResumeAutoShrink_rearranged sim.wf env (by omega) (by omega)
    refine ⟨rfl,paused - 1,allowed.2,?_⟩
    have held : Simulates ty (paused - 1) (ht.withPauses ht.pauseRehash (ht.pauseAutoShrink - 1)) map :=
      ⟨sim.wf.withPauses _ _,sim.contents,sim.rehash,by rw [withPauses_pauseAutoShrink]; omega,by omega⟩
    exact held.rearranged resumed

/-- A run gives the replies of the map and ends in a table that holds the map and from
which the remaining calls are permitted. -/
theorem run_simulates (plain : ty.validateEntry = none) (script rest : List (Env × Op α κ)) (paused : Nat)
    (ht : Hashtable L α) (map : κ → Option α) (sim : Simulates ty paused ht map) (allowed : permitted ty paused (script ++ rest) = true) :
    (ht.run ty script).2 = (mapRun ty script map).2 ∧ ∃ pausedNext, permitted ty pausedNext rest = true ∧
      Simulates ty pausedNext (ht.run ty script).1 (mapRun ty script map).1 := by
  induction script generalizing paused ht map with
  | nil => exact ⟨rfl,paused,allowed,sim⟩
  | cons call script ih =>
    obtain ⟨env,op⟩ := call
    obtain ⟨reply,pausedNext,remaining,next⟩ := step_simulates sim plain env op (script ++ rest) allowed
    obtain ⟨replies,final⟩ := ih pausedNext _ _ next remaining
    refine ⟨?_,final⟩
    simp [run,mapRun,reply,replies]

theorem run_wf (plain : ty.validateEntry = none) (script : List (Env × Op α κ))
    (allowed : permitted ty 0 script = true) :
    ((create : Hashtable L α).run ty script).1.WF ty ∧ ((create : Hashtable L α).run ty script).1.PausesFit := by
  obtain ⟨_,paused,_,sim⟩ := run_simulates plain script [] 0 create _ (create_simulates ty) (by simpa using allowed)
  exact ⟨sim.wf,sim.pausesFit⟩

/-- From `hashtableCreate` on, every permitted run gives the replies of a finite map.
Each mapped entry is stored at exactly one position, which is in the chain its hash
selects; the counters count presence bits and child buckets; a chained bucket never has
the presence bit of its last position. -/
theorem hashtable_refines_map (L : Layout) (ty : HashtableType α κ) (plain : ty.validateEntry = none)
    (script : List (Env × Op α κ)) (allowed : permitted ty 0 script = true) :
    let final := (create : Hashtable L α).run ty script
    let spec := mapRun ty script (fun _ => none)
    final.2 = spec.2 ∧
    (∀ entry, spec.1 (ty.entryGetKey entry) = some entry →
      ∃ p, final.1.entryAt p = some entry ∧ InPlace ty final.1 p entry ∧ ∀ q, final.1.entryAt q = some entry → q = p) ∧
    (∀ p entry, final.1.entryAt p = some entry → spec.1 (ty.entryGetKey entry) = some entry) ∧
    (∀ t, (final.1.table t).used = (final.1.table t).presenceBits ∧
      (final.1.table t).childBuckets = (final.1.table t).childTotal) ∧
    (∀ t, ∀ c ∈ (final.1.table t).buckets, ∀ depth b, c.chainedAt depth = true → c.bucketAt depth = some b →
      b.isPositionFilled L.lastPos = false) := by
  intro final spec
  obtain ⟨replies,paused,_,sim⟩ := run_simulates plain script [] 0 create _ (create_simulates ty) (by simpa using allowed)
  have stored : ∀ p entry, final.1.entryAt p = some entry → ∃ s, final.1.slotAt p = some s ∧ s.entry = entry := by
    simpa [entryAt] using held
  refine ⟨replies,?_,?_,?_,?_⟩
  · intro entry mapped
    obtain ⟨member,_⟩ := sim.contents.complete _ _ mapped
    obtain ⟨s,inside,rfl⟩ := mem_map.mp member
    obtain ⟨p,held⟩ := (mem_slots _ s).mp inside
    refine ⟨p,entryAt_eq _ p s held,sim.wf.inPlace p s held,?_⟩
    intro q other
    obtain ⟨x,there,equal⟩ := stored q _ other
    exact sim.wf.position_unique p q s x held there (by rw [equal])
  · intro p entry held
    obtain ⟨s,slot,rfl⟩ := stored p entry held
    exact sim.contents.sound s.entry (mem_map_of_mem _ ((mem_slots _ s).mpr ⟨p,slot⟩))
  · intro t
    rw [Table.presenceBits_eq_card]
    exact ⟨(sim.wf.table t).used,(sim.wf.table t).children⟩
  · intro t c member depth b chained located
    exact ((sim.wf.table t).links c member).lastPos_free depth b chained located

end Running

def identityType : HashtableType Nat Nat := {entryGetKey := id, hashKey := BitVec.ofNat 64}

def chainedScript : List (Env × Op Nat Nat) :=
  [({},.expand 14),({},.add 0),({},.add 4),({},.add 8),({},.add 12),({},.add 16),({},.add 20),({},.insertTwoPhase 24),({},.add 28),
    ({},.pauseAutoShrink),({},.popTwoPhase 4),({},.resumeAutoShrink),({},.find 28),({},.delete 8)]

theorem hashtable_refines_map_chainedScript :
    permitted identityType 0 chainedScript = true ∧
      ((create : Hashtable .bits64 Nat).run identityType chainedScript).2 = (mapRun identityType chainedScript (fun _ => none)).2 ∧
      ∃ p, ((create : Hashtable .bits64 Nat).run identityType chainedScript).1.entryAt p = some 28 := by
  have allowed : permitted identityType 0 chainedScript = true := by decide
  obtain ⟨replies,stored,_⟩ := hashtable_refines_map .bits64 identityType rfl chainedScript allowed
  obtain ⟨p,held,_⟩ := stored 28 (by decide)
  exact ⟨allowed,replies,p,held⟩

end ValkeyWasm.Hashtable
