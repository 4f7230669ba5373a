import Mathlib.Data.List.Chain
import ValkeyWasm.Watch.Steps

/-! Whole runs of the server: every state they go through is linked, and as long as no command revives a
watched key, an EXEC that executes has missed no change of a watched key. -/

namespace ValkeyWasm.Watch
open List Option

open Server

variable {C K V : Type} {dbnum : Nat} [DecidableEq K] [DecidableEq C]

theorem isChain_resume {α : Type} {R : α → α → Prop} {later : List α} {run : List α} : ∀ start : α,
    List.IsChain R (start :: run) → List.IsChain R (run.getLastD start :: later) → List.IsChain R (start :: (run ++ later)) := by
  induction run with
  | nil => exact fun _ _ second => second
  | cons next rest ih =>
    intro start first second
    obtain ⟨step,first⟩ := isChain_cons_cons.mp first
    rw [getLastD_cons] at second
    exact isChain_cons_cons.mpr ⟨step,ih next first second⟩

omit [DecidableEq K] [DecidableEq C] in
theorem flagged_last {run : List (Server C K V dbnum)} : ∀ start, Flagged start → List.IsChain Advances (start :: run) →
    Flagged (run.getLastD start) := by
  induction run with
  | nil => exact fun _ flagged _ => flagged
  | cons next rest ih =>
    intro start _ chain
    obtain ⟨step,chain⟩ := isChain_cons_cons.mp chain
    rw [getLastD_cons]
    exact ih next step.1 chain

omit [DecidableEq C] in
theorem linked_last {start : Server C K V dbnum} {run : List (Server C K V dbnum)} (linked : start.Linked)
    (all : ∀ t ∈ run, t.Linked) : (run.getLastD start).Linked := by
  rw [getLastD_eq_getLast?]
  cases last : run.getLast? with
  | none => exact linked
  | some t => exact all t (mem_of_getLast? last)

/-! ## EXEC -/

variable {s : Server C K V dbnum}

omit [DecidableEq K] [DecidableEq C] in
theorem watchedKeyExpired_spec (l : List Nat) (live : ∀ a ∈ l, ∃ wk, s.objects a = some wk) :
    ∃ b, watchedKeyExpired s l = some b ∧
      (b = false → ∀ a ∈ l, ∀ wk, s.objects a = some wk → wk.expired = false → keyIsExpired s wk.db wk.key = false) := by
  induction l with
  | nil => exact ⟨false,rfl,by simp⟩
  | cons a rest ih =>
    obtain ⟨b,run,rule⟩ := ih fun a' inside => live a' (mem_cons_of_mem a inside)
    obtain ⟨wk,object⟩ := live a mem_cons_self
    simp only [watchedKeyExpired,object,bind_eq_bind,bind_some]
    split
    · rename_i flag
      refine ⟨b,run,fun clear a' inside wk' object' unflagged => ?_⟩
      rcases mem_cons.mp inside with rfl | inside
      · rw [object] at object'
        cases object'
        rw [flag] at unflagged
        cases unflagged
      · exact rule clear a' inside wk' object' unflagged
    · split
      · exact ⟨true,rfl,by simp⟩
      rename_i valid
      refine ⟨b,run,fun clear a' inside wk' object' unflagged => ?_⟩
      rcases mem_cons.mp inside with rfl | inside
      · rw [object] at object'
        cases object'
        simpa using valid
      · exact rule clear a' inside wk' object' unflagged

omit [DecidableEq C] in
theorem isWatchedKeyExpired_spec (linked : s.Linked) (c : C) :
    ∃ b, isWatchedKeyExpired c s = some b ∧ ((s.clients c).dirtyCas = false → b = false → ¬Doomed s c) := by
  obtain ⟨b,run,rule⟩ := watchedKeyExpired_spec (s.clients c).watchedKeys fun a member => by
    obtain ⟨wk,object,-⟩ := linked.listed_object member
    exact ⟨wk,object⟩
  refine ⟨b,run,fun clean clear => ?_⟩
  rintro (dirty | ⟨a,wk,object,rfl,unflagged,expired⟩)
  · rw [clean] at dirty
    cases dirty
  · rw [rule clear a (linked.mem_listed object) wk object unflagged] at expired
    cases expired

def spares (c : C) : List (Command K V dbnum) → Server C K V dbnum → Bool
  | [],_ => true
  | command :: rest,s => !revives c command s && (call c command s).all (spares c rest)

/-- The states a call goes through are linked, and under the condition each advances from the one before. -/
def Visits (P : Prop) (s : Server C K V dbnum) (run : Option (List (Server C K V dbnum))) : Prop :=
  ∃ states, run = some states ∧ (∀ t ∈ states, t.Linked) ∧ (P → Flagged s → List.IsChain Advances (s :: states))

theorem callAll_spec (c : C) (commands : List (Command K V dbnum)) : ∀ s : Server C K V dbnum, s.Linked →
    Visits (spares c commands s = true) s (callAll c commands s) := by
  induction commands with
  | nil => exact fun s linked => ⟨[],rfl,by simp,fun _ _ => List.IsChain.singleton s⟩
  | cons command rest ih =>
    intro s linked
    obtain ⟨t,run,linked',tracks⟩ := call_spec linked c command
    obtain ⟨later,run',all,chain⟩ := ih t linked'
    refine ⟨t :: later,?_,?_,?_⟩
    · simp only [callAll,run,run',bind_eq_bind,bind_some]
    · exact forall_mem_cons.mpr ⟨linked',all⟩
    intro spared flagged
    simp only [spares,run,all_some,Bool.and_eq_true,Bool.not_eq_true'] at spared
    have first := (tracks spared.1).advances flagged
    exact isChain_cons_cons.mpr ⟨first,chain spared.2 first.1⟩

theorem execCommand_spec (linked : s.Linked) (c : C) :
    ∃ reply states, execCommand c s = some (reply,states) ∧ (∀ t ∈ states, t.Linked) ∧
      ((∃ count, reply = .results count) → ¬Doomed s c) ∧
      (((∃ count, reply = .results count) → (unwatchAllKeys c s).all (spares c (s.clients c).commands) = true) →
        Flagged s → List.IsChain Advances (s :: states)) := by
  obtain ⟨expired,check,fine⟩ := isWatchedKeyExpired_spec linked c
  obtain ⟨u,discard,linked',tracks⟩ := discardTransaction_spec (P := True) linked c
  unfold execCommand
  dsimp only
  split
  · refine ⟨_,_,rfl,by simp [linked],by simp,fun _ flagged => ?_⟩
    exact .cons_cons ((Tracks.refl s).advances flagged) (.singleton s)
  simp only [check,discard,bind_eq_bind,bind_some]
  split
  · refine ⟨_,_,rfl,by simp [linked'],by simp,fun _ flagged => ?_⟩
    exact .cons_cons ((tracks trivial).advances flagged) (.singleton u)
  split
  · refine ⟨_,_,rfl,by simp [linked'],by simp,fun _ flagged => ?_⟩
    exact .cons_cons ((tracks trivial).advances flagged) (.singleton u)
  rename_i clean
  obtain ⟨t,unwatch,unwatched⟩ := unwatchAllKeys_spec linked c
  obtain ⟨later,calls,all,chain⟩ := callAll_spec c (s.clients c).commands t unwatched.linked
  obtain ⟨w,close,linked'',tracks'⟩ := discardTransaction_spec (P := True) (linked_last unwatched.linked all) c
  refine ⟨.results (s.clients c).commands.length,t :: later ++ [w],?_,?_,?_,?_⟩
  · simp only [unwatch,calls,close,bind_some]
  · exact forall_mem_append.mpr ⟨forall_mem_cons.mpr ⟨unwatched.linked,all⟩,forall_mem_singleton.mpr linked''⟩
  · intro _
    simp only [Bool.or_eq_true,not_or,Bool.not_eq_true] at clean
    exact fine clean.1 clean.2
  intro spared flagged
  have first := (unwatched.tracks linked).advances flagged
  have quiet := spared ⟨_,rfl⟩
  rw [unwatch] at quiet
  have calls := chain quiet first.1
  have last := (tracks' trivial).advances (flagged_last t first.1 calls)
  exact isChain_cons_cons.mpr ⟨first,isChain_resume t calls (.cons_cons last (.singleton w))⟩

/-! ## Runs -/

def stepSpares (s : Server C K V dbnum) : Step C K V dbnum → Bool
  | .call c command => (s.clients c).multi || !revives c command s
  | .exec c =>
    match execCommand c s with
    | some (.results _,_) => (unwatchAllKeys c s).all (spares c (s.clients c).commands)
    | _ => true
  | _ => true

def scriptSpares [NeZero dbnum] : List (Step C K V dbnum) → Server C K V dbnum → Bool
  | [],_ => true
  | step :: rest,s => stepSpares s step && (perform s step).all fun states => scriptSpares rest (states.getLastD s)

omit [DecidableEq C] in
theorem visits_single {t : Server C K V dbnum} {P : Prop} (linked : t.Linked) (advances : P → Flagged s → Advances s t) :
    Visits P s (some [t]) :=
  ⟨_,rfl,by simpa using linked,fun spared flagged => .cons_cons (advances spared flagged) (.singleton t)⟩

omit [DecidableEq C] in
theorem Runs.visits {P : Prop} {run : Option (Server C K V dbnum)} (runs : Runs P s run) : Visits P s (run.map fun t => [t]) := by
  obtain ⟨t,rfl,linked,tracks⟩ := runs
  exact visits_single linked fun given => (tracks given).advances

theorem perform_spec [NeZero dbnum] (linked : s.Linked) (step : Step C K V dbnum) :
    Visits (stepSpares s step = true) s (perform s step) := by
  have flag : ∀ c (P : Prop), Visits P s (some [flagTransaction c s]) := by
    intro c P
    obtain ⟨linked',tracks⟩ := flagTransaction_spec linked c
    exact visits_single linked' fun _ => tracks.advances
  cases step with
  | watch c keys =>
    simp only [perform]
    split
    · exact flag c _
    · have more := extends_watchCommand linked c keys
      exact visits_single more.linked fun _ => more.advances
  | call c command =>
    simp only [perform,stepSpares]
    cases multi : (s.clients c).multi with
    | true =>
      obtain ⟨linked',tracks⟩ := queueMultiCommand_spec linked c command
      exact visits_single linked' fun _ => tracks.advances
    | false => simpa using (call_spec linked c command).visits
  | multi c =>
    simp only [perform]
    split
    · exact flag c _
    · obtain ⟨linked',tracks⟩ := setClient_spec linked c { s.clients c with multi := true } rfl rfl rfl
      exact visits_single linked' fun _ => tracks.advances
  | discard c =>
    simp only [perform,discardCommand]
    split
    · exact (discardTransaction_spec linked c).visits
    · exact (Runs.done linked).visits
  | exec c =>
    obtain ⟨reply,states,run,all,-,chain⟩ := execCommand_spec linked c
    refine ⟨states,by simp [perform,run],all,fun spared => chain ?_⟩
    rintro ⟨count,rfl⟩
    simpa only [stepSpares,run] using spared
  | reject c exec =>
    simp only [perform]
    split
    · obtain ⟨linked',tracks⟩ := flagTransaction_spec linked c
      exact ((discardTransaction_spec linked' c).after fun _ => tracks).visits
    · exact flag c _
  | disconnect c => exact (freeClient_spec linked c).visits
  | tick ms =>
    have linked' : ({ s with now := s.now + ms } : Server C K V dbnum).Linked :=
      linked.congr ⟨fun _ => rfl,rfl,rfl,fun _ => rfl,fun _ => rfl⟩
    exact visits_single linked' fun _ flagged => advances_tick flagged ms
  | expire db key =>
    obtain ⟨t,run,sound,-⟩ := lookupKey_spec linked db key
    rw [perform,run]
    exact visits_single sound.linked fun _ => sound.tracks.advances

theorem visited_spec [NeZero dbnum] (steps : List (Step C K V dbnum)) : ∀ s : Server C K V dbnum, s.Linked →
    Visits (scriptSpares steps s = true) s (visited steps s) := by
  induction steps with
  | nil => exact fun s linked => ⟨[],rfl,by simp,fun _ _ => .singleton s⟩
  | cons step rest ih =>
    intro s linked
    obtain ⟨first,run,all,chain⟩ := perform_spec linked step
    obtain ⟨later,run',all',chain'⟩ := ih (first.getLastD s) (linked_last linked all)
    refine ⟨first ++ later,?_,?_,?_⟩
    · simp only [visited,run,run',bind_eq_bind,bind_some]
    · exact forall_mem_append.mpr ⟨all,all'⟩
    intro spared flagged
    simp only [scriptSpares,run,all_some,Bool.and_eq_true] at spared
    have begun := chain spared.1 flagged
    exact isChain_resume s begun (chain' spared.2 (flagged_last s flagged begun))

variable {db : Fin dbnum} {key : K} {c : C}

omit [DecidableEq K] [DecidableEq C] in
theorem visible_constant {rest : List (Server C K V dbnum)} : ∀ start t,
    List.IsChain Advances (start :: rest) → (start :: rest).getLast? = some t → (∀ u ∈ start :: rest, Watches u c db key) →
    ¬Doomed t c → ¬Doomed start c ∧ ∀ u ∈ start :: rest, visible u db key = visible t db key := by
  induction rest with
  | nil =>
    intro start t _ last _ fine
    simp only [getLast?_singleton,some.injEq] at last
    subst last
    exact ⟨fine,by simp⟩
  | cons next rest ih =>
    intro start t chain last watches fine
    obtain ⟨step,chain⟩ := isChain_cons_cons.mp chain
    rw [getLast?_cons_cons] at last
    obtain ⟨safe,same⟩ := ih next t chain last (fun u member => watches u (mem_cons_of_mem start member)) fine
    obtain ⟨safe',equal⟩ := step.2 c db key (watches start mem_cons_self)
      (watches next (mem_cons_of_mem start mem_cons_self)) safe
    refine ⟨safe',fun u member => ?_⟩
    rcases mem_cons.mp member with rfl | member
    · exact equal.symm.trans (same next mem_cons_self)
    · exact same u member

/-! ## The three structures and the missed changes -/

section
variable (s : Server C K V dbnum) (c : C) (db : Fin dbnum) (key : K)

def InClientList : Prop :=
  ∃ a ∈ (s.clients c).watchedKeys, (s.objects a).any fun wk => decide (wk.db = db) && decide (wk.key = key)

def InWatcherList : Prop := ∃ a ∈ s.watchers db key, (s.objects a).any fun wk => decide (wk.client = c)

def InLookupTable : Prop := ((s.clients c).watchedKeysByDb db key).isSome

instance : Decidable (InClientList s c db key) :=
  inferInstanceAs (Decidable (∃ a ∈ (s.clients c).watchedKeys, _))

end

def Agree (s : Server C K V dbnum) : Prop :=
  ∀ c db key, (InWatcherList s c db key ↔ InClientList s c db key) ∧ (InClientList s c db key ↔ InLookupTable s c db key)

omit [DecidableEq C] in
theorem inClientList_iff (linked : s.Linked) :
    InClientList s c db key ↔ Watches s c db key := by
  constructor
  · rintro ⟨a,member,found⟩
    obtain ⟨wk,object,client⟩ := linked.listed_object member
    simp only [object,any_some,Bool.and_eq_true,decide_eq_true_eq] at found
    exact ⟨a,place_eq_some.mpr ⟨wk,object,client,found⟩⟩
  · rintro ⟨a,placed⟩
    obtain ⟨wk,object,rfl,rfl,rfl⟩ := place_eq_some.mp placed
    exact ⟨a,linked.mem_listed object,by simp [object]⟩

theorem Server.Linked.agree (linked : s.Linked) : Agree s := by
  intro c db key
  rw [inClientList_iff linked]
  constructor
  · constructor
    · rintro ⟨a,member,found⟩
      obtain ⟨wk,object,hdb,hkey⟩ := linked.object member
      simp only [object,any_some,decide_eq_true_eq] at found
      exact ⟨a,place_eq_some.mpr ⟨wk,object,found,hdb,hkey⟩⟩
    · rintro ⟨a,placed⟩
      obtain ⟨wk,object,rfl,rfl,rfl⟩ := place_eq_some.mp placed
      exact ⟨a,linked.mem_watchers object,by simp [object]⟩
  · unfold InLookupTable
    rw [isSome_iff_exists]
    exact exists_congr fun a => (linked.table c db key a).symm

/-- Wherever the states end, if EXEC executes there then the entry of every key the client has been watching
is the one it had in each state since. -/
def MissesNoChange (states : List (Server C K V dbnum)) : Prop :=
  ∀ c earlier since t count later, states = earlier ++ since → since.getLast? = some t →
    execCommand c t = some (.results count,later) → ∀ db key, (∀ u ∈ since, InClientList u c db key) →
      ∀ u ∈ since, visible u db key = visible t db key

/-- WATCH over whole runs. The three structures agree in every state; no change of a watched key is missed
as long as no command revives a key that is watched since it had expired. -/
theorem watch_misses_no_change [NeZero dbnum] (now : Int) (steps : List (Step C K V dbnum)) :
    ∃ states, visited steps (Server.initial now : Server C K V dbnum) = some states ∧
      (∀ t ∈ Server.initial now :: states, Agree t) ∧
      (scriptSpares steps (Server.initial now) = true → MissesNoChange (Server.initial now :: states)) := by
  have start : (Server.initial now : Server C K V dbnum).Linked := linked_initial now
  obtain ⟨states,run,all,chain⟩ := visited_spec steps (Server.initial now : Server C K V dbnum) start
  have linked : ∀ t ∈ (Server.initial now : Server C K V dbnum) :: states, t.Linked := forall_mem_cons.mpr ⟨start,all⟩
  refine ⟨states,run,fun t member => (linked t member).agree,fun spared => ?_⟩
  have flagged : Flagged (Server.initial now : Server C K V dbnum) := by
    intro a wk object
    cases object
  intro c earlier since t count later split last executes db key watches
  have inside : ∀ u ∈ since, u.Linked := fun u member => linked u (split ▸ mem_append_right earlier member)
  have fine : ¬Doomed t c := by
    obtain ⟨reply,after,executed,-,fine,-⟩ := execCommand_spec (inside t (mem_of_getLast? last)) c
    rw [executes] at executed
    cases executed
    exact fine ⟨count,rfl⟩
  cases since with
  | nil => cases last
  | cons first rest =>
    have segment : List.IsChain Advances (first :: rest) := by
      have whole := chain spared flagged
      rw [split] at whole
      exact (isChain_append.mp whole).2.1
    refine (visible_constant first t segment last (fun u member => ?_) fine).2
    exact (inClientList_iff (inside u member)).mp (watches u member)

/-! ## Two runs -/

def ExecReply.executed : ExecReply → Bool
  | .results _ => true
  | _ => false

def unnoticed (states : List (Server C K V dbnum)) (n : Nat) (c : C) (db : Fin dbnum) (key : K) [DecidableEq V] : Bool :=
  match (states.drop n).head?,(states.drop n).getLast? with
  | some u,some t =>
    (execCommand c t).any (fun answer => answer.1.executed) &&
      (states.drop n).all (fun w => decide (InClientList w c db key)) && decide (visible u db key ≠ visible t db key)
  | _,_ => false

theorem not_missesNoChange_of_unnoticed [DecidableEq V] {states : List (Server C K V dbnum)} {n : Nat}
    (seen : unnoticed states n c db key = true) : ¬MissesNoChange states := by
  intro misses
  unfold unnoticed at seen
  split at seen
  · rename_i u t first last
    simp only [Bool.and_eq_true,List.all_eq_true,decide_eq_true_eq,Option.any_eq_true] at seen
    obtain ⟨⟨⟨⟨reply,later⟩,executes,executed⟩,watches⟩,differs⟩ := seen
    obtain ⟨count,rfl⟩ : ∃ count, reply = .results count := by
      cases reply with
      | results count => exact ⟨count,rfl⟩
      | withoutMulti => cases executed
      | execAbort => cases executed
      | nullArray => cases executed
    exact differs (misses c (states.take n) (states.drop n) t count later (take_append_drop n states).symm last
      executes db key watches u (mem_of_head? first))
  · cases seen

def restoreRun : List (Step Bool Unit Nat 1) :=
  [.call false (.access [⟨(),fun _ => .put ⟨1,10⟩⟩]),.tick 20,.watch true [()],.multi true,
    .call false (.restore () (some 2) 0 false true)]

/-- A client watches an expired key that SWAPDB replaces by a live one. It is marked, but keeps its place in the
list of the key, and stops the walk to the second client's `watchedKey` when the key is set. -/
def swapRun : List (Step (Fin 3) Unit Nat 2) :=
  [.call 2 (.access [⟨(),fun _ => .put ⟨1,10⟩⟩]),.call 2 (.select 1),.call 2 (.access [⟨(),fun _ => .put ⟨5,-1⟩⟩]),
    .tick 20,.watch 0 [()],.call 2 (.swapdb 0 1),.watch 1 [()],.multi 1,.call 2 (.select 0),
    .call 2 (.access [⟨(),fun _ => .put ⟨7,-1⟩⟩])]

theorem revived_key_unnoticed :
    (∃ states, visited restoreRun (Server.initial 0) = some states ∧ ¬MissesNoChange (Server.initial 0 :: states)) ∧
      ∃ states, visited swapRun (Server.initial 0) = some states ∧ ¬MissesNoChange (Server.initial 0 :: states) := by
  have restored : (visited restoreRun (Server.initial 0)).any
      (fun states => unnoticed (Server.initial 0 :: states) 3 true 0 ()) = true := by decide +kernel
  have swapped : (visited swapRun (Server.initial 0)).any
      (fun states => unnoticed (Server.initial 0 :: states) 7 1 0 ()) = true := by decide +kernel
  obtain ⟨states,run,seen⟩ := Option.any_eq_true _ _ |>.mp restored
  obtain ⟨states',run',seen'⟩ := Option.any_eq_true _ _ |>.mp swapped
  exact ⟨⟨states,run,not_missesNoChange_of_unnoticed seen⟩,states',run',not_missesNoChange_of_unnoticed seen'⟩

def deletedRun : List (Step Bool Unit Nat 1) :=
  [.call false (.access [⟨(),fun _ => .put ⟨1,10⟩⟩]),.tick 20,.watch true [()],.multi true,
    .call false (.access [⟨(),fun _ => .delete⟩]),.call false (.restore () (some 2) 0 false true),.exec true]

theorem watch_misses_no_change_deleted :
    ∃ states, visited deletedRun (Server.initial 0) = some states ∧ (∀ t ∈ Server.initial 0 :: states, Agree t) ∧
      MissesNoChange (Server.initial 0 :: states) := by
  have spared : scriptSpares deletedRun (Server.initial 0) = true := by decide +kernel
  obtain ⟨states,run,agree,misses⟩ := watch_misses_no_change 0 deletedRun
  exact ⟨states,run,agree,misses spared⟩

end ValkeyWasm.Watch
