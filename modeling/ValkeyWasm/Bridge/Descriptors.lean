import ValkeyWasm.Ae.EventLoop
import ValkeyWasm.Bridge.Stream

/-! The descriptors of the bridge against the size of the event loop.
Descriptors are numbered in the order of their allocation and never given out again. -/
namespace ValkeyWasm.Bridge
open Library.Memory Library.Dictionary Ae Function List Option Int

def fdsetIncr : Nat := 32 + 96

def Event.allocates : Event → Bool
  | .socket | .connection _ => true
  | _ => false

def allocations (events : List Event) : Nat := events.countP Event.allocates

def Arrived (events : List Event) (fd : Nat) : Prop :=
  ∃ before lfd after, events = before ++ .connection lfd :: after ∧ fd = hostFdBase + allocations before

variable {events : List Event}

theorem Arrived.append {fd : Nat} (arrived : Arrived events fd) (more : List Event) : Arrived (events ++ more) fd := by
  obtain ⟨before,lfd,after,rfl,named⟩ := arrived
  exact ⟨before,lfd,after ++ more,by rw [append_assoc,cons_append],named⟩

variable {w : World}

namespace World

structure Numbered (events : List Event) (w : World) : Prop where
  next : w.host.nextFd = hostFdBase + allocations events
  pending : ∀ lfd waiting, w.host.listeners lfd = some waiting → ∀ fd ∈ waiting, Arrived events fd
  accepted : ∀ fd ∈ w.accepted, Arrived events fd

theorem Numbered.quiet (numbered : Numbered events w) {e : Event} {w' : World} (silent : e.allocates = false)
    (next : w'.host.nextFd = w.host.nextFd) (accepted : w'.accepted = w.accepted)
    (pending : ∀ lfd waiting, w'.host.listeners lfd = some waiting → waiting = [] ∨ w.host.listeners lfd = some waiting) :
    Numbered (events ++ [e]) w' := by
  refine ⟨?_,?_,?_⟩
  · rw [next,numbered.next,allocations,allocations,countP_append,countP_singleton,silent]
    rfl
  · intro lfd waiting found fd member
    rcases pending lfd waiting found with rfl | before
    · exact absurd member not_mem_nil
    · exact (numbered.pending lfd waiting before fd member).append _
  · intro fd member
    rw [accepted] at member
    exact (numbered.accepted fd member).append _

theorem Numbered.connection (numbered : Numbered events w) (lfd : Nat) :
    Numbered (events ++ [.connection lfd]) (w.step (.connection lfd)) := by
  have here : Arrived (events ++ [.connection lfd]) w.host.nextFd := ⟨events,lfd,[],rfl,numbered.next⟩
  refine ⟨?_,?_,fun fd member => (numbered.accepted fd member).append _⟩
  · simp only [step,Host.connection,Host.allocFd,Host.scheduleStep_nextFd]
    rw [numbered.next,allocations,allocations,countP_append]
    rfl
  intro l waiting found fd member
  simp only [step,Host.connection,Host.allocFd,Host.scheduleStep_listeners] at found
  rcases update_some.mp found with ⟨rfl,new⟩ | ⟨-,before⟩
  · obtain ⟨old,was,rfl⟩ := map_eq_some_iff.mp new
    rcases mem_append.mp member with earlier | new
    · exact (numbered.pending l old was fd earlier).append _
    · rw [mem_singleton.mp new]
      exact here
  · exact (numbered.pending l waiting before fd member).append _

theorem Numbered.accept (numbered : Numbered events w) (lfd : Nat) :
    Numbered (events ++ [.accept lfd]) (w.step (.accept lfd)) := by
  have next : hostFdBase + allocations (events ++ [.accept lfd]) = w.host.nextFd := by
    rw [numbered.next,allocations,allocations,countP_append]
    rfl
  rcases Host.accept_cases w.host lfd with ⟨cfd,rest,waits,result⟩ | ⟨-,result⟩ <;> rw [World.step,result]
  · refine ⟨next.symm,?_,?_⟩
    · intro l waiting found fd member
      rcases update_some.mp found with ⟨rfl,new⟩ | ⟨-,before⟩
      · cases new
        exact (numbered.pending l _ waits fd (mem_cons_of_mem cfd member)).append _
      · exact (numbered.pending l waiting before fd member).append _
    · intro fd member
      dsimp only at member
      rw [if_pos (natCast_nonneg cfd),toNat_natCast] at member
      rcases mem_append.mp member with earlier | new
      · exact (numbered.accepted fd earlier).append _
      · rw [mem_singleton.mp new]
        exact (numbered.pending lfd _ waits cfd mem_cons_self).append _
  · refine ⟨next.symm,?_,?_⟩
    · exact fun l waiting found fd member => (numbered.pending l waiting found fd member).append _
    intro fd member
    dsimp only at member
    rw [if_neg (by decide)] at member
    exact (numbered.accepted fd member).append _

theorem Numbered.step (numbered : Numbered events w) (e : Event) : Numbered (events ++ [e]) (w.step e) := by
  have same : ∀ lfd waiting, w.host.listeners lfd = some waiting → waiting = [] ∨ w.host.listeners lfd = some waiting := fun _ _ found => Or.inr found
  cases e with
  | connection lfd => exact numbered.connection lfd
  | data fd buf => exact numbered.quiet rfl (Host.scheduleStep_nextFd _) rfl (by rw [World.step,Host.onData,Host.scheduleStep_listeners]; exact same)
  | ended fd => exact numbered.quiet rfl (Host.scheduleStep_nextFd _) rfl (by rw [World.step,sawEnd,Host.onEnd,Host.scheduleStep_listeners]; exact same)
  | closed fd => exact numbered.quiet rfl (Host.scheduleStep_nextFd _) rfl (by rw [World.step,sawEnd,Host.onEnd,Host.scheduleStep_listeners]; exact same)
  | error fd => exact numbered.quiet rfl rfl rfl same
  | drain fd => exact numbered.quiet rfl (Host.scheduleStep_nextFd _) rfl (by rw [World.step,Host.onDrain,Host.scheduleStep_listeners]; exact same)
  | microtask => exact numbered.quiet rfl rfl rfl same
  | stop =>
    refine numbered.quiet rfl rfl rfl ?_
    intro lfd waiting found
    cases found
  | socket =>
    refine ⟨?_,?_,?_⟩
    · rw [allocations,countP_append]
      exact congrArg (· + 1) numbered.next
    · exact fun l waiting found fd member => (numbered.pending l waiting found fd member).append _
    · exact fun fd member => (numbered.accepted fd member).append _
  | listen fd =>
    refine numbered.quiet rfl rfl rfl ?_
    intro lfd waiting found
    rcases update_some.mp found with ⟨-,new⟩ | ⟨-,before⟩
    · cases new
      exact Or.inl rfl
    · exact Or.inr before
  | accept lfd => exact numbered.accept lfd
  | read fd ptr len =>
    obtain ⟨socks,read⟩ := Host.read_host w.host fd ptr len w.mem
    exact numbered.quiet rfl (by rw [World.step]; dsimp only; rw [read]) rfl (by rw [World.step]; dsimp only; rw [read]; exact same)
  | write fd len ok =>
    obtain ⟨socks,written⟩ := Host.write_host w.host fd len ok
    exact numbered.quiet rfl (by rw [World.step,written]) rfl (by rw [World.step,written]; exact same)
  | close fd =>
    refine numbered.quiet rfl rfl rfl ?_
    intro lfd waiting found
    rcases update_some.mp found with ⟨-,new⟩ | ⟨-,before⟩
    · cases new
    · exact Or.inr before

theorem run_numbered (mem : Bytes) (events : List Event) : Numbered events (run mem events) := by
  induction events using List.reverseRecOn with
  | nil =>
    refine ⟨rfl,?_,nofun⟩
    intro lfd waiting found
    cases found
  | append_singleton events e ih =>
    rw [run_append]
    exact ih.step e

end World

/-- Every descriptor that `accept` returns fits the event loop exactly if each accepted connection
came in before too many descriptors had been allocated, the closed ones included. -/
theorem accept_fits_iff {P : Type} (mem : Bytes) (events : List Event) (el : EventLoop P) (maxclients : Nat) (mask : Mask) (proc : P) :
    (∀ fd ∈ (World.run mem events).accepted, (aeCreateFileEvent {el with setsize := maxclients + fdsetIncr} fd mask proc).isSome) ↔
    ∀ before lfd after, events = before ++ .connection lfd :: after → hostFdBase + allocations before ∈ (World.run mem events).accepted →
      hostFdBase + allocations before < maxclients + fdsetIncr := by
  have fits : ∀ fd, (aeCreateFileEvent {el with setsize := maxclients + fdsetIncr} fd mask proc).isSome ↔ fd < maxclients + fdsetIncr := by
    intro fd
    unfold aeCreateFileEvent
    split
    · rename_i outside
      simpa using outside
    · rename_i inside
      simpa using inside
  constructor
  · intro all before lfd after _ member
    exact (fits _).mp (all _ member)
  · intro early fd member
    obtain ⟨before,lfd,after,split,rfl⟩ := (World.run_numbered mem events).accepted fd member
    exact (fits _).mpr (early before lfd after split member)

def visits (n : Nat) : List Event :=
  [.socket,.listen hostFdBase] ++ (List.range n).flatMap fun i => [.connection hostFdBase,.accept hostFdBase,.close (hostFdBase + 1 + i)]

def World.OpenAtMost (w : World) (k : Nat) : Prop := ∃ fds : List Nat, fds.length ≤ k ∧ ∀ fd, w.isOpen fd = true → fd ∈ fds

theorem visits_succ (n : Nat) :
    visits (n + 1) = visits n ++ [.connection hostFdBase] ++ [.accept hostFdBase] ++ [.close (hostFdBase + 1 + n)] := by
  simp [visits,range_succ,flatMap_append]

structure Rested (n : Nat) (w : World) : Prop where
  next : w.host.nextFd = hostFdBase + 1 + n
  alone : w.host.socks = fun _ => none
  listens : w.host.listeners = Function.update (fun _ => none) hostFdBase (some [])
  accepted : w.accepted = (List.range n).map (hostFdBase + 1 + ·)

theorem Rested.visit {n : Nat} (rested : Rested n w) :
    (w.step (.connection hostFdBase)).OpenAtMost 1 ∧ ((w.step (.connection hostFdBase)).step (.accept hostFdBase)).OpenAtMost 1 ∧
    Rested (n + 1) (((w.step (.connection hostFdBase)).step (.accept hostFdBase)).step (.close (hostFdBase + 1 + n))) := by
  have one : ∀ w' : World, w'.host.socks = update (fun _ => none) (hostFdBase + 1 + n) (some ⟨[],0,false,false⟩) → w'.OpenAtMost 1 := by
    intro w' socks
    refine ⟨[hostFdBase + 1 + n],le_rfl,?_⟩
    intro fd found
    rcases eq_or_ne fd (hostFdBase + 1 + n) with rfl | apart
    · exact mem_singleton_self _
    · rw [World.isOpen,socks,update_of_ne apart] at found
      cases found
  have waits : (w.step (.connection hostFdBase)).host.listeners hostFdBase = some [hostFdBase + 1 + n] := by
    simp [World.step,Host.connection,Host.allocFd,rested.listens,rested.next]
  have socks : (w.step (.connection hostFdBase)).host.socks = update (fun _ => none) (hostFdBase + 1 + n) (some ⟨[],0,false,false⟩) := by
    simp [World.step,Host.connection,Host.allocFd,rested.alone,rested.next]
  have listeners : (w.step (.connection hostFdBase)).host.listeners = update (fun _ => none) hostFdBase (some [hostFdBase + 1 + n]) := by
    simp [World.step,Host.connection,Host.allocFd,rested.listens,rested.next]
  have next : (w.step (.connection hostFdBase)).host.nextFd = hostFdBase + 1 + (n + 1) := by
    simp [World.step,Host.connection,Host.allocFd,rested.next,Nat.add_assoc]
  have accepted : (w.step (.connection hostFdBase)).accepted = (List.range n).map (hostFdBase + 1 + ·) := rested.accepted
  generalize w.step (.connection hostFdBase) = v at waits socks listeners next accepted
  have result : v.host.accept hostFdBase = (((hostFdBase + 1 + n : Nat) : Int),{v.host with listeners := update v.host.listeners hostFdBase (some [])}) := by
    rw [Host.accept,waits]
  refine ⟨one v socks,?_,?_⟩
  · rw [World.step,result]
    exact one _ socks
  simp only [World.step,result]
  refine ⟨next,?_,?_,?_⟩
  · simp [Host.close,socks]
  · have other : hostFdBase + 1 + n ≠ hostFdBase := by omega
    simp [Host.close,listeners,update_of_ne other]
  · rw [if_pos (natCast_nonneg _),toNat_natCast,accepted,range_succ,map_append]
    rfl

theorem visits_rested (mem : Bytes) (n : Nat) :
    Rested n (World.run mem (visits n)) ∧ ∀ before, before <+: visits n → (World.run mem before).OpenAtMost 1 := by
  induction n with
  | zero =>
    refine ⟨⟨rfl,rfl,rfl,rfl⟩,?_⟩
    intro before part
    have start : visits 0 = [] ++ [.socket] ++ [.listen hostFdBase] := rfl
    rw [start,prefix_concat_iff,prefix_concat_iff,prefix_nil] at part
    refine ⟨[],Nat.zero_le _,?_⟩
    intro fd found
    rcases part with rfl | rfl | rfl <;> cases found
  | succ n ih =>
    obtain ⟨rested,few⟩ := ih
    obtain ⟨first,second,again⟩ := rested.visit
    rw [visits_succ]
    refine ⟨by simpa only [World.run_append] using again,?_⟩
    intro before part
    rw [prefix_concat_iff,prefix_concat_iff,prefix_concat_iff] at part
    rcases part with rfl | rfl | rfl | part
    · simp only [World.run_append]
      refine ⟨[],Nat.zero_le _,?_⟩
      intro fd found
      rw [World.isOpen,again.alone] at found
      cases found
    · simpa only [World.run_append] using second
    · simpa only [World.run_append] using first
    · exact few before part

/-- With the default of 10000 clients the event loop has 10128 slots, and after 6031 visits the
descriptor of the next client is outside, although no other client is connected. -/
theorem accept_exceeds_setsize : ∃ events : List Event,
    (∀ before, before <+: events → (World.run (fun _ => 0) before).OpenAtMost 1) ∧
    ∃ fd ∈ (World.run (fun _ => 0) events).accepted, aeCreateFileEvent (aeCreateEventLoop (10000 + fdsetIncr)) fd .read () = none := by
  obtain ⟨rested,few⟩ := visits_rested (fun _ => 0) 6032
  refine ⟨visits 6032,few,10128,?_,rfl⟩
  rw [rested.accepted]
  exact List.mem_map.mpr ⟨6031,mem_range.mpr (by decide),rfl⟩

end ValkeyWasm.Bridge
