import ValkeyWasm.Bridge.Reactor

/-! Registration and poll, over every sequence of calls.
The buffers that the poll backend shares with the host have room for `aeCap` pairs: the largest set size so far. -/
namespace ValkeyWasm.Bridge
open Ae List

structure Poller (P : Type) where
  loop : EventLoop P
  aeCap : Nat

inductive Call (P : Type) where
  | create (fd : Nat) (mask : Mask) (proc : P)
  | delete (fd : Nat) (mask : Mask)
  | resize (setsize : Int)

variable {P : Type}

namespace Poller

def call (s : Poller P) : Call P → Poller P
  | .create fd mask proc => {s with loop := (aeCreateFileEvent s.loop fd mask proc).getD s.loop}
  | .delete fd mask => {s with loop := aeDeleteFileEvent s.loop fd mask}
  | .resize setsize =>
    match aeResizeSetSize s.loop setsize with
    | none => s
    | some loop => ⟨loop,if setsize = s.loop.setsize then s.aeCap else max s.aeCap loop.setsize⟩

def run (setsize : Nat) (calls : List (Call P)) : Poller P := calls.foldl call ⟨aeCreateEventLoop setsize,setsize⟩

def aeApiPoll (h : Host) (s : Poller P) : List (Nat × Mask) := h.poll (interest s.loop) s.aeCap

end Poller

/-- What the host would report of a descriptor that is registered for everything. -/
def Host.readiness (h : Host) (fd : Nat) : Mask := h.ready fd ⟨true,true,true⟩

theorem ready_eq (h : Host) (fd : Nat) (mask : Mask) : h.ready fd mask = (h.readiness fd).inter mask := by
  unfold Host.readiness Host.ready
  cases h.listeners fd with
  | some pending =>
    obtain ⟨r,w,b⟩ := mask
    cases r <;> by_cases pending = [] <;> simp_all [Mask.inter,Mask.read,Mask.none]
  | none =>
    cases h.socks fd with
    | some s => simp [Mask.inter,Bool.and_comm]
    | none => rfl

namespace Poller

structure Sound (s : Poller P) : Prop where
  bounded : s.loop.Bounded
  room : s.loop.setsize ≤ s.aeCap

theorem call_sound {s : Poller P} (sound : s.Sound) (call : Call P) :
    (s.call call).Sound ∧ ((∀ fd proc, call ≠ .create fd .none proc) → s.loop.Tight → (s.call call).loop.Tight) := by
  have room := sound.room
  cases call with
  | create fd mask proc =>
    simp only [Poller.call]
    cases created : aeCreateFileEvent s.loop fd mask proc with
    | none => exact ⟨sound,fun _ => id⟩
    | some el =>
      refine ⟨⟨sound.bounded.create created,(aeCreateFileEvent_spec created).1.trans_le room⟩,fun some_ tight => ?_⟩
      apply tight.create created
      rintro rfl
      exact some_ fd proc rfl
  | delete fd mask =>
    exact ⟨⟨sound.bounded.delete fd mask,(aeDeleteFileEvent_spec s.loop fd mask).1.trans_le room⟩,fun _ tight => tight.delete fd mask⟩
  | resize setsize =>
    simp only [Poller.call]
    cases resized : aeResizeSetSize s.loop setsize with
    | none => exact ⟨sound,fun _ => id⟩
    | some el =>
      refine ⟨⟨sound.bounded.resize resized,?_⟩,fun _ tight => tight.resize resized⟩
      dsimp only
      have size := (aeResizeSetSize_spec resized).2.1
      split <;> omega

theorem run_sound (setsize : Nat) (calls : List (Call P)) :
    (run setsize calls).Sound ∧ ((∀ fd proc, .create fd .none proc ∉ calls) → (run setsize calls).loop.Tight) := by
  induction calls using List.reverseRecOn with
  | nil => exact ⟨⟨aeCreateEventLoop_bounded setsize,le_rfl⟩,fun _ => .inl rfl⟩
  | append_singleton calls call ih =>
    obtain ⟨sound,tight⟩ := ih
    obtain ⟨next,tightens⟩ := call_sound sound call
    rw [run,foldl_append]
    refine ⟨next,fun registers => tightens ?_ (tight ?_)⟩
    · rintro fd proc rfl
      exact registers fd proc mem_concat_self
    · exact fun fd proc member => registers fd proc (mem_append_left _ member)

theorem aeApiPoll_eq {s : Poller P} (sound : s.Sound) (h : Host) :
    aeApiPoll h s = (List.range (s.loop.maxfd + 1).toNat).filterMap fun fd =>
      if (h.readiness fd).inter (s.loop.events fd).mask = .none then none else some (fd,(h.readiness fd).inter (s.loop.events fd).mask) := by
  rw [aeApiPoll,poll_eq h ((length_interest_le sound.bounded).trans sound.room),interest,filterMap_filterMap]
  congr 1
  funext fd
  simp only [ready_eq]
  split
  · rename_i unused
    rw [unused,if_pos (by simp [Mask.inter,Mask.none])]
    rfl
  · rfl

/-- What a poll reports, whatever the host has ready. -/
structure Polls (s : Poller P) : Prop where
  above : ∀ fd, (s.loop.events fd).mask ≠ .none → (fd : Int) ≤ s.loop.maxfd
  once : ∀ h, ((aeApiPoll h s).map Prod.fst).Nodup
  reported : ∀ h fd mask, (fd,mask) ∈ aeApiPoll h s ↔ mask = (h.readiness fd).inter (s.loop.events fd).mask ∧ mask ≠ .none
  fits : ∀ h, (aeApiPoll h s).length ≤ s.loop.setsize

/-- In every state, each descriptor with events that are ready and registered is reported once, with these events, and
the reports fit. The highest descriptor is registered as long as no event is created with the mask `AE_NONE`. -/
theorem run_polls (setsize : Nat) (calls : List (Call P)) :
    (run setsize calls).Polls ∧ ((∀ fd proc, .create fd .none proc ∉ calls) → (run setsize calls).loop.Tight) := by
  obtain ⟨sound,tight⟩ := run_sound setsize calls
  generalize run setsize calls = s at sound tight ⊢
  refine ⟨⟨sound.bounded.below,fun h => ?_,fun h fd mask => ?_,fun h => ?_⟩,tight⟩
  · rw [aeApiPoll_eq sound,List.Nodup,pairwise_map,pairwise_filterMap]
    refine nodup_range.imp fun {fd fd'} differ a here b there => ?_
    split_ifs at here there
    cases here
    cases there
    exact differ
  · rw [aeApiPoll_eq sound,mem_filterMap]
    constructor
    · rintro ⟨g,-,here⟩
      split_ifs at here with none_
      cases here
      exact ⟨rfl,none_⟩
    · rintro ⟨rfl,some_⟩
      have below := sound.bounded.below fd (fun none_ => some_ (by rw [none_]; simp [Mask.inter,Mask.none]))
      exact ⟨fd,mem_range.mpr (by omega),if_neg some_⟩
  · have slot := sound.bounded.slot
    rw [aeApiPoll_eq sound]
    refine (length_filterMap_le _ _).trans ?_
    rw [length_range]
    omega

theorem run_create_none : ¬(run 1 [.create 0 .none ()]).loop.Tight := by
  rintro (never | ⟨fd,last,used⟩)
  · cases never
  obtain rfl : fd = 0 := by
    have zero : (run 1 [.create 0 .none ()]).loop.maxfd = 0 := rfl
    omega
  exact used rfl

end Poller

end ValkeyWasm.Bridge
