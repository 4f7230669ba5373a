import Mathlib.Logic.Function.Basic

/-! The file events of the event loop.
`P` is the type of handlers; `AE_ERR` is `none`. -/
namespace ValkeyWasm.Ae
open Function List

structure Mask where
  readable : Bool
  writable : Bool
  barrier : Bool
  deriving DecidableEq, Repr

namespace Mask

def none : Mask := ⟨false,false,false⟩
def read : Mask := ⟨true,false,false⟩
def write : Mask := ⟨false,true,false⟩

def union (a b : Mask) : Mask := ⟨a.readable || b.readable,a.writable || b.writable,a.barrier || b.barrier⟩
def inter (a b : Mask) : Mask := ⟨a.readable && b.readable,a.writable && b.writable,a.barrier && b.barrier⟩
def diff (a b : Mask) : Mask := ⟨a.readable && !b.readable,a.writable && !b.writable,a.barrier && !b.barrier⟩

end Mask

structure FileEvent (P : Type) where
  mask : Mask
  rfileProc : Option P
  wfileProc : Option P
  deriving DecidableEq

structure EventLoop (P : Type) where
  setsize : Nat
  maxfd : Int
  events : Nat → FileEvent P

variable {P : Type}

def aeCreateEventLoop (setsize : Nat) : EventLoop P := ⟨setsize,-1,fun _ => ⟨.none,none,none⟩⟩

def aeCreateFileEvent (el : EventLoop P) (fd : Nat) (mask : Mask) (proc : P) : Option (EventLoop P) :=
  if fd ≥ el.setsize then none
  else
    let fe := el.events fd
    let fe := {fe with mask := fe.mask.union mask}
    let fe := if mask.readable then {fe with rfileProc := some proc} else fe
    let fe := if mask.writable then {fe with wfileProc := some proc} else fe
    some {el with events := Function.update el.events fd fe, maxfd := if fd > el.maxfd then fd else el.maxfd}

def lastUsed (events : Nat → FileEvent P) : Nat → Int
  | 0 => -1
  | j + 1 => if (events j).mask ≠ .none then j else lastUsed events j

def aeDeleteFileEvent (el : EventLoop P) (fd : Nat) (mask : Mask) : EventLoop P :=
  if fd ≥ el.setsize then el
  else if (el.events fd).mask = .none then el
  else
    let mask := if mask.writable then {mask with barrier := true} else mask
    let fe := {el.events fd with mask := (el.events fd).mask.diff mask}
    let events := Function.update el.events fd fe
    {el with events, maxfd := if (fd : Int) = el.maxfd ∧ fe.mask = .none then lastUsed events el.maxfd.toNat else el.maxfd}

/-- What a new slot holds beside its mask is left open. -/
def aeResizeSetSize (el : EventLoop P) (setsize : Int) : Option (EventLoop P) :=
  if setsize = el.setsize then some el
  else if el.maxfd ≥ setsize then none
  else some {el with
    setsize := setsize.toNat
    events := fun i => if el.maxfd < i ∧ i < setsize then {el.events i with mask := .none} else el.events i}

/-- What `aeApiPoll` asks the host about: every descriptor up to `maxfd` with its mask. -/
def interest (el : EventLoop P) : List (Nat × Mask) :=
  (List.range (el.maxfd + 1).toNat).filterMap fun fd => if (el.events fd).mask = .none then none else some (fd,(el.events fd).mask)

section Dispatch
variable {σ : Type} [DecidableEq P] (loop : σ → EventLoop P) (call : P → Nat → Mask → σ → σ)

def invoke (proc : Option P) (fd : Nat) (mask : Mask) (s : σ) : σ :=
  match proc with
  | none => s
  | some proc => call proc fd mask s

/-- The body of the loop over the fired events; the handlers act on a state that holds the loop. -/
def dispatch (s : σ) (event : Nat × Mask) : σ :=
  let (fd,mask) := event
  let fe := (loop s).events fd
  let invert := fe.mask.barrier
  let first := !invert && (fe.mask.inter mask).readable
  let s := if first then invoke call fe.rfileProc fd mask s else s
  let fe := (loop s).events fd
  let second := (fe.mask.inter mask).writable && (!first || fe.wfileProc ≠ fe.rfileProc)
  let s := if second then invoke call fe.wfileProc fd mask s else s
  let fe := (loop s).events fd
  let fired := first || second
  let third := invert && (fe.mask.inter mask).readable && (!fired || fe.wfileProc ≠ fe.rfileProc)
  if third then invoke call fe.rfileProc fd mask s else s

end Dispatch

structure EventLoop.Bounded (el : EventLoop P) : Prop where
  below : ∀ fd, (el.events fd).mask ≠ .none → (fd : Int) ≤ el.maxfd
  slot : el.maxfd < el.setsize

theorem aeCreateEventLoop_bounded (setsize : Nat) : (aeCreateEventLoop setsize : EventLoop P).Bounded :=
  ⟨fun _ registered => absurd rfl registered,by unfold aeCreateEventLoop; dsimp only; omega⟩

variable {el el' : EventLoop P} {fd : Nat} {mask : Mask} {proc : P}

theorem aeCreateFileEvent_spec (created : aeCreateFileEvent el fd mask proc = some el') :
    el'.setsize = el.setsize ∧ fd < el.setsize ∧ el'.maxfd = max el.maxfd fd ∧ (el'.events fd).mask = (el.events fd).mask.union mask ∧
    (mask.readable = false → (el'.events fd).rfileProc = (el.events fd).rfileProc) ∧ ∀ g, g ≠ fd → el'.events g = el.events g := by
  unfold aeCreateFileEvent at created
  split at created
  · cases created
  cases created
  refine ⟨rfl,by omega,?_,?_,?_,?_⟩
  · dsimp only
    split <;> omega
  · dsimp only
    rw [update_self]
    split <;> split <;> rfl
  · intro unread
    dsimp only
    rw [update_self,unread]
    split <;> rfl
  · intro g apart
    exact update_of_ne apart _ _

theorem EventLoop.Bounded.create (bounded : el.Bounded)
    (created : aeCreateFileEvent el fd mask proc = some el') : el'.Bounded := by
  obtain ⟨setsize,inside,maxfd,-,-,others⟩ := aeCreateFileEvent_spec created
  have slot := bounded.slot
  refine ⟨?_,by omega⟩
  intro g registered
  rcases eq_or_ne g fd with rfl | apart
  · omega
  · rw [others g apart] at registered
    have below := bounded.below g registered
    omega

theorem lastUsed_spec (events : Nat → FileEvent P) (j : Nat) :
    lastUsed events j < j ∧ ∀ fd < j, (events fd).mask ≠ .none → (fd : Int) ≤ lastUsed events j := by
  induction j with
  | zero => exact ⟨by unfold lastUsed; omega,fun fd below => absurd below (Nat.not_lt_zero fd)⟩
  | succ j ih =>
    obtain ⟨less,covers⟩ := ih
    unfold lastUsed
    split
    · exact ⟨by omega,fun fd below _ => by omega⟩
    rename_i unused
    refine ⟨by omega,?_⟩
    intro fd below registered
    rcases Nat.lt_or_ge fd j with less | last
    · exact covers fd less registered
    · obtain rfl : fd = j := by omega
      exact absurd registered unused

theorem aeDeleteFileEvent_spec (el : EventLoop P) (fd : Nat) (mask : Mask) :
    (aeDeleteFileEvent el fd mask).setsize = el.setsize ∧
    (∀ g, g ≠ fd → (aeDeleteFileEvent el fd mask).events g = el.events g) ∧
    (((aeDeleteFileEvent el fd mask).events fd).mask.readable → (el.events fd).mask.readable) ∧
    (((aeDeleteFileEvent el fd mask).events fd).mask.barrier → (el.events fd).mask.barrier) ∧
    ((aeDeleteFileEvent el fd mask).events fd).rfileProc = (el.events fd).rfileProc := by
  unfold aeDeleteFileEvent
  split
  · exact ⟨rfl,fun _ _ => rfl,id,id,rfl⟩
  split
  · exact ⟨rfl,fun _ _ => rfl,id,id,rfl⟩
  refine ⟨rfl,fun g apart => update_of_ne apart _ _,?_,?_,by dsimp only; rw [update_self]⟩
  all_goals
    dsimp only
    rw [update_self]
    intro still
    unfold Mask.diff at still
    simp only [Bool.and_eq_true] at still
    exact still.1

theorem EventLoop.Bounded.delete (bounded : el.Bounded) (fd : Nat) (mask : Mask) : (aeDeleteFileEvent el fd mask).Bounded := by
  have slot := bounded.slot
  unfold aeDeleteFileEvent
  split
  · exact bounded
  split
  · exact bounded
  rename_i registered
  have here := bounded.below fd registered
  have others : ∀ (fe : FileEvent P) g, (update el.events fd fe g).mask ≠ .none → (g : Int) ≤ el.maxfd := by
    intro fe g used
    rcases eq_or_ne g fd with rfl | apart
    · exact here
    · rw [update_of_ne apart] at used
      exact bounded.below g used
  generalize (if mask.writable = true then {mask with barrier := true} else mask) = taken
  refine ⟨?_,?_⟩
  · intro g used
    dsimp only at used ⊢
    have below := others _ g used
    split
    · rename_i last
      -- the removed descriptor was the highest: the search below it finds the next one
      rcases Nat.lt_or_ge g el.maxfd.toNat with less | not
      · exact (lastUsed_spec _ _).2 g less used
      · obtain rfl : g = fd := by omega
        rw [update_self] at used
        exact absurd last.2 used
    · exact below
  · dsimp only
    split
    · exact Int.lt_of_lt_of_le (lastUsed_spec _ _).1 (by omega)
    · exact slot

variable {setsize : Int}

theorem aeResizeSetSize_spec (resized : aeResizeSetSize el setsize = some el') :
    el'.maxfd = el.maxfd ∧ (setsize = el.setsize ∧ el'.setsize = el.setsize ∨ setsize ≠ el.setsize ∧ el.maxfd < el'.setsize) ∧
      ∀ fd, el'.events fd = el.events fd ∨ el.maxfd < fd ∧ (el'.events fd).mask = .none := by
  unfold aeResizeSetSize at resized
  split at resized
  · rename_i same
    cases resized
    exact ⟨rfl,.inl ⟨same,rfl⟩,fun _ => .inl rfl⟩
  rename_i differs
  split at resized
  · cases resized
  cases resized
  refine ⟨rfl,.inr ⟨differs,by dsimp only; omega⟩,fun fd => ?_⟩
  dsimp only
  split
  · rename_i new
    exact .inr ⟨new.1,rfl⟩
  · exact .inl rfl

theorem EventLoop.Bounded.resize (bounded : el.Bounded)
    (resized : aeResizeSetSize el setsize = some el') : el'.Bounded := by
  obtain ⟨maxfd,size,slots⟩ := aeResizeSetSize_spec resized
  have slot := bounded.slot
  refine ⟨?_,by omega⟩
  intro fd used
  rw [maxfd]
  rcases slots fd with same | ⟨-,none_⟩
  · exact bounded.below fd (same ▸ used)
  · exact absurd none_ used

/-- The highest descriptor is registered. -/
def EventLoop.Tight (el : EventLoop P) : Prop := el.maxfd = -1 ∨ ∃ fd : Nat, el.maxfd = fd ∧ (el.events fd).mask ≠ .none

theorem EventLoop.Tight.create (tight : el.Tight)
    (created : aeCreateFileEvent el fd mask proc = some el') (some_ : mask ≠ .none) : el'.Tight := by
  obtain ⟨-,-,maxfd,here,-,others⟩ := aeCreateFileEvent_spec created
  have registered : (el'.events fd).mask ≠ .none := by
    obtain ⟨r,w,b⟩ := mask
    simp_all [Mask.union,Mask.none]
  right
  rcases Int.lt_or_le el.maxfd fd with above | below
  · exact ⟨fd,by omega,registered⟩
  rcases tight with none_ | ⟨g,last,used⟩
  · omega
  refine ⟨g,by omega,?_⟩
  rcases eq_or_ne g fd with rfl | apart
  · exact registered
  · rw [others g apart]
    exact used

theorem lastUsed_used (events : Nat → FileEvent P) (j : Nat) :
    lastUsed events j = -1 ∨ ∃ fd : Nat, lastUsed events j = fd ∧ (events fd).mask ≠ .none := by
  induction j with
  | zero => exact .inl rfl
  | succ j ih =>
    unfold lastUsed
    split
    · rename_i used
      exact .inr ⟨j,rfl,used⟩
    · exact ih

theorem EventLoop.Tight.delete (tight : el.Tight) (fd : Nat) (mask : Mask) : (aeDeleteFileEvent el fd mask).Tight := by
  unfold aeDeleteFileEvent
  split
  · exact tight
  split
  · exact tight
  generalize (if mask.writable = true then {mask with barrier := true} else mask) = taken
  unfold EventLoop.Tight
  dsimp only
  split
  · exact lastUsed_used _ _
  rename_i kept
  apply tight.imp_right
  rintro ⟨g,last,used⟩
  refine ⟨g,last,?_⟩
  rcases eq_or_ne g fd with rfl | apart
  · rw [update_self]
    exact fun none_ => kept ⟨last.symm,none_⟩
  · rw [update_of_ne apart]
    exact used

theorem EventLoop.Tight.resize (tight : el.Tight)
    (resized : aeResizeSetSize el setsize = some el') : el'.Tight := by
  obtain ⟨maxfd,-,slots⟩ := aeResizeSetSize_spec resized
  unfold EventLoop.Tight
  rw [maxfd]
  apply tight.imp_right
  rintro ⟨fd,last,used⟩
  rcases slots fd with same | ⟨above,-⟩
  · exact ⟨fd,last,same ▸ used⟩
  · omega

theorem mem_interest (bounded : el.Bounded) (registered : (el.events fd).mask ≠ .none) :
    (fd,(el.events fd).mask) ∈ interest el := by
  have below := bounded.below fd registered
  refine mem_filterMap.mpr ⟨fd,mem_range.mpr (by omega),?_⟩
  rw [if_neg registered]

theorem length_interest_le (bounded : el.Bounded) : (interest el).length ≤ el.setsize := by
  have slot := bounded.slot
  have short := length_filterMap_le (fun fd => if (el.events fd).mask = .none then none else some (fd,(el.events fd).mask))
    (List.range (el.maxfd + 1).toNat)
  rw [length_range] at short
  exact Nat.le_trans short (by omega)

end ValkeyWasm.Ae
