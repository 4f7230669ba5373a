import ValkeyWasm.Ae.EventLoop
import ValkeyWasm.Bridge.Stream

/-! The reactor: passes of the event loop of the guest, driven by the host.
What the guest does in a pass beyond reading and accepting is left open: its actions are
arguments of the pass. -/
namespace ValkeyWasm.Bridge
open Library.Memory Ae List

/-- The two handlers that a server registers on host descriptors. -/
inductive Proc where
  | acceptHandler
  | eventHandler
  deriving DecidableEq, Repr

/-- `reported` remembers the connections whose end a read has returned. -/
structure Reactor where
  host : Host
  loop : EventLoop Proc
  mem : Bytes
  reported : Nat → Bool

inductive Direction where
  | reading
  | writing
  deriving DecidableEq, Repr

def Direction.mask : Direction → Mask
  | reading => .read
  | writing => .write

inductive Action where
  | create (fd : Nat) (direction : Direction) (proc : Proc)
  | delete (fd : Nat) (direction : Direction)
  | socket
  | listen (fd : Nat)
  | write (fd len : Nat) (ok : Bool)
  | close (fd : Nat)

/-- What the guest does when a handler is called: whether it takes an accepted connection, how much
it reads and where to, and its actions before and after the read. -/
structure Turn where
  admits : Nat → Bool
  reads : Option (Nat × Nat)
  before : List Action
  after : List Action

structure Pass where
  beforeSleep : List Action
  turns : Nat → Turn
  timers : List Action

def Host.ready (h : Host) (fd : Nat) (mask : Mask) : Mask :=
  match h.listeners fd with
  | some pending => if mask.readable && pending ≠ [] then .read else .none
  | none =>
    match h.socks fd with
    | some s => ⟨mask.readable && (s.chunks ≠ [] || s.eof),mask.writable && !s.backpressured,false⟩
    | none => .none

def Host.poll (h : Host) : List (Nat × Mask) → Nat → List (Nat × Mask)
  | [], _ => []
  | _ :: _, 0 => []
  | (fd,mask) :: rest, max + 1 =>
    if h.ready fd mask = .none then h.poll rest (max + 1) else (fd,h.ready fd mask) :: h.poll rest max

theorem poll_eq (h : Host) {asked : List (Nat × Mask)} {limit : Nat} (enough : asked.length ≤ limit) : h.poll asked limit =
    asked.filterMap fun (fd,mask) => if h.ready fd mask = .none then none else some (fd,h.ready fd mask) := by
  induction asked generalizing limit with
  | nil => rfl
  | cons first rest ih =>
    rw [length_cons] at enough
    obtain ⟨limit,rfl⟩ : ∃ k, limit = k + 1 := ⟨limit - 1,by omega⟩
    rw [Host.poll,filterMap_cons]
    dsimp only
    split
    · exact ih (by omega)
    · rw [ih (by omega)]

namespace Reactor

def act (r : Reactor) : Action → Reactor
  | .create fd direction proc => {r with loop := (aeCreateFileEvent r.loop fd direction.mask proc).getD r.loop}
  | .delete fd direction => {r with loop := aeDeleteFileEvent r.loop fd direction.mask}
  | .socket => {r with host := r.host.allocFd.2}
  | .listen fd => {r with host := (r.host.listen fd).2}
  | .write fd len ok => {r with host := (r.host.write fd len ok).2}
  | .close fd => {r with host := r.host.close fd}

def acts (r : Reactor) (actions : List Action) : Reactor := actions.foldl act r

def acceptLoop (turn : Turn) (lfd : Nat) : Nat → Reactor → Reactor
  | 0, r => r
  | max + 1, r =>
    let (cfd,host) := r.host.accept lfd
    if cfd < 0 then r
    else
      let r := {r with host}
      let r := if turn.admits cfd.toNat then r.act (.create cfd.toNat .reading .eventHandler) else r.act (.close cfd.toNat)
      acceptLoop turn lfd max r

def readOnce (r : Reactor) (fd ptr len : Nat) : Reactor :=
  let (n,host,mem) := r.host.read fd ptr len r.mem
  {r with host, mem, reported := if n = 0 then Function.update r.reported fd true else r.reported}

def eventHandler (turn : Turn) (fd : Nat) (mask : Mask) (r : Reactor) : Reactor :=
  let r := r.acts turn.before
  let r := if mask.readable && (r.loop.events fd).mask.readable then (turn.reads.map fun (ptr,len) => r.readOnce fd ptr len).getD r else r
  r.acts turn.after

def handle (max : Nat) (pass : Pass) : Proc → Nat → Mask → Reactor → Reactor
  | .acceptHandler, fd, _, r => acceptLoop (pass.turns fd) fd max r
  | .eventHandler, fd, mask, r => eventHandler (pass.turns fd) fd mask r

/-- `rk_step`: one `aeProcessEvents` that does not wait. -/
def rkStep (max : Nat) (pass : Pass) (r : Reactor) : Reactor :=
  let r :=
    if r.loop.maxfd ≠ -1 then
      let r := r.acts pass.beforeSleep
      (r.host.poll (interest r.loop) r.loop.setsize).foldl (dispatch (·.loop) (handle max pass)) r
    else r
  r.acts pass.timers

end Reactor

/-- What drives the reactor. The callbacks of a socket carry its descriptor. -/
inductive Drive where
  | boot (actions : List Action)
  | connection (lfd : Nat)
  | data (fd : Nat) (buf : Chunk)
  | ended (fd : Nat)
  | closed (fd : Nat)
  | error (fd : Nat)
  | drain (fd : Nat)
  | microtask (pass : Pass)
  | timer (pass : Pass)
  | stop

namespace Reactor

def initial (setsize : Nat) (mem : Bytes) : Reactor := ⟨.initial,aeCreateEventLoop setsize,mem,fun _ => false⟩

def pass (max : Nat) (p : Pass) (r : Reactor) : Reactor := if r.host.closed then r else r.rkStep max p

def drive (max : Nat) (r : Reactor) : Drive → Reactor
  | .boot actions => r.acts actions
  | .connection lfd => {r with host := r.host.connection lfd}
  | .data fd buf => {r with host := r.host.onData fd buf}
  | .ended fd => {r with host := r.host.onEnd fd}
  | .closed fd => {r with host := r.host.onEnd fd}
  | .error fd => {r with host := r.host.onError fd}
  | .drain fd => {r with host := r.host.onDrain fd}
  | .microtask p => if r.host.stepScheduled then pass max p {r with host := {r.host with stepScheduled := false}} else r
  | .timer p => pass max p r
  | .stop => {r with host := r.host.stop}

def run (max setsize : Nat) (mem : Bytes) (script : List Drive) : Reactor := script.foldl (drive max) (initial setsize mem)

theorem run_append (max setsize : Nat) (mem : Bytes) (script more : List Drive) :
    run max setsize mem (script ++ more) = more.foldl (drive max) (run max setsize mem script) := foldl_append

end Reactor

end ValkeyWasm.Bridge
