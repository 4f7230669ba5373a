import ValkeyWasm.Library.Memory
import ValkeyWasm.Library.Dictionary

/-! The host side of the bridge: descriptors, buffered sockets and the socket callbacks.
A map of the bridge is a function to `Option`; the servers and sockets of the host runtime
appear only through the events that they raise. -/
namespace ValkeyWasm.Bridge
open Library.Memory Function

def hostFdBase : Nat := 4096

abbrev Chunk := List (BitVec 8)

structure SockRecord where
  chunks : List Chunk
  off : Nat
  eof : Bool
  backpressured : Bool
  deriving DecidableEq, Repr

/-- `listeners` holds for each listener the connections that wait for `accept`. -/
structure Host where
  nextFd : Nat
  socks : Nat → Option SockRecord
  listeners : Nat → Option (List Nat)
  stepScheduled : Bool
  closed : Bool

def readLoop (ptr len : Nat) (chunks : List Chunk) (off written : Nat) (mem : Bytes) : List Chunk × Nat × Nat × Bytes :=
  match chunks with
  | [] => ([],off,written,mem)
  | head :: rest =>
    if written < len then
      let n := min (head.length - off) (len - written)
      let mem := writeBytes mem (ptr + written) ((head.drop off).take n)
      if off + n ≥ head.length then readLoop ptr len rest 0 (written + n) mem
      else readLoop ptr len (head :: rest) (off + n) (written + n) mem
    else (head :: rest,off,written,mem)
termination_by (chunks.length,len - written)
decreasing_by
  · exact .left _ _ (Nat.lt_succ_self _)
  · exact .right _ (by omega)

namespace Host

variable (h : Host) (lfd : Nat) (fd : Nat) (f : SockRecord → SockRecord)

def initial : Host := ⟨hostFdBase,fun _ => none,fun _ => none,false,false⟩

def allocFd : Nat × Host := (h.nextFd,{h with nextFd := h.nextFd + 1})

def scheduleStep : Host := if h.stepScheduled || h.closed then h else {h with stepScheduled := true}

def onSock : Host :=
  {h with socks := Function.update h.socks fd ((h.socks fd).map f)}

def connection : Host :=
  let (cfd,h) := h.allocFd
  let h := {h with
    socks := Function.update h.socks cfd (some ⟨[],0,false,false⟩)
    listeners := Function.update h.listeners lfd ((h.listeners lfd).map (· ++ [cfd]))}
  h.scheduleStep

def onData (buf : Chunk) : Host := (h.onSock fd fun s => {s with chunks := s.chunks ++ [buf]}).scheduleStep

def onEnd : Host := (h.onSock fd fun s => {s with eof := true}).scheduleStep

def onError : Host := h.onSock fd fun s => {s with eof := true}

def onDrain : Host := (h.onSock fd fun s => {s with backpressured := false}).scheduleStep

def stop : Host := {h with closed := true, listeners := fun _ => none, socks := fun _ => none}

def listen : Int × Host := (0,{h with listeners := Function.update h.listeners fd (some [])})

def accept : Int × Host :=
  match h.listeners lfd with
  | some (cfd :: pending) => (cfd,{h with listeners := Function.update h.listeners lfd (some pending)})
  | _ => (-1,h)

def read (fd ptr len : Nat) (mem : Bytes) : Int × Host × Bytes :=
  match h.socks fd with
  | none => (-1,h,mem)
  | some s =>
    if s.chunks = [] then (if s.eof then 0 else -1,h,mem)
    else
      let (chunks,off,written,mem) := readLoop ptr len s.chunks s.off 0 mem
      (written,{h with socks := Function.update h.socks fd (some {s with chunks := chunks, off := off})},mem)

/-- `ok` is the answer of the socket, `false` when it buffers. -/
def write (fd len : Nat) (ok : Bool) : Int × Host :=
  match h.socks fd with
  | none => (-1,h)
  | some s => if s.eof then (-1,h) else (len,if ok then h else h.onSock fd fun s => {s with backpressured := true})

def close : Host :=
  {h with socks := Function.update h.socks fd none, listeners := Function.update h.listeners fd none}

@[simp] theorem scheduleStep_nextFd : h.scheduleStep.nextFd = h.nextFd := by
  unfold scheduleStep
  split <;> rfl

@[simp] theorem scheduleStep_socks : h.scheduleStep.socks = h.socks := by
  unfold scheduleStep
  split <;> rfl

@[simp] theorem scheduleStep_listeners : h.scheduleStep.listeners = h.listeners := by
  unfold scheduleStep
  split <;> rfl

@[simp] theorem onSock_listeners : (h.onSock fd f).listeners = h.listeners := rfl

@[simp] theorem onSock_socks :
    (h.onSock fd f).socks = update h.socks fd ((h.socks fd).map f) := rfl

theorem accept_cases :
    (∃ cfd rest, h.listeners lfd = some (cfd :: rest) ∧
      h.accept lfd = ((cfd : Int),{h with listeners := update h.listeners lfd (some rest)})) ∨
    (∀ pending, h.listeners lfd = some pending → pending = []) ∧ h.accept lfd = (-1,h) := by
  unfold accept
  split
  · rename_i cfd rest waits
    exact Or.inl ⟨cfd,rest,waits,rfl⟩
  rename_i none_
  refine Or.inr ⟨?_,rfl⟩
  intro pending found
  cases pending with
  | nil => rfl
  | cons cfd rest => exact absurd found (none_ cfd rest)

theorem read_host (fd ptr len : Nat) (mem : Bytes) : ∃ socks, (h.read fd ptr len mem).2.1 = {h with socks := socks} := by
  unfold read
  split
  · exact ⟨h.socks,rfl⟩
  · split <;> exact ⟨_,rfl⟩

theorem write_host (fd len : Nat) (ok : Bool) : ∃ socks, (h.write fd len ok).2 = {h with socks := socks} := by
  unfold write
  split
  · exact ⟨h.socks,rfl⟩
  split
  · exact ⟨h.socks,rfl⟩
  · split <;> exact ⟨_,rfl⟩

end Host

end ValkeyWasm.Bridge
