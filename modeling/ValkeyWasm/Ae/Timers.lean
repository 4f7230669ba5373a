import Mathlib.Order.Lattice
import Mathlib.Algebra.Ring.Int.Parity

/-! The time events of the event loop. A procedure may create and delete time events; it does not
run the loop itself, so no reference is held where `processTimeEvents` reads the count. -/
namespace ValkeyWasm.Ae
open List Option

variable (t : Timers) (te : TimeEvent) (events : List TimeEvent) (now : Monotime)

/-- A microsecond reading of the monotonic clock. -/
abbrev Monotime := BitVec 64

def deletedEventId : Int := -1
def noMore : Int := -1

structure TimeEvent where
  id : Int
  when : Monotime
  finalizerProc : Bool
  deriving DecidableEq

def TimeEvent.live : Bool := te.id ≠ deletedEventId

structure Timers where
  nextId : Int
  events : List TimeEvent

def aeCreateTimeEvent (milliseconds : Int) (finalizerProc : Bool) : Int × Timers :=
  (t.nextId,⟨t.nextId + 1,⟨t.nextId,now + .ofInt 64 (milliseconds * 1000),finalizerProc⟩ :: t.events⟩)

def markDeleted (id : Int) : List TimeEvent → Option (List TimeEvent)
  | [] => none
  | te :: rest => if te.id = id then some ({te with id := deletedEventId} :: rest) else (markDeleted id rest).map (te :: ·)

/-- `none` is `AE_ERR`. -/
def aeDeleteTimeEvent (id : Int) : Option Timers := (markDeleted id t.events).map fun events => {t with events}

inductive Request where
  | create (now : Monotime) (milliseconds : Int) (finalizerProc : Bool)
  | delete (id : Int)

def Timers.serve : Request → Timers
  | .create now milliseconds finalizerProc => (aeCreateTimeEvent t now milliseconds finalizerProc).2
  | .delete id => (aeDeleteTimeEvent t id).getD t

/-- What a procedure does, what it returns, and the clock after it. -/
structure Outcome where
  requests : List Request
  retval : Int
  now : Monotime

/-- The walk over the last `n` events. New events go to the head, so the current one stays `n`
places from the end whatever its procedure creates. -/
def processFrom (outcome : Nat → Outcome) (maxId : Int) : Nat → Nat → Monotime → Timers → Nat × Timers
  | 0, processed, _, t => (processed,t)
  | n + 1, processed, now, t =>
    match t.events[t.events.length - (n + 1)]? with
    | none => (processed,t)
    | some te =>
      let done := outcome n
      if te.id = deletedEventId then
        let t := {t with events := t.events.eraseIdx (t.events.length - (n + 1))}
        if te.finalizerProc then processFrom outcome maxId n processed done.now (done.requests.foldl .serve t)
        else processFrom outcome maxId n processed now t
      else if te.id > maxId then processFrom outcome maxId n processed now t
      else if te.when ≤ now then
        let t := done.requests.foldl .serve t
        let again (te : TimeEvent) : TimeEvent :=
          if done.retval ≠ noMore then {te with when := done.now + .ofInt 64 (done.retval * 1000)} else {te with id := deletedEventId}
        processFrom outcome maxId n (processed + 1) done.now {t with events := t.events.modify (t.events.length - (n + 1)) again}
      else processFrom outcome maxId n processed now t

def processTimeEvents (outcome : Nat → Outcome) (now : Monotime) (t : Timers) : Nat × Timers :=
  processFrom outcome (t.nextId - 1) t.events.length 0 now t

def earlier (earliest : Option TimeEvent) (te : TimeEvent) : Option TimeEvent :=
  if (earliest.all fun e => te.when < e.when) && te.live then some te else earliest

inductive Call where
  | request (request : Request)
  | processTimeEvents (outcome : Nat → Outcome) (now : Monotime)

def Timers.call : Call → Timers
  | .request request => t.serve request
  | .processTimeEvents outcome now => (Ae.processTimeEvents outcome now t).2

def Timers.run (calls : List Call) : Timers := calls.foldl .call ⟨0,[]⟩

end ValkeyWasm.Ae
