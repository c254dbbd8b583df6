import SerialProxy.SerialConfig
import SerialProxy.SerialLinks

/-!
# The event loop and its runs

One iteration of `aeMain`: the reset of the receive buffers before the poll,
the two passes over the fired events, and the time event, which reconnects in
the iterations where the period of `serverCron` is over. A run takes
iterations one after another, each with what `epoll_wait` may report in the
state it starts from. The run ends when an iteration faults.
-/

namespace SerialProxy.EventLoop

open FaultPrograms SerialState EventTable SerialConfig SerialLinks

/-- One turn of a loop of `aeProcessEvents`: the callback runs when the event
of this pass is fired and still registered, and is then cleared in the entry. -/
def dispatchFired (event : EventMask) (results : AeFiredEvent → CallResults)
    (e : AeFiredEvent) : Prog AeFiredEvent := do
  let w ← get
  let fe := w.events e.fd
  if fe.mask &&& e.mask &&& event≠0 then
    serialEventHandler fe.clientData e.mask (results e)
    pure {e with mask := e.mask &&& ~~~event}
  else
    pure e

/-- A loop of `aeProcessEvents` over the fired list. -/
def dispatchPass (event : EventMask) (results : AeFiredEvent → CallResults) :
    List AeFiredEvent → Prog (List AeFiredEvent)
  | [] => pure []
  | e::rest => do
    let e' ← dispatchFired event results e
    let rest' ← dispatchPass event results rest
    pure (e'::rest')

/-- The first loop of `aeProcessEvents`. -/
def readPass (fired : List AeFiredEvent) : Prog (List AeFiredEvent) :=
  dispatchPass aeReadable AeFiredEvent.first fired

/-- The second loop of `aeProcessEvents`. -/
def writePass (fired : List AeFiredEvent) : Prog (List AeFiredEvent) :=
  dispatchPass aeWritable AeFiredEvent.second fired

/-- What the environment contributes to one iteration. -/
structure Iteration where
  /-- Result of `epoll_wait`. -/
  poll : Except Errno (List PollEntry)
  /-- Results of the connect attempts, in an iteration that reconnects. -/
  cron : Option (NodePtr → ConnectResults)

/-- `aeProcessEvents` with `AE_ALL_EVENTS`. -/
def aeProcessEvents (it : Iteration) : Prog Unit := do
  let fired ← aeApiPoll it.poll
  let fired ← readPass fired
  let _ ← writePass fired
  match it.cron with
  | some env => serialCron env
  | none => pure ()

/-- One turn of the loop of `aeMain`. -/
def aeMainStep (it : Iteration) : Prog Unit := do
  serialBeforeSleep
  aeProcessEvents it

/-- The events polled in an iteration, none when `epoll_wait` failed. -/
def Iteration.entries (it : Iteration) : List PollEntry :=
  match it.poll with
  | .error _ => []
  | .ok entries => entries

/-- The iterations the kernel may serve in a state. -/
def Admitted (w : World) (it : Iteration) : Prop := Pollable w it.entries

/-- `serialInit`, with the entries of the configuration file. -/
def serialInit (entries : List ConfigEntry) (env : NodePtr → ConnectResults) : Prog Unit := do
  modify fun w => {w with masterHead := none}
  loadEntries entries
  serialReconnect env

/-- States in which the event loop starts. -/
def Booted (w : World) : Prop := ∃ entries env,serialInit entries env World.boot=.ok () w

/-- States between two iterations of a running daemon. -/
def Running (w : World) : Prop := Reachable Booted aeMainStep Admitted w

/-- The pass calls the callback for this fired event. -/
def Fires (w : World) (event : EventMask) (e : AeFiredEvent) : Prop :=
  (w.events e.fd).mask &&& e.mask &&& event≠0

instance (w : World) (event : EventMask) (e : AeFiredEvent) : Decidable (Fires w event e) :=
  inferInstanceAs (Decidable (_≠_))

/-- In an iteration from `w`, this fired list is dispatched from state `s`. -/
def Polls (w : World) (it : Iteration) (fired : List AeFiredEvent) (s : World) : Prop :=
  ∃ s₀,serialBeforeSleep w=.ok () s₀ ∧ aeApiPoll it.poll s₀=.ok fired s

/-- In an iteration from `w`, the first pass calls the callback for `e` in state `t`. -/
def FirstCall (w : World) (it : Iteration) (t : World) (e : AeFiredEvent) : Prop :=
  ∃ s done todo done',Polls w it (done++e::todo) s ∧ readPass done s=.ok done' t ∧
    Fires t aeReadable e

/-- In an iteration from `w`, the second pass reaches the fired event `e` in state `t`. -/
def SecondTurn (w : World) (it : Iteration) (t : World) (e : AeFiredEvent) : Prop :=
  ∃ fired s r done todo done',Polls w it fired s ∧ readPass fired s=.ok (done++e::todo) r ∧
    writePass done r=.ok done' t

/-- In an iteration from `w`, the callback is called for `e` in state `t`, with
these results of its system calls. -/
inductive HandlerCall (w : World) (it : Iteration) : World → AeFiredEvent → CallResults → Prop
  /-- By the first pass. -/
  | first {t : World} {e : AeFiredEvent} : FirstCall w it t e → HandlerCall w it t e e.first
  /-- By the second pass. -/
  | second {t : World} {e : AeFiredEvent} : SecondTurn w it t e → Fires t aeWritable e →
      HandlerCall w it t e e.second

end SerialProxy.EventLoop
