import SerialProxy.SerialState

/-!
# Event table of the event loop

Registration and removal of file events, and the translation of the events
that `epoll_wait` reports. `aeApiAddEvent` is represented by the result of
its `epoll_ctl`; removal ignores the result of its own.
-/

namespace SerialProxy.EventTable

open FaultPrograms SerialState

/-- The loop of `aeDeleteFileEvent`: the highest registered descriptor below
a bound, or -1. -/
def highestBelow (events : Fd → AeFileEvent) : ℕ → Fd
  | 0 => -1
  | j+1 => if (events j).mask≠aeNone then j else highestBelow events j

/-- `aeCreateFileEvent`; true for `AE_OK`. -/
def aeCreateFileEvent (fd : Fd) (mask : EventMask) (clientData : LinkPtr)
    (epollCtl : Option Errno) : Prog Bool := do
  modify fun w => {w with fdCalls := w.fdCalls++[.create fd mask clientData epollCtl]}
  let w ← get
  if fd≥w.setsize then
    setErrno erange
    pure false
  else match epollCtl with
    | some errno =>
      setErrno errno
      pure false
    | none =>
      let fe := w.events fd
      modify fun w => {w with
        events := Function.update w.events fd ⟨fe.mask ||| mask,some clientData⟩
        maxfd := max w.maxfd fd}
      pure true

section Create

variable {w : World} {fd : Fd}

/-- A descriptor outside the table is refused before the kernel is asked. -/
theorem aeCreateFileEvent_outside (mask : EventMask) (link : LinkPtr) (epollCtl : Option Errno)
    (h : fd≥w.setsize) : aeCreateFileEvent fd mask link epollCtl w=.ok false {w with
      errno := erange
      fdCalls := w.fdCalls++[.create fd mask link epollCtl]} := by
  rw [aeCreateFileEvent,bind_of_ok (modify_apply _ w),bind_of_ok (get_apply _),if_pos h]
  rfl

/-- A registration that the kernel refuses leaves the table alone. -/
theorem aeCreateFileEvent_refused (mask : EventMask) (link : LinkPtr) (errno : Errno)
    (h : fd<w.setsize) : aeCreateFileEvent fd mask link (some errno) w=.ok false {w with
      errno := errno
      fdCalls := w.fdCalls++[.create fd mask link (some errno)]} := by
  rw [aeCreateFileEvent,bind_of_ok (modify_apply _ w),bind_of_ok (get_apply _),
    if_neg (not_le.mpr h)]
  rfl

/-- Otherwise the events are added to those of the descriptor. -/
theorem aeCreateFileEvent_accepted (mask : EventMask) (link : LinkPtr) (h : fd<w.setsize) :
    aeCreateFileEvent fd mask link none w=.ok true {w with
      events := Function.update w.events fd ⟨(w.events fd).mask ||| mask,some link⟩
      maxfd := max w.maxfd fd
      fdCalls := w.fdCalls++[.create fd mask link none]} := by
  rw [aeCreateFileEvent,bind_of_ok (modify_apply _ w),bind_of_ok (get_apply _),
    if_neg (not_le.mpr h)]
  rfl

end Create

/-- State after `aeDeleteFileEvent`, which does nothing for a descriptor
outside the table or not registered. -/
def deleteFileEvent (w : World) (fd : Fd) (mask : EventMask) : World :=
  let fe := w.events fd
  let rest := fe.mask &&& ~~~mask
  let events := if fd≥w.setsize ∨ fe.mask=aeNone then w.events
    else Function.update w.events fd {fe with mask := rest}
  {w with
    events := events
    maxfd := if fd≥w.setsize ∨ fe.mask=aeNone then w.maxfd
      else if fd=w.maxfd ∧ rest=aeNone then highestBelow events fd.toNat
      else w.maxfd
    fdCalls := w.fdCalls++[.delete fd mask]}

/-- `aeDeleteFileEvent`. -/
def aeDeleteFileEvent (fd : Fd) (mask : EventMask) : Prog Unit :=
  modify fun w => deleteFileEvent w fd mask

section Masks

variable {a b event : EventMask}

/-- An event in two masks is in each of them. -/
theorem ne_of_and_ne (h : a &&& b &&& event≠0) : a &&& event≠0 ∧ b &&& event≠0 := by
  revert a b event
  decide

/-- Two masks with the readable event have it in common. -/
theorem and_readable (ha : a &&& aeReadable≠0) (hb : b &&& aeReadable≠0) :
    a &&& b &&& aeReadable≠0 := by
  revert a b
  decide

/-- So have two masks with the writable event. -/
theorem and_writable (ha : a &&& aeWritable≠0) (hb : b &&& aeWritable≠0) :
    a &&& b &&& aeWritable≠0 := by
  revert a b
  decide

end Masks

section Frame

variable (w : World) (fd : Fd) (mask : EventMask)

/-- A removal keeps the nodes. -/
@[simp] theorem deleteFileEvent_nodes : (deleteFileEvent w fd mask).nodes=w.nodes := rfl

/-- It keeps the links. -/
@[simp] theorem deleteFileEvent_links : (deleteFileEvent w fd mask).links=w.links := rfl

/-- It closes nothing. -/
@[simp] theorem deleteFileEvent_openFds : (deleteFileEvent w fd mask).openFds=w.openFds := rfl

/-- It is no recorded call of its own. -/
@[simp] theorem deleteFileEvent_trace : (deleteFileEvent w fd mask).trace=w.trace := rfl

end Frame

/-- Other descriptors keep their registration. -/
theorem deleteFileEvent_events_of_ne {w : World} {fd other : Fd} (mask : EventMask)
    (h : other≠fd) : (deleteFileEvent w fd mask).events other=w.events other := by
  dsimp only [deleteFileEvent]
  split
  · rfl
  · exact Function.update_of_ne h _ _

/-- Deleting exactly the registered events leaves nothing registered. -/
theorem deleteFileEvent_mask {w : World} {fd : Fd} {mask : EventMask}
    (h : (w.events fd).mask≠aeNone → fd<w.setsize ∧ (w.events fd).mask=mask) :
    ((deleteFileEvent w fd mask).events fd).mask=aeNone := by
  dsimp only [deleteFileEvent]
  by_cases hm : (w.events fd).mask=aeNone
  · rw [if_pos (.inr hm)]
    exact hm
  · obtain ⟨hlt,he⟩ := h hm
    rw [if_neg (by simp [hm,hlt]),Function.update_self,he]
    exact BitVec.and_not_self mask

/-- What `read` and `write` return while one callback runs. -/
structure CallResults where
  /-- Result of the `read`, if one is made. -/
  read : ReadResult
  /-- Result of the `write`, if one is made. -/
  write : WriteResult

/-- An event that `epoll_wait` stores, with the results of the system calls
its callbacks make in the two passes over the fired events. -/
structure PollEntry where
  /-- `data.fd`. -/
  fd : Fd
  /-- `EPOLLIN`. -/
  epollin : Bool
  /-- `EPOLLOUT`. -/
  epollout : Bool
  /-- `EPOLLERR`. -/
  epollerr : Bool
  /-- `EPOLLHUP`. -/
  epollhup : Bool
  /-- Results of the callback of the first pass. -/
  first : CallResults
  /-- Results of the callback of the second pass. -/
  second : CallResults

/-- A fired event, with the same results. -/
structure AeFiredEvent where
  /-- File descriptor. -/
  fd : Fd
  /-- Fired events not yet handled. -/
  mask : EventMask
  /-- Results of the callback of the first pass. -/
  first : CallResults
  /-- Results of the callback of the second pass. -/
  second : CallResults

/-- One turn of the loop of `aeApiPoll`: errors and hang-ups count as writable. -/
def PollEntry.fired (e : PollEntry) : AeFiredEvent where
  fd := e.fd
  mask := (if e.epollin then aeReadable else 0) ||| (if e.epollout then aeWritable else 0) |||
    (if e.epollerr then aeWritable else 0) ||| (if e.epollhup then aeWritable else 0)
  first := e.first
  second := e.second

/-- The fired list `aeApiPoll` leaves: none when `epoll_wait` fails. -/
def aeApiPoll : Except Errno (List PollEntry) → Prog (List AeFiredEvent)
  | .error errno => do
    setErrno errno
    pure []
  | .ok entries => pure (entries.map PollEntry.fired)

/-- What `epoll_wait` may report in a state: registered descriptors, each at
most once, and `EPOLLIN` and `EPOLLOUT` only where they were asked for. -/
structure Pollable (w : World) (entries : List PollEntry) : Prop where
  /-- Only registered descriptors are reported. -/
  registered : ∀ e∈entries,(w.events e.fd).mask≠aeNone
  /-- Each descriptor is reported at most once. -/
  once : (entries.map PollEntry.fd).Nodup
  /-- `EPOLLIN` only where it was asked for. -/
  readable : ∀ e∈entries,e.epollin=true → (w.events e.fd).mask &&& aeReadable≠0
  /-- `EPOLLOUT` only where it was asked for. -/
  writable : ∀ e∈entries,e.epollout=true → (w.events e.fd).mask &&& aeWritable≠0

end SerialProxy.EventTable
