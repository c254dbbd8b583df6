import SerialProxy.LinkedCells
import SerialProxy.ServerMain
import Mathlib.Data.List.Find

/-!
# Time events of the event loop

The timer list of ae.c on its heap, for any callbacks: creation at the head, deletion by a
mark, the search for the nearest timer, and the pass of `processTimeEvents`, which unlinks
the marked events with `prev` and calls the procedures of the due ones while these create and
delete further events. Beside it stand the same operations on a plain list of events. The
environment gives every reading of the clock and what each callback does with the timers.
-/

namespace SerialProxy.TimeEvents

open FaultPrograms LinkedCells
open ServerMain (AeTimeEvent aeAddMillisecondsToNow aeErr aeNomore aeDeletedEventId)

/-- Address of an `aeTimeEvent`. -/
abbrev EventPtr := ℕ

/-- Address of a procedure. -/
abbrev ProcPtr := ℕ

/-- A time event without its place in the list. -/
structure TimeEvent extends AeTimeEvent where
  /-- Procedure of the event. -/
  timeProc : ProcPtr
  /-- Procedure called before the event is freed, if any. -/
  finalizerProc : Option ProcPtr
  /-- Data handed to both. -/
  clientData : ℕ
  deriving DecidableEq

/-- A time event on the heap. -/
structure EventCell where
  /-- The event. -/
  event : TimeEvent
  /-- Next event of the list. -/
  next : Option EventPtr
  deriving DecidableEq

/-- The arguments of `aeCreateTimeEvent`, the clock it reads and whether `malloc` succeeds. -/
structure TimerRequest where
  /-- Delay. -/
  milliseconds : ℤ
  /-- Procedure. -/
  timeProc : ProcPtr
  /-- Finalizer, if any. -/
  finalizerProc : Option ProcPtr
  /-- Data. -/
  clientData : ℕ
  /-- Milliseconds on the clock. -/
  clock : ℕ
  /-- There is memory for the event. -/
  allocated : Bool
  deriving DecidableEq

/-- What the timers do outside, in order. -/
inductive TimerCall
  /-- An event is allocated for this request. -/
  | create (te : EventPtr) (id : ℤ) (request : TimerRequest)
  /-- Its procedure is called. -/
  | fire (te : EventPtr) (id : ℤ) (timeProc : ProcPtr) (clientData : ℕ)
  /-- Its finalizer is called. -/
  | finalize (te : EventPtr) (finalizerProc : ProcPtr) (clientData : ℕ)
  /-- It is freed. -/
  | free (te : EventPtr)
  deriving DecidableEq

/-- What a callback may do with the timers. -/
inductive TimerOp
  /-- `aeCreateTimeEvent`. -/
  | create (request : TimerRequest)
  /-- `aeDeleteTimeEvent`. -/
  | delete (id : ℤ)

/-- What the environment contributes to the turn of one event in a pass. -/
structure Visit where
  /-- Clock of the test whether it is due. -/
  clock : ℕ
  /-- What its procedure does with the timers. -/
  ops : List TimerOp
  /-- Result of its procedure. -/
  retval : ℤ
  /-- Clock behind its procedure. -/
  later : ℕ
  /-- What its finalizer does with the timers. -/
  finalOps : List TimerOp

/-- Ways in which the timers stop other than by returning. -/
inductive TimerFault
  /-- An event is dereferenced that is not live. -/
  | freedEvent (te : EventPtr)
  /-- A walk takes more turns than there ever were events. -/
  | diverges
  deriving DecidableEq

/-- The fields of `aeEventLoop` that the timers use, with the heap of the events. -/
structure TimerLoop where
  /-- Live events. -/
  cells : EventPtr → Option EventCell
  /-- Number of events ever allocated. -/
  nextCell : EventPtr
  /-- Head of the list. -/
  timeEventHead : Option EventPtr
  /-- Identifier of the next event. -/
  timeEventNextId : ℤ
  /-- Second of the last look at the timers. -/
  lastTime : ℤ
  /-- Everything that was called, in order. -/
  calls : List TimerCall

/-- The timers of `aeCreateEventLoop`, at this second. -/
def TimerLoop.new (now : ℤ) : TimerLoop where
  cells := fun _ => none
  nextCell := 0
  timeEventHead := none
  timeEventNextId := 0
  lastTime := now
  calls := []

/-- Programs of the timers. -/
abbrev TimerProg := EStateM TimerFault TimerLoop

/-- Record a call. -/
def record (call : TimerCall) : TimerProg Unit :=
  modify fun l => {l with calls := l.calls++[call]}

/-- Read an event through its address. -/
def derefEvent (te : EventPtr) : TimerProg EventCell := do
  let l ← get
  match l.cells te with
  | some c => pure c
  | none => throw (.freedEvent te)

/-- Write fields of an event through its address. -/
def modifyCell (te : EventPtr) (f : EventCell → EventCell) : TimerProg Unit := do
  let c ← derefEvent te
  modify fun l => {l with cells := Function.update l.cells te (some (f c))}

/-- Write fields of an event that do not link it. -/
def modifyEvent (te : EventPtr) (f : TimeEvent → TimeEvent) : TimerProg Unit :=
  modifyCell te fun c => {c with event := f c.event}

/-- `free` of an event. -/
def releaseEvent (te : EventPtr) : TimerProg Unit := do
  let _ ← derefEvent te
  modify fun l => {l with cells := Function.update l.cells te none}
  record (.free te)

/-- The event `aeCreateTimeEvent` fills in. -/
def TimerRequest.event (r : TimerRequest) (id : ℤ) : TimeEvent where
  id := id
  whenSec := (aeAddMillisecondsToNow r.clock r.milliseconds).1
  whenMs := (aeAddMillisecondsToNow r.clock r.milliseconds).2
  timeProc := r.timeProc
  finalizerProc := r.finalizerProc
  clientData := r.clientData

/-- `aeCreateTimeEvent`; the identifier is used up also when there is no memory. -/
def aeCreateTimeEvent (r : TimerRequest) : TimerProg ℤ := do
  let l ← get
  let id := l.timeEventNextId
  modify fun l => {l with timeEventNextId := id+1}
  if r.allocated then
    modify fun l => {l with
      cells := Function.update l.cells l.nextCell (some ⟨r.event id,l.timeEventHead⟩)
      nextCell := l.nextCell+1
      timeEventHead := some l.nextCell
      calls := l.calls++[.create l.nextCell id r]}
    pure id
  else
    pure aeErr

/-- The mark of a deleted event. -/
def marked (t : TimeEvent) : TimeEvent := {t with id := aeDeletedEventId}

/-- `aeDeleteTimeEvent`; true for `AE_OK`. -/
def aeDeleteTimeEvent (id : ℤ) : TimerProg Bool := do
  let l ← get
  match ← scan derefEvent EventCell.next (fun c => c.event.id=id) .diverges l.nextCell
      l.timeEventHead with
  | some te =>
    modifyEvent te marked
    pure true
  | none => pure false

/-- What a callback does, one after another. -/
def runOp : TimerOp → TimerProg Unit
  | .create r => do
    let _ ← aeCreateTimeEvent r
  | .delete id => do
    let _ ← aeDeleteTimeEvent id

/-- The comparison of `aeSearchNearestTimer`. -/
def nearer (te nearest : AeTimeEvent) : Bool :=
  te.whenSec<nearest.whenSec ∨ (te.whenSec=nearest.whenSec ∧ te.whenMs<nearest.whenMs)

/-- The nearest event so far, behind one more. -/
def keepNearest (nearest : Option (EventPtr×TimeEvent)) (te : EventPtr×TimeEvent) :
    Option (EventPtr×TimeEvent) :=
  match nearest with
  | none => some te
  | some n => if nearer te.2.toAeTimeEvent n.2.toAeTimeEvent then some te else some n

/-- The loop of `aeSearchNearestTimer`, with the nearest event so far. -/
def searchNearest (nearest : Option (EventPtr×TimeEvent)) :
    ℕ → Option EventPtr → TimerProg (Option (EventPtr×TimeEvent))
  | _,none => pure nearest
  | 0,some _ => throw .diverges
  | bound+1,some te => do
    let c ← derefEvent te
    searchNearest (keepNearest nearest (te,c.event)) bound c.next

/-- `aeSearchNearestTimer`, with the event it points to. -/
def aeSearchNearestTimer : TimerProg (Option (EventPtr×TimeEvent)) := do
  let l ← get
  searchNearest none l.nextCell l.timeEventHead

/-- An event behind its procedure: rescheduled, or marked for `AE_NOMORE`. -/
def settle (v : Visit) (t : TimeEvent) : TimeEvent :=
  if v.retval≠aeNomore then {t with
    whenSec := (aeAddMillisecondsToNow v.later v.retval).1
    whenMs := (aeAddMillisecondsToNow v.later v.retval).2}
  else marked t

/-- `if (te->finalizerProc) te->finalizerProc(eventLoop, te->clientData)`. -/
def finalizeEvent (te : EventPtr) (t : TimeEvent) (v : Visit) : TimerProg Unit :=
  match t.finalizerProc with
  | some finalizerProc => do
    record (.finalize te finalizerProc t.clientData)
    v.finalOps.forM runOp
  | none => pure ()

/-- The branches that take an event out of the list, by the one before it in the pass. -/
def relink (prev next : Option EventPtr) : TimerProg Unit :=
  match prev with
  | none => modify fun l => {l with timeEventHead := next}
  | some p => modifyCell p fun q => {q with next := next}

/-- The loop of `processTimeEvents`; its result is `processed`. -/
def processTimers (maxId : ℤ) (env : EventPtr → Visit) (prev : Option EventPtr) (processed : ℕ) :
    ℕ → Option EventPtr → TimerProg ℕ
  | _,none => pure processed
  | 0,some _ => throw .diverges
  | bound+1,some te => do
    let c ← derefEvent te
    if c.event.id=aeDeletedEventId then
      relink prev c.next
      finalizeEvent te c.event (env te)
      releaseEvent te
      processTimers maxId env prev processed bound c.next
    -- `prev` stays where it is when an event of this pass is skipped
    else if c.event.id>maxId then
      processTimers maxId env prev processed bound c.next
    else if c.event.Due (env te).clock then do
      record (.fire te c.event.id c.event.timeProc c.event.clientData)
      (env te).ops.forM runOp
      modifyEvent te (settle (env te))
      let c ← derefEvent te
      processTimers maxId env (some te) (processed+1) bound c.next
    else
      processTimers maxId env (some te) processed bound c.next

/-- The event is due at every later second. -/
def rewound (t : TimeEvent) : TimeEvent := {t with whenSec := 0}

/-- `processTimeEvents` up to its loop: when the clock was set back, every event is due. -/
def lookAtTime (now : ℤ) : TimerProg Unit := do
  let l ← get
  if now<l.lastTime then
    visit derefEvent EventCell.next (fun te => modifyEvent te rewound) .diverges l.nextCell
      l.timeEventHead
  modify fun l => {l with lastTime := now}

/-- `processTimeEvents`, with the second that `time` returns. -/
def processTimeEvents (now : ℤ) (env : EventPtr → Visit) : TimerProg ℕ := do
  lookAtTime now
  let l ← get
  processTimers (l.timeEventNextId-1) env none 0 l.nextCell l.timeEventHead

/-- The timers as a list, with the events it lists. -/
structure TimerList where
  /-- The pending events, from the head. -/
  order : List EventPtr
  /-- The events. -/
  event : EventPtr → Option TimeEvent
  /-- Number of events ever created. -/
  nextCell : EventPtr
  /-- Identifier of the next event. -/
  nextId : ℤ
  /-- Second of the last look at the timers. -/
  lastTime : ℤ
  /-- Everything that was called, in order. -/
  calls : List TimerCall

namespace TimerList

/-- No timers, at this second. -/
def new (now : ℤ) : TimerList := ⟨[],fun _ => none,0,0,now,[]⟩

/-- A call is recorded. -/
def called (s : TimerList) (call : TimerCall) : TimerList := {s with calls := s.calls++[call]}

/-- An event is changed. -/
def update (s : TimerList) (te : EventPtr) (f : TimeEvent → TimeEvent) : TimerList :=
  {s with event := Function.update s.event te ((s.event te).map f)}

/-- A new event comes first. -/
def create (s : TimerList) (r : TimerRequest) : TimerList :=
  if r.allocated then {s with
    order := s.nextCell::s.order
    event := Function.update s.event s.nextCell (some (r.event s.nextId))
    nextCell := s.nextCell+1
    nextId := s.nextId+1
    calls := s.calls++[.create s.nextCell s.nextId r]}
  else {s with nextId := s.nextId+1}

/-- The first event with this identifier. -/
def find (s : TimerList) (id : ℤ) : Option EventPtr :=
  s.order.find? fun te => (s.event te).any fun t => t.id=id

/-- The first event with this identifier is marked. -/
def delete (s : TimerList) (id : ℤ) : TimerList :=
  match s.find id with
  | some te => s.update te marked
  | none => s

/-- What a callback does. -/
def perform (s : TimerList) : TimerOp → TimerList
  | .create r => s.create r
  | .delete id => s.delete id

/-- An event is taken out of the list. -/
def unlink (s : TimerList) (te : EventPtr) : TimerList := {s with order := s.order.erase te}

/-- Its finalizer is called, if it has one. -/
def finalize (s : TimerList) (te : EventPtr) (t : TimeEvent) (v : Visit) : TimerList :=
  match t.finalizerProc with
  | some finalizerProc =>
    v.finalOps.foldl perform (s.called (.finalize te finalizerProc t.clientData))
  | none => s

/-- It is freed. -/
def release (s : TimerList) (te : EventPtr) : TimerList :=
  {s with event := Function.update s.event te none}.called (.free te)

/-- Its procedure is called. -/
def fire (s : TimerList) (te : EventPtr) (t : TimeEvent) (v : Visit) : TimerList :=
  (v.ops.foldl perform (s.called (.fire te t.id t.timeProc t.clientData))).update te (settle v)

/-- The turn of one event in a pass. -/
def turn (maxId : ℤ) (env : EventPtr → Visit) (s : TimerList) (te : EventPtr) : TimerList :=
  match s.event te with
  | none => s
  | some t =>
    if t.id=aeDeletedEventId then ((s.unlink te).finalize te t (env te)).release te
    else if t.id>maxId then s
    else if t.Due (env te).clock then s.fire te t (env te)
    else s

/-- All events are due at every later second. -/
def rewind (s : TimerList) : TimerList := s.order.foldl (fun s te => s.update te rewound) s

/-- The events as the pass finds them. -/
def begin (s : TimerList) (now : ℤ) : TimerList :=
  {(if now<s.lastTime then s.rewind else s) with lastTime := now}

/-- The nearest pending event, the first one of several. -/
def nearest (s : TimerList) : Option (EventPtr×TimeEvent) :=
  s.order.foldl (fun best te => ((s.event te).map (te,·)).elim best (keepNearest best)) none

/-- The pass over the events that are pending at its start. -/
def process (s : TimerList) (now : ℤ) (env : EventPtr → Visit) : TimerList :=
  (s.begin now).order.foldl (turn ((s.begin now).nextId-1) env) (s.begin now)

end TimerList

/-- The links of the live events. -/
def nextOf (l : TimerLoop) (te : EventPtr) : Option (Option EventPtr) :=
  (l.cells te).map EventCell.next

/-- The heap holds the list. -/
structure Implements (l : TimerLoop) (s : TimerList) : Prop where
  /-- The events are chained in their order. -/
  chain : Chain (nextOf l) l.timeEventHead s.order
  /-- They are those of the list. -/
  events : ∀ te,(l.cells te).map EventCell.event=s.event te
  /-- As many were created. -/
  nextCell : l.nextCell=s.nextCell
  /-- The next identifier is the same. -/
  nextId : l.timeEventNextId=s.nextId
  /-- The last look was at the same second. -/
  lastTime : l.lastTime=s.lastTime
  /-- The same was called. -/
  calls : l.calls=s.calls

/-- What holds of the list at every turn. -/
structure Sound (s : TimerList) : Prop where
  /-- Pending events exist. -/
  live : ∀ te∈s.order,(s.event te).isSome
  /-- Events are numbered in the order of creation. -/
  numbered : ∀ te,(s.event te).isSome → te<s.nextCell
  /-- Identifiers have been handed out. -/
  issued : ∀ te t,s.event te=some t → t.id<s.nextId
  /-- They are no marks. -/
  nonneg : 0 ≤ s.nextId
  /-- No two events share one, up to the mark. -/
  distinct : ∀ te te' t t',s.event te=some t → s.event te'=some t' → t.id=t'.id →
    t.id≠aeDeletedEventId → te=te'
  /-- No event is pending twice. -/
  nodup : s.order.Nodup

section Lists

variable {s : TimerList} {te other : EventPtr} {t : TimeEvent} {f : TimeEvent → TimeEvent}

/-- Changing an event moves none. -/
@[simp] theorem update_order (s : TimerList) (te : EventPtr) (f : TimeEvent → TimeEvent) :
    (s.update te f).order=s.order := rfl

/-- Another event stays as it is. -/
theorem update_event_of_ne (h : other≠te) : (s.update te f).event other=s.event other :=
  Function.update_of_ne h _ _

/-- The event itself is changed, if it exists. -/
theorem update_event_self (te : EventPtr) : (s.update te f).event te=(s.event te).map f :=
  Function.update_self _ _ _

/-- Changing an event neither makes nor frees one. -/
theorem update_event_isSome (other : EventPtr) :
    ((s.update te f).event other).isSome=(s.event other).isSome := by
  by_cases h : other=te
  · rw [h,update_event_self,Option.isSome_map]
  · rw [update_event_of_ne h]

/-- A change that keeps the identifier of an event or marks it. -/
def KeepsId (f : TimeEvent → TimeEvent) : Prop :=
  ∀ t,(f t).id=t.id ∨ (f t).id=aeDeletedEventId

/-- A mark replaces the identifier. -/
theorem keepsId_marked : KeepsId marked := fun _ => .inr rfl

/-- A rewound event keeps its identifier. -/
theorem keepsId_rewound : KeepsId rewound := fun _ => .inl rfl

/-- An event behind its procedure keeps its identifier, or is marked. -/
theorem keepsId_settle (v : Visit) : KeepsId (settle v) := by
  intro t
  by_cases h : v.retval≠aeNomore
  · left
    rw [settle,if_pos h]
  · right
    rw [settle,if_neg h]
    rfl

/-- An event of the changed list keeps its identifier, or is marked. -/
theorem id_of_update (hf : KeepsId f) (h : (s.update te f).event other=some t) :
    ∃ t₀,s.event other=some t₀ ∧ (t.id=t₀.id ∨ t.id=aeDeletedEventId) := by
  by_cases he : other=te
  · rw [he,update_event_self] at h
    obtain ⟨t₀,ht₀,rfl⟩ := Option.map_eq_some_iff.mp h
    exact ⟨t₀,he ▸ ht₀,hf t₀⟩
  · rw [update_event_of_ne he] at h
    exact ⟨t,h,.inl rfl⟩

/-- A change that gives no event a new identifier keeps the list sound. -/
theorem Sound.update (h : Sound s) (hf : KeepsId f) (te : EventPtr) : Sound (s.update te f) where
  live := by
    intro other ho
    rw [update_event_isSome]
    exact h.live other ho
  numbered := by
    intro other ho
    rw [update_event_isSome] at ho
    exact h.numbered other ho
  issued := by
    intro other t ht
    obtain ⟨t₀,ht₀,hid⟩ := id_of_update hf ht
    have hlt := h.issued other t₀ ht₀
    have hnonneg := h.nonneg
    change t.id<s.nextId
    rcases hid with hid|hid
    · omega
    · rw [hid,aeDeletedEventId]
      omega
  nonneg := h.nonneg
  distinct := by
    intro a b t t' ht ht' heq hne
    obtain ⟨t₀,ht₀,hid⟩ := id_of_update hf ht
    obtain ⟨t₀',ht₀',hid'⟩ := id_of_update hf ht'
    have hid := hid.resolve_right hne
    have hid' := hid'.resolve_right (heq ▸ hne)
    exact h.distinct a b t₀ t₀' ht₀ ht₀' (by omega) (hid ▸ hne)
  nodup := h.nodup

/-- So does a recorded call. -/
theorem Sound.called (h : Sound s) (call : TimerCall) : Sound (s.called call) :=
  ⟨h.live,h.numbered,h.issued,h.nonneg,h.distinct,h.nodup⟩

/-- The next address has no event. -/
theorem Sound.fresh (h : Sound s) : s.event s.nextCell=none := by
  by_contra hne
  have hlt := h.numbered s.nextCell (Option.isSome_iff_ne_none.mpr hne)
  exact absurd hlt (Nat.lt_irrefl _)

/-- No pending event is at the next address. -/
theorem Sound.fresh_ne (h : Sound s) (hte : te∈s.order) : te≠s.nextCell :=
  Nat.ne_of_lt (h.numbered te (h.live te hte))

/-- With memory a new event comes first. -/
theorem create_of_allocated {r : TimerRequest} (hr : r.allocated=true) : s.create r={s with
    order := s.nextCell::s.order
    event := Function.update s.event s.nextCell (some (r.event s.nextId))
    nextCell := s.nextCell+1
    nextId := s.nextId+1
    calls := s.calls++[.create s.nextCell s.nextId r]} := if_pos hr

/-- Without memory only the identifier is used up. -/
theorem create_of_exhausted {r : TimerRequest} (hr : r.allocated=false) :
    s.create r={s with nextId := s.nextId+1} := if_neg (by simp [hr])

/-- A new event has a new address and a new identifier. -/
theorem Sound.create (h : Sound s) (r : TimerRequest) : Sound (s.create r) := by
  have hnonneg := h.nonneg
  cases hr : r.allocated with
  | false =>
    rw [create_of_exhausted hr]
    have hissued : ∀ te t,s.event te=some t → t.id<s.nextId+1 := by
      intro te t ht
      have hlt := h.issued te t ht
      omega
    exact ⟨h.live,h.numbered,hissued,by simp only; omega,h.distinct,h.nodup⟩
  | true =>
    rw [create_of_allocated hr]
    refine ⟨?_,?_,?_,?_,?_,?_⟩
    · intro te hte
      rcases List.mem_cons.mp hte with rfl|hte
      · simp only [Function.update_self,Option.isSome_some]
      · simp only [Function.update_of_ne (h.fresh_ne hte)]
        exact h.live te hte
    · intro te hte
      by_cases he : te=s.nextCell
      · exact he ▸ Nat.lt_succ_self te
      · simp only [Function.update_of_ne he] at hte
        exact Nat.lt_succ_of_lt (h.numbered te hte)
    · intro te t ht
      by_cases he : te=s.nextCell
      · simp only [he,Function.update_self,Option.some.injEq] at ht
        rw [← ht]
        exact Int.lt_add_one_of_le le_rfl
      · simp only [Function.update_of_ne he] at ht
        have hlt := h.issued te t ht
        simp only; omega
    · simp only; omega
    · intro a b t t' ht ht' heq hne
      have hlt : ∀ te t,s.event te=some t → t.id≠s.nextId := fun te t ht =>
        (h.issued te t ht).ne
      by_cases ha : a=s.nextCell
      · by_cases hb : b=s.nextCell
        · rw [ha,hb]
        · simp only [ha,Function.update_self,Option.some.injEq,Function.update_of_ne hb] at ht ht'
          rw [← ht] at heq
          exact absurd heq.symm (hlt b t' ht')
      · by_cases hb : b=s.nextCell
        · simp only [hb,Function.update_self,Option.some.injEq,Function.update_of_ne ha] at ht ht'
          rw [← ht'] at heq
          exact absurd heq (hlt a t ht)
        · simp only [Function.update_of_ne ha,Function.update_of_ne hb] at ht ht'
          exact h.distinct a b t t' ht ht' heq hne
    · exact List.nodup_cons.mpr ⟨fun hm => h.fresh_ne hm rfl,h.nodup⟩

/-- A mark keeps the list sound. -/
theorem Sound.delete (h : Sound s) (id : ℤ) : Sound (s.delete id) := by
  unfold TimerList.delete
  split
  · exact h.update keepsId_marked _
  · exact h

/-- What a callback does once keeps the list sound. -/
theorem Sound.perform (h : Sound s) (op : TimerOp) : Sound (s.perform op) := by
  cases op with
  | create r => exact h.create r
  | delete id => exact h.delete id

/-- So does all that it does. -/
theorem Sound.performAll (h : Sound s) (ops : List TimerOp) :
    Sound (ops.foldl TimerList.perform s) := by
  induction ops generalizing s with
  | nil => exact h
  | cons op ops ih => exact ih (h.perform op)

/-- An event that is taken out leaves the others as they are. -/
theorem Sound.unlink (h : Sound s) (te : EventPtr) : Sound (s.unlink te) where
  live := fun other ho => h.live other (List.mem_of_mem_erase ho)
  numbered := h.numbered
  issued := h.issued
  nonneg := h.nonneg
  distinct := h.distinct
  nodup := h.nodup.erase te

/-- An event that is not pending can be freed. -/
theorem Sound.release (h : Sound s) (hte : te∉s.order) : Sound (s.release te) where
  live := by
    intro other ho
    have hne : other≠te := ne_of_mem_of_not_mem ho hte
    simp only [TimerList.release,TimerList.called,Function.update_of_ne hne]
    exact h.live other ho
  numbered := by
    intro other ho
    by_cases he : other=te
    · simp [TimerList.release,TimerList.called,he] at ho
    · simp only [TimerList.release,TimerList.called,Function.update_of_ne he] at ho
      exact h.numbered other ho
  issued := by
    intro other t ht
    by_cases he : other=te
    · simp [TimerList.release,TimerList.called,he] at ht
    · simp only [TimerList.release,TimerList.called,Function.update_of_ne he] at ht
      exact h.issued other t ht
  nonneg := h.nonneg
  distinct := by
    intro a b t t' ht ht' heq hne
    by_cases ha : a=te
    · simp [TimerList.release,TimerList.called,ha] at ht
    · by_cases hb : b=te
      · simp [TimerList.release,TimerList.called,hb] at ht'
      · simp only [TimerList.release,TimerList.called,Function.update_of_ne ha,
          Function.update_of_ne hb] at ht ht'
        exact h.distinct a b t t' ht ht' heq hne
  nodup := h.nodup

/-- What a callback may have done to the timers. -/
structure Served (s s' : TimerList) : Prop where
  /-- Identifiers are only used up. -/
  nextId : s.nextId ≤ s'.nextId
  /-- So are addresses. -/
  nextCell : s.nextCell ≤ s'.nextCell
  /-- It has not looked at the time. -/
  lastTime : s'.lastTime=s.lastTime
  /-- New events come first. -/
  order : ∃ new,s'.order=new++s.order ∧ ∀ te∈new,s.nextCell≤te
  /-- Earlier events are as before, or marked. -/
  kept : ∀ te t,s.event te=some t → s'.event te=some t ∨ s'.event te=some (marked t)
  /-- No freed event is back. -/
  freed : ∀ te,te<s.nextCell → s.event te=none → s'.event te=none
  /-- Only creations were recorded. -/
  calls : ∃ calls,s'.calls=s.calls++calls ∧
    ∀ c∈calls,∃ te id r,c=TimerCall.create te id r ∧ s.nextCell≤te ∧ s.nextId ≤ id

/-- Nothing done serves every list. -/
theorem Served.refl (s : TimerList) : Served s s where
  nextId := le_rfl
  nextCell := Nat.le_refl _
  lastTime := rfl
  order := ⟨[],rfl,by simp⟩
  kept := fun _ _ h => .inl h
  freed := fun _ _ h => h
  calls := ⟨[],(List.append_nil _).symm,by simp⟩

/-- What is done in two parts is done in sequence. -/
theorem Served.trans {s s' s'' : TimerList} (h : Served s s') (h' : Served s' s'') :
    Served s s'' where
  nextId := h.nextId.trans h'.nextId
  nextCell := Nat.le_trans h.nextCell h'.nextCell
  lastTime := h'.lastTime.trans h.lastTime
  order := by
    obtain ⟨new,hnew,hle⟩ := h.order
    obtain ⟨new',hnew',hle'⟩ := h'.order
    refine ⟨new'++new,by rw [hnew',hnew,List.append_assoc],fun te hte => ?_⟩
    rcases List.mem_append.mp hte with hm|hm
    · exact Nat.le_trans h.nextCell (hle' te hm)
    · exact hle te hm
  kept := by
    intro te t ht
    rcases h.kept te t ht with hk|hk
    · exact h'.kept te t hk
    · exact .inr (by simpa only [marked,or_self] using h'.kept te (marked t) hk)
  freed := fun te hlt ht => h'.freed te (Nat.lt_of_lt_of_le hlt h.nextCell) (h.freed te hlt ht)
  calls := by
    obtain ⟨calls,hcalls,hnew⟩ := h.calls
    obtain ⟨calls',hcalls',hnew'⟩ := h'.calls
    refine ⟨calls++calls',by rw [hcalls',hcalls,List.append_assoc],fun c hc => ?_⟩
    rcases List.mem_append.mp hc with hm|hm
    · exact hnew c hm
    · obtain ⟨te,id,r,hc,hte,hid⟩ := hnew' c hm
      exact ⟨te,id,r,hc,Nat.le_trans h.nextCell hte,h.nextId.trans hid⟩

/-- A creation puts one event in front. -/
theorem served_create (hs : Sound s) (r : TimerRequest) : Served s (s.create r) := by
  cases hr : r.allocated with
  | false =>
    rw [create_of_exhausted hr]
    exact {Served.refl s with nextId := by simp}
  | true =>
    rw [create_of_allocated hr]
    refine ⟨by simp,Nat.le_succ _,rfl,⟨[s.nextCell],rfl,by simp⟩,fun te t ht => .inl ?_,
      fun te hlt ht => ?_,⟨_,rfl,by simp⟩⟩
    · have hne : te≠s.nextCell := Nat.ne_of_lt (hs.numbered te (by rw [ht]; rfl))
      simp only [Function.update_of_ne hne,ht]
    · simp only [Function.update_of_ne (Nat.ne_of_lt hlt),ht]

/-- A deletion marks one event at most. -/
theorem served_delete (s : TimerList) (id : ℤ) : Served s (s.delete id) := by
  unfold TimerList.delete
  split
  · rename_i te _
    refine {Served.refl s with kept := fun other t ht => ?_, freed := fun other _ ht => ?_}
    · by_cases he : other=te
      · right
        rw [he,update_event_self,← he,ht,Option.map_some]
      · left
        rw [update_event_of_ne he,ht]
    · by_cases he : other=te
      · rw [he,update_event_self,← he,ht,Option.map_none]
      · rw [update_event_of_ne he,ht]
  · exact .refl s

/-- A callback puts events in front and marks others, whatever it does. -/
theorem served_performAll (hs : Sound s) (ops : List TimerOp) :
    Served s (ops.foldl TimerList.perform s) := by
  induction ops generalizing s with
  | nil => exact .refl s
  | cons op ops ih =>
    have hrest := ih (hs.perform op)
    cases op with
    | create r => exact (served_create hs r).trans hrest
    | delete id => exact (served_delete s id).trans hrest

/-- The operation puts a new event into the list. -/
def TimerOp.Adds : TimerOp → Prop
  | .create _ => True
  | .delete _ => False

instance : DecidablePred TimerOp.Adds
  | .create _ => .isTrue trivial
  | .delete _ => .isFalse id

/-- An identifier is used up also when there is no memory. -/
theorem create_nextId (s : TimerList) (r : TimerRequest) : (s.create r).nextId=s.nextId+1 := by
  unfold TimerList.create
  split <;> rfl

/-- A deletion uses no identifier. -/
theorem delete_nextId (s : TimerList) (id : ℤ) : (s.delete id).nextId=s.nextId := by
  unfold TimerList.delete
  split <;> rfl

/-- A callback uses up one identifier for each event it asks for. -/
theorem performAll_nextId (s : TimerList) (ops : List TimerOp) :
    (ops.foldl TimerList.perform s).nextId=s.nextId+ops.countP (·.Adds) := by
  induction ops generalizing s with
  | nil => exact (add_zero _).symm
  | cons op ops ih =>
    rw [List.foldl_cons,ih,List.countP_cons]
    cases op with
    | create r =>
      have hadds : decide (TimerOp.create r).Adds=true := rfl
      rw [TimerList.perform,create_nextId,if_pos hadds]
      push_cast
      ring
    | delete id =>
      have hadds : ¬ decide (TimerOp.delete id).Adds=true := Bool.false_ne_true
      rw [TimerList.perform,delete_nextId,if_neg hadds,Nat.add_zero]

/-- It moves no event. -/
theorem delete_order (s : TimerList) (id : ℤ) : (s.delete id).order=s.order := by
  unfold TimerList.delete
  split <;> rfl

/-- A callback that creates nothing moves no event. -/
theorem performAll_order {ops : List TimerOp} (h : ∀ op∈ops,¬ op.Adds) (s : TimerList) :
    (ops.foldl TimerList.perform s).order=s.order := by
  induction ops generalizing s with
  | nil => rfl
  | cons op ops ih =>
    have hrest := ih (fun op hop => h op (List.mem_cons_of_mem _ hop)) (s.perform op)
    cases op with
    | create r => exact absurd trivial (h _ List.mem_cons_self)
    | delete id => exact hrest.trans (delete_order s id)

end Lists

section Operations

variable {l : TimerLoop} {s : TimerList} {te : EventPtr} {t : TimeEvent} {c : EventCell}

/-- A live event can be read. -/
theorem derefEvent_of_some (h : l.cells te=some c) : derefEvent te l=.ok c l := by
  rw [derefEvent,bind_of_ok (get_apply l)]
  simp only [h,pure_apply]

/-- A live event can be written. -/
theorem modifyCell_of_some (h : l.cells te=some c) (f : EventCell → EventCell) :
    modifyCell te f l=.ok () {l with cells := Function.update l.cells te (some (f c))} := by
  rw [modifyCell,bind_of_ok (derefEvent_of_some h)]
  rfl

/-- An event of the list is live on the heap. -/
theorem Implements.cell (h : Implements l s) (hte : s.event te=some t) :
    ∃ next,l.cells te=some ⟨t,next⟩ := by
  have hcell := (h.events te).trans hte
  obtain ⟨c,hc,rfl⟩ := Option.map_eq_some_iff.mp hcell
  exact ⟨c.next,hc⟩

/-- The link of a live event is the one in its cell. -/
theorem nextOf_of_some (h : l.cells te=some c) : nextOf l te=some c.next := by
  rw [nextOf,h]
  rfl

/-- The cell of a pending event leads to the one behind it. -/
theorem Implements.next (h : Implements l s) {before todo : List EventPtr}
    (hsplit : s.order=before++te::todo) (hc : l.cells te=some c) : c.next=todo.head? := by
  have hnext := (Chain.next_mem (hsplit ▸ h.chain)).1
  rw [nextOf_of_some hc] at hnext
  exact Option.some.inj hnext

/-- A change of a cell that does not link it anew leaves the chain alone. -/
theorem nextOf_update (h : l.cells te=some c) (c' : EventCell) (hn : c'.next=c.next) :
    nextOf {l with cells := Function.update l.cells te (some c')}=nextOf l := by
  funext other
  by_cases he : other=te
  · simp only [nextOf,he,Function.update_self,Option.map_some,h,hn]
  · simp only [nextOf,Function.update_of_ne he]

/-- A field written on the heap is a change of the event in the list. -/
theorem modifyEvent_implements (h : Implements l s) (hte : s.event te=some t)
    (f : TimeEvent → TimeEvent) :
    ∃ l',modifyEvent te f l=.ok () l' ∧ Implements l' (s.update te f) := by
  obtain ⟨next,hc⟩ := h.cell hte
  refine ⟨_,modifyCell_of_some hc _,?_,fun other => ?_,h.nextCell,h.nextId,h.lastTime,h.calls⟩
  · have hnext := nextOf_update hc ⟨f t,next⟩ rfl
    exact h.chain.congr fun te _ => congrFun hnext te
  · by_cases he : other=te
    · simp only [he,Function.update_self,Option.map_some,update_event_self,hte]
    · rw [update_event_of_ne he]
      simp only [Function.update_of_ne he]
      exact h.events other

/-- A call is recorded on both levels. -/
theorem record_implements (h : Implements l s) (call : TimerCall) :
    ∃ l',record call l=.ok () l' ∧ Implements l' (s.called call) := by
  refine ⟨_,modify_apply _ l,h.chain,h.events,h.nextCell,h.nextId,h.lastTime,?_⟩
  rw [TimerList.called,← h.calls]

/-- `aeCreateTimeEvent` on the heap is the creation in the list. -/
theorem create_implements (h : Implements l s) (hs : Sound s) (r : TimerRequest) :
    ∃ id l',aeCreateTimeEvent r l=.ok id l' ∧ Implements l' (s.create r) := by
  cases hr : r.allocated with
  | false =>
    have hcode : aeCreateTimeEvent r l=.ok aeErr {l with timeEventNextId := l.timeEventNextId+1} := by
      simp only [aeCreateTimeEvent,bind_apply,get_apply,modify_apply,hr,Bool.false_eq_true,
        if_false,pure_apply]
    refine ⟨_,_,hcode,?_⟩
    rw [create_of_exhausted hr]
    exact ⟨h.chain,h.events,h.nextCell,by simp only [h.nextId],h.lastTime,h.calls⟩
  | true =>
    have hcode : aeCreateTimeEvent r l=.ok l.timeEventNextId {l with
        cells := Function.update l.cells l.nextCell
          (some ⟨r.event l.timeEventNextId,l.timeEventHead⟩)
        nextCell := l.nextCell+1
        timeEventHead := some l.nextCell
        timeEventNextId := l.timeEventNextId+1
        calls := l.calls++[.create l.nextCell l.timeEventNextId r]} := by
      simp only [aeCreateTimeEvent,bind_apply,get_apply,modify_apply,hr,if_true,pure_apply]
    refine ⟨_,_,hcode,?_⟩
    rw [create_of_allocated hr,← h.nextCell,← h.nextId,← h.calls]
    have hne : ∀ te∈s.order,te≠l.nextCell := fun te hte => h.nextCell ▸ hs.fresh_ne hte
    refine ⟨?_,fun te => ?_,rfl,rfl,h.lastTime,rfl⟩
    · refine Chain.cons (?_ : _=some l.timeEventHead) (h.chain.congr fun te hte => ?_)
      · simp only [nextOf,Function.update_self,Option.map_some]
      · simp only [nextOf,Function.update_of_ne (hne te hte)]
    · by_cases he : te=l.nextCell
      · simp only [he,Function.update_self,Option.map_some]
      · simp only [Function.update_of_ne he]
        exact h.events te

/-- A search of the list finds what the test says of the events. -/
theorem scan_implements (h : Implements l s) (hs : Sound s) (test : TimeEvent → Bool) :
    scan derefEvent EventCell.next (fun c => test c.event) .diverges l.nextCell l.timeEventHead l=
      .ok (s.order.find? fun te => (s.event te).any test) l := by
  let cell : EventPtr → EventCell := fun te => (l.cells te).getD ⟨⟨⟨0,0,0⟩,0,none,0⟩,none⟩
  have hcell : ∀ te∈s.order,l.cells te=some (cell te) := by
    intro te hte
    obtain ⟨t,ht⟩ := Option.isSome_iff_exists.mp (hs.live te hte)
    obtain ⟨next,hc⟩ := h.cell ht
    simp only [cell,hc,Option.getD_some]
  have hchain : Chain (fun te => some (cell te).next) l.timeEventHead s.order :=
    h.chain.congr fun te hte => (nextOf_of_some (hcell te hte)).symm
  have hlength : s.order.length≤l.nextCell :=
    h.chain.length_le fun te hte => h.nextCell ▸ hs.numbered te (hs.live te hte)
  have hscan : scan derefEvent EventCell.next (fun c => test c.event) .diverges l.nextCell
      l.timeEventHead l=.ok (s.order.find? ((fun c : EventCell => test c.event) ∘ cell)) l :=
    scan_chain (fun te hte => derefEvent_of_some (hcell te hte)) hchain hlength
  have htests : s.order.find? ((fun c : EventCell => test c.event) ∘ cell)=
      s.order.find? fun te => (s.event te).any test := by
    refine List.find?_congr fun te hte => ?_
    rw [← h.events te,hcell te hte]
    rfl
  rw [hscan,htests]

/-- The search, by induction on the events that are left, is a fold over the list. -/
theorem searchNearest_implements (h : Implements l s) (hs : Sound s) (todo : List EventPtr)
    {before : List EventPtr} (hsplit : s.order=before++todo) (best : Option (EventPtr×TimeEvent))
    {bound : ℕ} (hb : todo.length≤bound) : searchNearest best bound todo.head? l=
      .ok (todo.foldl (fun best te => ((s.event te).map (te,·)).elim best (keepNearest best)) best)
        l := by
  induction todo generalizing before best bound with
  | nil => cases bound <;> rfl
  | cons te todo ih =>
    cases bound with
    | zero => exact absurd hb (Nat.not_succ_le_zero _)
    | succ bound =>
      have hlive := hs.live te (hsplit ▸ List.mem_append_right _ List.mem_cons_self)
      obtain ⟨t,ht⟩ := Option.isSome_iff_exists.mp hlive
      obtain ⟨next,hc⟩ := h.cell ht
      have hnext : next=todo.head? := h.next hsplit hc
      have hrest := ih (hsplit.trans (List.append_cons before te todo))
        (keepNearest best (te,t)) (Nat.le_of_succ_le_succ hb)
      rw [List.head?_cons,searchNearest,bind_of_ok (derefEvent_of_some hc),List.foldl_cons,ht]
      simp only [hnext]
      exact hrest

/-- `aeSearchNearestTimer` finds the nearest event of the list and changes nothing. -/
theorem nearest_implements (h : Implements l s) (hs : Sound s) :
    aeSearchNearestTimer l=.ok s.nearest l := by
  have hlength : s.order.length≤l.nextCell :=
    h.chain.length_le fun te hte => h.nextCell ▸ hs.numbered te (hs.live te hte)
  have hsplit : s.order=[]++s.order := rfl
  have hsearch := searchNearest_implements h hs s.order hsplit none hlength
  rw [← h.chain.eq_head] at hsearch
  exact hsearch

/-- `aeDeleteTimeEvent` finds an event exactly if the list has it, and marks it. -/
theorem delete_implements (h : Implements l s) (hs : Sound s) (id : ℤ) :
    ∃ l',aeDeleteTimeEvent id l=.ok (s.find id).isSome l' ∧ Implements l' (s.delete id) := by
  have hscan := scan_implements h hs fun t => t.id=id
  cases hfind : s.find id with
  | none =>
    refine ⟨l,?_,?_⟩
    · rw [aeDeleteTimeEvent,bind_of_ok (get_apply l),bind_of_ok hscan]
      change (match s.find id with | some te => _ | none => _ : TimerProg Bool) l=_
      rw [hfind]
      rfl
    · rw [TimerList.delete,hfind]
      exact h
  | some te =>
    have hmem : te∈s.order := List.mem_of_find?_eq_some hfind
    obtain ⟨t,ht⟩ := Option.isSome_iff_exists.mp (hs.live te hmem)
    obtain ⟨l',hl',himpl⟩ := modifyEvent_implements h ht marked
    refine ⟨l',?_,?_⟩
    · rw [aeDeleteTimeEvent,bind_of_ok (get_apply l),bind_of_ok hscan]
      change (match s.find id with | some te => _ | none => _ : TimerProg Bool) l=_
      rw [hfind]
      exact bind_of_ok hl' _
    · rw [TimerList.delete,hfind]
      exact himpl

/-- What a callback does once on the heap, it does to the list. -/
theorem runOp_implements (h : Implements l s) (hs : Sound s) (op : TimerOp) :
    ∃ l',runOp op l=.ok () l' ∧ Implements l' (s.perform op) := by
  cases op with
  | create r =>
    obtain ⟨id,l',hl',himpl⟩ := create_implements h hs r
    exact ⟨l',bind_of_ok hl' _,himpl⟩
  | delete id =>
    obtain ⟨l',hl',himpl⟩ := delete_implements h hs id
    exact ⟨l',bind_of_ok hl' _,himpl⟩

/-- So it does one after another. -/
theorem runOps_implements (h : Implements l s) (hs : Sound s) (ops : List TimerOp) :
    ∃ l',ops.forM runOp l=.ok () l' ∧ Implements l' (ops.foldl TimerList.perform s) := by
  induction ops generalizing l s with
  | nil => exact ⟨l,rfl,h⟩
  | cons op ops ih =>
    obtain ⟨l₁,hl₁,h₁⟩ := runOp_implements h hs op
    obtain ⟨l₂,hl₂,h₂⟩ := ih h₁ (hs.perform op)
    exact ⟨l₂,(bind_of_ok hl₁ _).trans hl₂,h₂⟩

end Operations

/-- The turns that fire. -/
def isFire : TimerCall → Bool
  | .fire _ _ _ _ => true
  | _ => false

section Turns

variable {l : TimerLoop} {s : TimerList} {te : EventPtr} {t : TimeEvent} {c : EventCell}
variable {before todo : List EventPtr} {maxId : ℤ} {env : EventPtr → Visit} {v : Visit}

/-- The event at hand is taken out from between the others. -/
theorem unlink_order (hs : Sound s) (hsplit : s.order=before++te::todo) :
    (s.unlink te).order=before++todo := by
  have hnot : te∉before := by
    have hnodup := hs.nodup
    rw [hsplit] at hnodup
    exact fun hm => List.disjoint_of_nodup_append hnodup hm List.mem_cons_self
  rw [TimerList.unlink,hsplit,List.erase_append_right _ hnot,List.erase_cons_head]

/-- It is pending no more. -/
theorem not_mem_unlink (hs : Sound s) (te : EventPtr) : te∉(s.unlink te).order :=
  hs.nodup.not_mem_erase

/-- The branches with and without `prev` take the event out of the list. -/
theorem relink_implements (h : Implements l s) (hs : Sound s) (hsplit : s.order=before++te::todo)
    (hc : l.cells te=some c) :
    ∃ l',relink before.getLast? c.next l=.ok () l' ∧ Implements l' (s.unlink te) := by
  have hnext := h.next hsplit hc
  have horder := unlink_order hs hsplit
  rcases List.eq_nil_or_concat' before with rfl|⟨front,p,rfl⟩
  · refine ⟨_,modify_apply _ l,?_,h.events,h.nextCell,h.nextId,h.lastTime,h.calls⟩
    have hrest := (Chain.next_mem (hsplit ▸ h.chain)).2
    rw [horder,hnext]
    exact hrest
  · have hp : p∈s.order := by simp [hsplit]
    obtain ⟨tp,htp⟩ := Option.isSome_iff_exists.mp (hs.live p hp)
    obtain ⟨nextp,hcp⟩ := h.cell htp
    have hcode : relink (front++[p]).getLast? c.next l=
        .ok () {l with cells := Function.update l.cells p (some ⟨tp,c.next⟩)} := by
      rw [List.getLast?_concat]
      exact modifyCell_of_some hcp _
    refine ⟨_,hcode,?_,fun other => ?_,h.nextCell,h.nextId,h.lastTime,h.calls⟩
    · have hchain : Chain (nextOf l) l.timeEventHead (front++p::te::todo) := by
        have hchain := h.chain
        rwa [hsplit,List.append_assoc,List.singleton_append] at hchain
      have hlinks : ∀ other,
          nextOf {l with cells := Function.update l.cells p (some ⟨tp,c.next⟩)} other=
            Function.update (nextOf l) p (some todo.head?) other := by
        intro other
        by_cases he : other=p
        · simp only [nextOf,he,Function.update_self,Option.map_some,hnext]
        · simp only [nextOf,Function.update_of_ne he]
      rw [horder,List.append_assoc,List.singleton_append]
      exact hchain.unlink.congr fun other _ => hlinks other
    · by_cases he : other=p
      · simp only [he,Function.update_self,Option.map_some]
        exact htp.symm
      · simp only [Function.update_of_ne he]
        exact h.events other

/-- The finalizer runs on the heap as on the list. -/
theorem finalize_implements (h : Implements l s) (hs : Sound s) (te : EventPtr) (t : TimeEvent)
    (v : Visit) : ∃ l',finalizeEvent te t v l=.ok () l' ∧ Implements l' (s.finalize te t v) := by
  unfold finalizeEvent TimerList.finalize
  cases t.finalizerProc with
  | none => exact ⟨l,rfl,h⟩
  | some finalizerProc =>
    obtain ⟨l₁,hl₁,h₁⟩ := record_implements h (.finalize te finalizerProc t.clientData)
    obtain ⟨l₂,hl₂,h₂⟩ := runOps_implements h₁ (hs.called _) v.finalOps
    exact ⟨l₂,(bind_of_ok hl₁ _).trans hl₂,h₂⟩

/-- A finalizer keeps the list sound. -/
theorem Sound.finalize (hs : Sound s) (te : EventPtr) (t : TimeEvent) (v : Visit) :
    Sound (s.finalize te t v) := by
  unfold TimerList.finalize
  split
  · exact (hs.called _).performAll _
  · exact hs

/-- A finalizer keeps the list when it adds nothing to it, and every event alive. -/
theorem finalize_keeps (hs : Sound s) (hfin : ∀ op∈v.finalOps,¬ op.Adds) (te : EventPtr)
    (t : TimeEvent) : (s.finalize te t v).order=s.order ∧
      ∀ other,(s.event other).isSome → ((s.finalize te t v).event other).isSome := by
  unfold TimerList.finalize
  split
  · refine ⟨performAll_order hfin _,fun other ho => ?_⟩
    obtain ⟨t',ht'⟩ := Option.isSome_iff_exists.mp ho
    rcases (served_performAll (hs.called _) v.finalOps).kept other t' ht' with hk|hk <;>
      rw [hk] <;> rfl
  · exact ⟨rfl,fun _ ho => ho⟩

/-- An event that is not pending is freed on both levels. -/
theorem release_implements (h : Implements l s) (hlive : (s.event te).isSome) (hte : te∉s.order) :
    ∃ l',releaseEvent te l=.ok () l' ∧ Implements l' (s.release te) := by
  obtain ⟨t,ht⟩ := Option.isSome_iff_exists.mp hlive
  obtain ⟨next,hc⟩ := h.cell ht
  have hcode : releaseEvent te l=.ok () {l with
      cells := Function.update l.cells te none
      calls := l.calls++[.free te]} := by
    rw [releaseEvent,bind_of_ok (derefEvent_of_some hc)]
    rfl
  refine ⟨_,hcode,h.chain.congr fun other ho => ?_,fun other => ?_,h.nextCell,h.nextId,h.lastTime,
    by simp only [TimerList.release,TimerList.called,h.calls]⟩
  · simp only [nextOf,Function.update_of_ne (ne_of_mem_of_not_mem ho hte)]
  · by_cases he : other=te
    · simp only [TimerList.release,TimerList.called,he,Function.update_self,Option.map_none]
    · simp only [TimerList.release,TimerList.called,Function.update_of_ne he]
      exact h.events other

/-- The code of a firing event: its procedure is called and its result looked at. -/
theorem fire_implements (h : Implements l s) (hs : Sound s) (ht : s.event te=some t) (v : Visit) :
    ∃ l',(do
        record (.fire te t.id t.timeProc t.clientData)
        v.ops.forM runOp
        modifyEvent te (settle v) : TimerProg Unit) l=.ok () l' ∧
      Implements l' (s.fire te t v) := by
  obtain ⟨l₁,hl₁,h₁⟩ := record_implements h (.fire te t.id t.timeProc t.clientData)
  obtain ⟨l₂,hl₂,h₂⟩ := runOps_implements h₁ (hs.called _) v.ops
  have hkept := (served_performAll (hs.called (.fire te t.id t.timeProc t.clientData)) v.ops).kept
    te t ht
  obtain ⟨t',ht'⟩ : ∃ t',(v.ops.foldl TimerList.perform
      (s.called (.fire te t.id t.timeProc t.clientData))).event te=some t' := by
    rcases hkept with hk|hk
    · exact ⟨_,hk⟩
    · exact ⟨_,hk⟩
  obtain ⟨l₃,hl₃,h₃⟩ := modifyEvent_implements h₂ ht' (settle v)
  refine ⟨l₃,?_,h₃⟩
  rw [bind_of_ok hl₁,bind_of_ok hl₂]
  exact hl₃

/-- The call of a procedure keeps the list sound. -/
theorem Sound.fire (hs : Sound s) (te : EventPtr) (t : TimeEvent) (v : Visit) :
    Sound (s.fire te t v) :=
  ((hs.called _).performAll _).update (keepsId_settle v) te

/-- What a callback does with the timers calls no procedure by itself. -/
theorem fires_served {s s' : TimerList} (h : Served s s') :
    s'.calls.countP isFire=s.calls.countP isFire := by
  obtain ⟨calls,hcalls,hnew⟩ := h.calls
  have hzero : calls.countP isFire=0 := by
    refine List.countP_eq_zero.mpr fun c hc => ?_
    obtain ⟨te,id,r,rfl,-⟩ := hnew c hc
    exact Bool.false_ne_true
  rw [hcalls,List.countP_append,hzero,Nat.add_zero]

/-- A recorded call counts if it is one of a procedure. -/
theorem fires_called (s : TimerList) (call : TimerCall) :
    (s.called call).calls.countP isFire=s.calls.countP isFire+if isFire call then 1 else 0 := by
  rw [TimerList.called,List.countP_append,List.countP_singleton]

/-- A finalizer calls no procedure. -/
theorem fires_finalize (hs : Sound s) (te : EventPtr) (t : TimeEvent) (v : Visit) :
    (s.finalize te t v).calls.countP isFire=s.calls.countP isFire := by
  unfold TimerList.finalize
  split
  · exact (fires_served (served_performAll (hs.called _) _)).trans (fires_called s _)
  · rfl

/-- The turn of an event that is due calls one. -/
theorem fires_fire (hs : Sound s) (te : EventPtr) (t : TimeEvent) (v : Visit) :
    (s.fire te t v).calls.countP isFire=s.calls.countP isFire+1 :=
  (fires_served (served_performAll (hs.called _) _)).trans (fires_called s _)

/-- A marked event is taken out, finalized and freed. -/
theorem turn_marked (ht : s.event te=some t) (hid : t.id=aeDeletedEventId) :
    s.turn maxId env te=((s.unlink te).finalize te t (env te)).release te := by
  simp only [TimerList.turn,ht,hid,if_true]

/-- An event that is due is called. -/
theorem turn_due (ht : s.event te=some t) (hid : t.id≠aeDeletedEventId) (hle : t.id ≤ maxId)
    (hdue : t.Due (env te).clock) : s.turn maxId env te=s.fire te t (env te) := by
  simp only [TimerList.turn,ht,if_neg hid,if_neg (not_lt.mpr hle),if_pos hdue]

/-- Nothing happens to an event that is not due. -/
theorem turn_idle (ht : s.event te=some t) (hid : t.id≠aeDeletedEventId)
    (hdue : ¬ t.Due (env te).clock) : s.turn maxId env te=s := by
  simp only [TimerList.turn,ht,if_neg hid,if_neg hdue,ite_self]

/-- A turn of the pass keeps the list sound, if finalizers create no event. -/
theorem Sound.turn (hs : Sound s) (hfin : ∀ op∈(env te).finalOps,¬ op.Adds) :
    Sound (s.turn maxId env te) := by
  unfold TimerList.turn
  split
  · exact hs
  · split
    · have hnot := not_mem_unlink hs te
      have hkeeps := finalize_keeps (hs.unlink te) hfin te
      exact ((hs.unlink te).finalize te _ _).release fun hm => hnot ((hkeeps _).1 ▸ hm)
    · split
      · exact hs
      · split
        · exact hs.fire te _ _
        · exact hs

/-- One turn of the loop on the heap is one turn of the pass over the list. -/
theorem turn_implements (h : Implements l s) (hs : Sound s) (hsplit : s.order=before++te::todo)
    (hfin : ∀ op∈(env te).finalOps,¬ op.Adds) (ht : s.event te=some t) (hle : t.id ≤ maxId)
    (processed bound : ℕ) : ∃ l' before' processed',
      processTimers maxId env before.getLast? processed (bound+1) (some te) l=
        processTimers maxId env before'.getLast? processed' bound todo.head? l' ∧
      Implements l' (s.turn maxId env te) ∧ (s.turn maxId env te).order=before'++todo ∧
      processed'+s.calls.countP isFire=processed+(s.turn maxId env te).calls.countP isFire := by
  obtain ⟨next,hc⟩ := h.cell ht
  have hnext : next=todo.head? := h.next hsplit hc
  rw [processTimers,bind_of_ok (derefEvent_of_some hc)]
  by_cases hid : t.id=aeDeletedEventId
  · have hnot := not_mem_unlink hs te
    have hsound := hs.unlink te
    obtain ⟨l₁,hl₁,h₁⟩ := relink_implements h hs hsplit hc
    obtain ⟨l₂,hl₂,h₂⟩ := finalize_implements h₁ hsound te t (env te)
    obtain ⟨horder,hlive⟩ := finalize_keeps hsound hfin te t
    obtain ⟨l₃,hl₃,h₃⟩ := release_implements h₂ (hlive te (by simp only [TimerList.unlink,ht]; rfl))
      (horder ▸ hnot)
    rw [turn_marked ht hid]
    refine ⟨l₃,before,processed,?_,h₃,horder.trans (unlink_order hs hsplit),?_⟩
    · rw [if_pos hid,bind_of_ok hl₁,bind_of_ok hl₂,bind_of_ok hl₃,hnext]
    · have hcalls := fires_finalize hsound te t (env te)
      have hfree := fires_called ((s.unlink te).finalize te t (env te)) (.free te)
      rw [if_neg (show ¬ isFire (.free te)=true from Bool.false_ne_true)] at hfree
      rw [TimerList.release]
      change processed+s.calls.countP isFire=processed+_
      exact congrArg (processed+·) (hcalls.symm.trans hfree.symm)
  · rw [if_neg hid,if_neg (not_lt.mpr hle)]
    by_cases hdue : t.Due (env te).clock
    · obtain ⟨l₁,hl₁,h₁⟩ := fire_implements h hs ht (env te)
      rw [turn_due ht hid hle hdue]
      obtain ⟨new,horder,-⟩ := (served_performAll
        (hs.called (.fire te t.id t.timeProc t.clientData)) (env te).ops).order
      have hsplit' : (s.fire te t (env te)).order=(new++before)++te::todo := by
        rw [TimerList.fire,update_order,horder]
        simp only [TimerList.called,hsplit,List.append_assoc]
      obtain ⟨t',ht'⟩ := Option.isSome_iff_exists.mp
        ((hs.fire te t (env te)).live te (by rw [hsplit']; simp))
      obtain ⟨next',hc'⟩ := h₁.cell ht'
      have hnext' : next'=todo.head? := h₁.next hsplit' hc'
      refine ⟨l₁,new++before++[te],processed+1,?_,h₁,by rw [hsplit']; simp,?_⟩
      · rw [if_pos hdue,List.getLast?_concat]
        have hrun := bind_of_ok hl₁ fun _ => derefEvent te >>= fun c =>
          processTimers maxId env (some te) (processed+1) bound c.next
        rw [bind_of_ok (derefEvent_of_some hc'),hnext'] at hrun
        rw [← hrun]
        simp only [bind_assoc]
      · rw [fires_fire hs]
        omega
    · rw [if_neg hdue,turn_idle ht hid hdue]
      refine ⟨l,before++[te],processed,?_,h,by rw [hsplit]; simp,rfl⟩
      rw [List.getLast?_concat,hnext]

/-- A finalizer leaves every event as it is, or marks it. -/
theorem finalize_kept (hs : Sound s) (te : EventPtr) (t : TimeEvent) (v : Visit)
    {other : EventPtr} {t' : TimeEvent} (ht' : s.event other=some t') :
    (s.finalize te t v).event other=some t' ∨
      (s.finalize te t v).event other=some (marked t') := by
  unfold TimerList.finalize
  split
  · exact (served_performAll (hs.called _) v.finalOps).kept other t' ht'
  · exact .inl ht'

/-- The turn of an event leaves every other event as it is, or marks it. -/
theorem turn_kept (hs : Sound s) {other : EventPtr} (hne : other≠te) {t' : TimeEvent}
    (ht' : s.event other=some t') : (s.turn maxId env te).event other=some t' ∨
      (s.turn maxId env te).event other=some (marked t') := by
  unfold TimerList.turn
  split
  · exact .inl ht'
  · rename_i t ht
    split
    · simp only [TimerList.release,TimerList.called,Function.update_of_ne hne]
      exact finalize_kept (hs.unlink te) te t (env te) ht'
    · split
      · exact .inl ht'
      · split
        · rw [TimerList.fire,update_event_of_ne hne]
          exact (served_performAll (hs.called _) (env te).ops).kept other t' ht'
        · exact .inl ht'

/-- The events still to come in a pass were there before it, or are marked. -/
def Known (maxId : ℤ) (s : TimerList) (todo : List EventPtr) : Prop :=
  ∀ te∈todo,∃ t,s.event te=some t ∧ t.id ≤ maxId

/-- A turn marks events that are still to come, and makes none. -/
theorem Known.turn (hk : Known maxId s (te::todo)) (hs : Sound s) (hneg : -1 ≤ maxId)
    (hnot : te∉todo) : Known maxId (s.turn maxId env te) todo := by
  intro other ho
  obtain ⟨t,ht,hle⟩ := hk other (List.mem_cons_of_mem _ ho)
  have hstays : (s.turn maxId env te).event other=some t ∨
      (s.turn maxId env te).event other=some (marked t) :=
    turn_kept hs (ne_of_mem_of_not_mem ho hnot) ht
  rcases hstays with hkept|hkept
  · exact ⟨t,hkept,hle⟩
  · exact ⟨marked t,hkept,hneg⟩

/-- The loop on the heap is the pass over the list. -/
theorem processTimers_implements (hfin : ∀ te,∀ op∈(env te).finalOps,¬ op.Adds)
    (hneg : -1 ≤ maxId) (todo : List EventPtr) {before : List EventPtr} (h : Implements l s)
    (hs : Sound s) (hsplit : s.order=before++todo) (hk : Known maxId s todo)
    (processed : ℕ) {bound : ℕ} (hb : todo.length≤bound) : ∃ processed' l',
      processTimers maxId env before.getLast? processed bound todo.head? l=.ok processed' l' ∧
      Implements l' (todo.foldl (TimerList.turn maxId env) s) ∧
      processed'+s.calls.countP isFire=
        processed+(todo.foldl (TimerList.turn maxId env) s).calls.countP isFire := by
  induction todo generalizing before l s processed bound with
  | nil =>
    refine ⟨processed,l,?_,h,rfl⟩
    cases bound <;> rfl
  | cons te todo ih =>
    obtain ⟨bound,rfl⟩ : ∃ k,bound=k+1 := ⟨bound-1,by simp at hb; omega⟩
    obtain ⟨t,ht,hle⟩ := hk te List.mem_cons_self
    obtain ⟨l₁,before₁,processed₁,hrun,h₁,hsplit₁,hcount₁⟩ :=
      turn_implements h hs hsplit (hfin te) ht hle processed bound
    have hnot : te∉todo := by
      have hnodup := (hsplit ▸ hs.nodup).of_append_right
      exact (List.nodup_cons.mp hnodup).1
    have hs₁ : Sound (s.turn maxId env te) := hs.turn (hfin te)
    have hb₁ : todo.length≤bound := by simpa using hb
    obtain ⟨processed₂,l₂,hrun₂,h₂,hcount₂⟩ := ih h₁ hs₁ hsplit₁ (hk.turn hs hneg hnot)
      processed₁ hb₁
    refine ⟨processed₂,l₂,?_,h₂,?_⟩
    · rw [List.head?_cons,hrun]
      exact hrun₂
    · rw [List.foldl_cons]
      omega

/-- The walk that sets every time to second 0 is the rewinding of the list. -/
theorem rewind_implements (h : Implements l s) (hs : Sound s) :
    ∃ l',visit derefEvent EventCell.next (fun te => modifyEvent te rewound) .diverges l.nextCell
        l.timeEventHead l=.ok () l' ∧ Implements l' s.rewind := by
  have hlength : s.order.length≤l.nextCell :=
    h.chain.length_le fun te hte => h.nextCell ▸ hs.numbered te (hs.live te hte)
  suffices hgen : ∀ (todo before : List EventPtr) (l : TimerLoop) (s : TimerList) (bound : ℕ),
      Implements l s → Sound s → s.order=before++todo → todo.length≤bound → ∃ l',
        visit derefEvent EventCell.next (fun te => modifyEvent te rewound) .diverges bound
          todo.head? l=.ok () l' ∧
        Implements l' (todo.foldl (fun s te => s.update te rewound) s) by
    rw [h.chain.eq_head]
    exact hgen s.order [] l s l.nextCell h hs rfl hlength
  intro todo
  induction todo with
  | nil =>
    intro before l s bound h _ _ _
    exact ⟨l,by cases bound <;> rfl,h⟩
  | cons te todo ih =>
    intro before l s bound h hs hsplit hb
    obtain ⟨bound,rfl⟩ : ∃ k,bound=k+1 := ⟨bound-1,by simp at hb; omega⟩
    obtain ⟨t,ht⟩ := Option.isSome_iff_exists.mp (hs.live te (by simp [hsplit]))
    obtain ⟨l₁,hl₁,h₁⟩ := modifyEvent_implements h ht rewound
    have hs₁ := hs.update keepsId_rewound te
    have ht₁ : (s.update te rewound).event te=some (rewound t) := by
      rw [update_event_self,ht,Option.map_some]
    obtain ⟨next,hc⟩ := h₁.cell ht₁
    have hnext : next=todo.head? := h₁.next hsplit hc
    obtain ⟨l₂,hl₂,h₂⟩ := ih (before++[te]) l₁ _ bound h₁ hs₁ (by simp [hsplit]) (by simpa using hb)
    refine ⟨l₂,?_,h₂⟩
    rw [List.head?_cons,visit,bind_of_ok hl₁,bind_of_ok (derefEvent_of_some hc),hnext]
    exact hl₂

/-- Rewinding changes the events only. -/
theorem rewind_same (s : TimerList) : s.rewind.order=s.order ∧ s.rewind.nextId=s.nextId ∧
    s.rewind.calls=s.calls := by
  suffices hgen : ∀ (order : List EventPtr) (s : TimerList),
      (order.foldl (fun s te => s.update te rewound) s).order=s.order ∧
        (order.foldl (fun s te => s.update te rewound) s).nextId=s.nextId ∧
        (order.foldl (fun s te => s.update te rewound) s).calls=s.calls from
    hgen s.order s
  intro order
  induction order with
  | nil => exact fun s => ⟨rfl,rfl,rfl⟩
  | cons te order ih => exact fun s => ih (s.update te rewound)

/-- Rewinding keeps the list sound. -/
theorem Sound.rewind (hs : Sound s) : Sound s.rewind := by
  unfold TimerList.rewind
  generalize s.order=order
  induction order generalizing s with
  | nil => exact hs
  | cons te order ih => exact ih (hs.update keepsId_rewound te)

/-- The look at the time changes neither the order nor the identifiers nor the calls. -/
theorem begin_same (s : TimerList) (now : ℤ) : (s.begin now).order=s.order ∧
    (s.begin now).nextId=s.nextId ∧ (s.begin now).calls=s.calls := by
  unfold TimerList.begin
  split
  · exact rewind_same s
  · exact ⟨rfl,rfl,rfl⟩

/-- The events as the pass finds them are sound. -/
theorem Sound.begin (hs : Sound s) (now : ℤ) : Sound (s.begin now) := by
  unfold TimerList.begin
  split
  · exact ⟨hs.rewind.live,hs.rewind.numbered,hs.rewind.issued,hs.rewind.nonneg,hs.rewind.distinct,
      hs.rewind.nodup⟩
  · exact ⟨hs.live,hs.numbered,hs.issued,hs.nonneg,hs.distinct,hs.nodup⟩

/-- The look at the time on the heap is that of the list. -/
theorem lookAtTime_implements (h : Implements l s) (hs : Sound s) (now : ℤ) :
    ∃ l',lookAtTime now l=.ok () l' ∧ Implements l' (s.begin now) := by
  by_cases hlt : now<s.lastTime
  · obtain ⟨l₁,hl₁,h₁⟩ := rewind_implements h hs
    refine ⟨{l₁ with lastTime := now},?_,?_⟩
    · rw [lookAtTime,bind_of_ok (get_apply l),if_pos (h.lastTime ▸ hlt),bind_of_ok hl₁]
      rfl
    · rw [TimerList.begin,if_pos hlt]
      exact ⟨h₁.chain,h₁.events,h₁.nextCell,h₁.nextId,rfl,h₁.calls⟩
  · refine ⟨{l with lastTime := now},?_,?_⟩
    · rw [lookAtTime,bind_of_ok (get_apply l),if_neg (h.lastTime ▸ hlt)]
      rfl
    · rw [TimerList.begin,if_neg hlt]
      exact ⟨h.chain,h.events,h.nextCell,h.nextId,rfl,h.calls⟩

/-- A pass keeps the list sound. -/
theorem Sound.process (hs : Sound s) (hfin : ∀ te,∀ op∈(env te).finalOps,¬ op.Adds) (now : ℤ) :
    Sound (s.process now env) := by
  have hbegin := hs.begin now
  unfold TimerList.process
  generalize (s.begin now).order=order
  generalize (s.begin now).nextId-1=maxId
  generalize s.begin now=s' at hbegin
  induction order generalizing s' with
  | nil => exact hbegin
  | cons te order ih => exact ih (s'.turn maxId env te) (hbegin.turn (hfin te))

/-- At the start of a pass every identifier has been handed out. -/
theorem known_begin (hs : Sound s) (now : ℤ) :
    Known ((s.begin now).nextId-1) (s.begin now) (s.begin now).order := by
  intro te hte
  have hbegin := hs.begin now
  obtain ⟨t,ht⟩ := Option.isSome_iff_exists.mp (hbegin.live te hte)
  have hlt := hbegin.issued te t ht
  exact ⟨t,ht,by omega⟩

/-- `processTimeEvents` on the heap is the pass over the list, and counts what it fires. -/
theorem processTimeEvents_implements (h : Implements l s) (hs : Sound s)
    (hfin : ∀ te,∀ op∈(env te).finalOps,¬ op.Adds) (now : ℤ) : ∃ processed l',
      processTimeEvents now env l=.ok processed l' ∧ Implements l' (s.process now env) ∧
      processed+s.calls.countP isFire=(s.process now env).calls.countP isFire := by
  obtain ⟨l₁,hl₁,h₁⟩ := lookAtTime_implements h hs now
  have hs₁ := hs.begin now
  have hnonneg := hs₁.nonneg
  have hlength : (s.begin now).order.length≤l₁.nextCell :=
    h₁.chain.length_le fun te hte => h₁.nextCell ▸ hs₁.numbered te (hs₁.live te hte)
  have hsplit : (s.begin now).order=[]++(s.begin now).order := rfl
  obtain ⟨processed,l₂,hl₂,h₂,hcount⟩ := processTimers_implements hfin (by omega)
    (s.begin now).order h₁ hs₁ hsplit (known_begin hs now) 0 hlength
  refine ⟨processed,l₂,?_,h₂,?_⟩
  · rw [processTimeEvents,bind_of_ok hl₁,bind_of_ok (get_apply l₁),h₁.nextId,h₁.chain.eq_head]
    exact hl₂
  · rw [(begin_same s now).2.2] at hcount
    rw [TimerList.process]
    omega

end Turns

end SerialProxy.TimeEvents
