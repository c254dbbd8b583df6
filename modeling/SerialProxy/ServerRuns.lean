import SerialProxy.ServerMain

/-!
# What the functions of the process do

Each function of server.c and of the timer is described once, with the ways in which it
may stop: messages are the only calls that depend on the log level, and the process ends
in the logger only while no log file is set. A turn of the loop makes exactly one call of
`serverCron`, and is an iteration of the event loop on the serial devices.
-/

namespace SerialProxy.ServerRuns

open FaultPrograms CText SerialState EventTable SerialConfig SerialLinks EventLoop ServerCron
open ServerMain hiding serialInit aeProcessEvents serverLog serverLogErrno serverLoadConfig
  serverCron sigHandler

/-- The call is a message. -/
def IsMessage : ServerCall → Prop
  | .message _ _ _ _ => True
  | _ => False

/-- The fault comes from the logger only if no log file is set. -/
def Logged (server : SproxyServer) (fault : ServerFault) : Prop :=
  fault=.nullLogfile → server.logfile=none

/-- Messages apart, nothing has changed. -/
def AddsMessages (d t : Daemon) : Prop :=
  ∃ messages,(∀ c∈messages,IsMessage c) ∧ t={d with calls := d.calls++messages}

theorem fault_ne_nullLogfile (fault : Fault) : ServerFault.fault fault≠.nullLogfile :=
  fun h => ServerFault.noConfusion h

/-- No fault of the devices, of the timer or by `exit` comes from the logger. -/
theorem logged_fault (server : SproxyServer) (fault : Fault) : Logged server (.fault fault) :=
  fun h => absurd h (fault_ne_nullLogfile fault)

section Messages

variable {β : Type} {f : ServerCall → Option β} {messages : List ServerCall} {d : Daemon}

theorem IsMessage.eq_message {call : ServerCall} (h : IsMessage call) :
    ∃ stream level text errno,call=.message stream level text errno := by
  cases call with
  | message stream level text errno => exact ⟨stream,level,text,errno,rfl⟩
  | _ => exact h.elim

theorem addsMessages_self (d : Daemon) : AddsMessages d d :=
  ⟨[],by simp,by simp⟩

theorem addsMessages_record {call : ServerCall} (h : IsMessage call) :
    AddsMessages d {d with calls := d.calls++[call]} := by
  refine ⟨[call],fun c hc => ?_,rfl⟩
  rw [List.mem_singleton.mp hc]
  exact h

/-- Messages leave nothing in a list of other calls. -/
theorem filterMap_messages (hf : ∀ c,IsMessage c → f c=none) (hm : ∀ c∈messages,IsMessage c) :
    messages.filterMap f=[] :=
  List.filterMap_eq_nil_iff.mpr fun c hc => hf c (hm c hc)

end Messages

section Logger

variable {d : Daemon} {α : Type}

theorem serverLogRaw_ends (level : ℕ) (text : CString) (errno : Option Errno) :
    EndsIn (serverLogRaw level text errno d) (fun _ => AddsMessages d)
      (fun fault t => Logged d.server fault ∧ t=d) := by
  rw [serverLogRaw,bind_of_ok (get_apply d)]
  split_ifs
  · exact addsMessages_self d
  · cases hlog : d.server.logfile with
    | none => exact ⟨fun _ => hlog,rfl⟩
    | some path =>
      cases path with
      | nil => exact addsMessages_record trivial
      | cons c path => exact addsMessages_record trivial

/-- A message is written, or left out below the level, or ends the process. -/
theorem serverLog_ends (level : ℕ) (text : CString) (errno : Option Errno) :
    EndsIn (ServerMain.serverLog level text errno d) (fun _ => AddsMessages d)
      (fun fault t => Logged d.server fault ∧ t=d) := by
  rw [ServerMain.serverLog,bind_of_ok (get_apply d)]
  split_ifs
  · exact addsMessages_self d
  · exact serverLogRaw_ends level text errno

theorem serverLogErrno_ends (level : ℕ) (text : CString) (errno : Errno) :
    EndsIn (ServerMain.serverLogErrno level text errno d) (fun _ => AddsMessages d)
      (fun fault t => Logged d.server fault ∧ t=d) := by
  rw [ServerMain.serverLogErrno,bind_of_ok (get_apply d)]
  split_ifs
  · exact addsMessages_self d
  · exact serverLog_ends level text (some errno)

/-- With a log file no message ends the process. -/
theorem crashesLogger_of_logfile (h : d.server.logfile≠none) (call : Call) :
    crashesLogger d.server call=false := by
  have hsome : d.server.logfile.isNone=false := by
    cases hl : d.server.logfile with
    | none => exact absurd hl h
    | some path => rfl
  have hnull : ∀ level,findsNull d.server level=false := fun level => by
    rw [findsNull,hsome,Bool.and_false]
  cases call <;> first | rfl | exact hnull _

/-- A part of serial.c changes the world only. -/
theorem runSerial_ends (x : Prog α) : EndsIn (runSerial x d)
    (fun a t => ∃ w,x d.world=.ok a w ∧ t={d with world := w})
    (fun fault t => Logged d.server fault ∧ t={d with world := t.world}) := by
  rw [runSerial]
  cases hfind : ((finalState (x d.world)).trace.drop d.world.trace.length).findIdx?
      (crashesLogger d.server) with
  | some i =>
    refine ⟨fun _ => ?_,rfl⟩
    by_contra hlog
    obtain ⟨_,hcrash,-⟩ := List.findIdx?_eq_some_iff_getElem.mp hfind
    rw [crashesLogger_of_logfile hlog] at hcrash
    exact Bool.noConfusion hcrash
  | none =>
    dsimp only
    cases hx : x d.world with
    | ok a w =>
      rw [onPart_of_ok hx]
      exact ⟨w,rfl,rfl⟩
    | error fault w =>
      rw [onPart_of_error hx]
      exact ⟨logged_fault _ fault,rfl⟩

end Logger

section Cron

variable {d : Daemon}

/-- What `_prepareForShutdown` does behind its message. -/
def shutdownCalls (d : Daemon) : List ServerCall :=
  if d.daemonize ∨ d.server.pidfile.isSome then [.unlink d.server.pidfile] else []

/-- This call of `serverCron` runs `serialCron`. -/
def reconnectsNow (server : SproxyServer) : Bool := (cronPeriod server : ℤ) ∣ server.cronloops

/-- The process behind a call of `serverCron` with these messages, where the devices are left in
this state. -/
def cronState (d : Daemon) (messages : List ServerCall) (w : World) : Daemon := {d with
  server := counted d.server
  stop := d.stop || d.server.shutdown
  world := w
  calls := d.calls++(messages++if d.server.shutdown then shutdownCalls d else [])++
    [.cron d.clock (reconnectsNow d.server)]}

/-- What a call of `serverCron` returns and leaves. -/
def CronDone (d : Daemon) (connect : NodePtr → ConnectResults) (delay : ℤ) (t : Daemon) : Prop :=
  ∃ messages w,(∀ c∈messages,IsMessage c) ∧ delay=cronDelay d.server ∧ t=cronState d messages w ∧
    if reconnectsNow d.server then serialCron connect d.world=.ok () w else w=d.world

/-- How a call of `serverCron` stops the process: at its first message, or while the devices are
reconnected. -/
def CronStopped (d : Daemon) (fault : ServerFault) (t : Daemon) : Prop :=
  Logged d.server fault ∧ (t=d ∨ ∃ messages w,(∀ c∈messages,IsMessage c) ∧
    reconnectsNow d.server=true ∧ t={cronState d messages w with server := d.server})

/-- What a call of `serverCron` adds to a list of calls other than messages: at most the path it
removes, and itself. -/
theorem filterMap_cronState {β : Type} {f : ServerCall → Option β} {messages : List ServerCall}
    (hm : messages.filterMap f=[]) (d : Daemon) (w : World) :
    (cronState d messages w).calls.filterMap f=d.calls.filterMap f++
      (if d.server.shutdown then (shutdownCalls d).filterMap f else [])++
        (f (.cron d.clock (reconnectsNow d.server))).toList := by
  have hdown : (if d.server.shutdown then shutdownCalls d else []).filterMap f=
      if d.server.shutdown then (shutdownCalls d).filterMap f else [] := by
    split_ifs <;> rfl
  have hlast : [ServerCall.cron d.clock (reconnectsNow d.server)].filterMap f=
      (f (.cron d.clock (reconnectsNow d.server))).toList := by
    rw [List.filterMap_cons]
    cases f (.cron d.clock (reconnectsNow d.server)) <;> rfl
  rw [cronState,List.filterMap_append,List.filterMap_append,List.filterMap_append,
    hm,hdown,hlast,List.nil_append]

theorem onServer_of_ok {α : Type} {x : TimerProg α} {a : α} {server : SproxyServer}
    (h : x d.server=.ok a server) : onServer x d=.ok a {d with server := server} :=
  onPart_of_ok h

/-- The part of a call of `serverCron` behind the test of `shutdown`. -/
theorem cronRest_ends (h : InRange d.server) {s : Daemon} {messages : List ServerCall}
    (hm : ∀ c∈messages,IsMessage c) (hs : s={d with
      stop := d.stop || d.server.shutdown
      calls := d.calls++(messages++if d.server.shutdown then shutdownCalls d else [])})
    (connect : NodePtr → ConnectResults) : EndsIn ((do
        let reconnects ← onServer (runWithPeriod d.server.reconnectInterval)
        record (.cron d.clock reconnects)
        if reconnects then
          runSerial (serialCron connect)
        modify fun d => {d with server := counted d.server}
        onServer (intDiv 1000 d.server.hz) : ServerProg ℤ) s)
      (CronDone d connect) (CronStopped d) := by
  have hperiod : onServer (runWithPeriod d.server.reconnectInterval) s=
      .ok (reconnectsNow d.server) s := by
    subst hs
    exact onServer_of_ok (runWithPeriod_apply h)
  have hrest : ∀ t : Daemon,t.server=d.server → (do
      modify fun d => {d with server := counted d.server}
      onServer (intDiv 1000 d.server.hz) : ServerProg ℤ) t=
        .ok (cronDelay d.server) {t with server := counted d.server} := by
    rintro t ht
    rw [bind_of_ok (modify_apply _ _),ht]
    exact onServer_of_ok (intDiv_apply (hz_ne_zero h))
  rw [bind_of_ok hperiod,record,bind_of_ok (modify_apply _ _)]
  subst hs
  cases hr : reconnectsNow d.server with
  | false =>
    dsimp only
    rw [if_neg Bool.false_ne_true,hrest]
    · refine ⟨messages,d.world,hm,rfl,?_,by rw [hr]; rfl⟩
      rw [cronState,hr]
    · rfl
  | true =>
    dsimp only
    rw [if_pos rfl]
    refine (runSerial_ends _).seq (fun fault t ht => ?_) fun _ t ht => ?_
    · obtain ⟨hlog,ht⟩ := ht
      refine ⟨hlog,.inr ⟨messages,t.world,hm,hr,?_⟩⟩
      rw [cronState,hr]
      exact ht
    · obtain ⟨w,hw,rfl⟩ := ht
      rw [hrest]
      · refine ⟨messages,w,hm,rfl,?_,by rw [hr]; exact hw⟩
        rw [cronState,hr]
      · rfl

theorem prepareForShutdown_ends : EndsIn (prepareForShutdown d)
    (fun _ t => ∃ messages,(∀ c∈messages,IsMessage c) ∧
      t={d with calls := d.calls++(messages++shutdownCalls d)})
    (fun fault t => Logged d.server fault ∧ t=d) := by
  refine (serverLog_ends _ _ _).bind fun _ t ht => ?_
  obtain ⟨messages,hm,rfl⟩ := ht
  rw [bind_of_ok (get_apply _)]
  dsimp only
  by_cases hpid : d.daemonize=true ∨ d.server.pidfile.isSome=true
  · rw [if_pos hpid]
    refine ⟨messages,hm,?_⟩
    rw [shutdownCalls,if_pos hpid,← List.append_assoc]
  · rw [if_neg hpid]
    refine ⟨messages,hm,?_⟩
    rw [shutdownCalls,if_neg hpid,List.append_nil]

/-- A call of `serverCron`. -/
theorem serverCron_ends (h : InRange d.server) (connect : NodePtr → ConnectResults) :
    EndsIn (ServerMain.serverCron connect d) (CronDone d connect) (CronStopped d) := by
  rw [ServerMain.serverCron,bind_of_ok (get_apply d)]
  cases hs : d.server.shutdown with
  | false =>
    have hnone : ∀ c∈([] : List ServerCall),IsMessage c := by simp
    rw [if_neg Bool.false_ne_true]
    refine cronRest_ends h hnone ?_ connect
    rw [hs,if_neg Bool.false_ne_true,Bool.or_false,List.nil_append,List.append_nil]
  | true =>
    rw [if_pos rfl]
    refine prepareForShutdown_ends.seq (fun fault t ht => ?_) fun _ t ht => ?_
    · exact ⟨ht.1,.inl ht.2⟩
    · obtain ⟨messages,hm,rfl⟩ := ht
      rw [aeStop,bind_of_ok (modify_apply _ _)]
      refine cronRest_ends h hm ?_ connect
      rw [hs,if_pos rfl,Bool.or_true]

end Cron

section Timers

/-- Milliseconds on the clock when the event is due. -/
def dueAt (te : AeTimeEvent) : ℤ := te.whenSec*1000+te.whenMs

/-- The only timer is that of `serverCron`, due within a second, and the clock has not been set
back. -/
structure Timed (d : Daemon) : Prop where
  /-- The settings are in their ranges. -/
  inRange : InRange d.server
  /-- The only timer. -/
  timer : ∃ te,d.timeEvents=[te] ∧ te.id=d.cronEventId ∧ dueAt te≤d.clock+1000 ∧
    0≤te.whenMs ∧ te.whenMs<1000
  /-- It is not deleted. -/
  kept : 0≤d.cronEventId
  /-- It was created. -/
  created : d.cronEventId<d.timeEventNextId
  /-- The last look at the timers was no later. -/
  lastTime : d.lastTime≤(d.clock/1000 : ℕ)

variable {d : Daemon} {te : AeTimeEvent} {clock : ℕ}

/-- The two parts of a time put together are the time. -/
theorem aeAddMillisecondsToNow_spec (clock : ℕ) {milliseconds : ℤ} (h : 0≤ milliseconds) :
    (aeAddMillisecondsToNow clock milliseconds).1*1000+
        (aeAddMillisecondsToNow clock milliseconds).2=clock+milliseconds ∧
      0≤(aeAddMillisecondsToNow clock milliseconds).2 ∧
      (aeAddMillisecondsToNow clock milliseconds).2<1000 := by
  have hdiv : milliseconds.tdiv 1000=milliseconds/1000 := Int.tdiv_eq_ediv_of_nonneg h
  have hmod : milliseconds.tmod 1000=milliseconds%1000 := Int.tmod_eq_emod_of_nonneg h
  simp only [aeAddMillisecondsToNow,aeGetTime,hdiv,hmod]
  split <;> dsimp only <;> omega

/-- The seconds and the milliseconds of a time compare like the time. -/
theorem due_iff (h : 0≤te.whenMs) (hlt : te.whenMs<1000) : te.Due clock ↔ dueAt te≤clock := by
  simp only [AeTimeEvent.Due,aeGetTime,dueAt]
  omega

/-- No time is left to wait for a single timer that is due. -/
theorem pollTimeout_due (hd : d.timeEvents=[te]) (h : dueAt te≤d.clock) :
    pollTimeout d.clock (aeSearchNearestTimer d.timeEvents)=0 := by
  have hle : ¬ (te.whenSec-(aeGetTime d.clock).1)*1000+te.whenMs-(aeGetTime d.clock).2>0 := by
    rw [dueAt] at h
    dsimp only [aeGetTime]
    omega
  have hnearest : aeSearchNearestTimer d.timeEvents=some te := by
    rw [hd]
    rfl
  rw [hnearest,pollTimeout]
  dsimp only
  rw [if_neg hle]
  rfl

/-- The timer behind a call that returned this delay. -/
def rescheduled (te : AeTimeEvent) (clock : ℕ) (delay : ℤ) : AeTimeEvent :=
  {te with
    whenSec := (aeAddMillisecondsToNow clock delay).1
    whenMs := (aeAddMillisecondsToNow clock delay).2}

/-- The loop over a single timer that is due. -/
theorem processTimers_ends (h : InRange d.server) {maxId : ℤ} (hkept : te.id≠aeDeletedEventId)
    (hcreated : te.id≤ maxId) (hdue : te.Due d.clock) (connect : NodePtr → ConnectResults) :
    EndsIn (processTimers maxId connect [te] d)
      (fun events t => CronDone d connect (cronDelay d.server) t ∧
        events=[rescheduled te d.clock (cronDelay d.server)])
      (CronStopped d) := by
  have hdelay : cronDelay d.server≠aeNomore := by
    have hpos := (cronDelay_bounds h).1
    rw [aeNomore]
    omega
  rw [processTimers,if_neg hkept,if_neg (not_lt.mpr hcreated),bind_of_ok (get_apply d)]
  dsimp only
  rw [if_pos hdue]
  refine (serverCron_ends h connect).bind fun delay t ht => ?_
  obtain ⟨messages,w,hm,rfl,rfl,hw⟩ := ht
  rw [bind_of_ok (get_apply _),if_pos hdelay]
  exact ⟨⟨messages,w,hm,rfl,rfl,hw⟩,rfl⟩

/-- The process behind `processTimeEvents`, when its timer was due. -/
def timersState (d : Daemon) (messages : List ServerCall) (w : World) : Daemon :=
  {cronState d messages w with
    lastTime := (d.clock/1000 : ℕ)
    timeEvents := d.timeEvents.map fun te => rescheduled te d.clock (cronDelay d.server)}

/-- How it stops the process then: with no call made, or with one that reconnects. -/
def TimersStopped (d : Daemon) (fault : ServerFault) (t : Daemon) : Prop :=
  Logged d.server fault ∧ (t.calls=d.calls ∧ t.stop=d.stop ∨
    ∃ messages w,(∀ c∈messages,IsMessage c) ∧ reconnectsNow d.server=true ∧
      t.calls=(cronState d messages w).calls ∧ t.stop=(cronState d messages w).stop)

/-- A look at the timers when that of `serverCron` is due. -/
theorem processTimeEvents_ends (h : Timed d) (hdue : ∀ te∈d.timeEvents,dueAt te≤d.clock)
    (connect : NodePtr → ConnectResults) : EndsIn (processTimeEvents connect d)
      (fun _ t => ∃ messages w,(∀ c∈messages,IsMessage c) ∧ t=timersState d messages w ∧
        if reconnectsNow d.server then serialCron connect d.world=.ok () w else w=d.world)
      (TimersStopped d) := by
  obtain ⟨te,hte,hid,-,hms,hlt⟩ := h.timer
  have hdueNow : te.Due d.clock := (due_iff hms hlt).mpr (hdue te (by rw [hte]; simp))
  have hlast : ¬ (aeGetTime d.clock).1<d.lastTime := not_lt.mpr h.lastTime
  have hkept := h.kept
  have hcreated := h.created
  rw [processTimeEvents,bind_of_ok (get_apply d)]
  dsimp only
  rw [if_neg hlast,bind_of_ok (modify_apply _ _),bind_of_ok (get_apply _)]
  dsimp only
  rw [hte]
  refine (processTimers_ends (by exact h.inRange) (by rw [hid,aeDeletedEventId]; omega)
    (by rw [hid]; omega) (by exact hdueNow) connect).seq (fun fault t ht => ?_)
    fun events t ht => ?_
  · obtain ⟨hlog,rfl|⟨messages,w,hm,hr,rfl⟩⟩ := ht
    · exact ⟨hlog,.inl ⟨rfl,rfl⟩⟩
    · exact ⟨hlog,.inr ⟨messages,w,hm,hr,rfl,rfl⟩⟩
  · obtain ⟨⟨messages,w,hm,-,rfl,hw⟩,rfl⟩ := ht
    refine ⟨messages,w,hm,?_,hw⟩
    rw [timersState,hte]
    rfl

end Timers

section Turns

variable {d : Daemon} {turn : Turn}

/-- The process behind these signals. -/
def signalled (d : Daemon) (signals : List Signal) : Daemon :=
  {d with server := {d.server with shutdown := d.server.shutdown || !signals.isEmpty}}

theorem sigHandler_ends (sig : Signal) : EndsIn (ServerMain.sigHandler sig d)
    (fun _ t => t=signalled d [sig])
    (fun fault t => fault=.fault (.exit 1) ∧ t.calls=d.calls ∧ t.stop=d.stop) := by
  rw [ServerMain.sigHandler,bind_of_ok (get_apply d)]
  by_cases hexit : d.server.shutdown=true ∧ sig=.sigint
  · dsimp only
    rw [if_pos hexit]
    exact ⟨rfl,rfl,rfl⟩
  · dsimp only
    rw [if_neg hexit]
    exact show _=signalled d [sig] by
      rw [signalled,List.isEmpty_cons,Bool.not_false,Bool.or_true]

/-- Signals ask for the shutdown, or end the process. -/
theorem signals_end (signals : List Signal) : EndsIn (signals.forM ServerMain.sigHandler d)
    (fun _ t => t=signalled d signals)
    (fun fault t => fault=.fault (.exit 1) ∧ t.calls=d.calls ∧ t.stop=d.stop) := by
  induction signals generalizing d with
  | nil =>
    exact show d=signalled d [] by
      rw [signalled,List.isEmpty_nil,Bool.not_true,Bool.or_false]
  | cons sig rest ih =>
    refine EndsIn.bind (sigHandler_ends sig) fun _ t ht => ?_
    subst ht
    refine ih.mono_ok fun _ t ht => ?_
    rw [ht,signalled,signalled,signalled,List.isEmpty_cons,List.isEmpty_cons,Bool.not_false,
      Bool.or_true,Bool.true_or]

/-- The process at the timers of a turn, where the devices are in this state. -/
def awake (d : Daemon) (turn : Turn) (w : World) : Daemon :=
  {signalled d turn.signals with clock := d.clock+1000, world := w}

theorem Timed.withWorld (h : Timed d) (w : World) : Timed {d with world := w} :=
  ⟨h.inRange,h.timer,h.kept,h.created,h.lastTime⟩

theorem Timed.awake (h : Timed d) (turn : Turn) (w : World) : Timed (awake d turn w) where
  inRange := ⟨h.inRange.hz,h.inRange.reconnectInterval⟩
  timer := by
    obtain ⟨te,hte,hid,hdue,hms⟩ := h.timer
    refine ⟨te,hte,hid,?_,hms⟩
    change dueAt te≤(d.clock+1000 : ℕ)+1000
    omega
  kept := h.kept
  created := h.created
  lastTime := by
    have hlast := h.lastTime
    change d.lastTime≤((d.clock+1000)/1000 : ℕ)
    omega

/-- The iteration of the event loop that a turn makes. -/
def iteration (d : Daemon) (turn : Turn) : Iteration :=
  ⟨turn.poll,if reconnectsNow d.server then some turn.connect else none⟩

/-- The passes over the fired events and a call of `serverCron` are one iteration. -/
theorem aeProcessEvents_of_parts {w w₁ w₂ : World}
    (hfile : processFileEvents turn.poll w=.ok () w₁)
    (hcron : if reconnectsNow d.server then serialCron turn.connect w₁=.ok () w₂ else w₂=w₁) :
    EventLoop.aeProcessEvents (iteration d turn) w=.ok () w₂ := by
  rw [processFileEvents] at hfile
  obtain ⟨fired,s,hpoll,hfile⟩ := bind_ok_iff.mp hfile
  obtain ⟨fired',s',hread,hfile⟩ := bind_ok_iff.mp hfile
  obtain ⟨fired'',s'',hwrite,hlast⟩ := bind_ok_iff.mp hfile
  cases hlast
  rw [EventLoop.aeProcessEvents,iteration,bind_of_ok hpoll,bind_of_ok hread,bind_of_ok hwrite]
  cases hr : reconnectsNow d.server with
  | false =>
    rw [hr,if_neg Bool.false_ne_true] at hcron
    rw [hcron]
    rfl
  | true =>
    rw [hr,if_pos rfl] at hcron
    exact hcron

/-- A timeout of nothing is no wait. -/
theorem pollWait_zero (turn : Turn) : pollWait 0 turn=0 := by
  rw [pollWait,if_neg (lt_irrefl 0)]
  split
  · rfl
  · exact Nat.min_zero _

/-- The sleep takes a second, and empties the receive buffers. -/
theorem serverBeforeSleep_ends (d : Daemon) : EndsIn (serverBeforeSleep d)
    (fun _ t => ∃ w,serialBeforeSleep d.world=.ok () w ∧
      t={d with clock := d.clock+1000, world := w})
    (fun fault t => Logged d.server fault ∧ t.calls=d.calls ∧ t.stop=d.stop) := by
  refine (runSerial_ends serialBeforeSleep).seq (fun fault t ht => ?_) fun _ t ht => ?_
  · rw [ht.2]
    exact ⟨ht.1,rfl,rfl⟩
  · obtain ⟨w,hw,rfl⟩ := ht
    exact ⟨w,hw,rfl⟩

/-- When the timer is due, the poll does not wait, and the look at the timers calls
`serverCron`. -/
theorem aeProcessEvents_ends (h : Timed d) (hdue : ∀ te∈d.timeEvents,dueAt te≤d.clock)
    (turn : Turn) : EndsIn (ServerMain.aeProcessEvents turn d)
      (fun _ t => ∃ messages w w',(∀ c∈messages,IsMessage c) ∧
        t=timersState {d with world := w} messages w' ∧
        EventLoop.aeProcessEvents (iteration d turn) d.world=.ok () w')
      (TimersStopped d) := by
  obtain ⟨te,hte,-⟩ := h.timer
  have hwait : pollWait (pollTimeout d.clock (aeSearchNearestTimer d.timeEvents)) turn=0 := by
    rw [pollTimeout_due hte (hdue te (by rw [hte]; exact List.mem_singleton_self te))]
    exact pollWait_zero turn
  rw [ServerMain.aeProcessEvents,bind_of_ok (modify_apply _ _),hwait]
  refine (runSerial_ends (processFileEvents turn.poll)).seq (fun fault t ht => ?_) fun _ t ht => ?_
  · rw [ht.2]
    exact ⟨ht.1,.inl ⟨rfl,rfl⟩⟩
  obtain ⟨w,hfile,rfl⟩ := ht
  refine (processTimeEvents_ends (h.withWorld w) hdue turn.connect).mono_ok ?_
  rintro _ t ⟨messages,w',hm,rfl,hcron⟩
  exact ⟨messages,w,w',hm,rfl,aeProcessEvents_of_parts hfile hcron⟩

/-- What a turn leaves when it returns. -/
def TurnDone (d : Daemon) (turn : Turn) (t : Daemon) : Prop :=
  ∃ messages w w',(∀ c∈messages,IsMessage c) ∧ t=timersState (awake d turn w) messages w' ∧
    aeMainStep (iteration d turn) d.world=.ok () w'

/-- What it leaves when it stops the process: at most a call of `serverCron` that reconnects. -/
def TurnStopped (d : Daemon) (turn : Turn) (fault : ServerFault) (t : Daemon) : Prop :=
  Logged d.server fault ∧ (t.calls=d.calls ∧ t.stop=d.stop ∨
    ∃ messages w,(∀ c∈messages,IsMessage c) ∧ reconnectsNow d.server=true ∧
      t.calls=(cronState (awake d turn w) messages w).calls ∧
      t.stop=(cronState (awake d turn w) messages w).stop)

/-- Every turn is a call of `serverCron` a second after the last one. -/
theorem aeMainTurn_ends (h : Timed d) (turn : Turn) :
    EndsIn (aeMainTurn turn d) (fun _ => TurnDone d turn) (TurnStopped d turn) := by
  rw [aeMainTurn]
  refine (signals_end turn.signals).seq (fun fault t ht => ?_) fun _ t ht => ?_
  · obtain ⟨rfl,hkeep⟩ := ht
    exact ⟨logged_fault _ _,.inl hkeep⟩
  subst ht
  refine (serverBeforeSleep_ends (signalled d turn.signals)).seq (fun fault t ht => ?_)
    fun _ t ht => ?_
  · exact ⟨ht.1,.inl ht.2⟩
  obtain ⟨w,hslept,rfl⟩ := ht
  have hsleep : serialBeforeSleep d.world=.ok () w := hslept
  -- the timer was due within a second, which the sleep has taken
  have hdue : ∀ te∈(awake d turn w).timeEvents,dueAt te≤(awake d turn w).clock := by
    obtain ⟨te,hte,-,hle,-⟩ := h.timer
    intro te' hte'
    rw [show (awake d turn w).timeEvents=[te] from hte,List.mem_singleton] at hte'
    subst hte'
    change dueAt te'≤(d.clock+1000 : ℕ)
    omega
  refine (aeProcessEvents_ends (h.awake turn w) hdue turn).mono ?_ ?_
  · rintro _ t ⟨messages,w₁,w₂,hm,rfl,hevents⟩
    refine ⟨messages,w₁,w₂,hm,rfl,?_⟩
    rw [aeMainStep,bind_of_ok hsleep]
    exact hevents
  · rintro fault t ⟨hlog,hkeep|⟨messages,w₂,hm,hr,hcalls,hstop⟩⟩
    · exact ⟨hlog,.inl hkeep⟩
    · exact ⟨hlog,.inr ⟨messages,w,hm,hr,hcalls,hstop⟩⟩

/-- The timer stays the only one, and is due again within a second. -/
theorem TurnDone.timed (h : Timed d) {t : Daemon} (ht : TurnDone d turn t) : Timed t := by
  obtain ⟨messages,w,w',-,rfl,-⟩ := ht
  obtain ⟨te,hte,hid,hdue,hms,hlt⟩ := h.timer
  obtain ⟨hpos,hle⟩ := cronDelay_bounds h.inRange
  dsimp only [configMinReconnectIntervalMs] at hle
  obtain ⟨hsum,hms',hlt'⟩ := aeAddMillisecondsToNow_spec (d.clock+1000) hpos.le
  refine ⟨⟨h.inRange.hz,h.inRange.reconnectInterval⟩,⟨rescheduled te (d.clock+1000)
    (cronDelay d.server),?_,hid,?_,hms',hlt'⟩,h.kept,h.created,le_refl _⟩
  · change d.timeEvents.map _=_
    rw [hte]
    rfl
  · change (aeAddMillisecondsToNow (d.clock+1000) (cronDelay d.server)).1*1000+
      (aeAddMillisecondsToNow (d.clock+1000) (cronDelay d.server)).2≤(d.clock+1000 : ℕ)+1000
    omega

end Turns

end SerialProxy.ServerRuns
