import SerialProxy.Iterations
import SerialProxy.ServerRuns

/-!
# The start of the process

The option loop and the system configuration decide how the process goes on: with which
settings, as a daemon or not, and whether it has written a pid file before the serial
devices are connected. Behind the start only the timer of `serverCron` is set.
-/

namespace SerialProxy.ServerStart

open FaultPrograms CText SerialState SerialConfig SerialLinks EventLoop ServerCron ServerRuns
open Iterations
open ServerMain hiding serialInit aeProcessEvents serverLog serverLogErrno serverLoadConfig
  serverCron sigHandler

/-- The process goes on behind this option. -/
def isSetting : Opt → Bool
  | .c _ => true
  | .d => true
  | _ => false

/-- The option names a configuration file. -/
def namesConfig : Opt → Bool
  | .c _ => true
  | _ => false

/-- The command line asks for a daemon. -/
def daemonizes (argv : List CString) : Bool := (getopt argv).contains .d

/-- The entries that are loaded when the process goes on behind its configuration. -/
def loadedEntries (argv : List CString) (system : Option (List ConfigEntry)) :
    Option (List ConfigEntry) :=
  if (getopt argv).all isSetting then
    if (getopt argv).any namesConfig then system else some []
  else none

/-- The settings behind these entries. -/
def settings (entries : List ConfigEntry) : SproxyServer :=
  ServerCron.serverLoadConfig entries serverInitConfig

/-- The last value the entries give to a key. -/
def lastValue (s n : String) (entries : List ConfigEntry) : Option CString :=
  ((entries.filter fun e => matchKey e s n).getLast?).map ConfigEntry.value

section Settings

variable {server : SproxyServer} {entries : List ConfigEntry} {e : ConfigEntry}

/-- An entry has one key at most, up to the case of its letters. -/
theorem matchKey_unique {s n s' n' : String} (h : matchKey e s n=true)
    (h' : matchKey e s' n'=true) : n.toList.map Char.toLower=n'.toList.map Char.toLower := by
  rw [matchKey,Bool.and_eq_true] at h h'
  have hn := of_decide_eq_true h.2
  have hn' := of_decide_eq_true h'.2
  rw [← hn,hn']

/-- A field that only one key sets has the last value of this key, if there is one. -/
theorem serverLoadConfig_field {field : SproxyServer → Option CString} {s n : String}
    (hstep : ∀ server e,field (serverConfigHandler server e).2=
      if matchKey e s n then some e.value else field server) :
    field (ServerCron.serverLoadConfig entries server)=
      (lastValue s n entries).or (field server) := by
  induction entries generalizing server with
  | nil => rfl
  | cons e rest ih =>
    change field (ServerCron.serverLoadConfig rest (serverConfigHandler server e).2)=_
    rw [ih,hstep,lastValue,lastValue]
    by_cases he : matchKey e s n=true
    · rw [if_pos he,List.filter_cons_of_pos (p:=fun e => matchKey e s n) he,List.getLast?_cons]
      cases (rest.filter fun e => matchKey e s n).getLast? with
      | none => rfl
      | some last => rfl
    · rw [if_neg he,List.filter_cons_of_neg (p:=fun e => matchKey e s n) he]

theorem serverConfigHandler_logfile (server : SproxyServer) (e : ConfigEntry) :
    (serverConfigHandler server e).2.logfile=
      if matchKey e "logging" "logfile" then some e.value else server.logfile := by
  unfold serverConfigHandler
  split_ifs <;> rfl

theorem serverConfigHandler_pidfile (server : SproxyServer) (e : ConfigEntry) :
    (serverConfigHandler server e).2.pidfile=
      if matchKey e "system" "pidfile" then some e.value else server.pidfile := by
  by_cases hpid : matchKey e "system" "pidfile"=true
  · have hother : ∀ s n,n.toList.map Char.toLower≠"pidfile".toList.map Char.toLower →
        ¬ matchKey e s n=true := fun s n hn h => hn (matchKey_unique h hpid)
    rw [if_pos hpid,serverConfigHandler,if_neg (hother _ _ (by decide)),
      if_neg (hother _ _ (by decide)),if_neg (hother _ _ (by decide)),
      if_neg (hother _ _ (by decide)),if_neg (hother _ _ (by decide)),if_pos hpid]
  · rw [if_neg hpid]
    unfold serverConfigHandler
    rw [if_neg hpid]
    split_ifs <;> rfl

/-- A serial configuration file is always set. -/
theorem settings_serialConfigfile (entries : List ConfigEntry) :
    (settings entries).serialConfigfile.isSome=true := by
  refine serverLoadConfig_invariant (I:=fun server => server.serialConfigfile.isSome=true)
    (fun server e h => ?_) entries rfl
  exact serverConfigHandler_rule (P:=fun server => server.serialConfigfile.isSome=true) e
    h h h h h h rfl h

theorem getLogLevel_le (name : CString) : getLogLevel name≤llError := by
  unfold getLogLevel
  split_ifs <;> decide

/-- No level is above that of an error. -/
theorem settings_verbosity (entries : List ConfigEntry) :
    (settings entries).verbosity≤llError := by
  refine serverLoadConfig_invariant (I:=fun server => server.verbosity≤llError)
    (fun server e h => ?_) entries (le_refl _)
  exact serverConfigHandler_rule (P:=fun server => server.verbosity≤llError) e
    h h (getLogLevel_le e.value) h h h h h

end Settings

section Options

variable {d : Daemon} {env : Environment}

/-- The option loop keeps the last file and remembers whether it has seen `-d`. -/
theorem readOptions_end (opts : List Opt) : EndsIn (opts.forM readOption d)
    (fun _ t => opts.all isSetting=true ∧ ∃ file,
      t={d with configfile := file, daemonize := d.daemonize || opts.contains .d} ∧
      file.isSome=(d.configfile.isSome || opts.any namesConfig))
    (fun fault t => fault≠.nullLogfile ∧ t.stop=d.stop ∧ opts.all isSetting=false) := by
  induction opts generalizing d with
  | nil => exact ⟨rfl,d.configfile,by simp,by simp⟩
  | cons opt rest ih =>
    cases opt with
    | c optarg =>
      refine (ih (d:={d with configfile := some optarg})).mono ?_ ?_
      · rintro _ t ⟨hall,file,rfl,hfile⟩
        refine ⟨hall,file,?_,?_⟩
        · rw [List.contains_cons]
          rfl
        · rw [hfile]
          simp [namesConfig]
      · rintro fault t ⟨hnull,hstop,hall⟩
        exact ⟨hnull,hstop,hall⟩
    | d =>
      refine (ih (d:={d with daemonize := true})).mono ?_ ?_
      · rintro _ t ⟨hall,file,rfl,hfile⟩
        exact ⟨hall,file,by simp,by rw [hfile]; simp [namesConfig]⟩
      · rintro fault t ⟨hnull,hstop,hall⟩
        exact ⟨hnull,hstop,hall⟩
    | v => exact ⟨fault_ne_nullLogfile _,rfl,rfl⟩
    | h => exact ⟨fault_ne_nullLogfile _,rfl,rfl⟩
    | unknown => exact ⟨fault_ne_nullLogfile _,rfl,rfl⟩

/-- Command line and configuration, as a program. -/
theorem configured_ends (argv : List CString) (system : Option (List ConfigEntry)) (clock : ℕ)
    (w : World) :
    EndsIn (((getopt argv).forM readOption >>= fun _ => ServerMain.serverLoadConfig system)
        {Daemon.boot clock with world := w})
      (fun _ t => ∃ entries file,loadedEntries argv system=some entries ∧
        t={Daemon.boot clock with
          server := settings entries
          configfile := file
          daemonize := daemonizes argv
          world := w})
      (fun fault t => fault≠.nullLogfile ∧ t.stop=false ∧ loadedEntries argv system=none) := by
  refine (readOptions_end (getopt argv)).seq ?_ ?_
  · rintro fault t ⟨hnull,hstop,hall⟩
    exact ⟨hnull,hstop,by rw [loadedEntries,hall,if_neg Bool.false_ne_true]⟩
  · rintro _ t ⟨hall,file,rfl,hfile⟩
    have hfile' : file.isSome=(getopt argv).any namesConfig := by
      rw [hfile]
      exact Bool.false_or _
    rw [ServerMain.serverLoadConfig,bind_of_ok (get_apply _),loadedEntries,if_pos hall,← hfile']
    cases file with
    | none => exact ⟨[],none,rfl,by rw [daemonizes]; rfl⟩
    | some filename =>
      cases system with
      | none => exact ⟨fault_ne_nullLogfile _,rfl,rfl⟩
      | some entries => exact ⟨entries,some filename,rfl,by rw [daemonizes]; rfl⟩

end Options

section Background

variable {d : Daemon}

/-- The pid file that is left by the branch for a daemon. -/
def backgroundPidfile (d : Daemon) : Option CString :=
  if d.daemonize && d.server.pidfile.isSome then some configDefaultPidFile else d.server.pidfile

/-- The calls of the branch for a daemon. -/
def backgroundCalls (d : Daemon) (env : Environment) : List ServerCall :=
  if d.daemonize then
    [.fork,.setsid]++if d.server.pidfile.isSome && env.pidFileOpens then
      [.writePid configDefaultPidFile] else []
  else []

theorem daemonize_child : daemonize 0 d=.ok () {d with calls := d.calls++[.fork,.setsid]} := by
  have hcalls : d.calls++[.fork,.setsid]=d.calls++[.fork]++[.setsid] := by
    rw [List.append_assoc]
    rfl
  rw [daemonize,record,bind_of_ok (modify_apply _ _),if_neg (by simp),hcalls]
  rfl

theorem daemonize_parent {pid : ℤ} (h : pid≠0) :
    daemonize pid d=.error (.fault (.exit 0)) {d with calls := d.calls++[.fork]} := by
  rw [daemonize,record,bind_of_ok (modify_apply _ _),if_pos h]
  rfl

theorem createPidFile_apply (h : d.server.pidfile.isSome=true) (opens : Bool) :
    createPidFile opens d=.ok () {d with
      server := {d.server with pidfile := some configDefaultPidFile}
      calls := d.calls++if opens then [.writePid configDefaultPidFile] else []} := by
  rw [createPidFile,bind_of_ok (get_apply d)]
  dsimp only
  rw [if_pos h,bind_of_ok (modify_apply _ _),bind_of_ok (get_apply _)]
  cases opens with
  | false => simp
  | true => rfl

/-- The branch of `main` for a daemon: the default path replaces the configured one. -/
theorem enterBackground_ends (env : Environment) : EndsIn (enterBackground env d)
    (fun _ t => t={d with
      server := {d.server with pidfile := backgroundPidfile d}
      calls := d.calls++backgroundCalls d env})
    (fun fault t => fault≠.nullLogfile ∧ t.stop=d.stop ∧ env.fork≠0) := by
  rw [enterBackground,bind_of_ok (get_apply d),backgroundPidfile,backgroundCalls]
  cases hd : d.daemonize with
  | false =>
    refine show d=_ from ?_
    rw [Bool.false_and,if_neg Bool.false_ne_true,if_neg Bool.false_ne_true,List.append_nil,← hd]
  | true =>
    rw [if_pos rfl]
    by_cases hfork : env.fork=0
    · rw [hfork,bind_of_ok daemonize_child,bind_of_ok (get_apply _)]
      cases hpid : d.server.pidfile.isSome with
      | false =>
        rw [if_neg Bool.false_ne_true,Bool.and_false,if_neg Bool.false_ne_true,if_pos rfl,
          Bool.false_and,if_neg Bool.false_ne_true,List.append_nil,← hd]
        rfl
      | true =>
        rw [if_pos rfl,createPidFile_apply (d:={d with calls := d.calls++[.fork,.setsid]}) hpid,
          Bool.and_true,if_pos rfl,if_pos rfl,
          Bool.true_and,← List.append_assoc,← hd]
        rfl
    · rw [bind_of_error (daemonize_parent hfork)]
      exact ⟨fault_ne_nullLogfile _,rfl,hfork⟩

end Background

section Init

variable {d : Daemon}

/-- A message before an `exit`. -/
theorem failed_ends {Q : Unit → Daemon → Prop} (level : ℕ) (text : CString) (errno : Errno)
    (code : ℕ) (rest : Unit → ServerProg Unit) : EndsIn ((do
        ServerMain.serverLogErrno level text errno
        let r ← exitWith code
        rest r : ServerProg Unit) d) Q (fun fault t => Logged d.server fault ∧ t.stop=d.stop) := by
  refine (serverLogErrno_ends level text errno).seq ?_ ?_
  · rintro fault t ⟨hlog,rfl⟩
    exact ⟨hlog,rfl⟩
  · rintro _ t ⟨messages,-,rfl⟩
    exact ⟨logged_fault _ _,rfl⟩

/-- A handler that cannot be set ends the process behind a message. -/
theorem setupSignalHandlers_ends (env : Environment) : EndsIn (setupSignalHandlers env d)
    (fun _ t => t=d)
    (fun fault t => Logged d.server fault ∧ t.stop=d.stop) := by
  rw [setupSignalHandlers]
  cases env.sigterm with
  | some errno => exact failed_ends _ _ _ _ _
  | none =>
    cases env.sigint with
    | some errno => exact failed_ends _ _ _ _ fun _ => pure ()
    | none => exact show d=d from rfl

theorem serialInit_ends (env : Environment) : EndsIn (ServerMain.serialInit env d)
    (fun _ t => ∃ entries w,env.serial=some entries ∧
      EventLoop.serialInit entries env.connect d.world=.ok () w ∧ t={d with world := w})
    (fun fault t => Logged d.server fault ∧ t.stop=d.stop) := by
  rw [ServerMain.serialInit,bind_of_ok (get_apply d)]
  cases d.server.serialConfigfile with
  | none => exact ⟨logged_fault _ _,rfl⟩
  | some filename =>
    cases env.serial with
    | none => exact ⟨logged_fault _ _,rfl⟩
    | some entries =>
      refine (runSerial_ends _).mono ?_ ?_
      · rintro _ u ⟨w,hw,rfl⟩
        exact ⟨entries,w,rfl,hw,rfl⟩
      · rintro fault u ⟨hlog,hu⟩
        refine ⟨hlog,?_⟩
        rw [hu]

/-- The timer that `serverInit` creates. -/
def firstTimer (clock : ℕ) : AeTimeEvent :=
  ⟨0,(aeAddMillisecondsToNow clock 1).1,(aeAddMillisecondsToNow clock 1).2⟩

/-- `serverInit` sets the only timer and connects the devices. -/
theorem serverInit_ends (env : Environment) (hid : d.timeEventNextId=0)
    (htimers : d.timeEvents=[]) : EndsIn (serverInit env d)
      (fun _ t => env.eventLoop=true ∧ ∃ entries w,env.serial=some entries ∧
        EventLoop.serialInit entries env.connect d.world=.ok () w ∧
        t={d with
          cronEventId := 0
          timeEventNextId := 1
          timeEvents := [firstTimer d.clock]
          world := w})
      (fun fault t => Logged d.server fault ∧ t.stop=d.stop) := by
  rw [serverInit]
  refine (setupSignalHandlers_ends env).bind fun _ t ht => ?_
  subst ht
  have hcreate : aeCreateTimeEvent 1 t=.ok 0 {t with
      timeEventNextId := 1
      timeEvents := [firstTimer t.clock]} := by
    rw [aeCreateTimeEvent,bind_of_ok (get_apply t),hid]
    dsimp only
    rw [bind_of_ok (modify_apply _ _),htimers]
    rfl
  cases hloop : env.eventLoop with
  | false => exact ⟨logged_fault _ _,rfl⟩
  | true =>
    rw [Bool.not_true,if_neg Bool.false_ne_true]
    dsimp only
    rw [bind_of_ok hcreate,bind_of_ok (modify_apply _ _),if_neg (by decide)]
    refine (serialInit_ends env).mono_ok ?_
    rintro _ u ⟨entries,w,hserial,hw,rfl⟩
    exact ⟨rfl,entries,w,hserial,hw,rfl⟩

end Init

section Start

variable {argv : List CString} {system : Option (List ConfigEntry)} {env : Environment}
variable {clock : ℕ} {entries : List ConfigEntry}

/-- The process behind its configuration. -/
def configured (entries : List ConfigEntry) (argv : List CString) (clock : ℕ) : Daemon :=
  {Daemon.boot clock with
    server := settings entries
    daemonize := daemonizes argv}

/-- What holds where the loop begins: how the entries decide the settings and the pid file, and
how the devices have been connected. -/
structure StartedBy (argv : List CString) (system : Option (List ConfigEntry))
    (env : Environment) (clock : ℕ) (entries : List ConfigEntry) (t : Daemon) : Prop where
  /-- There is an event loop. -/
  eventLoop : env.eventLoop=true
  /-- The entries were loaded. -/
  loaded : loadedEntries argv system=some entries
  /-- Settings. -/
  server : t.server={settings entries with
    pidfile := backgroundPidfile (configured entries argv clock)}
  /-- It is a daemon if the command line asks for one. -/
  daemonize : t.daemonize=daemonizes argv
  /-- The timer is new. -/
  timer : t.timeEvents=[firstTimer clock] ∧ t.cronEventId=0 ∧ t.timeEventNextId=1
  /-- No time has passed. -/
  time : t.clock=clock ∧ t.lastTime=(clock/1000 : ℕ)
  /-- The loop is to run. -/
  stop : t.stop=false
  /-- The devices have been connected. -/
  world : ∃ serial,EventLoop.serialInit serial env.connect World.boot=.ok () t.world
  /-- Messages apart, only the pid file has been written. -/
  calls : ∃ messages,(∀ c∈messages,IsMessage c) ∧
    t.calls=backgroundCalls (configured entries argv clock) env++messages

/-- The state behind `aeCreateEventLoop`. -/
def bootWorld (env : Environment) : World :=
  if env.eventLoop then World.boot
  else {World.boot with openFds := World.boot.openFds.erase epollFd}

theorem aeCreateEventLoop_apply (env : Environment) (clock : ℕ) :
    aeCreateEventLoop env (Daemon.boot clock)=
      .ok () {Daemon.boot clock with world := bootWorld env} := by
  unfold aeCreateEventLoop bootWorld
  split <;> rfl

/-- The start ends at the loop, or stops the process before it. -/
theorem start_ends (argv : List CString) (system : Option (List ConfigEntry)) (env : Environment)
    (clock : ℕ) : EndsIn (start argv system env (Daemon.boot clock))
      (fun _ t => ∃ entries,StartedBy argv system env clock entries t)
      (fun fault t => t.stop=false ∧ (fault=.nullLogfile →
        ∃ entries,loadedEntries argv system=some entries ∧ (settings entries).logfile=none)) := by
  rw [start,bind_of_ok (aeCreateEventLoop_apply env clock),← bind_assoc]
  refine (configured_ends argv system clock (bootWorld env)).seq ?_ ?_
  · rintro fault t ⟨hnull,hstop,-⟩
    exact ⟨hstop,fun h => absurd h hnull⟩
  rintro _ t ⟨entries,file,hload,rfl⟩
  refine (enterBackground_ends env).seq ?_ ?_
  · rintro fault t ⟨hnull,hstop,-⟩
    exact ⟨hstop,fun h => absurd h hnull⟩
  rintro _ t rfl
  refine (serverInit_ends env rfl rfl).seq ?_ ?_
  -- from here on the settings are those of the entries, also for the logger
  · rintro fault t ⟨hlog,hstop⟩
    exact ⟨hstop,fun h => ⟨entries,hload,hlog h⟩⟩
  rintro _ t ⟨hloop,serial,w,-,hw,rfl⟩
  rw [bootWorld,if_pos hloop] at hw
  refine (serverLog_ends _ _ _).seq ?_ ?_
  · rintro fault t ⟨hlog,rfl⟩
    exact ⟨rfl,fun h => ⟨entries,hload,hlog h⟩⟩
  rintro _ t ⟨messages,hm,rfl⟩
  exact ⟨entries,hloop,hload,rfl,rfl,⟨rfl,rfl,rfl⟩,⟨rfl,rfl⟩,rfl,⟨serial,hw⟩,messages,hm,rfl⟩

/-- Behind the start the only timer is due within a second. -/
theorem StartedBy.timed {t : Daemon} (h : StartedBy argv system env clock entries t) : Timed t := by
  obtain ⟨hevents,hid,hnext⟩ := h.timer
  obtain ⟨hclock,hlast⟩ := h.time
  obtain ⟨hsum,hms,hlt⟩ := aeAddMillisecondsToNow_spec clock (show (0 : ℤ)≤1 by decide)
  obtain ⟨hrange,-⟩ := serverLoadConfig_settings entries inRange_serverInitConfig
  refine ⟨?_,⟨firstTimer clock,hevents,hid.symm,?_,hms,hlt⟩,hid.ge,?_,?_⟩
  · rw [h.server]
    exact ⟨hrange.hz,hrange.reconnectInterval⟩
  · rw [hclock]
    change (aeAddMillisecondsToNow clock 1).1*1000+(aeAddMillisecondsToNow clock 1).2≤_
    omega
  · rw [hid,hnext]
    decide
  · rw [hlast,hclock]

/-- States in which the loop begins. -/
def Started (d : Daemon) : Prop :=
  ∃ argv system env clock,start argv system env (Daemon.boot clock)=.ok () d

theorem Started.by {d : Daemon} (h : Started d) :
    ∃ argv system env clock entries,StartedBy argv system env clock entries d := by
  obtain ⟨argv,system,env,clock,hx⟩ := h
  obtain ⟨entries,hby⟩ := (start_ends argv system env clock).of_ok hx
  exact ⟨argv,system,env,clock,entries,hby⟩

end Start

section Loop

variable {d t : Daemon} {turns : List Turn}

/-- What every turn keeps holds at the end of the loop. -/
theorem aeLoop_ends {I : Daemon → Prop} {E : ServerFault → Daemon → Prop}
    (hturn : ∀ d turn,I d → d.stop=false → EndsIn (aeMainTurn turn d) (fun _ => I) E)
    (turns : List Turn) (h : I d) : EndsIn (aeLoop turns d) (fun _ => I) E := by
  induction turns generalizing d with
  | nil => exact h
  | cons turn rest ih =>
    rw [aeLoop,bind_of_ok (get_apply d)]
    cases hstop : d.stop with
    | true =>
      rw [if_pos rfl]
      exact h
    | false =>
      rw [if_neg Bool.false_ne_true]
      exact (hturn d turn h hstop).bind fun _ _ ht => ih ht

/-- A single timer is found and marked as deleted. -/
theorem aeDeleteTimeEvent_single {te : AeTimeEvent} {id : ℤ} (hte : d.timeEvents=[te])
    (hid : te.id=id) : aeDeleteTimeEvent id d=
      .ok true {d with timeEvents := [{te with id := aeDeletedEventId}]} := by
  rw [aeDeleteTimeEvent,bind_of_ok (get_apply d),hte,deleteTimeEvent,if_pos hid]
  rfl

/-- The end of the process finds its timer, and has nothing to report. -/
theorem serverTerm_ends (h : Timed d) (env : Environment) : EndsIn (serverTerm env d)
    (fun _ t => t.calls=d.calls ∧ t.stop=d.stop)
    (fun fault t => Logged d.server fault ∧ t.calls=d.calls ∧ t.stop=d.stop) := by
  obtain ⟨te,hte,hid,-⟩ := h.timer
  rw [serverTerm]
  refine (runSerial_ends (serialTerm env.remove)).seq ?_ ?_
  · rintro fault t ⟨hlog,ht⟩
    rw [ht]
    exact ⟨hlog,rfl,rfl⟩
  rintro _ t ⟨w,-,rfl⟩
  rw [bind_of_ok (modify_apply _ _),bind_of_ok (get_apply _),
    bind_of_ok (aeDeleteTimeEvent_single ?_ hid)]
  · exact ⟨rfl,rfl⟩
  · exact hte

theorem aeDeleteEventLoop_apply (d : Daemon) : aeDeleteEventLoop d=.ok () {d with
    world := {d.world with
      openFds := d.world.openFds.erase epollFd
      trace := d.world.trace++[.close epollFd]
      fdCalls := d.world.fdCalls++[.close epollFd]}} := rfl

/-- So does the end of `main`. -/
theorem mainTerm_ends (h : Timed d) (env : Environment) : EndsIn ((do
      serverTerm env
      aeDeleteEventLoop) d) (fun _ t => t.calls=d.calls ∧ t.stop=d.stop)
    (fun fault t => Logged d.server fault ∧ t.calls=d.calls ∧ t.stop=d.stop) :=
  (serverTerm_ends h env).seq (fun _ _ ht => ht) fun _ t ht => by
    rw [aeDeleteEventLoop_apply t]
    exact ht

/-- The turns the kernel may serve while the loop runs. -/
def Serves (d : Daemon) (turn : Turn) : Prop :=
  d.stop=false ∧ Admitted d.world (iteration d turn)

/-- Along a run of the process the serial devices run through iterations of the event loop. -/
theorem running_of_run (h : Started d) (hrun : Run aeMainTurn Serves d turns t) :
    EventLoop.Running t.world := by
  obtain ⟨argv,system,env,clock,entries,hby⟩ := h.by
  obtain ⟨serial,hboot⟩ := hby.world
  have hinv : Timed t ∧ EventLoop.Running t.world := by
    refine hrun.invariant (I:=fun s => Timed s ∧ EventLoop.Running s.world) ?_
      ⟨hby.timed,d.world,[],⟨serial,env.connect,hboot⟩,.nil _⟩
    rintro s turn u ⟨htimed,hworld⟩ hserves hx
    have hdone := (aeMainTurn_ends htimed turn).of_ok hx
    refine ⟨TurnDone.timed htimed hdone,?_⟩
    obtain ⟨messages,w,w',-,rfl,hstep⟩ := hdone
    exact hworld.step hserves.2 hstep
  exact hinv.2

end Loop

/-- Everything succeeds, and no serial device is configured. -/
def quietEnvironment : Environment where
  eventLoop := true
  fork := 0
  pidFileOpens := true
  sigterm := none
  sigint := none
  serial := some []
  connect := fun _ => workingConnect
  remove := fun _ => none

end SerialProxy.ServerStart
