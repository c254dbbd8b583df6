import SerialProxy.EventLoop
import SerialProxy.ServerCron

/-!
# The process: command line, start, timer events, shutdown

The rest of server.c around the serial devices, with the part of ae.c that runs the
timer. A clock in milliseconds is moved by the sleep before each poll and by the wait of
the poll, and by nothing else. The logger reads the first character of the name of the
log file: for a message that passes the level of the server while no name is set, the
process ends there. The messages of serial.c go through the same logger.
-/

namespace SerialProxy.ServerMain

open FaultPrograms CText SerialState EventTable SerialConfig SerialLinks EventLoop ServerCron

/-- Ways in which the process stops other than by returning from `main`. -/
inductive ServerFault
  /-- A fault of the serial devices or of the timer, and every `exit`. -/
  | fault (fault : Fault)
  /-- `serverLogRaw` reads the name of the log file through the null pointer. -/
  | nullLogfile
  deriving DecidableEq

/-- Where `serverLogRaw` writes. -/
inductive LogStream
  /-- `stdout`, for an empty name. -/
  | stdout
  /-- The log file. -/
  | file (path : CString)
  deriving DecidableEq

/-- The calls of server.c that leave the process, and those of the timer. -/
inductive ServerCall
  /-- `printf`. -/
  | stdout (text : CString)
  /-- `fprintf(stderr, ...)`. -/
  | stderr (text : CString)
  /-- `fork`. -/
  | fork
  /-- `setsid`. -/
  | setsid
  /-- The process id is written to this path. -/
  | writePid (path : CString)
  /-- `unlink`, also of the null pointer. -/
  | unlink (path : Option CString)
  /-- A message, with the value of `errno` if it reports one. -/
  | message (stream : LogStream) (level : ℕ) (text : CString) (errno : Option Errno)
  /-- A call of `serverCron` at this time; whether it runs `serialCron`. -/
  | cron (time : ℕ) (reconnects : Bool)
  deriving DecidableEq

/-- `AE_ERR`. -/
def aeErr : ℤ := -1

/-- `AE_NOMORE`. -/
def aeNomore : ℤ := -1

/-- `AE_DELETED_EVENT_ID`. -/
def aeDeletedEventId : ℤ := -1

/-- An event of the timer list. The program registers one procedure only, `serverCron`, and no
finalizer, so neither is stored. -/
structure AeTimeEvent where
  /-- Identifier. -/
  id : ℤ
  /-- Seconds of the time it is due. -/
  whenSec : ℤ
  /-- Milliseconds of that time. -/
  whenMs : ℤ
  deriving DecidableEq

/-- The whole process. -/
structure Daemon where
  /-- The settings and the counter. -/
  server : SproxyServer
  /-- System configuration file. -/
  configfile : Option CString
  /-- Runs as a daemon. -/
  daemonize : Bool
  /-- Identifier of the timer of `serverCron`. -/
  cronEventId : ℤ
  /-- The timer list, from its head. -/
  timeEvents : List AeTimeEvent
  /-- Identifier of the next timer. -/
  timeEventNextId : ℤ
  /-- Second of the last look at the timers. -/
  lastTime : ℤ
  /-- The loop is to end. -/
  stop : Bool
  /-- Milliseconds on the clock. -/
  clock : ℕ
  /-- Serial devices, event table and kernel. -/
  world : World
  /-- What server.c did, in order. -/
  calls : List ServerCall

/-- The process behind `serverInitConfig`, started at this time, with its event loop. -/
def Daemon.boot (clock : ℕ) : Daemon where
  server := serverInitConfig
  configfile := none
  daemonize := false
  cronEventId := aeErr
  timeEvents := []
  timeEventNextId := 0
  lastTime := (clock/1000 : ℕ)
  stop := false
  clock := clock
  world := World.boot
  calls := []

/-- Programs of the process. -/
abbrev ServerProg := EStateM ServerFault Daemon

/-- Record a call. -/
def record (call : ServerCall) : ServerProg Unit :=
  modify fun d => {d with calls := d.calls++[call]}

/-- `exit(code)`. -/
def exitWith {α : Type} (code : ℕ) : ServerProg α := throw (.fault (.exit code))

/-- Run a part that only works on the settings and the counter. -/
def onServer {α : Type} (x : TimerProg α) : ServerProg α :=
  onPart Daemon.server (fun server d => {d with server := server}) .fault x

/-- `serverLogRaw` up to the choice of the stream, for which it reads the first character of the
name of the log file. -/
def serverLogRaw (level : ℕ) (text : CString) (errno : Option Errno) : ServerProg Unit := do
  let d ← get
  if level<d.server.verbosity then
    pure ()
  else
    match d.server.logfile with
    | none => throw .nullLogfile
    | some [] => record (.message .stdout level text errno)
    | some path => record (.message (.file path) level text errno)

/-- `serverLog`. -/
def serverLog (level : ℕ) (text : CString) (errno : Option Errno := none) : ServerProg Unit := do
  let d ← get
  if level<d.server.verbosity then pure () else serverLogRaw level text errno

/-- `serverLogErrno`, reporting this value of `errno`. -/
def serverLogErrno (level : ℕ) (text : CString) (errno : Errno) : ServerProg Unit := do
  let d ← get
  if level<d.server.verbosity then pure () else serverLog level text errno

/-- `serverLogRaw` finds no log file behind a message of this level. -/
def findsNull (server : SproxyServer) (level : ℕ) : Bool :=
  server.verbosity≤level && server.logfile.isNone

/-- The logger finds no log file behind a message of serial.c. -/
def crashesLogger (server : SproxyServer) : Call → Bool
  | .log level _ => findsNull server level
  | .logErrno level _ _ => findsNull server level
  | _ => false

/-- Run a part of serial.c, which hands its messages to the logger. At the first one that finds
no log file the process is gone, and the calls up to there are all it leaves of that part. -/
def runSerial {α : Type} (x : Prog α) : ServerProg α := fun d =>
  let made := (finalState (x d.world)).trace.drop d.world.trace.length
  match made.findIdx? (crashesLogger d.server) with
  | some i => .error .nullLogfile
      {d with world := {d.world with trace := d.world.trace++made.take (i+1)}}
  | none => onPart Daemon.world (fun w d => {d with world := w}) .fault x d

/-- What `getopt` returns one after another for the options `c:dvh`. -/
inductive Opt
  /-- `-c`, with its argument. -/
  | c (optarg : CString)
  /-- `-d`. -/
  | d
  /-- `-v`. -/
  | v
  /-- `-h`. -/
  | h
  /-- An unknown option, or a missing argument. -/
  | unknown
  deriving DecidableEq

/-- The options of one argument, from the characters behind its dash; true when the last one is
a `c` that takes its own argument from the next one. -/
def optionCluster : CString → List Opt×Bool
  | [] => ([],false)
  | 'c'::[] => ([],true)
  | 'c'::optarg => ([.c optarg],false)
  | opt::rest =>
    let (opts,pending) := optionCluster rest
    ((if opt= 'd' then .d else if opt= 'v' then .v else if opt= 'h' then .h else .unknown)::opts,
      pending)

/-- `getopt(argc, argv, "c:dvh")` of the GNU library, which steps over arguments that are no
options and stops behind `--`. -/
def getopt : List CString → List Opt
  | [] => []
  | arg::rest =>
    match arg with
    | ['-','-'] => []
    | '-'::opt::chars =>
      let (opts,pending) := optionCluster (opt::chars)
      match pending,rest with
      | false,rest => opts++getopt rest
      | true,[] => opts++[.unknown]
      | true,optarg::rest => opts++.c optarg::getopt rest
    | _ => getopt rest

/-- `SPROXY_VERSION`. -/
def sproxyVersion : CString := "0.1.0".toList

/-- `version`. -/
def version : ServerProg Unit := do
  record (.stdout ("sproxy server v=".toList++sproxyVersion++"\n".toList))
  exitWith 0

/-- `usage`. -/
def usage : ServerProg Unit := do
  record (.stderr ("\nUsage: sproxyd [OPTIONS]\n\nOPTIONS\n\n-c\tConfig file\n".toList++
    "-s\tSerial config file\n-d\tDaemonize\n-v\tProgram version\n-h\tUsage\n\n".toList))
  exitWith 1

/-- One turn of the option loop of `main`. -/
def readOption : Opt → ServerProg Unit
  | .c optarg => modify fun d => {d with configfile := some optarg}
  | .d => modify fun d => {d with daemonize := true}
  | .v => version
  | .h => usage
  | .unknown => usage

/-- `serverLoadConfig`, with the entries the parser finds in the file; nothing when it cannot be
read. -/
def serverLoadConfig (entries : Option (List ConfigEntry)) : ServerProg Unit := do
  let d ← get
  match d.configfile with
  | none => pure ()
  | some filename =>
    match entries with
    | none =>
      record (.stderr ("Can't load config file: ".toList++filename++"\n".toList))
      exitWith 1
    | some entries =>
      modify fun d => {d with server := ServerCron.serverLoadConfig entries d.server}

/-- `CONFIG_DEFAULT_PID_FILE`. -/
def configDefaultPidFile : CString := "/var/run/sproxyd.pid".toList

/-- `daemonize`, with the result of `fork`. Its standard streams end at /dev/null. -/
def daemonize (pid : ℤ) : ServerProg Unit := do
  record .fork
  if pid≠0 then exitWith 0
  record .setsid

/-- `createPidFile`; whether `fopen` succeeds. -/
def createPidFile (opens : Bool) : ServerProg Unit := do
  let d ← get
  if d.server.pidfile.isSome then
    modify fun d => {d with server := {d.server with pidfile := some configDefaultPidFile}}
  let d ← get
  match d.server.pidfile with
  | none => throw (.fault .nullDeref)
  | some path => if opens then record (.writePid path) else pure ()

/-- `aeGetTime`. -/
def aeGetTime (clock : ℕ) : ℤ×ℤ := ((clock/1000 : ℕ),(clock%1000 : ℕ))

/-- `aeAddMillisecondsToNow`. -/
def aeAddMillisecondsToNow (clock : ℕ) (milliseconds : ℤ) : ℤ×ℤ :=
  let (curSec,curMs) := aeGetTime clock
  let whenSec := curSec+milliseconds.tdiv 1000
  let whenMs := curMs+milliseconds.tmod 1000
  if whenMs≥1000 then (whenSec+1,whenMs-1000) else (whenSec,whenMs)

/-- `aeCreateTimeEvent`. -/
def aeCreateTimeEvent (milliseconds : ℤ) : ServerProg ℤ := do
  let d ← get
  let id := d.timeEventNextId
  let (whenSec,whenMs) := aeAddMillisecondsToNow d.clock milliseconds
  modify fun d => {d with
    timeEventNextId := id+1
    timeEvents := ⟨id,whenSec,whenMs⟩::d.timeEvents}
  pure id

/-- The timer list behind `aeDeleteTimeEvent`; nothing for `AE_ERR`. -/
def deleteTimeEvent (id : ℤ) : List AeTimeEvent → Option (List AeTimeEvent)
  | [] => none
  | te::rest =>
    if te.id=id then some ({te with id := aeDeletedEventId}::rest)
    else (deleteTimeEvent id rest).map (te::·)

/-- `aeDeleteTimeEvent`; true for `AE_OK`. -/
def aeDeleteTimeEvent (id : ℤ) : ServerProg Bool := do
  let d ← get
  match deleteTimeEvent id d.timeEvents with
  | some events =>
    modify fun d => {d with timeEvents := events}
    pure true
  | none => pure false

/-- `aeStop`. -/
def aeStop : ServerProg Unit := modify fun d => {d with stop := true}

/-- What the environment contributes to a run, apart from command line and configuration. -/
structure Environment where
  /-- Whether `aeCreateEventLoop` succeeds. -/
  eventLoop : Bool
  /-- Result of `fork`. -/
  fork : ℤ
  /-- Whether the pid file can be opened. -/
  pidFileOpens : Bool
  /-- Result of `sigaction` for SIGTERM. -/
  sigterm : Option Errno
  /-- Result of `sigaction` for SIGINT. -/
  sigint : Option Errno
  /-- Entries of the serial configuration; nothing when it cannot be read. -/
  serial : Option (List ConfigEntry)
  /-- Results of the connect attempts of `serialInit`. -/
  connect : NodePtr → ConnectResults
  /-- Results of the calls of `remove` of `serialTerm`. -/
  remove : NodePtr → Option Errno

/-- The epoll descriptor of the event loop. -/
def epollFd : Fd := 3

/-- `aeCreateEventLoop` in `serverInitConfig`, which goes on also where it has failed: there is no
epoll descriptor then, and `server.el` is the null pointer. -/
def aeCreateEventLoop (env : Environment) : ServerProg Unit :=
  if env.eventLoop then pure ()
  else modify fun d => {d with world := {d.world with openFds := d.world.openFds.erase epollFd}}

/-- `_setupSignalHandlers`. -/
def setupSignalHandlers (env : Environment) : ServerProg Unit := do
  match env.sigterm with
  | some errno =>
    serverLogErrno llError "sigaction(SIGTERM) failed".toList errno
    exitWith 1
  | none => pure ()
  match env.sigint with
  | some errno =>
    serverLogErrno llError "sigaction(SIGINT) failed".toList errno
    exitWith 1
  | none => pure ()

/-- `serialInit`, which loads the serial configuration first. -/
def serialInit (env : Environment) : ServerProg Unit := do
  let d ← get
  match d.server.serialConfigfile with
  | none =>
    record (.stderr "Serial config file must be given\n".toList)
    exitWith 1
  | some filename =>
    match env.serial with
    | none =>
      record (.stderr ("Can't load serial config file: ".toList++filename++"\n".toList))
      exitWith 1
    | some entries => runSerial (EventLoop.serialInit entries env.connect)

/-- `serverInit`. -/
def serverInit (env : Environment) : ServerProg Unit := do
  setupSignalHandlers env
  -- the identifier of the event is read through `server.el`
  if !env.eventLoop then throw (.fault .nullDeref)
  let id ← aeCreateTimeEvent 1
  modify fun d => {d with cronEventId := id}
  if id=aeErr then
    serverLog llError "Can't create event loop timers".toList
    exitWith 1
  serialInit env

/-- `serverTerm`. -/
def serverTerm (env : Environment) : ServerProg Unit := do
  runSerial (serialTerm env.remove)
  modify fun d => {d with
    server := {d.server with logfile := none, pidfile := none, serialConfigfile := none}
    configfile := none}
  let d ← get
  let deleted ← aeDeleteTimeEvent d.cronEventId
  if !deleted then
    serverLog llWarn "Failed removing event loop timers".toList
  modify fun d => {d with cronEventId := aeErr}

/-- The signals the process has a handler for. -/
inductive Signal
  /-- `SIGINT`. -/
  | sigint
  /-- `SIGTERM`. -/
  | sigterm
  deriving DecidableEq

/-- What the environment contributes to one turn of the loop of `aeMain`. -/
structure Turn where
  /-- Signals since the last look at the timers. -/
  signals : List Signal
  /-- Result of `epoll_wait`. -/
  poll : Except Errno (List PollEntry)
  /-- Milliseconds it waits when it does not wait for its timeout. -/
  elapsed : ℕ
  /-- Results of the connect attempts, in a turn that reconnects. -/
  connect : NodePtr → ConnectResults

/-- `_sigHandler`. -/
def sigHandler (sig : Signal) : ServerProg Unit := do
  let d ← get
  if d.server.shutdown ∧ sig=.sigint then exitWith 1
  modify fun d => {d with server := {d.server with shutdown := true}}

/-- `_prepareForShutdown`. -/
def prepareForShutdown : ServerProg Unit := do
  serverLog llInfo "Shutting down...".toList
  let d ← get
  if d.daemonize ∨ d.server.pidfile.isSome then
    record (.unlink d.server.pidfile)

/-- `serverCron`; its result is the delay until its next call. -/
def serverCron (connect : NodePtr → ConnectResults) : ServerProg ℤ := do
  let d ← get
  if d.server.shutdown then
    prepareForShutdown
    aeStop
  let reconnects ← onServer (runWithPeriod d.server.reconnectInterval)
  record (.cron d.clock reconnects)
  if reconnects then
    runSerial (serialCron connect)
  modify fun d => {d with server := counted d.server}
  onServer (intDiv 1000 d.server.hz)

/-- The time event is due. -/
def AeTimeEvent.Due (te : AeTimeEvent) (clock : ℕ) : Prop :=
  (aeGetTime clock).1>te.whenSec ∨
    (aeGetTime clock).1=te.whenSec ∧ (aeGetTime clock).2≥te.whenMs

instance (te : AeTimeEvent) (clock : ℕ) : Decidable (te.Due clock) :=
  inferInstanceAs (Decidable (_ ∨ _ ∧ _))

/-- The loop of `processTimeEvents` over the timers that are left; the timers it keeps. -/
def processTimers (maxId : ℤ) (connect : NodePtr → ConnectResults) :
    List AeTimeEvent → ServerProg (List AeTimeEvent)
  | [] => pure []
  | te::rest => do
    if te.id=aeDeletedEventId then
      processTimers maxId connect rest
    else if te.id>maxId then
      let rest ← processTimers maxId connect rest
      pure (te::rest)
    else
      let d ← get
      if te.Due d.clock then
        let retval ← serverCron connect
        let d ← get
        let (whenSec,whenMs) := aeAddMillisecondsToNow d.clock retval
        let te := if retval≠aeNomore then {te with whenSec := whenSec, whenMs := whenMs}
          else {te with id := aeDeletedEventId}
        let rest ← processTimers maxId connect rest
        pure (te::rest)
      else
        let rest ← processTimers maxId connect rest
        pure (te::rest)

/-- `processTimeEvents`. -/
def processTimeEvents (connect : NodePtr → ConnectResults) : ServerProg Unit := do
  let d ← get
  let now := (aeGetTime d.clock).1
  if now<d.lastTime then
    modify fun d => {d with timeEvents := d.timeEvents.map fun te => {te with whenSec := 0}}
  modify fun d => {d with lastTime := now}
  let d ← get
  let events ← processTimers (d.timeEventNextId-1) connect d.timeEvents
  modify fun d => {d with timeEvents := events}

/-- `aeSearchNearestTimer`. -/
def aeSearchNearestTimer (events : List AeTimeEvent) : Option AeTimeEvent :=
  events.foldl (fun nearest te => match nearest with
    | none => some te
    | some n => if te.whenSec<n.whenSec ∨ (te.whenSec=n.whenSec ∧ te.whenMs<n.whenMs) then some te
      else some n) none

/-- The timeout for the nearest timer that `aeProcessEvents` computes and `aeApiPoll` hands to
`epoll_wait` as an `int`; -1 without a timer. -/
def pollTimeout (clock : ℕ) (shortest : Option AeTimeEvent) : ℤ :=
  match shortest with
  | none => -1
  | some shortest =>
    let (nowSec,nowMs) := aeGetTime clock
    let ms := (shortest.whenSec-nowSec)*1000+shortest.whenMs-nowMs
    let (tvSec,tvUsec) := if ms>0 then (ms.tdiv 1000,ms.tmod 1000*1000) else (0,0)
    (tvSec*1000+tvUsec.tdiv 1000).bmod (2^32)

/-- The time `epoll_wait` takes: its timeout when it reports nothing, and no more otherwise. A
negative timeout is none. -/
def pollWait (timeout : ℤ) (turn : Turn) : ℕ :=
  if timeout<0 then turn.elapsed
  else match turn.poll with
    | .ok [] => timeout.toNat
    | _ => min turn.elapsed timeout.toNat

/-- The poll and the two passes over the fired events. -/
def processFileEvents (poll : Except Errno (List PollEntry)) : Prog Unit := do
  let fired ← aeApiPoll poll
  let fired ← readPass fired
  let _ ← writePass fired

/-- `aeProcessEvents` with `AE_ALL_EVENTS`. -/
def aeProcessEvents (turn : Turn) : ServerProg Unit := do
  modify fun d => {d with
    clock := d.clock+pollWait (pollTimeout d.clock (aeSearchNearestTimer d.timeEvents)) turn}
  runSerial (processFileEvents turn.poll)
  processTimeEvents turn.connect

/-- `serverBeforeSleep`, with the sleep of one second at its end. -/
def serverBeforeSleep : ServerProg Unit := do
  runSerial serialBeforeSleep
  modify fun d => {d with clock := d.clock+1000000/1000}

/-- One turn of the loop of `aeMain`, behind the signals that arrive. -/
def aeMainTurn (turn : Turn) : ServerProg Unit := do
  turn.signals.forM sigHandler
  serverBeforeSleep
  aeProcessEvents turn

/-- The loop of `aeMain`, up to the end of these turns. -/
def aeLoop : List Turn → ServerProg Unit
  | [] => pure ()
  | turn::rest => do
    let d ← get
    if d.stop then
      pure ()
    else
      aeMainTurn turn
      aeLoop rest

/-- The branch of `main` for a daemon. -/
def enterBackground (env : Environment) : ServerProg Unit := do
  let d ← get
  if d.daemonize then
    daemonize env.fork
    let d ← get
    if d.server.pidfile.isSome then
      createPidFile env.pidFileOpens

/-- `main` up to the loop. -/
def start (argv : List CString) (system : Option (List ConfigEntry)) (env : Environment) :
    ServerProg Unit := do
  aeCreateEventLoop env
  (getopt argv).forM readOption
  serverLoadConfig system
  enterBackground env
  serverInit env
  serverLog llInfo ("Server started, sproxy version ".toList++sproxyVersion)
  modify fun d => {d with stop := false}

/-- `aeDeleteEventLoop`, which closes the epoll descriptor; the events of the timer list are not
freed. -/
def aeDeleteEventLoop : ServerProg Unit :=
  onPart Daemon.world (fun w d => {d with world := w}) .fault (sysClose epollFd)

/-- `main`, with the arguments behind the name of the program and the entries the parser finds
in the system configuration; up to the end of these turns, if the loop does not end before. -/
def main (argv : List CString) (system : Option (List ConfigEntry)) (env : Environment)
    (turns : List Turn) : ServerProg Unit := do
  start argv system env
  aeLoop turns
  let d ← get
  if d.stop then
    serverTerm env
    aeDeleteEventLoop

end SerialProxy.ServerMain
