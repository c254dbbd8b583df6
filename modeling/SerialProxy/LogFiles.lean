import SerialProxy.ServerStart
import SerialProxy.ConnectContract

/-!
# Messages without a log file

`serverInitConfig` leaves the log file unset, and only an entry of the system
configuration sets it, while the logger reads the first character of its name before it
falls back to `stdout`. With such an entry no run ends in the logger: the log file is set
from the configuration up to the end, and behind that the timer is still found, so that
nothing is left to report. Without one the first device that cannot be opened is enough.
-/

namespace SerialProxy.LogFiles

open FaultPrograms CText SerialState SerialConfig SerialLinks ServerCron ServerRuns ServerStart
open ConnectContract
open ServerMain hiding serialInit aeProcessEvents serverLog serverLogErrno serverLoadConfig
  serverCron sigHandler

/-- The run ends in the logger, behind a log file that is not set. -/
def EndsInLogger (argv : List CString) (system : Option (List ConfigEntry)) (env : Environment)
    (turns : List Turn) (clock : ℕ) : Prop :=
  ∃ d,main argv system env turns (Daemon.boot clock)=.error .nullLogfile d

/-- An entry sets the log file. -/
def NamesLogfile (entries : List ConfigEntry) : Prop :=
  ∃ e∈entries,matchKey e "logging" "logfile"=true

section Logger

variable {d : Daemon} {argv : List CString} {system : Option (List ConfigEntry)}
variable {env : Environment} {turns : List Turn} {clock : ℕ} {entries : List ConfigEntry}

/-- Only an entry sets the log file. -/
theorem settings_logfile_iff (entries : List ConfigEntry) :
    (settings entries).logfile≠none ↔ NamesLogfile entries := by
  rw [settings,serverLoadConfig_field serverConfigHandler_logfile,
    show serverInitConfig.logfile=none from rfl,Option.or_none,lastValue,ne_eq,
    Option.map_eq_none_iff,List.getLast?_eq_none_iff,List.filter_eq_nil_iff,NamesLogfile]
  simp only [not_forall,not_not,exists_prop]

/-- The timer is set, and so is the log file. -/
def Logging (d : Daemon) : Prop := Timed d ∧ d.server.logfile≠none

/-- A turn with a log file does not end in the logger, and keeps the log file. -/
theorem aeMainTurn_logging (turn : Turn) (h : Logging d) :
    EndsIn (aeMainTurn turn d) (fun _ => Logging) (fun fault _ => fault≠.nullLogfile) := by
  obtain ⟨htimed,hlogfile⟩ := h
  refine (aeMainTurn_ends htimed turn).mono (fun _ t ht => ?_) fun fault t ht => ?_
  · have htimed' := TurnDone.timed htimed ht
    obtain ⟨messages,w,w',-,rfl,-⟩ := ht
    exact ⟨htimed',hlogfile⟩
  · exact fun hnull => hlogfile (ht.1 hnull)

/-- No run behind a configuration with a log file ends in the logger. -/
theorem main_logging (h : ∀ entries,loadedEntries argv system=some entries → NamesLogfile entries) :
    EndsIn (main argv system env turns (Daemon.boot clock)) (fun _ _ => True)
      (fun fault _ => fault≠.nullLogfile) := by
  refine (start_ends argv system env clock).seq ?_ ?_
  · rintro fault t ⟨-,hlog⟩ hnull
    obtain ⟨entries,hload,hnone⟩ := hlog hnull
    exact (settings_logfile_iff entries).mpr (h entries hload) hnone
  rintro _ d ⟨entries,hby⟩
  have hlogging : Logging d := by
    refine ⟨hby.timed,?_⟩
    rw [hby.server]
    exact (settings_logfile_iff entries).mpr (h entries hby.loaded)
  refine (aeLoop_ends (fun _ turn hd _ => aeMainTurn_logging turn hd) turns hlogging).bind ?_
  rintro _ t ⟨htimed,hlog⟩
  rw [bind_of_ok (get_apply t)]
  cases t.stop with
  | false => trivial
  | true =>
    -- the log file is forgotten at the end, but by then nothing is left to report
    rw [if_pos rfl]
    refine (mainTerm_ends htimed env).mono (fun _ _ _ => trivial) fun fault u hu => ?_
    exact fun hnull => hlog (hu.1 hnull)

/-- A device that cannot be opened. -/
def deviceEntries : List ConfigEntry := [⟨"/dev/ttyS5".toList,"baudrate".toList,"9600".toList⟩]

/-- The process starts, finds its files, and cannot open the device. -/
def brokenDevice : Environment where
  eventLoop := true
  fork := 0
  pidFileOpens := true
  sigterm := none
  sigint := none
  serial := some deviceEntries
  connect := fun _ => failingConnect
  remove := fun _ => none

/-- The failure to open the device is reported. -/
theorem open_reported : Call.logErrno llError "open".toList 2∈(finalState
    (EventLoop.serialInit deviceEntries (fun _ => failingConnect) World.boot)).trace := by
  decide +kernel

/-- Without a log file the report ends the process. -/
theorem serialInit_crashes (hlog : d.server.logfile=none) (hlevel : d.server.verbosity≤llError)
    (hworld : d.world=World.boot) :
    EndsIn (runSerial (EventLoop.serialInit deviceEntries fun _ => failingConnect) d)
      (fun _ _ => False) (fun fault _ => fault=.nullLogfile) := by
  have hcrash : crashesLogger d.server (.logErrno llError "open".toList 2)=true := by
    rw [crashesLogger,findsNull,hlog,decide_eq_true hlevel]
    rfl
  rw [runSerial,hworld]
  cases hfind : ((finalState (EventLoop.serialInit deviceEntries (fun _ => failingConnect)
      World.boot)).trace.drop World.boot.trace.length).findIdx? (crashesLogger d.server) with
  | some i => exact rfl
  | none =>
    have hnone := List.findIdx?_eq_none_iff.mp hfind _ open_reported
    rw [hcrash] at hnone
    exact Bool.noConfusion hnone

/-- The process does not get behind the connection of its devices. -/
theorem serverInit_crashes (hlog : d.server.logfile=none) (hlevel : d.server.verbosity≤llError)
    (hworld : d.world=World.boot) (hserial : d.server.serialConfigfile.isSome=true)
    (hid : d.timeEventNextId=0) :
    EndsIn (serverInit brokenDevice d) (fun _ _ => False) (fun fault _ => fault=.nullLogfile) := by
  obtain ⟨filename,hfile⟩ := Option.isSome_iff_exists.mp hserial
  have hcreate : aeCreateTimeEvent 1 d=.ok 0 {d with
      timeEventNextId := 1
      timeEvents := firstTimer d.clock::d.timeEvents} := by
    rw [aeCreateTimeEvent,bind_of_ok (get_apply d),hid]
    rfl
  rw [serverInit,bind_of_ok (show setupSignalHandlers brokenDevice d=.ok () d from rfl),
    if_neg (by decide)]
  dsimp only
  rw [bind_of_ok hcreate,bind_of_ok (modify_apply _ _),if_neg (by decide)]
  change EndsIn (ServerMain.serialInit brokenDevice _) _ _
  rw [ServerMain.serialInit,bind_of_ok (get_apply _)]
  dsimp only
  rw [hfile]
  exact serialInit_crashes hlog hlevel hworld

/-- A configuration without a log file lets the first device that cannot be opened end the
process. -/
theorem brokenDevice_ends (hload : loadedEntries argv system=some entries)
    (hnone : ¬ NamesLogfile entries) (clock : ℕ) :
    EndsInLogger argv system brokenDevice [] clock := by
  have hlog : (settings entries).logfile=none :=
    not_not.mp fun h => hnone ((settings_logfile_iff entries).mp h)
  have hends : EndsIn (main argv system brokenDevice [] (Daemon.boot clock)) (fun _ _ => False)
      (fun fault _ => fault=.nullLogfile) := by
    refine EndsIn.bind (Q:=fun _ _ => False) ?_ fun _ _ h => h.elim
    rw [start,bind_of_ok (aeCreateEventLoop_apply brokenDevice clock),← bind_assoc]
    refine (configured_ends argv system clock (bootWorld brokenDevice)).seq ?_ ?_
    · rintro fault t ⟨-,-,hunloaded⟩
      rw [hload] at hunloaded
      cases hunloaded
    rintro _ t ⟨entries',file,hload',rfl⟩
    rw [hload,Option.some.injEq] at hload'
    subst hload'
    refine (enterBackground_ends brokenDevice).seq ?_ ?_
    · rintro fault t ⟨-,-,hfork⟩
      exact absurd rfl hfork
    rintro _ t rfl
    refine EndsIn.bind (Q:=fun _ _ => False) ?_ fun _ _ h => h.elim
    exact serverInit_crashes hlog (settings_verbosity entries) rfl
      (settings_serialConfigfile entries) rfl
  obtain ⟨fault,d,hx,rfl⟩ := hends.exists_error
  exact ⟨d,hx⟩

/-- No run ends in the logger exactly when the configuration the process goes on with sets the
log file. -/
theorem logger_safe_iff (argv : List CString) (system : Option (List ConfigEntry)) :
    (∀ env turns clock,¬ EndsInLogger argv system env turns clock) ↔
      ∀ entries,loadedEntries argv system=some entries → NamesLogfile entries := by
  constructor
  · intro hsafe entries hload
    by_contra hnone
    exact hsafe brokenDevice [] 0 (brokenDevice_ends hload hnone 0)
  · rintro h env turns clock ⟨d,hx⟩
    exact (main_logging h).of_error hx rfl

/-- Without arguments there is no system configuration, and no log file. -/
theorem bare_start_ends : ¬ ∀ argv system env turns clock,
    ¬ EndsInLogger argv system env turns clock := by
  intro hsafe
  have hnone : ¬ NamesLogfile [] := by
    rintro ⟨e,he,-⟩
    exact List.not_mem_nil he
  exact hsafe [] none brokenDevice [] 0 (brokenDevice_ends (by decide) hnone 0)

end Logger

end SerialProxy.LogFiles
