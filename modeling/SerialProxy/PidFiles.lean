import SerialProxy.ServerStart

/-!
# The pid file of a run

`createPidFile` tests the configured path the wrong way round and replaces it by the
default one, and `_prepareForShutdown` removes a path that is configured or belongs to a
daemon, where `main` writes one that is configured and belongs to a daemon. So a run up to
the shutdown keeps to its own pid file only when none is configured, or when a daemon has
written the default one.
-/

namespace SerialProxy.PidFiles

open FaultPrograms CText SerialState SerialConfig SerialLinks ServerCron ServerRuns ServerStart
open Iterations
open ServerMain hiding serialInit aeProcessEvents serverLog serverLogErrno serverLoadConfig
  serverCron sigHandler

/-- The paths that the process id was written to. -/
def writtenPaths (calls : List ServerCall) : List CString := calls.filterMap fun call =>
  match call with
  | .writePid path => some path
  | _ => none

/-- The paths that were removed. -/
def unlinkedPaths (calls : List ServerCall) : List CString := calls.filterMap fun call =>
  match call with
  | .unlink path => path
  | _ => none

/-- The last path the entries configure. -/
def lastPidfile (entries : List ConfigEntry) : Option CString :=
  lastValue "system" "pidfile" entries

/-- The pid file is written to the last configured path, and exactly the written ones are
removed. -/
def OwnPidFile (entries : List ConfigEntry) (calls : List ServerCall) : Prop :=
  (∀ path∈writtenPaths calls,lastPidfile entries=some path) ∧
    ∀ path,path∈unlinkedPaths calls ↔ path∈writtenPaths calls

section Calls

variable {calls messages : List ServerCall}

/-- The written paths of two parts come one after another. -/
theorem writtenPaths_append (calls calls' : List ServerCall) :
    writtenPaths (calls++calls')=writtenPaths calls++writtenPaths calls' :=
  List.filterMap_append

/-- So do the unlinked ones. -/
theorem unlinkedPaths_append (calls calls' : List ServerCall) :
    unlinkedPaths (calls++calls')=unlinkedPaths calls++unlinkedPaths calls' :=
  List.filterMap_append

/-- Messages write no pid file. -/
theorem writtenPaths_messages (h : ∀ c∈messages,IsMessage c) : writtenPaths messages=[] := by
  refine filterMap_messages (fun c hc => ?_) h
  obtain ⟨stream,level,text,errno,rfl⟩ := hc.eq_message
  rfl

/-- They unlink none. -/
theorem unlinkedPaths_messages (h : ∀ c∈messages,IsMessage c) : unlinkedPaths messages=[] := by
  refine filterMap_messages (fun c hc => ?_) h
  obtain ⟨stream,level,text,errno,rfl⟩ := hc.eq_message
  rfl

/-- A shutdown writes none. -/
theorem writtenPaths_shutdownCalls (d : Daemon) : writtenPaths (shutdownCalls d)=[] := by
  unfold shutdownCalls
  split_ifs <;> rfl

/-- The shutdown removes the path that is set by then. -/
theorem unlinkedPaths_shutdownCalls (d : Daemon) :
    unlinkedPaths (shutdownCalls d)=d.server.pidfile.toList := by
  unfold shutdownCalls
  cases hpid : d.server.pidfile with
  | none => split_ifs <;> rfl
  | some path =>
    rw [if_pos (.inr rfl)]
    rfl

/-- Nothing is removed while the process starts. -/
theorem paths_backgroundCalls (d : Daemon) (env : Environment) :
    writtenPaths (backgroundCalls d env)=
        (if d.daemonize && d.server.pidfile.isSome && env.pidFileOpens then [configDefaultPidFile]
          else []) ∧
      unlinkedPaths (backgroundCalls d env)=[] := by
  unfold backgroundCalls
  cases d.daemonize <;> cases d.server.pidfile.isSome <;> cases env.pidFileOpens <;>
    exact ⟨rfl,rfl⟩

/-- A call of `serverCron` writes no pid file. -/
theorem writtenPaths_cronState (h : ∀ c∈messages,IsMessage c) (d : Daemon) (w : World) :
    writtenPaths (cronState d messages w).calls=writtenPaths d.calls := by
  refine (filterMap_cronState (writtenPaths_messages h) d w).trans ?_
  change writtenPaths d.calls++
    (if d.server.shutdown then writtenPaths (shutdownCalls d) else [])++[]=writtenPaths d.calls
  rw [writtenPaths_shutdownCalls,ite_self,List.append_nil,List.append_nil]

/-- It removes the path that is set when the process shuts down. -/
theorem unlinkedPaths_cronState (h : ∀ c∈messages,IsMessage c) (d : Daemon) (w : World) :
    unlinkedPaths (cronState d messages w).calls=unlinkedPaths d.calls++
      if d.server.shutdown then d.server.pidfile.toList else [] := by
  refine (filterMap_cronState (unlinkedPaths_messages h) d w).trans ?_
  change unlinkedPaths d.calls++
    (if d.server.shutdown then unlinkedPaths (shutdownCalls d) else [])++[]=_
  rw [unlinkedPaths_shutdownCalls,List.append_nil]

end Calls

section Loop

variable {d₀ d : Daemon} {turn : Turn} {turns : List Turn} {env : Environment}

/-- Since the loop began in `d₀`, the shutdown and nothing else has removed a path. -/
structure Cleaned (d₀ t : Daemon) : Prop where
  /-- Nothing has been written. -/
  written : writtenPaths t.calls=writtenPaths d₀.calls
  /-- What the shutdown removes is removed when the loop is to end. -/
  unlinked : unlinkedPaths t.calls=if t.stop then d₀.server.pidfile.toList else []

/-- The state of the loop. -/
structure Looping (d₀ t : Daemon) : Prop where
  /-- The timer is set. -/
  timed : Timed t
  /-- The path is the same. -/
  pidfile : t.server.pidfile=d₀.server.pidfile
  /-- The calls so far. -/
  cleaned : Cleaned d₀ t

/-- It stays cleaned while nothing is called. -/
theorem Cleaned.of_same {t u : Daemon} (h : Cleaned d₀ t) (hcalls : u.calls=t.calls)
    (hstop : u.stop=t.stop) : Cleaned d₀ u :=
  ⟨by rw [hcalls,h.written],by rw [hcalls,hstop,h.unlinked]⟩

/-- A call of `serverCron` at the end of which the loop is to end has removed the path. -/
theorem Cleaned.cron {u : Daemon} (h : Looping d₀ d) (hstop : d.stop=false)
    {messages : List ServerCall} (w w' : World) (hm : ∀ c∈messages,IsMessage c)
    (hcalls : u.calls=(cronState (awake d turn w) messages w').calls)
    (hend : u.stop=(cronState (awake d turn w) messages w').stop) : Cleaned d₀ u := by
  have hdown : u.stop=(awake d turn w).server.shutdown := by
    rw [hend,cronState]
    change (d.stop || _)=_
    rw [hstop,Bool.false_or]
  have hunlinked := h.cleaned.unlinked
  rw [hstop,if_neg Bool.false_ne_true] at hunlinked
  constructor
  · rw [hcalls,writtenPaths_cronState hm]
    exact h.cleaned.written
  · rw [hcalls,unlinkedPaths_cronState hm,hdown,show (awake d turn w).calls=d.calls from rfl,
      hunlinked,List.nil_append,show (awake d turn w).server.pidfile=_ from h.pidfile]

/-- A turn goes on as before or ends with the pid file cleaned up. -/
theorem aeMainTurn_looping (h : Looping d₀ d) (turn : Turn) (hstop : d.stop=false) :
    EndsIn (aeMainTurn turn d) (fun _ => Looping d₀) (fun _ => Cleaned d₀) := by
  refine (aeMainTurn_ends h.timed turn).mono (fun _ t ht => ?_) fun fault t ht => ?_
  · have htimed := TurnDone.timed h.timed ht
    obtain ⟨messages,w,w',hm,rfl,-⟩ := ht
    exact ⟨htimed,h.pidfile,.cron h hstop w w' hm rfl rfl⟩
  · obtain ⟨-,⟨hcalls,hkeep⟩|⟨messages,w,hm,-,hcalls,hend⟩⟩ := ht
    · exact h.cleaned.of_same hcalls hkeep
    · exact .cron h hstop w w hm hcalls hend

/-- A run up to the shutdown has begun its loop, and has removed the path set by then. -/
theorem main_cleaned (argv : List CString) (system : Option (List ConfigEntry)) (env : Environment)
    (turns : List Turn) (clock : ℕ) : EndsIn (main argv system env turns (Daemon.boot clock))
      (fun _ t => t.stop=true → ∃ entries d₀,StartedBy argv system env clock entries d₀ ∧
        Cleaned d₀ t)
      (fun _ t => t.stop=true → ∃ entries d₀,StartedBy argv system env clock entries d₀ ∧
        Cleaned d₀ t) := by
  refine (start_ends argv system env clock).seq ?_ ?_
  · rintro fault t ⟨hrun,-⟩ hstop
    rw [hrun] at hstop
    exact Bool.noConfusion hstop
  rintro _ d₀ ⟨entries,hby⟩
  have hclean : ∀ t,Cleaned d₀ t → t.stop=true → ∃ entries d₀,
      StartedBy argv system env clock entries d₀ ∧ Cleaned d₀ t :=
    fun t ht _ => ⟨entries,d₀,hby,ht⟩
  have hlooping : Looping d₀ d₀ := by
    obtain ⟨messages,hm,hcalls⟩ := hby.calls
    refine ⟨hby.timed,rfl,rfl,?_⟩
    rw [hby.stop,if_neg Bool.false_ne_true,hcalls,unlinkedPaths_append,unlinkedPaths_messages hm,
      (paths_backgroundCalls _ _).2]
    rfl
  refine (aeLoop_ends (fun _ turn hd hstop => aeMainTurn_looping hd turn hstop) turns
    hlooping).seq (fun _ => hclean) ?_
  intro _ t ht
  rw [bind_of_ok (get_apply t)]
  cases hstop : t.stop with
  | false => exact hclean t ht.cleaned
  | true =>
    -- the end of the process forgets the path, but has no call to make
    rw [if_pos rfl]
    refine (mainTerm_ends ht.timed env).mono (fun _ u hu => ?_) fun fault u hu => ?_
    · exact hclean u (ht.cleaned.of_same hu.1 hu.2)
    · exact hclean u (ht.cleaned.of_same hu.2.1 hu.2.2)

end Loop

section Run

variable {argv : List CString} {system : Option (List ConfigEntry)} {env : Environment}
variable {turns : List Turn} {clock : ℕ} {entries : List ConfigEntry}

/-- The last entry of the pid file counts. -/
theorem settings_pidfile (entries : List ConfigEntry) :
    (settings entries).pidfile=lastPidfile entries := by
  rw [settings,serverLoadConfig_field serverConfigHandler_pidfile,
    show serverInitConfig.pidfile=none from rfl,Option.or_none,lastPidfile]

/-- The written and the removed paths of a run up to the shutdown. -/
theorem shutdown_paths (hload : loadedEntries argv system=some entries)
    (hstop : (finalState (main argv system env turns (Daemon.boot clock))).stop=true) :
    writtenPaths (finalState (main argv system env turns (Daemon.boot clock))).calls=
        (if daemonizes argv && (lastPidfile entries).isSome && env.pidFileOpens then
          [configDefaultPidFile] else []) ∧
      unlinkedPaths (finalState (main argv system env turns (Daemon.boot clock))).calls=
        (if daemonizes argv && (lastPidfile entries).isSome then some configDefaultPidFile
          else lastPidfile entries).toList := by
  obtain ⟨entries',d₀,hby,hclean⟩ :=
    (main_cleaned argv system env turns clock).at_finalState hstop
  have hsame := hby.loaded
  rw [hload,Option.some.injEq] at hsame
  subst hsame
  obtain ⟨messages,hm,hcalls⟩ := hby.calls
  constructor
  · rw [hclean.written,hcalls,writtenPaths_append,writtenPaths_messages hm,
      (paths_backgroundCalls _ _).1,List.append_nil]
    rw [← settings_pidfile]
    rfl
  · rw [hclean.unlinked,hstop,if_pos rfl,hby.server,← settings_pidfile]
    rfl

/-- A run up to the shutdown keeps to its own pid file exactly when no path is configured, or when
it is a daemon, the last configured path is the default one, and the file could be opened. -/
theorem ownPidFile_iff (hload : loadedEntries argv system=some entries)
    (hstop : (finalState (main argv system env turns (Daemon.boot clock))).stop=true) :
    OwnPidFile entries (finalState (main argv system env turns (Daemon.boot clock))).calls ↔
      lastPidfile entries=none ∨ daemonizes argv=true ∧
        lastPidfile entries=some configDefaultPidFile ∧ env.pidFileOpens=true := by
  obtain ⟨hwritten,hunlinked⟩ := shutdown_paths hload hstop
  rw [OwnPidFile,hwritten,hunlinked]
  cases hlast : lastPidfile entries with
  | none => simp
  | some path =>
    cases daemonizes argv with
    -- the configured path is removed without having been written
    | false => simp
    | true =>
      cases env.pidFileOpens with
      -- the default path is removed without having been written
      | false => simp
      | true => simp

end Run

section Sample

/-- A turn in which the process is asked to end. -/
def lastTurn : Turn := ⟨[.sigterm],.ok [],0,fun _ => workingConnect⟩

/-- A configuration of the pid file. -/
def pidEntries (path : CString) : List ConfigEntry :=
  [⟨"system".toList,"pidfile".toList,path⟩]

/-- A daemon with the default path removes the file it has written. -/
theorem ownPidFile_iff_default : OwnPidFile (pidEntries configDefaultPidFile) (finalState
    (main ["-d".toList,"-c".toList,"sproxy.ini".toList] (some (pidEntries configDefaultPidFile))
      quietEnvironment [lastTurn] (Daemon.boot 0))).calls :=
  (ownPidFile_iff (by decide) (by decide +kernel)).mpr
    (.inr ⟨by decide,by decide +kernel,rfl⟩)

/-- In the foreground nothing is written, but the configured path is removed at the end. -/
theorem foreground_removes_pidfile : ¬ ∀ argv system env turns clock entries,
    loadedEntries argv system=some entries →
    (finalState (main argv system env turns (Daemon.boot clock))).stop=true →
    OwnPidFile entries (finalState (main argv system env turns (Daemon.boot clock))).calls := by
  intro h
  have hload : loadedEntries ["-c".toList,"sproxy.ini".toList]
      (some (pidEntries "/run/sproxy.pid".toList))=
        some (pidEntries "/run/sproxy.pid".toList) := by decide
  have hstop : (finalState (main ["-c".toList,"sproxy.ini".toList]
      (some (pidEntries "/run/sproxy.pid".toList)) quietEnvironment [lastTurn]
      (Daemon.boot 0))).stop=true := by decide +kernel
  obtain ⟨hwritten,hunlinked⟩ := shutdown_paths hload hstop
  have hown := (h _ _ _ _ _ _ hload hstop).2 "/run/sproxy.pid".toList
  rw [hwritten,hunlinked] at hown
  exact absurd hown (by decide +kernel)

end Sample

end SerialProxy.PidFiles
