import SerialProxy.SerialConfig
import SerialProxy.PeriodicCounters

/-!
# Server settings and the timer of the daemon

The callback of the server configuration clamps the frequency of the timer and
the reconnect interval. Each call of `serverCron` decides with them and with a
counter of 32 bits whether the devices are reconnected, and returns the delay
until the next call. A division by zero is a fault.
-/

namespace SerialProxy.ServerCron

open FaultPrograms CText SerialState SerialConfig PeriodicCounters

/-- `CONFIG_DEFAULT_HZ`. -/
def configDefaultHz : ℤ := 10

/-- `CONFIG_MIN_HZ`. -/
def configMinHz : ℤ := 1

/-- `CONFIG_MAX_HZ`. -/
def configMaxHz : ℤ := 500

/-- `CONFIG_DEFAULT_RECONNECT_INTERVAL_MS`. -/
def configDefaultReconnectIntervalMs : ℤ := 5000

/-- `CONFIG_MIN_RECONNECT_INTERVAL_MS`. -/
def configMinReconnectIntervalMs : ℤ := 1000

/-- `CONFIG_MAX_RECONNECT_INTERVAL_MS`. -/
def configMaxReconnectIntervalMs : ℤ := 3600000

/-- The fields of `struct sproxyServer` that its settings and its timer use. -/
structure SproxyServer where
  /-- Path of the pid file. -/
  pidfile : Option CString
  /-- Log file. -/
  logfile : Option CString
  /-- Signal to shut down. -/
  shutdown : Bool
  /-- Logging level. -/
  verbosity : ℕ
  /-- Is syslog enabled? -/
  syslog : ℤ
  /-- Number of times the cron function has run. -/
  cronloops : ℤ
  /-- Milliseconds to wait before the serial devices are reconnected. -/
  reconnectInterval : ℤ
  /-- Frequency of the timer. -/
  hz : ℤ
  /-- Configuration file of the serial devices. -/
  serialConfigfile : Option CString
  deriving DecidableEq

/-- `serverInitConfig`. -/
def serverInitConfig : SproxyServer where
  pidfile := none
  logfile := none
  shutdown := false
  verbosity := llError
  syslog := 0
  cronloops := 0
  reconnectInterval := configDefaultReconnectIntervalMs
  hz := configDefaultHz
  serialConfigfile := some "serial.ini".toList

/-- `_yesnotoi`. -/
def yesnotoi (s : CString) : ℤ :=
  if strcaseEq s "yes".toList then 1 else if strcaseEq s "no".toList then 0 else -1

/-- `_getLogLevel`. -/
def getLogLevel (name : CString) : ℕ :=
  if strcaseEq name "debug".toList then llDebug
  else if strcaseEq name "info".toList then llInfo
  else if strcaseEq name "warn".toList then llWarn
  else llError

/-- `MATCH(s, n)`. -/
def matchKey (e : ConfigEntry) (s n : String) : Bool :=
  strcaseEq e.sectionName s.toList && strcaseEq e.name n.toList

/-- The two comparisons that keep a setting in its range. -/
def clamp (low high value : ℤ) : ℤ :=
  let value := if value<low then low else value
  if value>high then high else value

/-- `_serverConfigHandler`; false for an entry that is not valid. -/
def serverConfigHandler (server : SproxyServer) (e : ConfigEntry) : Bool×SproxyServer :=
  if matchKey e "logging" "logfile" then (true,{server with logfile := some e.value})
  else if matchKey e "logging" "syslog-enabled" then
    (true,{server with syslog := yesnotoi e.value})
  else if matchKey e "logging" "loglevel" then
    (true,{server with verbosity := getLogLevel e.value})
  else if matchKey e "system" "hz" then
    (true,{server with hz := clamp configMinHz configMaxHz (atoi e.value)})
  else if matchKey e "system" "reconnect-interval" then
    let interval := clamp configMinReconnectIntervalMs configMaxReconnectIntervalMs (atoi e.value)
    (true,{server with reconnectInterval := interval})
  else if matchKey e "system" "pidfile" then (true,{server with pidfile := some e.value})
  else if matchKey e "system" "serial-configfile" then
    (true,{server with serialConfigfile := some e.value})
  else (false,server)

/-- `serverLoadConfig`: the parser hands the entries to the callback one after another. -/
def serverLoadConfig (entries : List ConfigEntry) (server : SproxyServer) : SproxyServer :=
  entries.foldl (fun server e => (serverConfigHandler server e).2) server

/-- Programs of the timer. -/
abbrev TimerProg := EStateM Fault SproxyServer

/-- `a/b` on integers, which truncates. -/
def intDiv (a b : ℤ) : TimerProg ℤ := if b=0 then throw .divByZero else pure (a.tdiv b)

/-- `a%b` on integers, with the sign of `a`. -/
def intRem (a b : ℤ) : TimerProg ℤ := if b=0 then throw .divByZero else pure (a.tmod b)

/-- The condition of `run_with_period`; its second half is skipped when the first one holds. -/
def runWithPeriod (ms : ℤ) : TimerProg Bool := do
  let server ← get
  let tick ← intDiv 1000 server.hz
  if ms≤tick then
    pure true
  else
    let tick ← intDiv 1000 server.hz
    let loops ← intDiv ms tick
    let rest ← intRem server.cronloops loops
    pure (rest=0)

/-- What a call of `serverCron` does besides counting. -/
structure CronTurn where
  /-- It has called `_prepareForShutdown` and `aeStop`. -/
  stops : Bool
  /-- It has called `serialCron`. -/
  reconnects : Bool
  /-- The delay it returns, in milliseconds. -/
  delay : ℤ
  deriving DecidableEq

/-- `serverCron`; the increment of its counter wraps around 32 bits. -/
def serverCron : TimerProg CronTurn := do
  let server ← get
  let reconnects ← runWithPeriod server.reconnectInterval
  modify fun server => {server with cronloops := (server.cronloops+1).bmod (2^32)}
  let delay ← intDiv 1000 server.hz
  pure ⟨server.shutdown,reconnects,delay⟩

/-- `_sigHandler`, for a signal that does not end the process at once. -/
def sigHandler : TimerProg Unit := modify fun server => {server with shutdown := true}

/-- The signals that arrive between two calls of the timer. -/
def receive (signalled : Bool) : TimerProg Unit := if signalled then sigHandler else pure ()

/-- Calls of `serverCron` one after another, each of them behind a signal or not. -/
def serverCrons : List Bool → TimerProg (List CronTurn)
  | [] => pure []
  | signalled::rest => do
    receive signalled
    let turn ← serverCron
    let turns ← serverCrons rest
    pure (turn::turns)

/-- The delay between two calls of `serverCron`, in milliseconds. -/
def cronDelay (server : SproxyServer) : ℤ := (1000 : ℤ).tdiv server.hz

/-- The calls of `serverCron` from one reconnect to the next. -/
def cronPeriod (server : SproxyServer) : ℕ :=
  (max 1 (server.reconnectInterval.tdiv (cronDelay server))).toNat

/-- The call at this place of a run reconnects. -/
def Reconnects (turns : List CronTurn) (i : ℕ) : Prop :=
  ∃ turn,turns[i]?=some turn ∧ turn.reconnects=true

/-- The calls of a run follow the schedule of their settings. -/
structure OnSchedule (period : ℕ) (turns : List CronTurn) : Prop where
  /-- Every delay is positive. -/
  delays : ∀ turn∈turns,0<turn.delay
  /-- The first call reconnects. -/
  first : 0<turns.length → Reconnects turns 0
  /-- Two reconnects without another one between them are a period apart. -/
  spaced : Spaced (Reconnects turns) period turns.length

/-- The calls all return, and follow the schedule. -/
def SoundSchedule (server : SproxyServer) (signals : List Bool) : Prop :=
  ∃ turns server',serverCrons signals server=.ok turns server' ∧ turns.length=signals.length ∧
    OnSchedule (cronPeriod server) turns

/-- The settings the timer divides by are in their ranges. -/
structure InRange (server : SproxyServer) : Prop where
  /-- Frequency. -/
  hz : configMinHz ≤ server.hz ∧ server.hz≤configMaxHz
  /-- Reconnect interval. -/
  reconnectInterval : configMinReconnectIntervalMs ≤ server.reconnectInterval ∧
    server.reconnectInterval≤configMaxReconnectIntervalMs

section Settings

variable {server : SproxyServer} {low high : ℤ}

theorem clamp_mem (h : low≤high) (value : ℤ) :
    low≤clamp low high value ∧ clamp low high value≤high := by
  unfold clamp
  dsimp only
  split <;> split <;> omega

/-- What holds whichever setting the entry changes, and when it changes none, holds behind it. -/
theorem serverConfigHandler_rule {P : SproxyServer → Prop} (e : ConfigEntry)
    (logfile : P {server with logfile := some e.value})
    (syslog : P {server with syslog := yesnotoi e.value})
    (verbosity : P {server with verbosity := getLogLevel e.value})
    (hz : P {server with hz := clamp configMinHz configMaxHz (atoi e.value)})
    (reconnectInterval : P {server with
      reconnectInterval :=
        clamp configMinReconnectIntervalMs configMaxReconnectIntervalMs (atoi e.value)})
    (pidfile : P {server with pidfile := some e.value})
    (serialConfigfile : P {server with serialConfigfile := some e.value}) (unknown : P server) :
    P (serverConfigHandler server e).2 := by
  unfold serverConfigHandler
  split_ifs
  · exact logfile
  · exact syslog
  · exact verbosity
  · exact hz
  · exact reconnectInterval
  · exact pidfile
  · exact serialConfigfile
  · exact unknown

/-- An entry changes the two settings within their ranges, and never the counter. -/
theorem serverConfigHandler_settings (e : ConfigEntry) (h : InRange server) :
    InRange (serverConfigHandler server e).2 ∧
      (serverConfigHandler server e).2.cronloops=server.cronloops := by
  have hhz : configMinHz≤clamp configMinHz configMaxHz (atoi e.value) ∧
      clamp configMinHz configMaxHz (atoi e.value)≤configMaxHz := clamp_mem (by decide) _
  have hinterval : configMinReconnectIntervalMs≤
      clamp configMinReconnectIntervalMs configMaxReconnectIntervalMs (atoi e.value) ∧
      clamp configMinReconnectIntervalMs configMaxReconnectIntervalMs (atoi e.value)≤
        configMaxReconnectIntervalMs := clamp_mem (by decide) _
  have hother : ∀ server' : SproxyServer,server'.hz=server.hz →
      server'.reconnectInterval=server.reconnectInterval → server'.cronloops=server.cronloops →
      InRange server' ∧ server'.cronloops=server.cronloops := by
    intro server' hhz' hinterval' hloops
    exact ⟨⟨by rw [hhz']; exact h.hz,by rw [hinterval']; exact h.reconnectInterval⟩,hloops⟩
  refine serverConfigHandler_rule
    (P:=fun server' => InRange server' ∧ server'.cronloops=server.cronloops) e
    (hother _ rfl rfl rfl) (hother _ rfl rfl rfl) (hother _ rfl rfl rfl) ?_ ?_
    (hother _ rfl rfl rfl) (hother _ rfl rfl rfl) (hother _ rfl rfl rfl)
  · exact ⟨⟨hhz,h.reconnectInterval⟩,rfl⟩
  · exact ⟨⟨h.hz,hinterval⟩,rfl⟩

/-- What every entry keeps holds behind all of them. -/
theorem serverLoadConfig_invariant {I : SproxyServer → Prop}
    (hstep : ∀ server e,I server → I (serverConfigHandler server e).2)
    (entries : List ConfigEntry) (h : I server) : I (serverLoadConfig entries server) := by
  induction entries generalizing server with
  | nil => exact h
  | cons e entries ih => exact ih (hstep server e h)

/-- The settings are in their ranges after any entries. -/
theorem serverLoadConfig_settings (entries : List ConfigEntry) (h : InRange server) :
    InRange (serverLoadConfig entries server) ∧
      (serverLoadConfig entries server).cronloops=server.cronloops := by
  refine serverLoadConfig_invariant (I:=fun s => InRange s ∧ s.cronloops=server.cronloops)
    (fun s e hs => ?_) entries ⟨h,rfl⟩
  obtain ⟨hrange,hloops⟩ := serverConfigHandler_settings e hs.1
  exact ⟨hrange,hloops.trans hs.2⟩

theorem inRange_serverInitConfig : InRange serverInitConfig := ⟨by decide,by decide⟩

end Settings

section Timer

variable {server : SproxyServer} {signals : List Bool} {i : ℕ}

/-- The delay is positive, and no longer than the shortest reconnect interval. -/
theorem cronDelay_bounds (h : InRange server) :
    0<cronDelay server ∧ cronDelay server≤configMinReconnectIntervalMs := by
  obtain ⟨hlow,hhigh⟩ := h.hz
  dsimp only [configMinHz,configMaxHz] at hlow hhigh
  have hdiv : cronDelay server=1000/server.hz := Int.tdiv_eq_ediv_of_nonneg (by decide)
  have hone : 1≤1000/server.hz := Int.le_ediv_of_mul_le (by omega) (by omega)
  rw [hdiv]
  exact ⟨by omega,Int.ediv_le_self _ (by decide)⟩

/-- The interval holds at least one delay, so that the period is their quotient. -/
theorem cronPeriod_eq (h : InRange server) : 0<cronPeriod server ∧ cronPeriod server≤2^31 ∧
    (cronPeriod server : ℤ)=server.reconnectInterval.tdiv (cronDelay server) := by
  obtain ⟨hpos,hle⟩ := cronDelay_bounds h
  obtain ⟨hlow,hhigh⟩ := h.reconnectInterval
  dsimp only [configMinReconnectIntervalMs,configMaxReconnectIntervalMs] at hle hlow hhigh
  have hdiv : server.reconnectInterval.tdiv (cronDelay server)=
      server.reconnectInterval/cronDelay server := Int.tdiv_eq_ediv_of_nonneg (by omega)
  have hone : 1 ≤ server.reconnectInterval/cronDelay server :=
    Int.le_ediv_of_mul_le hpos (by omega)
  have hself : server.reconnectInterval/cronDelay server ≤ server.reconnectInterval :=
    Int.ediv_le_self _ (by omega)
  unfold cronPeriod
  rw [hdiv,max_eq_right hone]
  omega

theorem intDiv_apply {a b : ℤ} (h : b≠0) : intDiv a b server=.ok (a.tdiv b) server := by
  rw [intDiv,if_neg h,pure_apply]

theorem intRem_apply {a b : ℤ} (h : b≠0) : intRem a b server=.ok (a.tmod b) server := by
  rw [intRem,if_neg h,pure_apply]

theorem hz_ne_zero (h : InRange server) : server.hz≠0 := by
  have hlow := h.hz.1
  dsimp only [configMinHz] at hlow
  omega

/-- The condition of `run_with_period` never divides by zero, and asks for a multiple of the
period. -/
theorem runWithPeriod_apply (h : InRange server) : runWithPeriod server.reconnectInterval server=
    .ok (decide ((cronPeriod server : ℤ) ∣ server.cronloops)) server := by
  obtain ⟨hpos,hle⟩ := cronDelay_bounds h
  obtain ⟨hperiod,-,heq⟩ := cronPeriod_eq h
  have htick : intDiv 1000 server.hz server=.ok (cronDelay server) server := intDiv_apply (hz_ne_zero h)
  rw [runWithPeriod,bind_of_ok (get_apply _),bind_of_ok htick]
  by_cases hms : server.reconnectInterval≤cronDelay server
  · have hsame : server.reconnectInterval=cronDelay server :=
      le_antisymm hms (hle.trans h.reconnectInterval.1)
    have hone : (cronPeriod server : ℤ)=1 := by
      rw [heq,hsame]
      exact Int.tdiv_self (by omega)
    rw [if_pos hms,pure_apply,hone,decide_eq_true (one_dvd _)]
  · have hloops : intDiv server.reconnectInterval (cronDelay server) server=
        .ok (cronPeriod server : ℤ) server := by
      rw [heq]
      exact intDiv_apply (by omega)
    have hrest : intRem server.cronloops (cronPeriod server) server=
        .ok (server.cronloops.tmod (cronPeriod server)) server := intRem_apply (by omega)
    rw [if_neg hms,bind_of_ok htick,bind_of_ok hloops,bind_of_ok hrest,pure_apply]
    simp only [Int.dvd_iff_tmod_eq_zero]

/-- What a call of `serverCron` does. -/
def cronTurn (server : SproxyServer) : CronTurn :=
  ⟨server.shutdown,(cronPeriod server : ℤ) ∣ server.cronloops,cronDelay server⟩

/-- The server behind a call of `serverCron`. -/
def counted (server : SproxyServer) : SproxyServer :=
  {server with cronloops := (server.cronloops+1).bmod (2^32)}

/-- A call of the timer returns. -/
theorem serverCron_apply (h : InRange server) :
    serverCron server=.ok (cronTurn server) (counted server) := by
  have hdelay : intDiv 1000 server.hz (counted server)=.ok (cronDelay server) (counted server) :=
    intDiv_apply (hz_ne_zero h)
  rw [serverCron,bind_of_ok (get_apply _),bind_of_ok (runWithPeriod_apply h),
    bind_of_ok (modify_apply _ _)]
  exact bind_of_ok hdelay _

/-- Every call of a run returns the delay, and reconnects when the counter is at a multiple of
the period. -/
theorem serverCrons_apply (signals : List Bool) (h : InRange server)
    (hcount : server.cronloops=counterAt (2^31) i) :
    ∃ turns server',serverCrons signals server=.ok turns server' ∧
      turns.length=signals.length ∧ ∀ k turn,turns[k]?=some turn →
        turn.delay=cronDelay server ∧
          (turn.reconnects=true ↔ Hits (2^31) (cronPeriod server) (i+k)) := by
  induction signals generalizing server i with
  | nil => exact ⟨[],server,rfl,rfl,by simp⟩
  | cons signalled rest ih =>
    obtain ⟨server₀,hsignal,hsettings⟩ : ∃ server₀,receive signalled server=.ok () server₀ ∧
        server₀={server with shutdown := server₀.shutdown} := by
      cases signalled with
      | false => exact ⟨server,rfl,rfl⟩
      | true => exact ⟨_,rfl,rfl⟩
    have hrange : InRange server₀ := by
      rw [hsettings]
      exact ⟨h.hz,h.reconnectInterval⟩
    have hcount₀ : server₀.cronloops=counterAt (2^31) i := by
      rw [hsettings]
      exact hcount
    have hdelay : cronDelay server₀=cronDelay server := by
      rw [hsettings]
      rfl
    have hperiod : cronPeriod server₀=cronPeriod server := by
      rw [hsettings]
      rfl
    have hnext : (counted server₀).cronloops=counterAt (2^31) (i+1) := by
      rw [← counterAt_succ,← hcount₀]
      rfl
    obtain ⟨turns,server',hrun,hlen,hturns⟩ :=
      ih (⟨hrange.hz,hrange.reconnectInterval⟩ : InRange (counted server₀)) hnext
    refine ⟨cronTurn server₀::turns,server',?_,congrArg (·+1) hlen,fun k turn hk => ?_⟩
    · rw [serverCrons,bind_of_ok hsignal,bind_of_ok (serverCron_apply hrange),bind_of_ok hrun]
      rfl
    · cases k with
      | zero =>
        obtain rfl := Option.some.inj hk
        refine ⟨hdelay,?_⟩
        rw [Nat.add_zero,← hperiod,Hits,← hcount₀,cronTurn,decide_eq_true_eq]
      | succ k =>
        obtain ⟨hd,hr⟩ := hturns k turn hk
        have hindex : i+1+k=i+(k+1) := by omega
        rw [hindex] at hr
        exact ⟨hd.trans hdelay,hr.trans (hperiod ▸ Iff.rfl)⟩

/-- A run with settings in their ranges is sound exactly when the period divides the range of
the counter or the run ends before the first reconnect behind the wrap. -/
theorem soundSchedule_iff_of_inRange (h : InRange server) (hcount : server.cronloops=0) :
    SoundSchedule server signals ↔ cronPeriod server ∣ 2^32 ∨
      signals.length≤resumesAt (2^31) (cronPeriod server) := by
  obtain ⟨hpos,hle,-⟩ := cronPeriod_eq h
  obtain ⟨turns,server',hrun,hlen,hturns⟩ :=
    serverCrons_apply signals h (hcount.trans (show (0 : ℤ)=counterAt (2^31) 0 by decide))
  have hreconnects : ∀ k<turns.length,
      (Reconnects turns k ↔ Hits (2^31) (cronPeriod server) k) := by
    intro k hk
    have hget := List.getElem?_eq_getElem hk
    obtain ⟨-,hr⟩ := hturns k _ hget
    rw [Nat.zero_add] at hr
    rw [← hr,Reconnects,hget]
    simp
  have hspaced : Spaced (Reconnects turns) (cronPeriod server) turns.length ↔
      cronPeriod server ∣ 2^32 ∨ signals.length≤resumesAt (2^31) (cronPeriod server) := by
    rw [← hlen]
    refine Iff.trans ⟨fun hs => ?_,fun hs => ?_⟩ (spaced_hits_iff hpos hle)
    · exact hs.congr fun k hk => (hreconnects k hk).symm
    · exact hs.congr hreconnects
  rw [← hspaced]
  constructor
  · rintro ⟨turns',server'',hrun',-,hsound⟩
    rw [hrun,EStateM.Result.ok.injEq] at hrun'
    obtain ⟨rfl,-⟩ := hrun'
    exact hsound.spaced
  · intro hs
    refine ⟨turns,server',hrun,hlen,fun turn hturn => ?_,fun hne => ?_,hs⟩
    · obtain ⟨k,hk,rfl⟩ := List.getElem_of_mem hturn
      rw [(hturns k _ (List.getElem?_eq_getElem hk)).1]
      exact (cronDelay_bounds h).1
    · exact (hreconnects 0 hne).mpr ((hits_of_lt (by decide)).mpr (Nat.dvd_zero _))

/-- For any configuration, a run of the timer is sound exactly when the period divides the range
of the counter or the run ends before the first reconnect behind the wrap. -/
theorem soundSchedule_iff (entries : List ConfigEntry) (signals : List Bool) :
    SoundSchedule (serverLoadConfig entries serverInitConfig) signals ↔
      cronPeriod (serverLoadConfig entries serverInitConfig) ∣ 2^32 ∨
        signals.length≤
          resumesAt (2^31) (cronPeriod (serverLoadConfig entries serverInitConfig)) := by
  obtain ⟨hrange,hcount⟩ := serverLoadConfig_settings entries inRange_serverInitConfig
  exact soundSchedule_iff_of_inRange hrange hcount

/-- With the default settings two reconnects around the wrap are 96 calls apart instead of 50. -/
theorem default_schedule_breaks :
    ¬ SoundSchedule (serverLoadConfig [] serverInitConfig) (List.replicate 2147483697 false) := by
  have hperiod : cronPeriod serverInitConfig=50 := by decide
  have hresumes : resumesAt (2^31) 50=2147483696 := by decide
  change ¬ SoundSchedule serverInitConfig _
  rw [soundSchedule_iff_of_inRange inRange_serverInitConfig rfl,hperiod,hresumes,
    List.length_replicate]
  omega

end Timer

end SerialProxy.ServerCron
