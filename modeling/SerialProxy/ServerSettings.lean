import SerialProxy.PidFiles

/-!
# What the system configuration decides

Each of the seven settings is taken from the last entry of its key, whatever the case of its
letters, and keeps its default when there is none; an unknown entry changes nothing. So the whole
process depends on the system configuration through these last values alone: neither the order
of different keys nor the values that are written over make a difference to any run.
-/

namespace SerialProxy.ServerSettings

open FaultPrograms CText SerialState SerialConfig ServerCron ServerStart PidFiles
open ServerMain hiding serverLoadConfig serverCron sigHandler

/-- Section and name of each setting. -/
def settingKeys : List (String×String) :=
  [("logging","logfile"),("logging","syslog-enabled"),("logging","loglevel"),("system","hz"),
    ("system","reconnect-interval"),("system","pidfile"),("system","serial-configfile")]

/-- The settings with these values in the place of those of the server. -/
def updated (value : String → String → Option CString) (server : SproxyServer) : SproxyServer :=
  {server with
    logfile := (value "logging" "logfile").or server.logfile
    syslog := ((value "logging" "syslog-enabled").map yesnotoi).getD server.syslog
    verbosity := ((value "logging" "loglevel").map getLogLevel).getD server.verbosity
    hz := ((value "system" "hz").map fun v =>
      clamp configMinHz configMaxHz (atoi v)).getD server.hz
    reconnectInterval := ((value "system" "reconnect-interval").map fun v =>
      clamp configMinReconnectIntervalMs configMaxReconnectIntervalMs (atoi v)).getD
        server.reconnectInterval
    pidfile := (value "system" "pidfile").or server.pidfile
    serialConfigfile := (value "system" "serial-configfile").or server.serialConfigfile}

/-- The value of this key in an entry. -/
def entryValue (e : ConfigEntry) (s n : String) : Option CString :=
  if matchKey e s n then some e.value else none

section Settings

variable {server : SproxyServer} {entries entries' : List ConfigEntry} {e : ConfigEntry}
variable {s n s' n' : String} {value value' : String → String → Option CString}

/-- An entry is for one setting and no other, or for none of them. -/
theorem setting_cases (e : ConfigEntry) :
    (∃ key∈settingKeys,matchKey e key.1 key.2=true ∧
      ∀ other∈settingKeys,other≠key → matchKey e other.1 other.2=false) ∨
    ∀ key∈settingKeys,matchKey e key.1 key.2=false := by
  have hnames : ∀ key∈settingKeys,∀ other∈settingKeys,
      key.2.toList.map Char.toLower=other.2.toList.map Char.toLower → other=key := by
    decide
  by_cases hkey : ∃ key∈settingKeys,matchKey e key.1 key.2=true
  · obtain ⟨key,hmem,hmatch⟩ := hkey
    refine .inl ⟨key,hmem,hmatch,fun other hother hne => ?_⟩
    refine Bool.eq_false_iff.mpr fun hm => hne (hnames key hmem other hother ?_)
    exact matchKey_unique hmatch hm
  · exact .inr fun key hmem => Bool.eq_false_iff.mpr fun hm => hkey ⟨key,hmem,hm⟩

/-- An entry updates the one setting it is for, or none. -/
theorem serverConfigHandler_updated (server : SproxyServer) (e : ConfigEntry) :
    (serverConfigHandler server e).2=updated (entryValue e) server := by
  rcases setting_cases e with ⟨key,hkey,hself,hothers⟩|hnone
  · simp only [settingKeys,List.mem_cons,List.not_mem_nil,or_false] at hkey hothers
    unfold serverConfigHandler updated entryValue
    rcases hkey with rfl|rfl|rfl|rfl|rfl|rfl|rfl <;> simp_all
  · simp only [settingKeys,List.forall_mem_cons] at hnone
    unfold serverConfigHandler updated entryValue
    simp [hnone]

/-- Later values go before earlier ones. -/
theorem updated_updated (value value' : String → String → Option CString)
    (server : SproxyServer) : updated value (updated value' server)=
      updated (fun s n => (value s n).or (value' s n)) server := by
  have hget : ∀ {α : Type} (f : CString → α) (x y : Option CString) (a : α),
      (x.map f).getD ((y.map f).getD a)=((x.or y).map f).getD a := by
    intro α f x y a
    cases x <;> rfl
  have hor : ∀ x y z : Option CString,x.or (y.or z)=(x.or y).or z := by
    intro x y z
    cases x <;> rfl
  simp only [updated,hget,hor]

theorem lastValue_cons (s n : String) (e : ConfigEntry) (entries : List ConfigEntry) :
    lastValue s n (e::entries)=(lastValue s n entries).or (entryValue e s n) := by
  rw [lastValue,lastValue,entryValue]
  by_cases he : matchKey e s n=true
  · rw [if_pos he,List.filter_cons_of_pos (p:=fun e => matchKey e s n) he,List.getLast?_cons]
    cases (entries.filter fun e => matchKey e s n).getLast? with
    | none => rfl
    | some last => rfl
  · rw [if_neg he,List.filter_cons_of_neg (p:=fun e => matchKey e s n) he,Option.or_none]

/-- The configuration sets each setting to the last value of its key. -/
theorem serverLoadConfig_updated (entries : List ConfigEntry) (server : SproxyServer) :
    ServerCron.serverLoadConfig entries server=
      updated (fun s n => lastValue s n entries) server := by
  induction entries generalizing server with
  | nil => rfl
  | cons e entries ih =>
    change ServerCron.serverLoadConfig entries (serverConfigHandler server e).2=_
    rw [ih,serverConfigHandler_updated,updated_updated]
    simp only [lastValue_cons]

/-- Configurations with the same last values make the same settings. -/
theorem same_settings
    (h : ∀ key∈settingKeys,lastValue key.1 key.2 entries=lastValue key.1 key.2 entries')
    (server : SproxyServer) : ServerCron.serverLoadConfig entries server=
      ServerCron.serverLoadConfig entries' server := by
  simp only [settingKeys,List.forall_mem_cons] at h
  rw [serverLoadConfig_updated,serverLoadConfig_updated]
  simp only [updated,h]

/-- Every run of the process is the same with two system configurations in which each setting
has the same last value, in whatever order and with whatever values before. -/
theorem same_run (argv : List CString) (env : Environment) (turns : List Turn)
    (h : ∀ key∈settingKeys,lastValue key.1 key.2 entries=lastValue key.1 key.2 entries') :
    main argv (some entries) env turns=main argv (some entries') env turns := by
  have hload : ServerMain.serverLoadConfig (some entries)=
      ServerMain.serverLoadConfig (some entries') := by
    unfold ServerMain.serverLoadConfig
    simp only [same_settings h]
  simp only [main,start,hload]

/-- A configuration in which a value is written over and an entry is unknown. -/
def overwritten : List ConfigEntry :=
  [⟨"system".toList,"hz".toList,"5".toList⟩,⟨"LOGGING".toList,"logfile".toList,"a".toList⟩,
    ⟨"system".toList,"colour".toList,"red".toList⟩,⟨"System".toList,"HZ".toList,"7".toList⟩]

theorem same_run_overwritten : main ["-c".toList,"sproxyd.conf".toList] (some overwritten)
      quietEnvironment [lastTurn]=
    main ["-c".toList,"sproxyd.conf".toList]
      (some [⟨"system".toList,"hz".toList,"7".toList⟩,
        ⟨"logging".toList,"logfile".toList,"a".toList⟩]) quietEnvironment [lastTurn] :=
  same_run _ _ _ (by decide)

end Settings

end SerialProxy.ServerSettings
