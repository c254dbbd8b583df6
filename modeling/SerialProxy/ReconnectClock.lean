import SerialProxy.ServerStart

/-!
# The reconnect interval on the clock

The interval is turned into a number of calls of `serverCron` as if these were as far
apart as the delay that `serverCron` returns. But every turn of the loop sleeps a second
before it polls, by which time the timer is always due: the calls are a second apart,
whatever the frequency. So the devices wait for as many seconds as there are delays in the
interval.
-/

namespace SerialProxy.ReconnectClock

open FaultPrograms CText SerialState SerialConfig SerialLinks ServerCron ServerRuns ServerStart
open PeriodicCounters Iterations
open ServerMain hiding serialInit aeProcessEvents serverLog serverLogErrno serverLoadConfig
  serverCron sigHandler

/-- The calls of `serverCron`: when they were made, and whether they ran `serialCron`. -/
def cronCalls (calls : List ServerCall) : List (ℕ×Bool) := calls.filterMap fun call =>
  match call with
  | .cron time reconnects => some (time,reconnects)
  | _ => none

/-- The calls of a run that takes these turns from `d₀`; one more turn may have stopped the
process. -/
def CallsOf (d₀ : Daemon) (turns : List Turn) (crons : List (ℕ×Bool)) : Prop :=
  ∃ d,Run aeMainTurn (fun d _ => d.stop=false) d₀ turns d ∧ (crons=cronCalls d.calls ∨
    ∃ turn fault e,d.stop=false ∧ aeMainTurn turn d=.error fault e ∧ crons=cronCalls e.calls)

/-- No call that does not run `serialCron` is further behind the last call that did than the
reconnect interval and one delay. -/
def NeverLate (server : SproxyServer) (crons : List (ℕ×Bool)) : Prop :=
  ∀ i j early late : ℕ,i<j → crons[i]?=some (early,true) → crons[j]?=some (late,false) →
    (∀ k time : ℕ,i<k → k<j → crons[k]?≠some (time,true)) →
    (late : ℤ)-early≤ server.reconnectInterval+cronDelay server

/-- The first `n` calls of a loop that begins in this state. -/
def schedule (d₀ : Daemon) (n : ℕ) : List (ℕ×Bool) := (List.range n).map fun k =>
  (d₀.clock+1000*(k+1),decide ((cronPeriod d₀.server : ℤ) ∣ counterAt (2^31) k))

section Calls

variable {calls messages : List ServerCall}

/-- The calls of two parts come one after another. -/
theorem cronCalls_append (calls calls' : List ServerCall) :
    cronCalls (calls++calls')=cronCalls calls++cronCalls calls' :=
  List.filterMap_append

/-- A message is no call of `serverCron`. -/
theorem cronCalls_messages (h : ∀ c∈messages,IsMessage c) : cronCalls messages=[] := by
  refine filterMap_messages (fun c hc => ?_) h
  obtain ⟨stream,level,text,errno,rfl⟩ := hc.eq_message
  rfl

/-- Neither is what a shutdown does. -/
theorem cronCalls_shutdownCalls (d : Daemon) : cronCalls (shutdownCalls d)=[] := by
  unfold shutdownCalls
  split_ifs <;> rfl

/-- Nor what the way into the background does. -/
theorem cronCalls_backgroundCalls (d : Daemon) (env : Environment) :
    cronCalls (backgroundCalls d env)=[] := by
  unfold backgroundCalls
  split_ifs <;> rfl

/-- A turn makes one call, a second after the last one. -/
theorem cronCalls_cronState (d : Daemon) (turn : Turn) (w w' : World)
    (h : ∀ c∈messages,IsMessage c) : cronCalls (cronState (awake d turn w) messages w').calls=
      cronCalls d.calls++[(d.clock+1000,reconnectsNow d.server)] := by
  refine (filterMap_cronState (cronCalls_messages h) (awake d turn w) w').trans ?_
  change cronCalls d.calls++(if (awake d turn w).server.shutdown then
    cronCalls (shutdownCalls (awake d turn w)) else [])++[(d.clock+1000,reconnectsNow d.server)]=_
  rw [cronCalls_shutdownCalls,ite_self,List.append_nil]

end Calls

section Schedule

variable {d₀ d : Daemon} {turns : List Turn} {n : ℕ} {crons : List (ℕ×Bool)}

/-- One more turn is one more second. -/
theorem schedule_succ (d₀ : Daemon) (n : ℕ) : schedule d₀ (n+1)=schedule d₀ n++
    [(d₀.clock+1000*(n+1),decide ((cronPeriod d₀.server : ℤ) ∣ counterAt (2^31) n))] := by
  rw [schedule,List.range_succ,List.map_append]
  rfl

/-- The loop from `d₀` has taken `n` turns. -/
structure Ticking (d₀ : Daemon) (n : ℕ) (d : Daemon) : Prop where
  /-- The timer is set. -/
  timed : Timed d
  /-- The settings are the same. -/
  settings : d.server.hz=d₀.server.hz ∧ d.server.reconnectInterval=d₀.server.reconnectInterval
  /-- Every turn has been counted. -/
  counted : d.server.cronloops=counterAt (2^31) n
  /-- Every turn has taken a second. -/
  clock : d.clock=d₀.clock+1000*n
  /-- The calls so far. -/
  calls : cronCalls d.calls=schedule d₀ n

/-- A turn reconnects when the period divides the counter. -/
theorem Ticking.reconnectsNow_eq (h : Ticking d₀ n d) : reconnectsNow d.server=
    decide ((cronPeriod d₀.server : ℤ) ∣ counterAt (2^31) n) := by
  rw [reconnectsNow,h.counted,cronPeriod,cronPeriod,cronDelay,cronDelay,h.settings.1,h.settings.2]

/-- One more turn makes the next call of the schedule. -/
theorem Ticking.turn (h : Ticking d₀ n d) {turn : Turn} {t : Daemon}
    (ht : TurnDone d turn t) : Ticking d₀ (n+1) t := by
  have htimed := TurnDone.timed h.timed ht
  obtain ⟨messages,w,w',hm,rfl,-⟩ := ht
  refine ⟨htimed,h.settings,?_,?_,?_⟩
  · rw [← counterAt_succ,← h.counted]
    rfl
  · change d.clock+1000=_
    rw [h.clock]
    omega
  · refine (cronCalls_cronState d turn w w' hm).trans ?_
    have hnext : d₀.clock+1000*n+1000=d₀.clock+1000*(n+1) := by omega
    rw [h.calls,h.reconnectsNow_eq,h.clock,schedule_succ,hnext]

/-- The loop begins with no call made. -/
theorem ticking_start (h : Started d₀) : Ticking d₀ 0 d₀ := by
  obtain ⟨argv,system,env,clock,entries,hby⟩ := h.by
  obtain ⟨messages,hm,hcalls⟩ := hby.calls
  refine ⟨hby.timed,⟨rfl,rfl⟩,?_,rfl,?_⟩
  · rw [hby.server]
    exact (serverLoadConfig_settings entries inRange_serverInitConfig).2.trans (by decide)
  · rw [hcalls,cronCalls_append,cronCalls_backgroundCalls,cronCalls_messages hm]
    rfl

/-- Every turn of a run makes the next call. -/
theorem ticking_run {s : Daemon} (h : Ticking d₀ n s)
    (hrun : Run aeMainTurn (fun d _ => d.stop=false) s turns d) :
    Ticking d₀ (n+turns.length) d := by
  induction hrun generalizing n with
  | nil s => exact h
  | @cons s t u turn rest _ hx _ ih =>
    have hnext := ih (h.turn ((aeMainTurn_ends h.timed turn).of_ok hx))
    rw [List.length_cons,show n+(rest.length+1)=n+1+rest.length by omega]
    exact hnext

/-- Signals are received the same way in front of a turn and in front of a call of the timer. -/
theorem receive_signalled (d : Daemon) (signals : List Signal) :
    receive (!signals.isEmpty) d.server=.ok () (signalled d signals).server := by
  cases signals with
  | nil =>
    rw [signalled,List.isEmpty_nil,Bool.not_true,Bool.or_false]
    rfl
  | cons sig rest =>
    rw [signalled,List.isEmpty_cons,Bool.not_false,Bool.or_true]
    rfl

/-- Along a run of the process the settings run through the calls of `serverCrons`, each of them
behind the signals of its turn, and the same calls reconnect. -/
theorem serverCrons_of_run {s : Daemon} (h : Timed s)
    (hrun : Run aeMainTurn (fun d _ => d.stop=false) s turns d) :
    ∃ calls,serverCrons (turns.map fun turn => !turn.signals.isEmpty) s.server=
        .ok calls d.server ∧
      (cronCalls d.calls).map Prod.snd=
        (cronCalls s.calls).map Prod.snd++calls.map CronTurn.reconnects := by
  induction hrun with
  | nil s => exact ⟨[],rfl,(List.append_nil _).symm⟩
  | @cons s t u turn rest _ hx _ ih =>
    have hdone := (aeMainTurn_ends h turn).of_ok hx
    obtain ⟨calls,hcalls,hflags⟩ := ih (TurnDone.timed h hdone)
    obtain ⟨messages,w,w',hm,rfl,-⟩ := hdone
    have hrange : InRange (signalled s turn.signals).server :=
      ⟨h.inRange.hz,h.inRange.reconnectInterval⟩
    rw [show (timersState (awake s turn w) messages w').server=
      counted (signalled s turn.signals).server from rfl] at hcalls
    refine ⟨cronTurn (signalled s turn.signals).server::calls,?_,?_⟩
    · rw [List.map_cons,serverCrons,bind_of_ok (receive_signalled s turn.signals),
        bind_of_ok (serverCron_apply hrange),bind_of_ok hcalls]
      rfl
    · rw [hflags,show cronCalls (timersState (awake s turn w) messages w').calls=_ from
        cronCalls_cronState s turn w w' hm,List.map_append,List.append_assoc]
      rfl

/-- The calls of a run are those of the schedule; a turn that stops the process adds at most one,
and that one reconnects. -/
theorem callsOf_schedule (h : Started d₀) (hcalls : CallsOf d₀ turns crons) :
    ∃ rest,crons=schedule d₀ turns.length++rest ∧ ∀ c∈rest,c.2=true := by
  obtain ⟨d,hrun,hd⟩ := hcalls
  have hticking := ticking_run (ticking_start h) hrun
  rw [Nat.zero_add] at hticking
  obtain rfl|⟨turn,fault,e,-,hx,rfl⟩ := hd
  · exact ⟨[],by rw [hticking.calls,List.append_nil],by simp⟩
  · obtain ⟨-,⟨hcalls,-⟩|⟨messages,w,hm,hr,hcalls,-⟩⟩ :=
      (aeMainTurn_ends hticking.timed turn).of_error hx
    · exact ⟨[],by rw [hcalls,hticking.calls,List.append_nil],by simp⟩
    · refine ⟨[(d.clock+1000,reconnectsNow d.server)],?_,?_⟩
      · rw [hcalls,cronCalls_cronState d turn w w hm,hticking.calls]
      · rintro c hc
        rw [List.mem_singleton.mp hc]
        exact hr

end Schedule

section Lateness

variable {d₀ : Daemon} {server : SproxyServer} {turns : List Turn} {n k time : ℕ} {b : Bool}
variable {crons rest : List (ℕ×Bool)}

/-- Calls at the end that reconnect are not late. -/
theorem neverLate_append (h : ∀ c∈rest,c.2=true) :
    NeverLate server (crons++rest) ↔ NeverLate server crons := by
  have hleft : ∀ {k : ℕ} {time : ℕ},(crons++rest)[k]?=some (time,false) → k<crons.length := by
    intro k time hk
    by_contra hge
    rw [List.getElem?_append_right (by omega)] at hk
    exact Bool.noConfusion (h _ (List.mem_of_getElem? hk))
  constructor
  · intro hall i j early late hij hi hj hgap
    have hlt := (List.getElem?_eq_some_iff.mp hj).1
    refine hall i j early late hij ?_ ?_ fun k time hik hkj => ?_
    · rw [List.getElem?_append_left (by omega),hi]
    · rw [List.getElem?_append_left hlt,hj]
    · rw [List.getElem?_append_left (by omega)]
      exact hgap k time hik hkj
  · intro hall i j early late hij hi hj hgap
    have hlt := hleft hj
    rw [List.getElem?_append_left (by omega)] at hi
    rw [List.getElem?_append_left hlt] at hj
    refine hall i j early late hij hi hj fun k time hik hkj => ?_
    have hk := hgap k time hik hkj
    rwa [List.getElem?_append_left (by omega)] at hk

/-- A call of the schedule, before the counter wraps. -/
theorem schedule_get (hn : n≤2^31) : (schedule d₀ n)[k]?=some (time,b) ↔
    k<n ∧ d₀.clock+1000*(k+1)=time ∧ decide (cronPeriod d₀.server ∣ k)=b := by
  rw [schedule,List.getElem?_map]
  by_cases hk : k<n
  · have hhits : (cronPeriod d₀.server : ℤ) ∣ counterAt (2^31) k ↔ cronPeriod d₀.server ∣ k :=
      hits_of_lt (hk.trans_le hn)
    rw [List.getElem?_range hk,Option.map_some,Option.some.injEq,Prod.mk.injEq,
      decide_eq_decide.mpr hhits]
    exact ⟨fun h => ⟨hk,h⟩,fun h => h.2⟩
  · rw [List.getElem?_eq_none (by rw [List.length_range]; omega),Option.map_none]
    constructor
    · intro h
      cases h
    · rintro ⟨hlt,-⟩
      exact absurd hlt hk

/-- Before the counter wraps, the calls are late when a multiple of the period is too far behind. -/
theorem neverLate_schedule_iff (hn : n≤2^31) : NeverLate server (schedule d₀ n) ↔
    Prompt (cronPeriod d₀.server ∣ ·) n
      fun m => 1000*(m : ℤ)≤ server.reconnectInterval+cronDelay server := by
  constructor
  · intro hall i j hij hj hi hnot hgap
    have hlate := hall i j _ _ hij ((schedule_get hn).mpr ⟨hij.trans hj,rfl,decide_eq_true hi⟩)
      ((schedule_get hn).mpr ⟨hj,rfl,decide_eq_false hnot⟩) fun k time hik hkj hk => ?_
    · push_cast at hlate
      omega
    · exact hgap k hik hkj (of_decide_eq_true ((schedule_get hn).mp hk).2.2)
  · intro hprompt i j early late hij hi hj hgap
    obtain ⟨-,rfl,hearly⟩ := (schedule_get hn).mp hi
    obtain ⟨hjn,rfl,hlate⟩ := (schedule_get hn).mp hj
    have hdist := hprompt i j hij hjn (of_decide_eq_true hearly) (of_decide_eq_false hlate)
      fun k hik hkj hk => hgap k _ hik hkj
        ((schedule_get hn).mpr ⟨hkj.trans hjn,rfl,decide_eq_true hk⟩)
    push_cast
    omega

/-- Before the counter wraps, a run reconnects in time exactly when the turns that pass without a
reconnect take no longer than the interval and one delay. -/
theorem neverLate_iff (h : Started d₀) (hcalls : CallsOf d₀ turns crons)
    (hlen : turns.length≤2^31) : NeverLate d₀.server crons ↔
      1000*((min turns.length (cronPeriod d₀.server)-1 : ℕ) : ℤ)≤
        d₀.server.reconnectInterval+cronDelay d₀.server := by
  obtain ⟨rest,rfl,hrest⟩ := callsOf_schedule h hcalls
  have hrange := (ticking_start h).timed.inRange
  obtain ⟨hdelay,-⟩ := cronDelay_bounds hrange
  have hinterval := hrange.reconnectInterval.1
  dsimp only [configMinReconnectIntervalMs] at hinterval
  rw [neverLate_append hrest,neverLate_schedule_iff hlen]
  refine prompt_multiples_iff (cronPeriod_eq hrange).1 (by push_cast; omega) fun m n hmn hn => ?_
  omega

end Lateness

section Sample

/-- A turn in which nothing happens. -/
def idleTurn : Turn := ⟨[],.ok [],0,fun _ => workingConnect⟩

/-- The loop begins with the default settings and no serial device. -/
def idleStart : Daemon := finalState (start [] none quietEnvironment (Daemon.boot 0))

/-- The sample has started. -/
theorem idleStart_started : Started idleStart :=
  ⟨[],none,quietEnvironment,0,eq_ok_of_returns (by decide +kernel)⟩

/-- The state behind a number of such turns. -/
def idleAfter : ℕ → Daemon
  | 0 => idleStart
  | n+1 => finalState (aeMainTurn idleTurn (idleAfter n))

/-- The sample runs without an event. -/
theorem idleAfter_run {n : ℕ} (h : ∀ k<n,(idleAfter k).stop=false ∧
    returns (aeMainTurn idleTurn (idleAfter k))=true) :
    Run aeMainTurn (fun d _ => d.stop=false) idleStart (List.replicate n idleTurn)
      (idleAfter n) := by
  induction n with
  | zero => exact .nil _
  | succ n ih =>
    obtain ⟨hstop,hreturns⟩ := h n (Nat.lt_succ_self n)
    rw [List.replicate_succ']
    exact (ih fun k hk => h k (by omega)).snoc hstop (eq_ok_of_returns hreturns)

/-- Seven seconds with the default settings. -/
theorem idleAfter_calls : CallsOf idleStart (List.replicate 7 idleTurn)
    [(1000,true),(2000,false),(3000,false),(4000,false),(5000,false),(6000,false),(7000,false)] :=
  ⟨idleAfter 7,idleAfter_run (by decide +kernel),.inl (by decide +kernel)⟩

/-- The sample runs for seven turns. -/
theorem neverLate_iff_idle : NeverLate idleStart.server
    [(1000,true),(2000,false),(3000,false),(4000,false),(5000,false),(6000,false),(7000,false)] ↔
      1000*((min 7 (cronPeriod idleStart.server)-1 : ℕ) : ℤ)≤
        idleStart.server.reconnectInterval+cronDelay idleStart.server :=
  neverLate_iff idleStart_started idleAfter_calls (by decide)

/-- Six seconds behind a reconnect, with an interval of five, the next one has not come. -/
theorem default_reconnect_late : ¬ ∀ d₀ turns crons,Started d₀ → CallsOf d₀ turns crons →
    turns.length≤2^31 → NeverLate d₀.server crons := by
  intro h
  have hnever := h _ _ _ idleStart_started idleAfter_calls (by decide)
  have hlate := hnever 0 6 1000 7000 (by decide) rfl rfl ?_
  · exact absurd hlate (by decide +kernel)
  · intro k time hk hlt
    have hcases : k=1 ∨ k=2 ∨ k=3 ∨ k=4 ∨ k=5 := by omega
    rcases hcases with rfl|rfl|rfl|rfl|rfl <;> simp

end Sample

end SerialProxy.ReconnectClock
