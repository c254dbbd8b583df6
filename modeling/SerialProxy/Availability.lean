import SerialProxy.ReconnectClock
import SerialProxy.ReconnectContract
import SerialProxy.TransferOrigins

/-!
# How long links last, and how soon they come back

A link that is open stays open, over any number of iterations, until a read
or a write of its own fails: no failure of another device or client ends it.
And in any number of turns as large as the period of the reconnects there is
one behind which every device that can be opened is linked, and every virtual
of a linked device whose attempt succeeds.
-/

namespace SerialProxy.Availability

open FaultPrograms SerialState EventTable SerialNodes SerialLinks EventLoop NodeTopology
open LinkEffects LinkCoherence HandlerEffects DispatchPasses ConnectOutcomes Reconnection Iterations
open ReconnectContract TransferOrigins ServerCron ServerRuns ServerStart ReconnectClock
open PeriodicCounters ConfigLoading SerialConfig
open ServerMain (Daemon Turn aeMainTurn start)

/-- The call is a read or a write on this link that does not move data: end of file or hang-up,
or an error other than that there is nothing to read. -/
def Fails (link : LinkPtr) : Call → Prop
  | .read link' _ .eof => link'=link
  | .read link' _ (.fail errno) => link'=link ∧ errno≠eagain
  | .write tolink _ _ _ result => tolink=link ∧ writeCloses result=true
  | _ => False

/-- The links of `w` are open in `t`, unless one of these calls failed on them. -/
def Survives (w : World) (calls : List Call) (t : World) : Prop :=
  ∀ link l,w.links link=some l →
    (∃ l',t.links link=some l' ∧ l'.fd=l.fd ∧ l'.sfd=l.sfd ∧ l'.node=l.node) ∨
      ∃ call∈calls,Fails link call

section Links

variable {w s t u : World} {shape : Shape} {it : Iteration} {its : List Iteration}
variable {link : LinkPtr} {mask : EventMask} {env : CallResults} {calls calls' : List Call}

theorem fails_of_readCloses {result : ReadResult} {fd : Fd} {errno : Errno}
    (h : readCloses errno result=true) : Fails link (.read link fd result) := by
  cases result with
  | data block => exact absurd h Bool.false_ne_true
  | eof => rfl
  | fail e => exact ⟨rfl,of_decide_eq_true h⟩

/-- A callback that closes its link has failed on it. -/
theorem fails_of_closed (h : eventLink t link mask env=none) :
    ∃ call∈eventCalls t link mask env,Fails link call := by
  have hread : mask &&& aeReadable≠0 → readCloses t.errno env.read=true →
      ∃ call∈eventCalls t link mask env,Fails link call := fun hr hcloses =>
    ⟨_,read_mem_eventCalls t link env hr,fails_of_readCloses hcloses⟩
  by_cases hused : UsesFreed t mask env
  · exact hread hused.1 hused.2.2
  rw [eventLink] at h
  split at h
  · rename_i hwrite
    obtain ⟨hw,hrejected⟩ := hwrite
    rw [writeRejected,Bool.and_eq_true] at hrejected
    obtain ⟨source,hoffer⟩ := Option.isSome_iff_exists.mp hrejected.1
    refine ⟨.write link source (linkAt t link).fd (received t source) env.write,?_,
      rfl,hrejected.2⟩
    have hcalled : mask &&& aeWritable≠0 ∧ ¬ UsesFreed t mask env := ⟨hw,hused⟩
    rw [eventCalls,if_pos hcalled,writeCalls,hoffer]
    exact List.mem_append_right _ List.mem_cons_self
  · split at h
    · rename_i hr
      exact hread hr (linkAfterRead_eq_none.mp h)
    · exact absurd h (by simp)

theorem Survives.trans (h : Survives w calls t) (h' : Survives t calls' u) :
    Survives w (calls++calls') u := by
  intro link l hl
  rcases h link l hl with ⟨l',hl',hfd,hsfd,hnode⟩|⟨call,hm,hf⟩
  · rcases h' link l' hl' with ⟨l'',hl'',hfd',hsfd',hnode'⟩|⟨call,hm,hf⟩
    · exact .inl ⟨l'',hl'',hfd'.trans hfd,hsfd'.trans hsfd,hnode'.trans hnode⟩
    · exact .inr ⟨call,List.mem_append_right _ hm,hf⟩
  · exact .inr ⟨call,List.mem_append_left _ hm,hf⟩

/-- A callback ends no link but its own, and that only if it fails on it. -/
theorem Survives.callback (ha : Attached t link)
    (he : Effect shape t link (eventCalls t link mask env) (eventLink t link mask env) u) :
    Survives t (eventCalls t link mask env) u := by
  intro other l hl
  by_cases ho : other=link
  · subst ho
    cases hown : eventLink t other mask env with
    | none => exact .inr (fails_of_closed hown)
    | some l' =>
      have hl' : u.links other=some l' := he.own.trans hown
      obtain ⟨l₀,hl₀,hfd,hsfd,hnode⟩ := he.confined.own l' hl'
      rw [hl,Option.some.injEq] at hl₀
      exact .inl ⟨l',hl',hl₀ ▸ hfd,hl₀ ▸ hsfd,hl₀ ▸ hnode⟩
  · exact .inl ⟨l,(he.confined.links other ho).trans hl,rfl,rfl,rfl⟩

/-- In one iteration, however it ends. -/
theorem aeMainStep_survives (hc : Coherent shape w) (ha : Admitted w it) :
    Survives w (moved w (finalState (aeMainStep it w))) (finalState (aeMainStep it w)) := by
  let I := fun (_ : List AeFiredEvent) t =>
    ∃ calls,transfers t.trace=transfers w.trace++calls ∧ Survives w calls t
  have hstep : ∀ {t u : World} {event e env link calls},Calling shape t event e env link u →
      transfers t.trace=transfers w.trace++calls → Survives w calls t →
      ∃ calls,transfers u.trace=transfers w.trace++calls ∧ Survives w calls u := by
    intro t u event e env link calls hcall hcalls hs
    refine ⟨calls++eventCalls t link e.mask env,?_,hs.trans (.callback hcall.attached hcall.effect)⟩
    rw [hcall.effect.transfers,hcalls,List.append_assoc]
  have hend : ∀ {t : World} {calls},transfers t.trace=transfers w.trace++calls →
      Survives w calls t → Survives w (moved w t) t := fun hcalls hs => by
    rwa [moved_of_append hcalls]
  refine (aeMainStep_rule hc ha I I (fun t => Survives w (moved w t) t)
    (fun _ t => Survives w (moved w t) t) (fun s hs => ?_) (fun _ _ _ _ _ _ h _ => h) ?_
    (fun _ _ h => h) (fun _ _ _ _ _ _ _ h _ => h) ?_ ?_).at_finalState rfl
  · refine ⟨[],by rw [hs.transfers,List.append_nil],fun link l hl => ?_⟩
    exact .inl (hs.same.live_link hl)
  · rintro done e todo t link u - - ⟨calls,hcalls,hs⟩ hcall
    obtain ⟨calls',hcalls',hs'⟩ := hstep hcall hcalls hs
    split
    · exact hend hcalls' hs'
    · exact ⟨calls',hcalls',hs'⟩
  · rintro r done e todo t link u - - ⟨calls,hcalls,hs⟩ hcall
    exact hstep hcall hcalls hs
  · rintro r t u - ⟨calls,hcalls,hs⟩ - hg
    have hkept : Survives t [] u := fun link l hl => .inl ⟨l,hg.links link l hl,rfl,rfl,rfl⟩
    refine hend (hg.transfers.trans hcalls) ?_
    exact List.append_nil calls ▸ hs.trans hkept

/-- Over any number of iterations, the last one however it ends, a link stays open with its
descriptors and its node until a read or a write on this very link fails. -/
theorem links_survive (h : Running w) (hrun : Run aeMainStep Admitted w its u)
    (ha : Admitted u it) :
    Survives w (moved w (finalState (aeMainStep it u))) (finalState (aeMainStep it u)) := by
  obtain ⟨shape,hc⟩ := running_coherent h
  have hrest : transfers u.trace=transfers w.trace++moved w u ∧ Survives w (moved w u) u := by
    clear ha h
    induction hrun with
    | nil w =>
      have hnil : moved w w=[] := moved_of_append (List.append_nil _).symm
      rw [hnil,List.append_nil]
      exact ⟨rfl,fun link l hl => .inl ⟨l,hl,rfl,rfl,rfl⟩⟩
    | @cons w v u first its hadm hstep hrun ih =>
      have hfinal : finalState (aeMainStep first w)=v := by rw [hstep]; rfl
      have hmoves := (aeMainStep_explained hc hadm).moves
      have hfirst := aeMainStep_survives hc hadm
      rw [hfinal] at hmoves hfirst
      obtain ⟨hcalls,hs⟩ := ih (aeMainStep_coherent hc hadm hstep)
      obtain ⟨hall,hsplit⟩ := moved_append hmoves hcalls
      rw [hsplit]
      exact ⟨hsplit ▸ hall,hfirst.trans hs⟩
  obtain ⟨shape',hc'⟩ : ∃ shape,Coherent shape u :=
    ⟨shape,(run_advanced (fun _ _ h => h) hc hrun).1⟩
  obtain ⟨-,hsplit⟩ := moved_append hrest.1 (aeMainStep_explained hc' ha).moves
  rw [hsplit]
  exact hrest.2.trans (aeMainStep_survives hc' ha)

theorem links_survive_exchange :
    Survives sampleBoot (moved sampleBoot (finalState (aeMainStep exchange sampleBoot)))
      (finalState (aeMainStep exchange sampleBoot)) :=
  links_survive sampleBoot_running (.nil _) exchange_admitted

end Links

/-- Behind this turn every master whose attempt succeeds is linked, and every virtual of a linked
master whose attempt succeeds. -/
structure Recovers (turn : Turn) (t : Daemon) : Prop where
  /-- Masters. -/
  masters : ∀ m,nodeIsMaster (nodeAt t.world m)=true →
    attemptWorks (nodeAt t.world m) (turn.connect m)=true → Linked t.world m
  /-- Virtuals. -/
  virtuals : ∀ v m,(nodeAt t.world v).virtualof=some m → Linked t.world m →
    attemptWorks (nodeAt t.world v) (turn.connect v)=true → Linked t.world v

section Recovery

variable {d₀ d e s t : Daemon} {w : World} {shape : Shape} {turn : Turn}
variable {earlier window : List Turn} {env : NodePtr → ConnectResults} {node : NodePtr}
variable {n period : ℕ}

/-- An attempt does not depend on the link of its node. -/
theorem attemptWorks_congr {w' : World} (h : SameDevices w w') (env : ConnectResults) :
    attemptWorks (nodeAt w' node) env=attemptWorks (nodeAt w node) env := by
  have hnode := h.nodeAt node
  calc attemptWorks (nodeAt w' node) env
      =attemptWorks {nodeAt w' node with link := none} env := rfl
    _=attemptWorks {nodeAt w node with link := none} env := by rw [hnode]
    _=attemptWorks (nodeAt w node) env := rfl

/-- Nodes that had a link before a reconnect have one behind it. -/
theorem linked_of_reconnected {w' : World} (h : Reconnected shape w env w')
    (hl : Linked w node) : Linked w' node := by
  obtain ⟨link,hlink⟩ := Option.isSome_iff_exists.mp hl
  obtain ⟨n,hn,hnlink⟩ := node_of_link hlink
  obtain ⟨hn',-⟩ := h.kept node n link hn hnlink
  rw [Linked,nodeAt_of_some hn',hnlink]
  rfl

/-- A turn that reconnects recovers what can be connected. -/
theorem recovers_of_turn (hc : Coherent shape s.world) (hadm : Admitted s.world (iteration s turn))
    (hnow : reconnectsNow s.server=true) (ht : TurnDone s turn t) : Recovers turn t := by
  obtain ⟨messages,w₁,w₂,-,rfl,hstep⟩ := ht
  obtain ⟨r,u,hwriting,hcron⟩ := aeMainStep_parts hc hadm hstep
  rw [iteration,hnow,if_pos rfl] at hcron
  have hu := hwriting.turn.mid.coherent
  obtain ⟨w',hw',hrec,-⟩ := serialReconnect_contract hu turn.connect
  obtain rfl : w'=w₂ := (EStateM.Result.ok.inj (hw'.symm.trans hcron)).2
  obtain ⟨w'',hw'',hgrown⟩ := serialReconnect_spec hu turn.connect
  obtain rfl : w''=w' := (EStateM.Result.ok.inj (hw''.symm.trans hcron)).2
  have htopology := hgrown.coherent.topology
  have hsame := hgrown.grown.devices
  have hlive : ∀ node,nodeAt w'' node≠newNode [] 0 → shape.Mem node := by
    intro node hne
    cases hn : w''.nodes node with
    | none => exact absurd (by rw [nodeAt,hn]; rfl) hne
    | some n => exact htopology.covered node n hn
  refine ⟨fun m hm hworks => ?_,fun v m hof hlinked hworks => ?_⟩
  · change nodeIsMaster (nodeAt w'' m)=true at hm
    have hmem : shape.Mem m := hlive m fun he => by
      rw [he] at hm
      exact absurd hm (by decide)
    obtain ⟨g,hg,rfl⟩ := htopology.group_of_master hmem hm
    by_cases hl : Linked u g.1
    · exact linked_of_reconnected hrec hl
    · refine (hrec.master g hg hl).mpr ?_
      rw [← attemptWorks_congr hsame]
      exact hworks
  · change (nodeAt w'' v).virtualof=some m at hof
    have hmem : shape.Mem v := hlive v fun he => by
      rw [he] at hof
      exact absurd hof (by simp [newNode])
    obtain ⟨g,hg,hin⟩ := hmem
    rcases hin with rfl|hv
    · obtain ⟨n,hn,-,hnone,-⟩ := htopology.master g hg
      rw [nodeAt_of_some hn,hnone] at hof
      exact absurd hof (by simp)
    · obtain ⟨n,hn,-,howner,-⟩ := htopology.virtual g hg v hv
      rw [nodeAt_of_some hn,howner,Option.some.injEq] at hof
      subst hof
      by_cases hl : Linked u v
      · exact linked_of_reconnected hrec hl
      · refine (hrec.virtual g hg v hv hl).mpr ⟨hlinked,?_⟩
        rw [← attemptWorks_congr hsame]
        exact hworks

/-- Among as many consecutive counts as the period, one is a multiple of it. -/
theorem exists_hit (hpos : 0<period) (hcount : period ∣ 2^32 ∨ n+period≤2^31) :
    ∃ k<period,Hits (2^31) period (n+k) := by
  have hmod := Nat.mod_lt n hpos
  have hdiv := Nat.div_add_mod n period
  have hpow : (2^32 : ℕ)=2*2^31 := by norm_num
  by_cases hzero : n%period=0
  · have hdvd : period ∣ n+0 := Nat.dvd_of_mod_eq_zero hzero
    refine ⟨0,hpos,?_⟩
    rcases hcount with hdvd'|hle
    · exact (hits_of_dvd (hpow ▸ hdvd')).mpr hdvd
    · exact (hits_of_lt (by omega)).mpr hdvd
  · have hdvd : period ∣ n+(period-n%period) := by
      refine ⟨n/period+1,?_⟩
      rw [Nat.mul_add,Nat.mul_one]
      omega
    refine ⟨period-n%period,by omega,?_⟩
    rcases hcount with hdvd'|hle
    · exact (hits_of_dvd (hpow ▸ hdvd')).mpr hdvd
    · exact (hits_of_lt (by omega)).mpr hdvd

/-- Whatever links were lost, in any number of consecutive turns as large as the period of the
reconnects there is a turn, within a second for each of them, behind which all that can be
connected is linked. The turns are the first 2^31, unless the period divides 2^32. -/
theorem recovers_within_period (h : Started d₀) (hrun : Run aeMainTurn Serves d₀ earlier d)
    (hwindow : Run aeMainTurn Serves d window e) (hlen : window.length=cronPeriod d₀.server)
    (hcount : cronPeriod d₀.server ∣ 2^32 ∨ earlier.length+window.length≤2^31) :
    ∃ before turn after s t,window=before++turn::after ∧ Run aeMainTurn Serves d before s ∧
      aeMainTurn turn s=.ok () t ∧ Run aeMainTurn Serves t after e ∧
      t.clock≤d.clock+1000*cronPeriod d₀.server ∧ Recovers turn t := by
  have hstops : ∀ (d : Daemon) (turn : Turn),Serves d turn → d.stop=false := fun _ _ h => h.1
  have hstart := ticking_start h
  have hpos := (cronPeriod_eq hstart.timed.inRange).1
  obtain ⟨k,hk,hhit⟩ := exists_hit (n:=earlier.length) hpos (hlen ▸ hcount)
  have hsplit : window=window.take k++window[k]::window.drop (k+1) := by
    rw [List.cons_getElem_drop_succ,List.take_append_drop]
  rw [hsplit] at hwindow
  obtain ⟨s,hbefore,hrest⟩ := hwindow.split
  cases hrest with
  | @cons _ t _ _ _ hserves hturn hafter =>
    have hd := ticking_run hstart (hrun.mono hstops)
    have hs := ticking_run hd (hbefore.mono hstops)
    rw [Nat.zero_add] at hd hs
    have htake : (window.take k).length=k := by
      rw [List.length_take]
      omega
    rw [htake] at hs
    have hdone := (aeMainTurn_ends hs.timed window[k]).of_ok hturn
    have ht := hs.turn hdone
    have hnow : reconnectsNow s.server=true := by
      rw [hs.reconnectsNow_eq]
      exact decide_eq_true hhit
    obtain ⟨shape,hc⟩ := running_coherent (running_of_run h (hrun.append hbefore))
    refine ⟨_,_,_,s,t,hsplit,hbefore,hturn,hafter,?_,recovers_of_turn hc hserves.2 hnow hdone⟩
    rw [ht.clock,hd.clock]
    omega

end Recovery

section Sample

/-- A daemon that reconnects its devices every second. -/
def fastEntries : List ConfigEntry :=
  [⟨"logging".toList,"logfile".toList,"/var/log/sproxyd".toList⟩,
    ⟨"system".toList,"hz".toList,"1".toList⟩,
    ⟨"system".toList,"reconnect-interval".toList,"1000".toList⟩]

/-- The process in front of its loop, with a device and its virtuals connected. -/
def fastStart : Daemon := finalState (start ["-c".toList,"sproxy.ini".toList] (some fastEntries)
  {quietEnvironment with serial := some sampleEntries} (Daemon.boot 0))

theorem fastStart_started : Started fastStart :=
  ⟨_,_,_,0,eq_ok_of_returns (by decide +kernel)⟩

/-- The device hangs up. -/
def lostTurn : Turn :=
  ⟨[],.ok [⟨4,true,false,false,false,⟨.eof,.zero⟩,⟨.eof,.zero⟩⟩],0,fun _ => workingConnect⟩

theorem lostTurn_run : Run aeMainTurn Serves fastStart [lostTurn]
    (finalState (aeMainTurn lostTurn fastStart)) := by
  refine .cons ⟨by decide +kernel,?_⟩ (eq_ok_of_returns (by decide +kernel)) (.nil _)
  exact ⟨by decide +kernel,by decide +kernel,by decide +kernel,by decide +kernel⟩

/-- A device that hangs up is connected again in the same turn. -/
theorem recovers_within_period_fast : ∃ before turn after s t,
    [lostTurn]=before++turn::after ∧ Run aeMainTurn Serves fastStart before s ∧
      aeMainTurn turn s=.ok () t ∧
      Run aeMainTurn Serves t after (finalState (aeMainTurn lostTurn fastStart)) ∧
      t.clock≤fastStart.clock+1000*cronPeriod fastStart.server ∧ Recovers turn t :=
  recovers_within_period fastStart_started (.nil _) lostTurn_run (by decide +kernel)
    (.inl (by decide +kernel))

end Sample

end SerialProxy.Availability
