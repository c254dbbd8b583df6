import SerialProxy.BufferReset
import SerialProxy.ConfigLoading
import SerialProxy.DispatchPasses
import SerialProxy.Reconnection
import Mathlib.Order.Lattice.Nat

/-!
# Iterations of the event loop

An iteration starts to dispatch with empty receive buffers. Its first pass
clears `AE_READABLE` from every fired event, so that the callbacks of the
second pass only write. A property of an iteration follows from what the
callbacks of the two passes and a reconnect preserve, and every state of a
run is coherent.
-/

namespace SerialProxy.Iterations

open FaultPrograms LinkedCells CText SerialState EventTable SerialNodes SerialLinks EventLoop
open SerialConfig NodeTopology LinkEffects LinkCoherence HandlerEffects DispatchPasses BufferReset
open ConnectEffects Reconnection DeviceConfig ConfigLoading

section Boot

variable {w : World} {shape : Shape}

/-- A tree without links is coherent when nothing else has happened. -/
theorem coherent_of_represents {tree : DeviceTree} (h : Represents w shape tree)
    (ho : SameOutside World.boot w) : Coherent shape w := by
  have hnone : ∀ link l,w.links link≠some l := fun link l hl => by
    rw [ho.links] at hl
    exact absurd hl (by simp [World.boot])
  refine ⟨h.topology,fun link l hl => absurd hl (hnone link l),fun node n link hn hlink => ?_,
    fun link l hl => absurd hl (hnone link l),fun link l hl => absurd hl (hnone link l),
    fun link l _ hl => absurd hl (hnone link l),fun link l _ _ _ hl => absurd hl (hnone link l),
    fun fd hm => ?_,fun link l hl => absurd hl (hnone link l)⟩
  · rw [h.unlinked node n hn] at hlink
    exact absurd hlink (by simp)
  · rw [ho.events] at hm
    exact absurd rfl hm

/-- The configuration is loaded into an empty heap, and then connected. -/
theorem serialInit_loads {entries : List ConfigEntry} {env : NodePtr → ConnectResults}
    (h : serialInit entries env World.boot=.ok () w) : ∃ s shape tree,
      treeOf entries=some tree ∧ Represents s shape tree ∧ SameOutside World.boot s ∧
      Coherent shape s ∧ loadEntries entries World.boot=.ok () s ∧
      serialReconnect env s=.ok () w := by
  have h : (loadEntries entries >>= fun _ => serialReconnect env) World.boot=.ok () w := h
  obtain ⟨_,s,hload,hconnect⟩ := bind_ok_iff.mp h
  obtain ⟨tree,shape,htree,ho,hr⟩ := loadEntries_boot hload
  exact ⟨s,shape,tree,htree,hr,ho,coherent_of_represents hr ho,hload,hconnect⟩

/-- The loop starts behind a first reconnect of the configured tree. -/
theorem serialInit_spec {entries : List ConfigEntry} {env : NodePtr → ConnectResults}
    (h : serialInit entries env World.boot=.ok () w) : ∃ s shape tree,
      treeOf entries=some tree ∧ Represents s shape tree ∧ SameOutside World.boot s ∧
      Coherent shape s ∧ Growing shape env s w := by
  obtain ⟨s,shape,tree,htree,hr,ho,hc,-,hconnect⟩ := serialInit_loads h
  obtain ⟨t,hx,hg⟩ := serialReconnect_spec hc env
  rw [hx,EStateM.Result.ok.injEq] at hconnect
  exact ⟨s,shape,tree,htree,hr,ho,hc,hconnect.2 ▸ hg⟩

/-- The loop starts in a coherent state, before any data has moved. -/
theorem booted_coherent (h : Booted w) : ∃ shape,Coherent shape w ∧ transfers w.trace=[] := by
  obtain ⟨entries,env,h⟩ := h
  obtain ⟨s,shape,tree,-,-,ho,-,hg⟩ := serialInit_spec h
  exact ⟨shape,hg.coherent,by rw [hg.grown.transfers,ho.trace]; rfl⟩

end Boot

/-- The fired list of an iteration. -/
def fired (it : Iteration) : List AeFiredEvent := it.entries.map PollEntry.fired

/-- A fired event after the first pass. -/
def unread (e : AeFiredEvent) : AeFiredEvent := {e with mask := e.mask &&& ~~~aeReadable}

/-- The fired list of the second pass. -/
def remaining (it : Iteration) : List AeFiredEvent := (fired it).map unread

/-- Registrations succeed in the reconnect of an iteration, if it has one. -/
def CronWorks (it : Iteration) : Prop := ∀ env,it.cron=some env → EpollWorks env

/-- The state from which an iteration dispatches. -/
structure Polled (shape : Shape) (w : World) (it : Iteration) (s : World) : Prop where
  /-- It is reached by the reset and the poll. -/
  polls : Polls w it (fired it) s
  /-- It is coherent. -/
  coherent : Coherent shape s
  /-- It differs in buffers only. -/
  same : SameExceptBuffers w s
  /-- No data moved. -/
  transfers : transfers s.trace=transfers w.trace
  /-- Every receive buffer is empty. -/
  empty : ∀ link l,s.links link=some l → l.recvbuflen=0

/-- An iteration from `w` in its first pass, with these fired events handled. -/
def Reading (shape : Shape) (w : World) (it : Iteration) (done : List AeFiredEvent)
    (t : World) : Prop :=
  ∃ s,Polled shape w it s ∧ Turn shape aeReadable AeFiredEvent.first s done t

/-- An iteration from `w` in its second pass, which started in `r`, with these
fired events handled. -/
structure Writing (shape : Shape) (w : World) (it : Iteration) (r : World)
    (done : List AeFiredEvent) (t : World) : Prop where
  /-- The first pass ended in `r`. -/
  reading : Reading shape w it (fired it) r
  /-- It left every event unread. -/
  reads : ∃ s,Polls w it (fired it) s ∧ readPass (fired it) s=.ok (remaining it) r
  /-- The second pass is in the middle. -/
  turn : Turn shape aeWritable AeFiredEvent.second r done t

section Poll

variable {w s t r u : World} {shape : Shape} {it : Iteration} {e : AeFiredEvent}
variable {done todo : List AeFiredEvent}

/-- The poll changes `errno` at most. -/
theorem aeApiPoll_spec (it : Iteration) (s : World) :
    ∃ errno,aeApiPoll it.poll s=.ok (fired it) (record s errno []) := by
  cases h : it.poll with
  | error errno =>
    refine ⟨errno,?_⟩
    simp [aeApiPoll,setErrno,fired,Iteration.entries,h,record]
  | ok entries =>
    refine ⟨s.errno,?_⟩
    simp [aeApiPoll,fired,Iteration.entries,h,record]

theorem polled_spec (hc : Coherent shape w) (it : Iteration) : ∃ s,Polled shape w it s := by
  obtain ⟨s,hs,hsame,htr,-,hempty⟩ := serialBeforeSleep_spec hc
  obtain ⟨errno,hp⟩ := aeApiPoll_spec it s
  have hr := SameExceptBuffers.record s errno []
  refine ⟨_,⟨s,hs,hp⟩,(hsame.trans hr).coherent hc,hsame.trans hr,?_,hempty⟩
  change transfers (s.trace++[])=_
  rw [List.append_nil,htr]

/-- The reset and the poll determine the fired list and the state. -/
theorem polls_unique {fired' : List AeFiredEvent} (h : Polls w it fired' s)
    (h' : Polls w it (fired it) t) : fired'=fired it ∧ s=t := by
  obtain ⟨s₀,hs,hp⟩ := h
  obtain ⟨t₀,ht,hp'⟩ := h'
  rw [hs,EStateM.Result.ok.injEq] at ht
  rw [ht.2,hp',EStateM.Result.ok.injEq] at hp
  exact ⟨hp.1.symm,hp.2.symm⟩

/-- An iteration runs its passes from the polled state. -/
theorem aeMainStep_apply (h : Polls w it (fired it) s) : aeMainStep it w=
    (readPass (fired it) >>= fun second => writePass second >>= fun _ =>
      match it.cron with
      | some env => serialCron env
      | none => pure ()) s := by
  obtain ⟨s₀,hs,hp⟩ := h
  have hx : aeMainStep it w=aeProcessEvents it s₀ := bind_of_ok hs _
  exact hx.trans (bind_of_ok hp _)

theorem fired_nodup (ha : Admitted w it) : ((fired it).map AeFiredEvent.fd).Nodup := by
  have hn : (it.entries.map PollEntry.fd).Nodup := ha.once
  rwa [fired,List.map_map]

theorem remaining_fds (it : Iteration) :
    (remaining it).map AeFiredEvent.fd=(fired it).map AeFiredEvent.fd := by
  rw [remaining,List.map_map]
  rfl

theorem remaining_nodup (ha : Admitted w it) : ((remaining it).map AeFiredEvent.fd).Nodup := by
  rw [remaining_fds]
  exact fired_nodup ha

/-- Every event of the second pass is that of a registered descriptor. -/
theorem remaining_registered (ha : Admitted w it) (he : e∈remaining it) :
    (w.events e.fd).mask≠aeNone := by
  obtain ⟨d,hd,rfl⟩ := List.mem_map.mp he
  obtain ⟨p,hp,rfl⟩ := List.mem_map.mp hd
  exact ha.registered p hp

/-- Only `EPOLLIN` makes an event readable. -/
theorem fired_readable {e : PollEntry} (h : e.fired.mask &&& aeReadable≠0) : e.epollin=true := by
  revert h
  simp only [PollEntry.fired]
  cases e.epollin <;> cases e.epollout <;> cases e.epollerr <;> cases e.epollhup <;> decide

/-- A readable event fires in the first pass: it was asked for. -/
theorem fires_of_readable (ha : Admitted w it) (hs : SameExceptBuffers w s) (he : e∈fired it)
    (hr : e.mask &&& aeReadable≠0) : Fires s aeReadable e := by
  obtain ⟨p,hp,rfl⟩ := List.mem_map.mp he
  have hm : (w.events p.fd).mask &&& aeReadable≠0 := ha.readable p hp (fired_readable hr)
  rw [Fires,hs.events]
  exact and_readable hm hr

/-- The first pass leaves no event readable. -/
theorem settled_eq_unread (ha : Admitted w it) (hs : SameExceptBuffers w s) (he : e∈fired it) :
    settled s aeReadable e=unread e := by
  rw [settled]
  split
  · rfl
  · rename_i hf
    have hr : e.mask &&& aeReadable=0 := by
      by_contra hr
      exact hf (fires_of_readable ha hs he hr)
    have hclear : ∀ m : EventMask,m &&& aeReadable=0 → m &&& ~~~aeReadable=m := by decide
    rw [unread,hclear _ hr]

theorem settled_map (ha : Admitted w it) (hs : SameExceptBuffers w s) :
    (fired it).map (settled s aeReadable)=remaining it :=
  List.map_congr_left fun _ he => settled_eq_unread ha hs he

/-- An event of the second pass is not readable. -/
theorem not_readable_of_remaining (he : e∈remaining it) : e.mask &&& aeReadable=0 := by
  obtain ⟨p,-,rfl⟩ := List.mem_map.mp he
  have hclear : ∀ m : EventMask,m &&& ~~~aeReadable &&& aeReadable=0 := by decide
  exact hclear p.mask

/-- A callback of the second pass does not read, and hence never uses a link it has freed. -/
theorem not_usesFreed_of_remaining (he : e∈remaining it) (env : CallResults) :
    ¬ UsesFreed t e.mask env := fun h => h.1 (not_readable_of_remaining he)

/-- The fired list with nothing behind it. -/
theorem fired_whole (it : Iteration) : fired it=fired it++[] := (List.append_nil _).symm

theorem mem_of_split {xs : List AeFiredEvent} (h : xs=done++e::todo) : e∈xs := by
  rw [h]
  exact List.mem_append_right _ List.mem_cons_self

end Poll

section Rule

variable {w s t r u v : World} {shape : Shape} {it : Iteration} {e : AeFiredEvent}
variable {done todo : List AeFiredEvent}

/-- A part of the first pass that returned is a first pass in the middle. -/
theorem reading_of_run (ha : Admitted w it) (hs : Polled shape w it s)
    {done' : List AeFiredEvent} (hd : fired it=done++todo) (h : readPass done s=.ok done' t) :
    Reading shape w it done t := by
  have hn := fired_nodup ha
  rw [hd,List.map_append] at hn
  have hrule := dispatchPass_rule aeReadable AeFiredEvent.first hs.coherent
    (List.nodup_append.mp hn).1 (fun _ _ => True) (fun _ _ => True) trivial
    (fun _ _ _ _ _ _ _ _ => trivial) fun _ _ _ _ _ _ _ _ _ _ => by split <;> trivial
  exact ⟨s,hs,(hrule.of_ok rfl h).2.1⟩

/-- The first pass returns the fired events of the second. -/
theorem writing_start (ha : Admitted w it) (h : Reading shape w it (fired it) r) :
    Writing shape w it r [] r := by
  obtain ⟨s,hs,ht⟩ := h
  obtain ⟨done',hrun⟩ := ht.run
  have hrule := dispatchPass_rule aeReadable AeFiredEvent.first hs.coherent
    (fired_nodup ha) (fun _ _ => True) (fun _ _ => True) trivial
    (fun _ _ _ _ _ _ _ _ => trivial) fun _ _ _ _ _ _ _ _ _ _ => by split <;> trivial
  have he := (hrule.of_ok rfl hrun).1
  rw [settled_map ha hs.same] at he
  subst he
  exact ⟨⟨s,hs,ht⟩,⟨s,hs.polls,hrun⟩,⟨[],rfl⟩,.start ht.mid.coherent⟩

/-- A part of the second pass that returned is a second pass in the middle. -/
theorem writing_of_run (ha : Admitted w it) (hr : Writing shape w it r [] r)
    {done' : List AeFiredEvent} (hd : remaining it=done++todo) (h : writePass done r=.ok done' t) :
    Writing shape w it r done t := by
  have hn := remaining_nodup ha
  rw [hd,List.map_append] at hn
  have hrule := dispatchPass_rule aeWritable AeFiredEvent.second
    hr.turn.mid.coherent (List.nodup_append.mp hn).1 (fun _ _ => True) (fun _ _ => True) trivial
    (fun _ _ _ _ _ _ _ _ => trivial) fun _ _ _ _ _ _ _ _ _ _ => by split <;> trivial
  exact ⟨hr.reading,hr.reads,(hrule.of_ok rfl h).2.1⟩

/-- A callback of the first pass is called in the middle of that pass. -/
theorem reading_of_firstCall (hc : Coherent shape w) (ha : Admitted w it) (h : FirstCall w it t e) :
    ∃ done todo,fired it=done++e::todo ∧ Reading shape w it done t := by
  obtain ⟨s,done,todo,done',hp,hrun,-⟩ := h
  obtain ⟨s',hs⟩ := polled_spec hc it
  obtain ⟨he,rfl⟩ := polls_unique hp hs.polls
  exact ⟨done,todo,he.symm,reading_of_run ha hs he.symm hrun⟩

theorem Reading.firstCall (h : Reading shape w it done t) (hd : fired it=done++e::todo)
    (hf : Fires t aeReadable e) : FirstCall w it t e := by
  obtain ⟨s,hs,ht⟩ := h
  obtain ⟨done',hrun⟩ := ht.run
  exact ⟨s,done,todo,done',hd ▸ hs.polls,hrun,hf⟩

/-- A turn of the second pass is in the middle of that pass. -/
theorem writing_of_secondTurn (hc : Coherent shape w) (ha : Admitted w it)
    (h : SecondTurn w it t e) :
    ∃ r done todo,remaining it=done++e::todo ∧ Writing shape w it r done t := by
  obtain ⟨fired',s,r,done,todo,done',hp,hread,hwrite⟩ := h
  obtain ⟨s',hs⟩ := polled_spec hc it
  obtain ⟨rfl,rfl⟩ := polls_unique hp hs.polls
  have hr := writing_start ha
    (reading_of_run ha hs (fired_whole it) hread)
  obtain ⟨s',hp',hread'⟩ := hr.reads
  obtain ⟨-,rfl⟩ := polls_unique hp' hp
  rw [hread',EStateM.Result.ok.injEq] at hread
  exact ⟨r,done,todo,hread.1,writing_of_run ha hr hread.1 hwrite⟩

theorem Writing.secondTurn (h : Writing shape w it r done t) (hd : remaining it=done++e::todo) :
    SecondTurn w it t e := by
  obtain ⟨s,hp,hread⟩ := h.reads
  obtain ⟨done',hrun⟩ := h.turn.run
  exact ⟨fired it,s,r,done,todo,done',hp,hd ▸ hread,hrun⟩

/-- Rule for an iteration: the invariants of the two passes are indexed by the
fired events already handled. -/
theorem aeMainStep_rule (hc : Coherent shape w) (ha : Admitted w it)
    (I J : List AeFiredEvent → World → Prop) (K : World → Prop) (E : Fault → World → Prop)
    (hstart : ∀ s,Polled shape w it s → I [] s)
    (hskip : ∀ done e todo t,fired it=done++e::todo → Reading shape w it done t → I done t →
      ¬ Fires t aeReadable e → I (done++[e]) t)
    (hread : ∀ done e todo t link u,fired it=done++e::todo → Reading shape w it done t →
      I done t → Calling shape t aeReadable e e.first link u →
      if UsesFreed t e.mask e.first then E (.freedLink link) u else I (done++[e]) u)
    (hturn : ∀ r,Reading shape w it (fired it) r → I (fired it) r → J [] r)
    (hskip' : ∀ r done e todo t,remaining it=done++e::todo → Writing shape w it r done t →
      J done t → ¬ Fires t aeWritable e → J (done++[e]) t)
    (hwrite : ∀ r done e todo t link u,remaining it=done++e::todo → Writing shape w it r done t →
      J done t → Calling shape t aeWritable e e.second link u → J (done++[e]) u)
    (hcron : ∀ r t u,Writing shape w it r (remaining it) t → J (remaining it) t →
      Coherent shape u → Grown (CronWorks it) t u → K u) :
    Ensures (fun v => v=w) (aeMainStep it) (fun _ => K) E := by
  rintro _ rfl
  obtain ⟨s,hs⟩ := polled_spec hc it
  rw [aeMainStep_apply hs.polls]
  have hfirst := dispatchPass_rule aeReadable AeFiredEvent.first
    hs.coherent (fired_nodup ha) I E (hstart s hs)
    (fun done e todo t hd ht => hskip done e todo t hd ⟨s,hs,ht⟩)
    fun done e todo t link u hd ht => hread done e todo t link u hd ⟨s,hs,ht⟩
  refine (hfirst.bind fun second => ?_) s rfl
  rintro r ⟨rfl,hr,hi⟩
  rw [settled_map ha hs.same]
  have hw := writing_start ha ⟨s,hs,hr⟩
  have hsecond := dispatchPass_rule aeWritable AeFiredEvent.second
    hr.mid.coherent (remaining_nodup ha) J E (hturn r ⟨s,hs,hr⟩ hi)
    (fun done e todo t hd ht => hskip' r done e todo t hd ⟨hw.reading,hw.reads,ht⟩)
    fun done e todo t link u hd ht hj hcall => by
      rw [if_neg (not_usesFreed_of_remaining (mem_of_split hd) _)]
      exact hwrite r done e todo t link u hd ⟨hw.reading,hw.reads,ht⟩ hj hcall
  refine (hsecond.bind fun _ => ?_) r rfl
  rintro t ⟨-,ht,hj⟩
  have hend : ∀ u,Coherent shape u → Grown (CronWorks it) t u → K u := fun u =>
    hcron r t u ⟨hw.reading,hw.reads,ht⟩ hj
  cases hcase : it.cron with
  | none => exact hend t ht.mid.coherent (.refl t)
  | some env =>
    obtain ⟨u,hx,hg⟩ := serialReconnect_spec ht.mid.coherent env
    simp only [serialCron,hx]
    exact hend u hg.coherent (hg.grown.mono fun h => h env hcase)

/-- What the callbacks of the first pass keep holds in the middle of it. -/
theorem reading_invariant (ha : Admitted w it) (I : List AeFiredEvent → World → Prop)
    (hstart : ∀ s,Polled shape w it s → I [] s)
    (hskip : ∀ done e todo t,fired it=done++e::todo → Reading shape w it done t → I done t →
      ¬ Fires t aeReadable e → I (done++[e]) t)
    (hread : ∀ done e todo t link u,fired it=done++e::todo → Reading shape w it done t →
      I done t → Calling shape t aeReadable e e.first link u → ¬ UsesFreed t e.mask e.first →
      I (done++[e]) u)
    (hd : fired it=done++todo) (h : Reading shape w it done t) : I done t := by
  obtain ⟨s,hs,ht⟩ := h
  obtain ⟨done',hrun⟩ := ht.run
  have hn := fired_nodup ha
  rw [hd,List.map_append] at hn
  have hsplit : ∀ front e back,done=front++e::back → fired it=front++e::(back++todo) := by
    rintro front e back rfl
    rw [hd,List.append_assoc,List.cons_append]
  have hrule := dispatchPass_rule aeReadable AeFiredEvent.first hs.coherent
    (List.nodup_append.mp hn).1 I (fun _ _ => True) (hstart s hs)
    (fun front e back t hb hf => hskip front e _ t (hsplit front e back hb) ⟨s,hs,hf⟩)
    fun front e back t link u hb hf hi hcall => by
      split
      · trivial
      · exact hread front e _ t link u (hsplit front e back hb) ⟨s,hs,hf⟩ hi hcall ‹_›
  exact (hrule.of_ok rfl hrun).2.2

/-- What the callbacks of the second pass keep holds in the middle of it. -/
theorem writing_invariant (ha : Admitted w it) (J : List AeFiredEvent → World → Prop)
    (hstart : J [] r)
    (hskip : ∀ done e todo t,remaining it=done++e::todo → Writing shape w it r done t →
      J done t → ¬ Fires t aeWritable e → J (done++[e]) t)
    (hwrite : ∀ done e todo t link u,remaining it=done++e::todo → Writing shape w it r done t →
      J done t → Calling shape t aeWritable e e.second link u → J (done++[e]) u)
    (hd : remaining it=done++todo) (h : Writing shape w it r done t) : J done t := by
  obtain ⟨done',hrun⟩ := h.turn.run
  have hn := remaining_nodup ha
  rw [hd,List.map_append] at hn
  have hc := (writing_start ha h.reading).turn.mid.coherent
  have hsplit : ∀ front e back,done=front++e::back → remaining it=front++e::(back++todo) := by
    rintro front e back rfl
    rw [hd,List.append_assoc,List.cons_append]
  have hrule := dispatchPass_rule aeWritable AeFiredEvent.second hc
    (List.nodup_append.mp hn).1 J (fun _ _ => True) hstart
    (fun front e back t hb hf => hskip front e _ t (hsplit front e back hb) ⟨h.reading,h.reads,hf⟩)
    fun front e back t link u hb hf hj hcall => by
      split
      · trivial
      · exact hwrite front e _ t link u (hsplit front e back hb) ⟨h.reading,h.reads,hf⟩ hj hcall
  exact (hrule.of_ok rfl hrun).2.2

/-- An iteration that returns has done both passes, and a reconnect if its time has come. -/
theorem aeMainStep_parts (hc : Coherent shape w) (ha : Admitted w it)
    (h : aeMainStep it w=.ok () u) : ∃ r t,Writing shape w it r (remaining it) t ∧
      match it.cron with
      | some env => serialReconnect env t=.ok () u
      | none => u=t := by
  obtain ⟨s,hs⟩ := polled_spec hc it
  rw [aeMainStep_apply hs.polls] at h
  obtain ⟨second,r,hread,h⟩ := bind_ok_iff.mp h
  obtain ⟨done,t,hwrite,hcron⟩ := bind_ok_iff.mp h
  have hw := writing_start ha (reading_of_run ha hs (fired_whole it) hread)
  obtain ⟨s',hp,hread'⟩ := hw.reads
  obtain ⟨-,rfl⟩ := polls_unique hp hs.polls
  rw [hread,EStateM.Result.ok.injEq] at hread'
  obtain ⟨rfl,-⟩ := hread'
  refine ⟨r,t,writing_of_run ha hw (List.append_nil _).symm hwrite,?_⟩
  cases hcase : it.cron with
  | none =>
    rw [hcase] at hcron
    cases hcron
    rfl
  | some env =>
    rw [hcase] at hcron
    exact hcron

/-- The state of the first pass is determined by the events handled. -/
theorem reading_unique (h : Reading shape w it done t) (h' : Reading shape w it done u) : t=u := by
  obtain ⟨s,hs,ht⟩ := h
  obtain ⟨s',hs',hu⟩ := h'
  obtain ⟨-,rfl⟩ := polls_unique hs.polls hs'.polls
  obtain ⟨d,hx⟩ := ht.run
  obtain ⟨d',hx'⟩ := hu.run
  rw [hx,EStateM.Result.ok.injEq] at hx'
  exact hx'.2

/-- The state of the second pass is determined by the events handled. -/
theorem writing_unique {r' : World} (h : Writing shape w it r done t)
    (h' : Writing shape w it r' done u) : r=r' ∧ t=u := by
  obtain rfl := reading_unique h.reading h'.reading
  obtain ⟨d,hx⟩ := h.turn.run
  obtain ⟨d',hx'⟩ := h'.turn.run
  rw [hx,EStateM.Result.ok.injEq] at hx'
  exact ⟨rfl,hx'.2⟩

theorem reading_devices (h : Reading shape w it done t) : SameDevices w t := by
  obtain ⟨s,hs,ht⟩ := h
  exact hs.same.devices.trans ht.mid.devices

theorem writing_devices (h : Writing shape w it r done t) : SameDevices w t :=
  (reading_devices h.reading).trans h.turn.mid.devices

/-- An event is fired at one place of the list only. -/
theorem split_unique (hn : ((done++e::todo).map AeFiredEvent.fd).Nodup)
    {done' todo' : List AeFiredEvent} (h : done++e::todo=done'++e::todo') : done=done' :=
  front_unique (List.Nodup.of_map _ hn) h

/-- The first pass calls the callback for an event in one state only. -/
theorem firstCall_state (hc : Coherent shape w) (ha : Admitted w it) (h : FirstCall w it t e)
    (hd : fired it=done++e::todo) (hr : Reading shape w it done u) : t=u := by
  obtain ⟨done',todo',hd',hr'⟩ := reading_of_firstCall hc ha h
  have he := split_unique (hd ▸ fired_nodup ha) (hd.symm.trans hd')
  subst he
  exact reading_unique hr' hr

/-- The second pass reaches an event in one state only. -/
theorem secondTurn_state (hc : Coherent shape w) (ha : Admitted w it) (h : SecondTurn w it t e)
    (hd : remaining it=done++e::todo) (hr : Writing shape w it r done u) : t=u := by
  obtain ⟨r',done',todo',hd',hr'⟩ := writing_of_secondTurn hc ha h
  have he := split_unique (hd ▸ remaining_nodup ha) (hd.symm.trans hd')
  subst he
  exact (writing_unique hr' hr).2

/-- In the first pass a live link differs from that at the start in its buffer only, and
keeps its registration. -/
theorem reading_link (h : Reading shape w it done t) {link : LinkPtr} {l : SerialLink}
    (hl : t.links link=some l) : ∃ l₀,w.links link=some l₀ ∧ l.fd=l₀.fd ∧ l.node=l₀.node ∧
      t.events l.fd=w.events l.fd := by
  obtain ⟨s,hs,ht⟩ := h
  obtain ⟨l₁,hl₁,hf,-,hn⟩ := ht.mid.links link l hl
  obtain ⟨l₀,hl₀,hf₀,-,hn₀⟩ := hs.same.symm.live_link hl₁
  exact ⟨l₀,hl₀,hf.trans hf₀.symm,hn.trans hn₀.symm,by rw [ht.mid.kept link l hl,hs.same.events]⟩

/-- In the second pass too. -/
theorem writing_link (h : Writing shape w it r done t) {link : LinkPtr} {l : SerialLink}
    (hl : t.links link=some l) : ∃ l₀,w.links link=some l₀ ∧ l.fd=l₀.fd ∧ l.node=l₀.node ∧
      t.events l.fd=w.events l.fd := by
  obtain ⟨l₁,hl₁,hf,-,hn⟩ := h.turn.mid.links link l hl
  obtain ⟨l₀,hl₀,hf₀,hn₀,he⟩ := reading_link h.reading hl₁
  exact ⟨l₀,hl₀,hf.trans hf₀,hn.trans hn₀,by rw [h.turn.mid.kept link l hl,hf,he]⟩

/-- An iteration keeps the state coherent. -/
theorem aeMainStep_coherent (hc : Coherent shape w) (ha : Admitted w it)
    (h : aeMainStep it w=.ok () u) : Coherent shape u :=
  (aeMainStep_rule hc ha (fun _ _ => True) (fun _ _ => True) (Coherent shape) (fun _ _ => True)
    (fun _ _ => trivial) (fun _ _ _ _ _ _ _ _ => trivial)
    (fun _ _ _ _ _ _ _ _ _ _ => by split <;> trivial) (fun _ _ _ => trivial)
    (fun _ _ _ _ _ _ _ _ _ => trivial) (fun _ _ _ _ _ _ _ _ _ _ _ => trivial)
    fun _ _ _ _ _ hu _ => hu).of_ok rfl h

/-- What has changed between two states of a run. -/
structure Advanced (w v : World) : Prop where
  /-- Devices are the same. -/
  devices : SameDevices w v
  /-- Numbers of links are only used up. -/
  nextLink : w.nextLink≤v.nextLink
  /-- Open links were open before, up to their buffers, or are new. -/
  links : ∀ link l,v.links link=some l → link<w.nextLink →
    ∃ l₀,w.links link=some l₀ ∧ l.fd=l₀.fd ∧ l.node=l₀.node
  /-- Reads and writes come behind the earlier ones. -/
  transfers : ∃ calls,transfers v.trace=transfers w.trace++calls

theorem Advanced.refl (w : World) : Advanced w w :=
  ⟨.refl w,Nat.le_refl _,fun _ l hl _ => ⟨l,hl,rfl,rfl⟩,[],(List.append_nil _).symm⟩

theorem Advanced.trans {v' : World} (h : Advanced w v) (h' : Advanced v v') : Advanced w v' where
  devices := h.devices.trans h'.devices
  nextLink := h.nextLink.trans h'.nextLink
  links := by
    intro link l hl hlt
    obtain ⟨l₁,hl₁,hf₁,hn₁⟩ := h'.links link l hl (hlt.trans_le h.nextLink)
    obtain ⟨l₀,hl₀,hf₀,hn₀⟩ := h.links link l₁ hl₁ hlt
    exact ⟨l₀,hl₀,hf₁.trans hf₀,hn₁.trans hn₀⟩
  transfers := by
    obtain ⟨calls,hc⟩ := h.transfers
    obtain ⟨calls',hc'⟩ := h'.transfers
    exact ⟨calls++calls',by rw [hc',hc,List.append_assoc]⟩

/-- A reconnect adds links only. -/
theorem Advanced.of_grown {works : Prop} (h : Grown works w v) : Advanced w v where
  devices := h.devices
  nextLink := h.nextLink
  links := by
    intro link l hl hlt
    rcases h.new link l hl with hw|⟨hle,-⟩
    · exact ⟨l,hw,rfl,rfl⟩
    · exact absurd hlt (Nat.not_lt_of_le hle)
  transfers := ⟨[],by rw [h.transfers,List.append_nil]⟩

theorem reading_nextLink (h : Reading shape w it done t) : t.nextLink=w.nextLink := by
  obtain ⟨s,hs,ht⟩ := h
  exact ht.mid.nextLink.trans hs.same.nextLink

theorem writing_nextLink (h : Writing shape w it r done t) : t.nextLink=w.nextLink :=
  h.turn.mid.nextLink.trans (reading_nextLink h.reading)

/-- Every state between two iterations is coherent. -/
theorem running_coherent (h : Running w) : ∃ shape,Coherent shape w :=
  Reachable.invariant (I:=fun w => ∃ shape,Coherent shape w) h
    (fun _ hb => let ⟨shape,hc,_⟩ := booted_coherent hb; ⟨shape,hc⟩)
    fun _ _ _ ⟨shape,hc⟩ ha hx => ⟨shape,aeMainStep_coherent hc ha hx⟩

end Rule

section Runs

variable {w u : World} {shape : Shape} {it : Iteration} {its : List Iteration}
variable {admits : World → Iteration → Prop}

/-- What an iteration that returns has changed. -/
theorem aeMainStep_advanced (hc : Coherent shape w) (ha : Admitted w it)
    (h : aeMainStep it w=.ok () u) : Advanced w u := by
  have hrule := aeMainStep_rule hc ha
    (fun _ t => ∃ calls,transfers t.trace=transfers w.trace++calls)
    (fun _ t => ∃ calls,transfers t.trace=transfers w.trace++calls) (Advanced w)
    (fun _ _ => True) (fun s hs => ⟨[],by rw [hs.transfers,List.append_nil]⟩)
    (fun _ _ _ _ _ _ h _ => h) ?_ (fun _ _ h => h) (fun _ _ _ _ _ _ _ h _ => h) ?_ ?_
  · exact hrule.of_ok rfl h
  · rintro done e todo t link u - - ⟨calls,ht⟩ hcall
    split
    · trivial
    · exact ⟨calls++_,by rw [hcall.effect.transfers,ht,List.append_assoc]⟩
  · rintro r done e todo t link u - - ⟨calls,ht⟩ hcall
    exact ⟨calls++_,by rw [hcall.effect.transfers,ht,List.append_assoc]⟩
  · rintro r t v ht htr - hg
    have hadv : Advanced w t := ⟨writing_devices ht,(writing_nextLink ht).ge,
      fun link l hl _ => let ⟨l₀,hl₀,hf,hn,_⟩ := writing_link ht hl; ⟨l₀,hl₀,hf,hn⟩,htr⟩
    exact hadv.trans (.of_grown hg)

/-- A run keeps the state coherent, and changes it as its iterations do. -/
theorem run_advanced (hadm : ∀ s i,admits s i → Admitted s i) (hc : Coherent shape w)
    (h : Run aeMainStep admits w its u) : Coherent shape u ∧ Advanced w u :=
  h.invariant (I:=fun v => Coherent shape v ∧ Advanced w v) (fun s i _ ⟨hs,hadv⟩ ha hx =>
    ⟨aeMainStep_coherent hs (hadm s i ha) hx,
      hadv.trans (aeMainStep_advanced hs (hadm s i ha) hx)⟩) ⟨hc,.refl w⟩

end Runs

section Sample

/-- A kernel that hands out a descriptor above all open ones. -/
def unusedFd : FreshFd where
  choose := fun fds => (fds.sup Int.natAbs+1 : ℕ)
  fresh := by
    intro fds h
    have hle : ((fds.sup Int.natAbs+1 : ℕ) : ℤ).natAbs≤fds.sup Int.natAbs :=
      Finset.le_sup (f:=Int.natAbs) h
    rw [Int.natAbs_natCast] at hle
    omega
  nonneg := fun _ => Int.natCast_nonneg _

/-- A connect attempt in which every call succeeds. -/
def workingConnect : ConnectResults where
  openPath := .ok unusedFd
  isatty := none
  openpty := .ok ⟨unusedFd,unusedFd,"/dev/pts/1".toList⟩
  remove := none
  symlink := none
  tcgetattr := none
  tiocgserial := .ok 115200
  tiocsserial := none
  tcsetattr := none
  epollCtl := none

/-- The state in which the loop starts for these entries: descriptor 4 is the
master, 5 the virtual `b` and 7 the writer `a`. -/
def sampleBoot : World :=
  finalState (serialInit sampleEntries (fun _ => workingConnect) World.boot)

theorem sampleBoot_booted : Booted sampleBoot :=
  ⟨sampleEntries,fun _ => workingConnect,eq_ok_of_returns (by decide +kernel)⟩

theorem sampleBoot_running : Running sampleBoot := ⟨_,[],sampleBoot_booted,.nil _⟩

/-- A short block. -/
def sampleBlock (byte : UInt8) (bytes : List UInt8) (h : bytes.length<bufsiz) : Block :=
  ⟨byte::bytes,List.cons_ne_nil _ _,h⟩

theorem nil_lt_bufsiz : ([] : List UInt8).length<bufsiz := by decide

/-- The master sends a byte, and the virtual `b` takes it. -/
def exchange : Iteration :=
  ⟨.ok [⟨4,true,false,false,false,⟨.data (sampleBlock 7 [] nil_lt_bufsiz),.zero⟩,⟨.eof,.zero⟩⟩,
    ⟨5,false,true,false,false,⟨.eof,.zero⟩,⟨.eof,.accepted 1 Nat.one_pos⟩⟩],none⟩

theorem exchange_admitted : Admitted sampleBoot exchange :=
  ⟨by decide +kernel,by decide +kernel,by decide +kernel,by decide +kernel⟩

end Sample

end SerialProxy.Iterations
