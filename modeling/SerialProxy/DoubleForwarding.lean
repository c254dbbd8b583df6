import SerialProxy.Forwarding
import SerialProxy.FreedLinks

/-!
# Blocks that are forwarded twice

The callback of a descriptor that fires for both events writes in the first
pass, and its entry stays writable for the second pass. When its source has
been read before it, and both links stay open, the same block is written to
it in each of the two passes. Nothing else is written twice in an iteration.
-/

namespace SerialProxy.DoubleForwarding

open FaultPrograms SerialState EventTable SerialNodes SerialLinks EventLoop NodeTopology
open LinkEffects LinkCoherence HandlerEffects DispatchPasses Reconnection Iterations
open TransferOrigins DataIsolation Forwarding FreedLinks

/-- A write of what one link has received to another. -/
def isCopy (link source : LinkPtr) : Call → Bool
  | .write tolink fromlink _ _ _ => tolink=link && fromlink=source
  | _ => false

/-- A read on a link. -/
def isRead (link : LinkPtr) : Call → Bool
  | .read link' _ _ => link'=link
  | _ => false

/-- Number of writes of what one link has received to another. -/
def copies (link source : LinkPtr) (calls : List Call) : ℕ := calls.countP (isCopy link source)

/-- A callback of the first pass that keeps its link open writes to it, too, what
another link has received, and the write is accepted. -/
structure WritesEarly (t : World) (e : AeFiredEvent) (link source : LinkPtr) : Prop where
  /-- The event is also writable. -/
  writable : e.mask &&& aeWritable≠0
  /-- The read side keeps the link open. -/
  keeps : readCloses t.errno e.first.read=false
  /-- The source link holds received bytes. -/
  offers : offering t (nodeOf t link)=some source
  /-- The write accepts some of them. -/
  accepted : writeCloses e.first.write=false

/-- The callback of an iteration for this event is such an early write. -/
def EarlyWrite (w : World) (it : Iteration) (e : AeFiredEvent) (link source : LinkPtr) : Prop :=
  ∃ t,FirstCall w it t e ∧ (t.events e.fd).clientData=some link ∧ WritesEarly t e link source

/-- Every write so far was the first between its two links; a destination that was
written to is closed, or was written to for a reason. -/
structure Tally (w t : World) (reason : LinkPtr → LinkPtr → Prop) : Prop where
  /-- The reads and writes come behind the earlier ones. -/
  moves : transfers t.trace=transfers w.trace++moved w t
  /-- Nothing was written twice. -/
  once : ∀ link source,copies link source (moved w t)≤1
  /-- Written destinations are accounted for. -/
  settled : ∀ link source,
    copies link source (moved w t)=0 ∨ t.links link=none ∨ reason link source

section Counting

variable {w t u v : World} {shape : Shape} {it : Iteration} {e : AeFiredEvent}
variable {link source other : LinkPtr} {mask event : EventMask} {env : CallResults}
variable {calls calls' : List Call} {reason reason' : LinkPtr → LinkPtr → Prop}

@[simp] theorem copies_append :
    copies link source (calls++calls')=copies link source calls+copies link source calls' :=
  List.countP_append

/-- A callback that copies something writes to its own link what it is offered. -/
theorem copies_pos (h : 0<copies link source (eventCalls t other mask env)) :
    (mask &&& aeWritable≠0 ∧ ¬ UsesFreed t mask env) ∧ link=other ∧
      offering t (nodeOf t other)=some source := by
  obtain ⟨call,hm,hcopy⟩ := List.countP_pos_iff.mp h
  cases call with
  | write tolink fromlink fd data result =>
    simp only [isCopy,Bool.and_eq_true,decide_eq_true_eq] at hcopy
    obtain ⟨rfl,rfl⟩ := hcopy
    obtain ⟨hw,rfl,ho,-⟩ := write_of_mem_eventCalls hm
    exact ⟨hw,rfl,ho⟩
  | _ => exact Bool.noConfusion hcopy

/-- A callback makes one write at most. -/
theorem copies_le_one : copies link source (eventCalls t other mask env)≤1 := by
  have hread : copies link source
      (if mask &&& aeReadable≠0 then [.read other (linkAt t other).fd env.read] else [])=0 := by
    split <;> rfl
  have hwrite : (writeCalls t other env.write).length≤1 := by
    rw [writeCalls]
    split
    · exact Nat.zero_le _
    · exact Nat.le_refl _
  rw [eventCalls,copies_append,hread,Nat.zero_add]
  split
  · exact List.countP_le_length.trans hwrite
  · exact Nat.zero_le _

/-- A callback that is offered a block and keeps its link open until then copies it. -/
theorem copies_offered (hw : mask &&& aeWritable≠0) (hu : ¬ UsesFreed t mask env)
    (ho : offering t (nodeOf t link)=some source) :
    1≤copies link source (eventCalls t link mask env) := by
  have hm : Call.write link source (linkAt t link).fd (received t source) env.write∈
      eventCalls t link mask env := by
    have hboth : mask &&& aeWritable≠0 ∧ ¬ UsesFreed t mask env := ⟨hw,hu⟩
    rw [eventCalls,if_pos hboth,writeCalls,ho]
    exact List.mem_append_right _ List.mem_cons_self
  exact List.countP_pos_iff.mpr ⟨_,hm,by simp [isCopy]⟩

/-- A callback makes one read at most, on its own link for a readable event. -/
theorem reads_eventCalls (t : World) (link other : LinkPtr) (mask : EventMask)
    (env : CallResults) : (eventCalls t other mask env).countP (isRead link)≤1 ∧
    (0<(eventCalls t other mask env).countP (isRead link) → link=other ∧ mask &&& aeReadable≠0) := by
  constructor
  · have hwrite : (if mask &&& aeWritable≠0 ∧ ¬ UsesFreed t mask env then
        writeCalls t other env.write else []).countP (isRead link)=0 := by
      split
      · rw [writeCalls]
        split <;> rfl
      · rfl
    have hlen : (if mask &&& aeReadable≠0 then
        [Call.read other (linkAt t other).fd env.read] else []).length≤1 := by
      split
      · exact Nat.le_refl _
      · exact Nat.zero_le _
    rw [eventCalls,List.countP_append,hwrite,Nat.add_zero]
    exact List.countP_le_length.trans hlen
  · intro hpos
    obtain ⟨call,hm,hread⟩ := List.countP_pos_iff.mp hpos
    cases call with
    | read link' fd result =>
      obtain rfl : link'=link := by simpa [isRead] using hread
      obtain ⟨hr,rfl,-⟩ := read_of_mem_eventCalls hm
      exact ⟨rfl,hr⟩
    | _ => exact Bool.noConfusion hread

theorem Tally.mono (h : Tally w t reason) (hr : ∀ link source,reason link source →
    reason' link source) : Tally w t reason' :=
  ⟨h.moves,h.once,fun link source => (h.settled link source).imp_right
    (Or.imp_right (hr link source))⟩

/-- A callback for a link that was not written to for a reason writes to it first. -/
theorem Tally.step (h : Tally w t reason) (hcall : Calling shape t event e env other u)
    (hfresh : ∀ source,offering t (nodeOf t other)=some source → ¬ reason other source)
    (hkeep : ∀ link source,reason link source → reason' link source)
    (hnew : ∀ source,0<copies other source (eventCalls t other e.mask env) →
      u.links other=none ∨ reason' other source) : Tally w u reason' := by
  obtain ⟨hmoves,hm⟩ := moved_append h.moves hcall.effect.transfers
  refine ⟨hmoves,fun link source => ?_,fun link source => ?_⟩
  · rw [hm,copies_append]
    rcases Nat.eq_zero_or_pos (copies link source (eventCalls t other e.mask env)) with h0|hpos
    · rw [h0]
      exact h.once link source
    · obtain ⟨-,rfl,ho⟩ := copies_pos hpos
      have hzero : copies link source (moved w t)=0 := by
        rcases h.settled link source with h0|hdead|hr
        · exact h0
        · rw [hcall.attached.live] at hdead
          exact absurd hdead (by simp)
        · exact absurd hr (hfresh source ho)
      rw [hzero,Nat.zero_add]
      exact copies_le_one
  · rw [hm,copies_append]
    rcases Nat.eq_zero_or_pos (copies link source (eventCalls t other e.mask env)) with h0|hpos
    · rw [h0,Nat.add_zero]
      refine (h.settled link source).imp_right (Or.imp (fun hdead => ?_) (hkeep link source))
      have hne : link≠other := by
        rintro rfl
        rw [hcall.attached.live] at hdead
        exact absurd hdead (by simp)
      rw [hcall.effect.confined.links link hne,hdead]
    · obtain ⟨-,rfl,-⟩ := copies_pos hpos
      exact .inr (hnew source hpos)

end Counting

/-- The destinations written to early by the events handled so far. -/
def ByEarly (w : World) (it : Iteration) (done : List AeFiredEvent) (link source : LinkPtr) :
    Prop := ∃ d∈done,EarlyWrite w it d link source

/-- In the second pass also those of the descriptors handled in it. -/
def ByTurn (w : World) (it : Iteration) (done : List AeFiredEvent) (link source : LinkPtr) :
    Prop := ByEarly w it (fired it) link source ∨
  ∃ l,w.links link=some l ∧ l.fd∈done.map AeFiredEvent.fd

/-- When the second pass reaches the event of an early write, the source is closed. -/
def SourcesClosed (w : World) (it : Iteration) : Prop :=
  ∀ t e link source,FirstCall w it t e → (t.events e.fd).clientData=some link →
    WritesEarly t e link source → ∀ u,SecondTurn w it u (unread e) → u.links source=none

section Once

variable {w r t u v : World} {shape : Shape} {it : Iteration} {e d : AeFiredEvent}
variable {done todo : List AeFiredEvent} {link source : LinkPtr} {l : SerialLink}

theorem early_fd (hc : Coherent shape w) (ha : Admitted w it) (h : EarlyWrite w it d link source)
    (hl : w.links link=some l) : d∈fired it ∧ d.fd=l.fd := by
  obtain ⟨t,ht,hclient,-⟩ := h
  obtain ⟨hd,-,l',hl',hfd⟩ := firstCall_source hc ha ht hclient
  rw [hl,Option.some.injEq] at hl'
  exact ⟨hd,by rw [hl',hfd]⟩

/-- A callback of the first pass writes to a destination first. -/
theorem tally_read (hc : Coherent shape w) (ha : Admitted w it) (hd : fired it=done++e::todo)
    (ht : Reading shape w it done t) (h : Tally w t (ByEarly w it done))
    (hcall : Calling shape t aeReadable e e.first link u) :
    Tally w u (ByEarly w it (done++[e])) := by
  obtain ⟨l,hl,hfd,-⟩ := reading_link ht hcall.attached.live
  refine h.step hcall (fun source _ => ?_) (fun link source => ?_) fun source hpos => ?_
  · rintro ⟨d,hmem,hearly⟩
    have hnew := fd_not_done (fired_nodup ha) hd
    rw [← hcall.fd,hfd,← (early_fd hc ha hearly hl).2] at hnew
    exact hnew (List.mem_map_of_mem hmem)
  · rintro ⟨d,hmem,hearly⟩
    exact ⟨d,List.mem_append_left _ hmem,hearly⟩
  · obtain ⟨⟨hw,hu⟩,-,ho⟩ := copies_pos hpos
    have hr : e.mask &&& aeReadable≠0 := (ne_of_and_ne hcall.fires).2
    cases hclose : writeCloses e.first.write with
    | true =>
      refine .inl ?_
      rw [hcall.effect.own,eventLink,if_pos ⟨hw,by rw [writeRejected,ho,hclose]; rfl⟩]
    | false =>
      refine .inr ⟨e,List.mem_append_right _ List.mem_cons_self,t,ht.firstCall hd hcall.fires,
        hcall.client,hw,?_,ho,hclose⟩
      rw [← Bool.not_eq_true]
      exact fun h => hu ⟨hr,hw,h⟩

/-- A callback of the second pass writes to a destination first, unless it wrote early from a
source that is still open. -/
theorem tally_write (hc : Coherent shape w) (ha : Admitted w it) (hcond : SourcesClosed w it)
    (hd : remaining it=done++e::todo) (ht : Writing shape w it r done t)
    (h : Tally w t (ByTurn w it done)) (hcall : Calling shape t aeWritable e e.second link u) :
    Tally w u (ByTurn w it (done++[e])) := by
  obtain ⟨l,hl,hfd,-⟩ := writing_link ht hcall.attached.live
  refine h.step hcall (fun source ho => ?_) (fun link source => ?_) fun source _ => ?_
  · have hct := ht.turn.mid.coherent
    have hsrc := (Option.filter_eq_some_iff.mp ho).1
    obtain ⟨hatt,-⟩ := source_attached hct (hcall.attached.mem hct.topology) hsrc
    rintro (⟨d,-,hearly⟩|⟨l',hl',hmem⟩)
    · obtain ⟨hmem,hdfd⟩ := early_fd hc ha hearly hl
      obtain ⟨d',hd',rfl⟩ := List.mem_map.mp (mem_of_split hd)
      have heq : d=d' := List.inj_on_of_nodup_map (fired_nodup ha) hmem hd'
        (by rw [hdfd,← hfd]; exact hcall.fd)
      obtain ⟨t₀,ht₀,hclient,hwrites⟩ := hearly
      have hclosed := hcond t₀ d link source ht₀ hclient hwrites t (heq ▸ ht.secondTurn hd)
      rw [hatt.live] at hclosed
      exact absurd hclosed (by simp)
    · rw [hl,Option.some.injEq] at hl'
      have hnew := fd_not_done (remaining_nodup ha) hd
      rw [← hcall.fd,hfd,hl'] at hnew
      exact hnew hmem
  · rintro (hearly|⟨l,hl,hmem⟩)
    · exact .inl hearly
    · exact .inr ⟨l,hl,by rw [List.map_append]; exact List.mem_append_left _ hmem⟩
  · refine .inr (.inr ⟨l,hl,?_⟩)
    rw [List.map_append,← hfd,hcall.fd]
    exact List.mem_append_right _ List.mem_cons_self

/-- When the sources of early writes are closed in time, nothing is copied twice. -/
theorem copies_of_sourcesClosed (hc : Coherent shape w) (ha : Admitted w it)
    (hcond : SourcesClosed w it) (link source : LinkPtr) :
    copies link source (moved w (finalState (aeMainStep it w)))≤1 := by
  have hrule := aeMainStep_rule hc ha (fun done t => Tally w t (ByEarly w it done))
    (fun done t => Tally w t (ByTurn w it done)) (fun v => copies link source (moved w v)≤1)
    (fun _ v => copies link source (moved w v)≤1) ?_ ?_ ?_ ?_ ?_ ?_ ?_
  · exact hrule.at_finalState rfl
  · intro s hs
    have hm : moved w s=[] := moved_of_append (by rw [hs.transfers,List.append_nil])
    exact ⟨by rw [hm,hs.transfers,List.append_nil],fun _ _ => by rw [hm]; exact Nat.zero_le _,
      fun _ _ => .inl (by rw [hm]; rfl)⟩
  · rintro done e todo t - - h -
    exact h.mono fun _ _ ⟨d,hmem,hearly⟩ => ⟨d,List.mem_append_left _ hmem,hearly⟩
  · intro done e todo t link' u hd ht h hcall
    have hstep := tally_read hc ha hd ht h hcall
    split
    · exact hstep.once link source
    · exact hstep
  · intro r _ h
    exact h.mono fun _ _ hearly => .inl hearly
  · rintro r done e todo t - - h -
    exact h.mono fun _ _ hr => hr.imp_right fun ⟨l,hl,hmem⟩ =>
      ⟨l,hl,by rw [List.map_append]; exact List.mem_append_left _ hmem⟩
  · intro r done e todo t link' u hd ht h hcall
    exact tally_write hc ha hcond hd ht h hcall
  · intro r t u _ h _ hg
    rw [moved_congr hg.transfers]
    exact h.once link source

/-- In the first pass a link was read once at most, and only by the callback of its event. -/
structure ReadOnce (w : World) (link : LinkPtr) (done : List AeFiredEvent) (t : World) :
    Prop where
  /-- Data moved since the start. -/
  moves : transfers t.trace=transfers w.trace++moved w t
  /-- One read at most. -/
  once : (moved w t).countP (isRead link)≤1
  /-- The event of a link that was read is handled. -/
  reason : (moved w t).countP (isRead link)=0 ∨
    ∃ l,w.links link=some l ∧ l.fd∈done.map AeFiredEvent.fd

theorem ReadOnce.skip (h : ReadOnce w link done t) : ReadOnce w link (done++[e]) t where
  moves := h.moves
  once := h.once
  reason := h.reason.imp_right fun ⟨l,hl,hmem⟩ => ⟨l,hl,by
    rw [List.map_append]
    exact List.mem_append_left _ hmem⟩

/-- A callback reads its own link, whose event was not handled before. -/
theorem ReadOnce.call {link' : LinkPtr} (ha : Admitted w it) (hd : fired it=done++e::todo)
    (ht : Reading shape w it done t) (h : ReadOnce w link done t)
    (hcall : Calling shape t aeReadable e e.first link' u) : ReadOnce w link (done++[e]) u := by
  obtain ⟨hmoves,hm⟩ := moved_append h.moves hcall.effect.transfers
  obtain ⟨hle,hown⟩ := reads_eventCalls t link link' e.mask e.first
  rcases Nat.eq_zero_or_pos ((eventCalls t link' e.mask e.first).countP (isRead link)) with
    h0|hpos
  · have hsame : (moved w u).countP (isRead link)=(moved w t).countP (isRead link) := by
      rw [hm,List.countP_append,h0,Nat.add_zero]
    exact ⟨hmoves,hsame ▸ h.once,hsame ▸ h.skip.reason⟩
  · obtain ⟨rfl,-⟩ := hown hpos
    obtain ⟨l₀,hl₀,hf₀,-⟩ := reading_link ht hcall.attached.live
    rw [hcall.fd] at hf₀
    have hzero : (moved w t).countP (isRead link)=0 := by
      refine h.reason.resolve_right fun ⟨l,hl,hmem⟩ => ?_
      rw [hl₀,Option.some.injEq] at hl
      rw [← hl,← hf₀] at hmem
      exact fd_not_done (fired_nodup ha) hd hmem
    refine ⟨hmoves,?_,.inr ⟨l₀,hl₀,?_⟩⟩
    · rw [hm,List.countP_append,hzero,Nat.zero_add]
      exact hle
    · rw [List.map_append,← hf₀]
      exact List.mem_append_right _ List.mem_cons_self

/-- A link is read at most once in an iteration, so that its buffer holds one block in it. -/
theorem reads_le_one (hc : Coherent shape w) (ha : Admitted w it) (link : LinkPtr) :
    (moved w (finalState (aeMainStep it w))).countP (isRead link)≤1 := by
  have hrule := aeMainStep_rule hc ha (ReadOnce w link)
    (fun _ t => transfers t.trace=transfers w.trace++moved w t ∧
      (moved w t).countP (isRead link)≤1)
    (fun v => (moved w v).countP (isRead link)≤1)
    (fun _ v => (moved w v).countP (isRead link)≤1) ?_ ?_ ?_ ?_ ?_ ?_ ?_
  · exact hrule.at_finalState rfl
  · intro s hs
    have hm : moved w s=[] := moved_of_append (by rw [hs.transfers,List.append_nil])
    refine ⟨?_,?_,.inl ?_⟩
    · rw [hm,hs.transfers,List.append_nil]
    · rw [hm]
      exact Nat.zero_le _
    · rw [hm]
      rfl
  · rintro done e todo t - - h -
    exact h.skip
  · rintro done e todo t link' u hd ht h hcall
    have hnext := h.call ha hd ht hcall
    split
    · exact hnext.once
    · exact hnext
  · rintro r - h
    exact ⟨h.moves,h.once⟩
  · rintro r done e todo t - - h -
    exact h
  · rintro r done e todo t link' u hd ht ⟨hmoves,hone⟩ hcall
    obtain ⟨hmoves',hm⟩ := moved_append hmoves hcall.effect.transfers
    refine ⟨hmoves',?_⟩
    rw [hm,List.countP_append]
    rcases Nat.eq_zero_or_pos ((eventCalls t link' e.mask e.second).countP (isRead link)) with
      h0|hpos
    · rw [h0]
      exact hone
    · exact absurd (not_readable_of_remaining (mem_of_split hd)) ((reads_eventCalls ..).2 hpos).2
  · rintro r t u - ⟨-,hone⟩ - hg
    rw [moved_congr hg.transfers]
    exact hone

/-- A buffer that is filled in the first pass was filled by a callback of that pass. -/
theorem source_read (hc : Coherent shape w) (ha : Admitted w it) (hd : fired it=done++todo)
    (ht : Reading shape w it done t) (hl : t.links source=some l) (hlen : 0<l.recvbuflen) :
    ∃ t' e' block,FirstCall w it t' e' ∧ (t'.events e'.fd).clientData=some source ∧
      e'.first.read=.data block := by
  obtain ⟨calls,hlog⟩ := reading_invariant ha (fun _ t => ∃ calls,Logged w it calls t)
    (fun s hs => ⟨[],.start hs⟩) (fun _ _ _ _ _ _ h _ => h)
    (fun done e todo t link u hd ht ⟨calls,h⟩ hcall _ =>
      ⟨_,h.step (serves_first (ht.firstCall hd hcall.fires) hcall rfl) hcall.effect⟩) hd ht
  obtain ⟨block,-,hread⟩ := hlog.held source l hl hlen
  obtain ⟨before,after,hsplit⟩ := List.append_of_mem hread
  obtain ⟨t',e',env,other,hs,hm,-⟩ := hlog.origin before _ after hsplit
  obtain ⟨hr,rfl,-,hres⟩ := read_of_mem_eventCalls hm
  cases hs.call with
  | first h => exact ⟨t',e',block,h,hs.client,hres.symm⟩
  | second h _ =>
    obtain ⟨r,_,_,hd',-⟩ := writing_of_secondTurn hc ha h
    exact absurd (not_readable_of_remaining (mem_of_split hd')) hr

/-- The second pass copies the block of an early write again, if the source is still open. -/
theorem copied_again (hc : Coherent shape w) (ha : Admitted w it) (ht : FirstCall w it t e)
    (hclient : (t.events e.fd).clientData=some link) (hearly : WritesEarly t e link source)
    (hu : SecondTurn w it u (unread e)) (hs : u.links source≠none) (hl : u.links link≠none) :
    Fires u aeWritable (unread e) ∧ (u.events e.fd).clientData=some link ∧
      1≤copies link source (eventCalls u link (unread e).mask e.second) := by
  obtain ⟨done,todo,hd,hr⟩ := reading_of_firstCall hc ha ht
  obtain ⟨r,done',todo',hd',hw⟩ := writing_of_secondTurn hc ha hu
  obtain ⟨hct,link',hserves⟩ := handlerCall_serves hc ha (.first ht)
  rw [hserves.client,Option.some.injEq] at hclient
  subst hclient
  obtain ⟨hsrc,hlen⟩ := Option.filter_eq_some_iff.mp hearly.offers
  obtain ⟨hatt,hfeeds⟩ := source_attached hct (hserves.attached.mem hct.topology) hsrc
  obtain ⟨t',e',block,ht',hclient',hread⟩ :=
    source_read hc ha hd hr hatt.live (by simpa using hlen)
  have hsame : ∀ p,Attached t p → u.links p≠none → nodeOf u p=nodeOf t p ∧
      (linkAt u p).fd=(linkAt t p).fd := by
    intro p hp hlive
    obtain ⟨m,hm⟩ := Option.ne_none_iff_exists'.mp hlive
    obtain ⟨m₀,hm₀,hf,hn,-⟩ := writing_link hw hm
    obtain ⟨m₁,hm₁,hf',hn',-⟩ := reading_link hr hp.live
    rw [hm₀,Option.some.injEq] at hm₁
    subst hm₁
    exact ⟨by rw [nodeOf,nodeOf,linkAt_of_some hm,hn,hn'],by rw [linkAt_of_some hm,hf,hf']⟩
  have hdev : SameDevices t u := (reading_devices hr).symm.trans (writing_devices hw)
  obtain ⟨hnode,hfd⟩ := hsame link' hserves.attached hl
  have hf : Feeds shape u (nodeOf u source) (nodeOf u link') := by
    rw [hnode,(hsame source hatt hs).1]
    exact hfeeds.congr hdev
  obtain ⟨-,hfires,hturn,hcalls⟩ := block_offered hc ha hu hearly.writable ht' hclient' hread hs hl
    (hfd.trans hserves.fd) hf
  rw [hcalls]
  exact ⟨hfires,hturn.client,by simp [copies,isCopy]⟩

/-- An early write leaves its link open. -/
theorem early_own (hr : e.mask &&& aeReadable≠0) (h : WritesEarly t e link source) :
    ∃ l,eventLink t link e.mask e.first=some l := by
  have hw : ¬ (e.mask &&& aeWritable≠0 ∧ writeRejected t link e.first.write=true) := by
    rw [writeRejected,h.accepted,Bool.and_false]
    exact fun hx => Bool.noConfusion hx.2
  rw [eventLink,if_neg hw,if_pos hr]
  refine Option.ne_none_iff_exists'.mp fun hnone => ?_
  rw [linkAfterRead_eq_none,h.keeps] at hnone
  exact Bool.noConfusion hnone

/-- Behind an early write, the first pass has made it and its link is open. -/
theorem early_kept (hc : Coherent shape w) (ha : Admitted w it) (ht : FirstCall w it t e)
    (hclient : (t.events e.fd).clientData=some link) (hearly : WritesEarly t e link source)
    (hd : fired it=done++todo) (hr : Reading shape w it done r) :
    transfers r.trace=transfers w.trace++moved w r ∧ (e∈done →
      1≤copies link source (moved w r) ∧ ∃ l,r.links link=some l) := by
  obtain ⟨-,hread,l₀,hl₀,hfd₀⟩ := firstCall_source hc ha ht hclient
  refine reading_invariant ha (fun done r => transfers r.trace=transfers w.trace++moved w r ∧
    (e∈done → 1≤copies link source (moved w r) ∧ ∃ l,r.links link=some l)) ?_ ?_ ?_ hd hr
  · intro s hs
    have hm : moved w s=[] := moved_of_append (by rw [hs.transfers,List.append_nil])
    exact ⟨by rw [hm,hs.transfers,List.append_nil],fun h => absurd h (by simp)⟩
  · intro done d todo t' hd ht' h hskip
    refine ⟨h.1,fun hmem => ?_⟩
    rcases List.mem_append.mp hmem with hmem|hmem
    · exact h.2 hmem
    · rw [List.mem_singleton] at hmem
      subst hmem
      obtain rfl := firstCall_state hc ha ht hd ht'
      obtain ⟨_,_,_,_,-,-,hfires⟩ := ht
      exact absurd hfires hskip
  · intro done d todo t' link' u hd ht' h hcall hu
    obtain ⟨hmoves,hm⟩ := moved_append h.1 hcall.effect.transfers
    refine ⟨hmoves,fun hmem => ?_⟩
    rw [hm,copies_append]
    rcases List.mem_append.mp hmem with hmem|hmem
    · obtain ⟨hone,l,hl⟩ := h.2 hmem
      refine ⟨hone.trans (Nat.le_add_right _ _),l,?_⟩
      rw [hcall.effect.confined.links,hl]
      rintro rfl
      obtain ⟨l₁,hl₁,hf,-⟩ := reading_link ht' hcall.attached.live
      rw [hl₀,Option.some.injEq] at hl₁
      have hnew := fd_not_done (fired_nodup ha) hd
      rw [← hcall.fd,hf,← hl₁,hfd₀] at hnew
      exact hnew (List.mem_map_of_mem hmem)
    · rw [List.mem_singleton] at hmem
      subst hmem
      obtain rfl := firstCall_state hc ha ht hd ht'
      rw [hcall.client,Option.some.injEq] at hclient
      subst hclient
      obtain ⟨l,hl⟩ := early_own hread hearly
      refine ⟨(copies_offered hearly.writable hu hearly.offers).trans (Nat.le_add_left _ _),l,?_⟩
      rw [hcall.effect.own,hl]

/-- The link of an early write is open when the second pass reaches its event. -/
theorem early_live (hc : Coherent shape w) (ha : Admitted w it) (ht : FirstCall w it t e)
    (hclient : (t.events e.fd).clientData=some link) (hearly : WritesEarly t e link source)
    (hu : SecondTurn w it u (unread e)) : u.links link≠none := by
  obtain ⟨hmem,-,l₀,hl₀,hfd₀⟩ := firstCall_source hc ha ht hclient
  obtain ⟨r,done,todo,hd,hw⟩ := writing_of_secondTurn hc ha hu
  obtain ⟨l,hl⟩ := ((early_kept hc ha ht hclient hearly (fired_whole it)
    hw.reading).2 hmem).2
  obtain ⟨l₁,hl₁,hf,-⟩ := reading_link hw.reading hl
  rw [hl₀,Option.some.injEq] at hl₁
  have hnew := fd_not_done (remaining_nodup ha) hd
  rw [hw.turn.mid.later link l hl (by rw [hf,← hl₁,hfd₀]; exact hnew)]
  simp

/-- An early write from a source that is still open in the second pass is repeated there. -/
theorem two_copies (hc : Coherent shape w) (ha : Admitted w it) (ht : FirstCall w it t e)
    (hclient : (t.events e.fd).clientData=some link) (hearly : WritesEarly t e link source)
    (hu : SecondTurn w it u (unread e)) (hs : u.links source≠none) :
    2≤copies link source (moved w (finalState (aeMainStep it w))) := by
  have hmem := (firstCall_source hc ha ht hclient).1
  obtain ⟨hfires,hsame,hagain⟩ := copied_again hc ha ht hclient hearly hu hs
    (early_live hc ha ht hclient hearly hu)
  have hrule := aeMainStep_rule hc ha (fun _ _ => True)
    (fun done v => transfers v.trace=transfers w.trace++moved w v ∧
      1≤copies link source (moved w v) ∧ (unread e∈done → 2≤copies link source (moved w v)))
    (fun v => 2≤copies link source (moved w v))
    (fun _ v => 2≤copies link source (moved w v)) (fun _ _ => trivial)
    (fun _ _ _ _ _ _ _ _ => trivial) ?_ ?_ ?_ ?_ ?_
  · exact hrule.at_finalState rfl
  · intro done d todo t' link' v hd ht' _ hcall
    rw [if_neg (not_usesFreed_of_secondTurn hc ha hu (ht'.firstCall hd hcall.fires))]
    trivial
  · intro r hr _
    obtain ⟨hmoves,hone⟩ := early_kept hc ha ht hclient hearly (fired_whole it) hr
    exact ⟨hmoves,(hone hmem).1,fun h => absurd h (by simp)⟩
  · rintro r done d todo t' hd ht' ⟨hmoves,hone,htwo⟩ hskip
    refine ⟨hmoves,hone,fun h => ?_⟩
    rcases List.mem_append.mp h with h|h
    · exact htwo h
    · rw [List.mem_singleton] at h
      subst h
      obtain rfl := secondTurn_state hc ha hu hd ht'
      exact absurd hfires hskip
  · rintro r done d todo t' link' v hd ht' ⟨hmoves,hone,htwo⟩ hcall
    obtain ⟨hmoves',hm⟩ := moved_append hmoves hcall.effect.transfers
    rw [hm,copies_append]
    refine ⟨hm ▸ hmoves',hone.trans (Nat.le_add_right _ _),fun h => ?_⟩
    rcases List.mem_append.mp h with h|h
    · exact (htwo h).trans (Nat.le_add_right _ _)
    · rw [List.mem_singleton] at h
      subst h
      obtain rfl := secondTurn_state hc ha hu hd ht'
      obtain rfl := Option.some.inj (hcall.client.symm.trans hsame)
      exact Nat.add_le_add hone hagain
  · rintro r t' v ht' ⟨-,-,htwo⟩ _ hg
    rw [moved_congr hg.transfers]
    exact htwo (List.mem_map_of_mem hmem)

/-- In an iteration no block is passed to `write` twice for one destination exactly when the
source of every early write is closed before the second pass reaches its event. -/
theorem forwarded_once_iff {w : World} {it : Iteration} (h : Running w) (ha : Admitted w it) :
    (∀ link source,copies link source (moved w (finalState (aeMainStep it w)))≤1) ↔
      SourcesClosed w it := by
  obtain ⟨shape,hc⟩ := running_coherent h
  refine ⟨fun honce t e link source ht hclient hearly u hu => ?_,
    fun hcond link source => copies_of_sourcesClosed hc ha hcond link source⟩
  by_contra hs
  exact absurd (two_copies hc ha ht hclient hearly hu hs) (Nat.not_le_of_gt
    (Nat.lt_succ_of_le (honce link source)))

theorem forwarded_once_iff_exchange :
    (∀ link source,copies link source (moved sampleBoot
      (finalState (aeMainStep exchange sampleBoot)))≤1) ↔ SourcesClosed sampleBoot exchange :=
  forwarded_once_iff sampleBoot_running exchange_admitted

/-- The master sends a byte while the writer `a` is readable and writable. -/
def crossing : Iteration :=
  ⟨.ok [⟨4,true,false,false,false,⟨.data (sampleBlock 7 [] nil_lt_bufsiz),.zero⟩,⟨.eof,.zero⟩⟩,
    ⟨7,true,true,false,false,⟨.data (sampleBlock 8 [] nil_lt_bufsiz),.accepted 1 Nat.one_pos⟩,
      ⟨.eof,.accepted 1 Nat.one_pos⟩⟩],none⟩

theorem crossing_admitted : Admitted sampleBoot crossing :=
  ⟨by decide +kernel,by decide +kernel,by decide +kernel,by decide +kernel⟩

/-- The byte of the master is written to the writer in both passes. -/
theorem crossing_forwards_twice : ¬ ∀ w it,Running w → Admitted w it → ∀ link source,
    copies link source (moved w (finalState (aeMainStep it w)))≤1 := by
  intro h
  have htwice : copies 2 0 (moved sampleBoot (finalState (aeMainStep crossing sampleBoot)))=2 := by
    decide +kernel
  have hle := h sampleBoot crossing sampleBoot_running crossing_admitted 2 0
  rw [htwice] at hle
  exact absurd hle (by decide)

end Once

end SerialProxy.DoubleForwarding
