import SerialProxy.TransferOrigins

/-!
# Data isolation

A virtual only receives what its own master sent, and a master only what a
writer among its own virtuals sent. Nothing is read from a virtual that is not
a writer, and a callback leaves all other links, nodes and registrations alone.
-/

namespace SerialProxy.DataIsolation

open FaultPrograms SerialState EventTable SerialNodes SerialLinks EventLoop NodeTopology
open LinkEffects LinkCoherence HandlerEffects DispatchPasses Iterations TransferOrigins

/-- One node may copy to another: a master to its own virtuals, and a writer to
its own master. -/
def MayFeed (w : World) (source node : NodePtr) : Prop :=
  (nodeIsMaster (nodeAt w source) ∧ nodeIsVirtual (nodeAt w node) ∧
    (nodeAt w node).virtualof=some source) ∨
  (nodeIsVirtual (nodeAt w source) ∧ nodeIsWriter (nodeAt w source) ∧
    (nodeAt w source).virtualof=some node ∧ nodeIsMaster (nodeAt w node))

/-- A `write` on the descriptor of one link carries what another link has
received, between nodes that may copy. -/
structure Forwards (w : World) (link source : LinkPtr) (fd : Fd) (data : List UInt8) : Prop where
  /-- The destination is attached. -/
  target : Attached w link
  /-- The source is attached. -/
  origin : Attached w source
  /-- The descriptor is that of the destination. -/
  fd : fd=(linkAt w link).fd
  /-- The data is all that the source has received. -/
  data : data=received w source
  /-- The nodes may copy. -/
  devices : MayFeed w (nodeOf w source) (nodeOf w link)

section Isolation

variable {w t : World} {shape : Shape} {it : Iteration} {e : AeFiredEvent} {env : CallResults}
variable {link source : LinkPtr} {mask : EventMask} {node : NodePtr}

theorem mayFeed_of_feeds (ht : Topology w shape) {source : NodePtr}
    (h : Feeds shape w source node) : MayFeed w source node := by
  obtain ⟨g,hg,⟨hv,rfl⟩|⟨rfl,hw⟩⟩ := h
  · obtain ⟨m,hm,hmf,-⟩ := ht.master g hg
    obtain ⟨n,hn,hnf,ho,-⟩ := ht.virtual g hg node hv
    rw [MayFeed,nodeAt_of_some hm,nodeAt_of_some hn]
    exact .inl ⟨nodeIsMaster_of_flags hmf,nodeIsVirtual_of_flags hnf,ho⟩
  · obtain ⟨hv,hwriter⟩ := writerOf_some hw
    obtain ⟨m,hm,hmf,-⟩ := ht.master g hg
    obtain ⟨n,hn,hnf,ho,-⟩ := ht.virtual g hg source hv
    rw [nodeAt_of_some hn] at hwriter
    rw [MayFeed,nodeAt_of_some hm,nodeAt_of_some hn]
    exact .inr ⟨nodeIsVirtual_of_flags hnf,hwriter,ho,nodeIsMaster_of_flags hmf⟩

/-- A read of a callback is made on its own link. -/
theorem read_of_mem_eventCalls {other : LinkPtr} {fd : Fd} {result : ReadResult}
    (h : Call.read other fd result∈eventCalls t link mask env) :
    mask &&& aeReadable≠0 ∧ other=link ∧ fd=(linkAt t link).fd ∧ result=env.read := by
  rw [eventCalls,List.mem_append] at h
  rcases h with h|h
  · split at h
    · rename_i hr
      simp only [List.mem_singleton,Call.read.injEq] at h
      exact ⟨hr,h⟩
    · simp at h
  · split at h
    · rw [writeCalls] at h
      split at h <;> simp at h
    · simp at h

/-- A write of a callback carries what the source link of its node has received. -/
theorem write_of_mem_eventCalls {other source : LinkPtr} {fd : Fd} {data : List UInt8}
    {result : WriteResult} (h : Call.write other source fd data result∈eventCalls t link mask env) :
    (mask &&& aeWritable≠0 ∧ ¬ UsesFreed t mask env) ∧ other=link ∧
      offering t (nodeOf t link)=some source ∧ fd=(linkAt t link).fd ∧ data=received t source := by
  rw [eventCalls,List.mem_append] at h
  rcases h with h|h
  · split at h <;> simp at h
  · split at h
    · rename_i hw
      rw [writeCalls] at h
      split at h
      · simp at h
      · rename_i hs
        simp only [List.mem_singleton,Call.write.injEq] at h
        obtain ⟨rfl,rfl,rfl,rfl,-⟩ := h
        exact ⟨hw,rfl,hs,rfl,rfl⟩
    · simp at h

/-- A callback that reads is registered for reading. -/
theorem registered_of_readable (hc : Coherent shape w) (ha : Admitted w it)
    (hs : Serves w it t e env link) (hr : e.mask &&& aeReadable≠0) :
    (t.events e.fd).mask &&& aeReadable≠0 := by
  cases hs.call with
  | first h =>
    obtain ⟨_,_,_,_,-,-,hf⟩ := h
    exact (ne_of_and_ne hf).1
  | second h hf =>
    obtain ⟨r,done,todo,hd,-⟩ := writing_of_secondTurn hc ha h
    exact absurd (not_readable_of_remaining (mem_of_split hd)) hr

/-- Only masters and writers are registered for reading. -/
theorem writer_of_readable (hc : Coherent shape t) (hl : Attached t link)
    (h : (t.events (linkAt t link).fd).mask &&& aeReadable≠0) :
    nodeIsVirtual (nodeAt t (nodeOf t link))=true →
      nodeIsWriter (nodeAt t (nodeOf t link))=true := by
  intro hv
  have hm : (t.events (linkAt t link).fd).mask≠aeNone := fun h0 => h (by rw [h0]; rfl)
  obtain ⟨-,he⟩ := hc.registered_fd hl hm
  rw [he] at h
  dsimp only at h
  obtain ⟨g,hg,hmem⟩ := hc.topology.owner_of_virtual (hl.mem hc.topology) hv
  rw [eventFlags_virtual hc.topology hg hmem] at h
  by_contra hw
  rw [if_neg hw] at h
  exact h (by decide)

/-- A write of an iteration: its callback forwards a block that was read before. -/
theorem origin_write (hc : Coherent shape w) (ha : Admitted w it) {before : List Call} {fd : Fd}
    {data : List UInt8} {result : WriteResult}
    (h : Origin w it before (.write link source fd data result)) : ∃ t e env,
      Serves w it t e env link ∧ Forwards t link source fd data ∧
      ∃ block,data=block.bytes ∧ Call.read source (linkAt t source).fd (.data block)∈before := by
  obtain ⟨t,e,env,other,hs,hm,hheld⟩ := h
  obtain ⟨-,rfl,ho,hfd,hdata⟩ := write_of_mem_eventCalls hm
  have hct := (handlerCall_serves hc ha hs.call).1
  obtain ⟨hsrc,hlen⟩ := Option.filter_eq_some_iff.mp ho
  obtain ⟨hatt,hfeeds⟩ := source_attached hct (hs.attached.mem hct.topology) hsrc
  obtain ⟨block,hb,hread⟩ := hheld source _ hatt.live (by simpa using hlen)
  exact ⟨t,e,env,hs,⟨hs.attached,hatt,hfd,hdata,mayFeed_of_feeds hct.topology hfeeds⟩,block,
    hdata.trans hb,hread⟩

/-- A read of an iteration: its callback reads on a master or a writer. -/
theorem origin_read (hc : Coherent shape w) (ha : Admitted w it) {before : List Call} {fd : Fd}
    {result : ReadResult} (h : Origin w it before (.read link fd result)) : ∃ t e env,
      Serves w it t e env link ∧ fd=(linkAt t link).fd ∧
      (nodeIsVirtual (nodeAt t (nodeOf t link))=true →
        nodeIsWriter (nodeAt t (nodeOf t link))=true) := by
  obtain ⟨t,e,env,other,hs,hm,-⟩ := h
  obtain ⟨hr,rfl,hfd,-⟩ := read_of_mem_eventCalls hm
  have hct := (handlerCall_serves hc ha hs.call).1
  refine ⟨t,e,env,hs,hfd,writer_of_readable hct hs.attached ?_⟩
  rw [hs.fd]
  exact registered_of_readable hc ha hs hr

/-- A callback changes its own link, node and registration at most. -/
theorem handlerCall_confined (hc : Coherent shape w) (ha : Admitted w it)
    (h : HandlerCall w it t e env) : ∃ link,Serves w it t e env link ∧
      Confined t link (finalState (serialEventHandler (some link) e.mask env t)) := by
  obtain ⟨hct,link,hs⟩ := handlerCall_serves hc ha h
  obtain ⟨u,he,hx⟩ := serialEventHandler_spec hct hs.attached e.mask env
  refine ⟨link,hs,?_⟩
  rw [hx]
  split
  · exact he.confined
  · exact he.confined

/-- Data isolation in every run: all data moves in iterations; a write on a link
forwards exactly what the link of its own master, or of a writer of it, has received, and
this was read from that link before; a link that is read is that of a master or a writer;
and a callback leaves everything but its own link, node and registration alone. -/
theorem data_isolation :
    (∀ w,Booted w → transfers w.trace=[]) ∧
    ∀ w it,Running w → Admitted w it →
      let calls := moved w (finalState (aeMainStep it w))
      transfers (finalState (aeMainStep it w)).trace=transfers w.trace++calls ∧
      (∀ before link source fd data result after,
        calls=before++.write link source fd data result::after → ∃ t e env,
          Serves w it t e env link ∧ Forwards t link source fd data ∧ ∃ block,
            data=block.bytes ∧ Call.read source (linkAt t source).fd (.data block)∈before) ∧
      (∀ link fd result,.read link fd result∈calls → ∃ t e env,
        Serves w it t e env link ∧ fd=(linkAt t link).fd ∧
        (nodeIsVirtual (nodeAt t (nodeOf t link))=true →
          nodeIsWriter (nodeAt t (nodeOf t link))=true)) ∧
      ∀ t e env,HandlerCall w it t e env → ∃ link,Serves w it t e env link ∧
        Confined t link (finalState (serialEventHandler (some link) e.mask env t)) := by
  refine ⟨fun w hb => (booted_coherent hb).choose_spec.2,fun w it h ha => ?_⟩
  obtain ⟨shape,hc⟩ := running_coherent h
  have hx := aeMainStep_explained hc ha
  refine ⟨hx.moves,fun before link source fd data result after hsplit => ?_,
    fun link fd result hmem => ?_,fun t e env hcall => handlerCall_confined hc ha hcall⟩
  · exact origin_write hc ha (hx.origin before _ after hsplit)
  · obtain ⟨before,after,hsplit⟩ := List.append_of_mem hmem
    exact origin_read hc ha (hx.origin before _ after hsplit)

theorem data_isolation_exchange : transfers sampleBoot.trace=[] ∧ ∃ t e env,
    Serves sampleBoot exchange t e env 1 ∧ Forwards t 1 0 5 [7] ∧ ∃ block,[7]=block.bytes ∧
      Call.read 0 (linkAt t 0).fd (.data block)∈
        [Call.read 0 4 (.data (sampleBlock 7 [] (by decide)))] :=
  ⟨data_isolation.1 sampleBoot sampleBoot_booted,
    (data_isolation.2 sampleBoot exchange sampleBoot_running exchange_admitted).2.1
      [.read 0 4 (.data (sampleBlock 7 [] (by decide)))] 1 0 5 [7] _ [] exchange_moved⟩

end Isolation

end SerialProxy.DataIsolation
