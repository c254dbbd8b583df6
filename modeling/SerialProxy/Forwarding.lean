import SerialProxy.DataIsolation

/-!
# Forwarding within an iteration

A block read in the first pass stays in the buffer of its link until the end
of the iteration, so that the second pass offers all of it to every writable
destination that is still open, in whatever order the descriptors fired. The
next iteration starts with empty buffers.
-/

namespace SerialProxy.Forwarding

open FaultPrograms SerialState EventTable SerialNodes SerialLinks EventLoop NodeTopology
open LinkEffects LinkCoherence HandlerEffects DispatchPasses Iterations TransferOrigins
open DataIsolation

/-- The node a callback on another node copies from: the master of a virtual,
and the first writer of a master. -/
def Supplies (w : World) (source node : NodePtr) : Prop :=
  (nodeIsVirtual (nodeAt w node) ∧ (nodeAt w node).virtualof=some source) ∨
  (nodeIsMaster (nodeAt w node) ∧ serialGetVirtualWriterNode node w=.ok (some source) w)

/-- The open links of the descriptors handled so far hold the blocks that were
read on them. -/
def Kept (done : List AeFiredEvent) (t : World) : Prop :=
  ∀ e∈done,e.mask &&& aeReadable≠0 → ∀ block,e.first.read=.data block →
    ∀ link l,t.links link=some l → l.fd=e.fd → l.recvbuf.take l.recvbuflen=block.bytes

section Blocks

variable {w r t u : World} {shape : Shape} {it : Iteration} {e : AeFiredEvent}
variable {done todo : List AeFiredEvent} {link source : LinkPtr} {mask : EventMask}
variable {env : CallResults} {node : NodePtr}

theorem feeds_of_supplies (ht : Topology w shape) (hm : shape.Mem node) {source : NodePtr}
    (h : Supplies w source node) : Feeds shape w source node := by
  rcases h with ⟨hvirtual,hof⟩|⟨hmaster,hw⟩
  · obtain ⟨g,hg,hv⟩ := ht.owner_of_virtual hm hvirtual
    obtain ⟨n,hn,-,ho,-⟩ := ht.virtual g hg node hv
    rw [nodeAt_of_some hn,ho,Option.some.injEq] at hof
    exact ⟨g,hg,.inl ⟨hv,hof.symm⟩⟩
  · obtain ⟨g,hg,rfl⟩ := ht.group_of_master hm hmaster
    rw [serialGetVirtualWriterNode_apply ht hg,EStateM.Result.ok.injEq] at hw
    exact ⟨g,hg,.inr ⟨rfl,hw.1⟩⟩

/-- A node that is fed is registered for writing. -/
theorem eventFlags_writable (ht : Topology w shape) {source : NodePtr}
    (h : Feeds shape w source node) : eventFlags w node &&& aeWritable≠0 := by
  obtain ⟨g,hg,⟨hv,-⟩|⟨rfl,hw⟩⟩ := h
  · rw [eventFlags_virtual ht hg hv]
    split <;> decide
  · rw [eventFlags_master ht hg,hw,Option.isSome_some,if_pos rfl]
    decide

/-- A callback that reads data leaves it in the buffer, if it leaves the link open. -/
theorem eventLink_data {block : Block} {l : SerialLink} (hr : mask &&& aeReadable≠0)
    (hread : env.read=.data block) (h : eventLink t link mask env=some l) :
    l=filled (linkAt t link) block := by
  rw [eventLink] at h
  split at h
  · exact absurd h (by simp)
  · rw [hread] at h
    exact (Option.some.inj h).symm

/-- An event that does not read leaves the buffer of an open link alone. -/
theorem eventLink_unread {l : SerialLink} (hr : mask &&& aeReadable=0)
    (h : eventLink t link mask env=some l) : l=linkAt t link :=
  (eventLink_cases h).resolve_right fun hx => hx.1 hr

/-- The link of a fired descriptor is the one its callback gets. -/
theorem link_of_fd (hc : Coherent shape t) (ha : Attached t link) {other : LinkPtr}
    {l : SerialLink} (hl : t.links other=some l) (hfd : l.fd=(linkAt t link).fd) : other=link :=
  hc.separate other l link _ l.fd hl ha.live ⟨hc.connected other l hl,.inl rfl⟩
    ⟨hc.connected other l hl,.inl hfd⟩

/-- A live link of a fired descriptor was live before its callback, which is its own. -/
theorem link_after_call (hcall : Calling shape t mask e env link u) (hc : Coherent shape t)
    {other : LinkPtr} {l : SerialLink} (hl : u.links other=some l) :
    (other=link ∧ l.fd=e.fd ∧ eventLink t link e.mask env=some l) ∨
      other≠link ∧ l.fd≠e.fd ∧ t.links other=some l := by
  rcases eq_or_ne other link with rfl|hne
  · obtain ⟨l₀,hl₀,hf,-⟩ := hcall.effect.confined.own l hl
    rw [hcall.effect.own] at hl
    exact .inl ⟨rfl,by rw [hf,← hcall.fd,linkAt_of_some hl₀],hl⟩
  · rw [hcall.effect.confined.links other hne] at hl
    refine .inr ⟨hne,fun hf => hne (link_of_fd hc hcall.attached hl ?_),hl⟩
    rw [hf,hcall.fd]

/-- The first pass keeps every block it reads. -/
theorem reading_kept (ha : Admitted w it) (hd : fired it=done++todo)
    (h : Reading shape w it done t) : Kept done t := by
  refine reading_invariant ha Kept (fun _ _ _ he => absurd he (by simp)) ?_ ?_ hd h
  · intro done e todo t hd ht hk hf e' he' hr block hread link l hl hfd
    rcases List.mem_append.mp he' with he'|he'
    · exact hk e' he' hr block hread link l hl hfd
    · rw [List.mem_singleton] at he'
      subst he'
      obtain ⟨s,hs,hturn⟩ := ht
      refine absurd (fires_of_readable ha hs.same (mem_of_split hd) hr) ?_
      rwa [Fires,← hturn.mid.laterEvents e'.fd (fd_not_done (fired_nodup ha) hd)]
  · intro done e todo t link u hd ht hk hcall _ e' he' hr block hread other l hl hfd
    obtain ⟨s,hs,hturn⟩ := ht
    have hnew := fd_not_done (fired_nodup ha) hd
    rcases List.mem_append.mp he' with he'|he'
    · rcases link_after_call hcall hturn.mid.coherent hl with ⟨-,hf,-⟩|⟨-,-,hl⟩
      · have hmem : e'.fd∈done.map AeFiredEvent.fd := List.mem_map_of_mem he'
        rw [← hfd,hf] at hmem
        exact absurd hmem hnew
      · exact hk e' he' hr block hread other l hl hfd
    · rw [List.mem_singleton] at he'
      subst he'
      rcases link_after_call hcall hturn.mid.coherent hl with ⟨-,-,hown⟩|⟨-,hf,-⟩
      · rw [eventLink_data hr hread hown,filled_received]
      · exact absurd hfd hf

/-- The second pass changes no buffer. -/
theorem writing_buffers (ha : Admitted w it) (hd : remaining it=done++todo)
    (h : Writing shape w it r done t) {l : SerialLink} (hl : t.links link=some l) :
    r.links link=some l := by
  refine writing_invariant ha (fun _ t => ∀ link l,t.links link=some l → r.links link=some l)
    (fun _ _ hl => hl) (fun _ _ _ _ _ _ hk _ => hk) ?_ hd h link l hl
  intro done e todo t link u hd ht hk hcall other l hl
  rcases link_after_call hcall ht.turn.mid.coherent hl with ⟨rfl,-,hown⟩|⟨-,-,hl⟩
  · rw [eventLink_unread (not_readable_of_remaining (mem_of_split hd)) hown]
    exact hk other _ hcall.attached.live
  · exact hk other l hl

/-- In the second pass an open link still holds the block read on it in the first. -/
theorem block_kept (ha : Admitted w it) (hd : remaining it=done++todo)
    (h : Writing shape w it r done t) (he : e∈fired it) (hr : e.mask &&& aeReadable≠0)
    {block : Block} (hread : e.first.read=.data block) {l : SerialLink}
    (hl : t.links source=some l) (hfd : l.fd=e.fd) : received t source=block.bytes := by
  rw [received,linkAt_of_some hl]
  exact reading_kept ha (fired_whole it) h.reading e he hr block hread source l
    (writing_buffers ha hd h hl) hfd

/-- A registered descriptor of a node that is fed takes its writable event. -/
theorem fires_of_feeds (hc : Coherent shape u) (ha : Attached u link) {source : NodePtr}
    (hf : Feeds shape u source (nodeOf u link)) (hfd : (linkAt u link).fd=e.fd)
    (hreg : (u.events e.fd).mask≠aeNone) (hm : e.mask &&& aeWritable≠0) :
    Fires u aeWritable e ∧ (u.events e.fd).clientData=some link := by
  rw [← hfd] at hreg
  obtain ⟨-,he⟩ := hc.registered_fd ha hreg
  rw [Fires,← hfd,he]
  exact ⟨and_writable (eventFlags_writable hc.topology hf) hm,rfl⟩

/-- A destination is offered the block its source link holds. -/
theorem offering_of_feeds (hc : Coherent shape u) {n : NodePtr} (ha : Attached u source)
    (hf : Feeds shape u (nodeOf u source) n) (h : received u source≠[]) :
    offering u n=some source := by
  have hlen : (linkAt u source).recvbuflen>0 := by
    rw [gt_iff_lt,Nat.pos_iff_ne_zero]
    intro h0
    exact h (by rw [received,h0,List.take_zero])
  rw [offering,sourceLink_of_feeds hc.topology hf,ha.back,Option.filter_some,
    if_pos (by simpa using hlen)]

/-- The callback of the second pass on an open destination writes the block that its open
source holds. -/
theorem second_write (ha : Admitted w it) (hd : remaining it=done++e::todo)
    (h : Writing shape w it r done u) (hl : Attached u link) (hs : Attached u source)
    (hf : Feeds shape u (nodeOf u source) (nodeOf u link)) (hfd : (linkAt u link).fd=e.fd)
    (hm : e.mask &&& aeWritable≠0) (hne : received u source≠[]) :
    Fires u aeWritable e ∧ Serves w it u e e.second link ∧ eventCalls u link e.mask e.second=
      [.write link source e.fd (received u source) e.second.write] := by
  have hc := h.turn.mid.coherent
  have he : e∈remaining it := mem_of_split hd
  obtain ⟨l₀,hl₀,hf₀,-,hreg⟩ := writing_link h hl.live
  have hmask : (u.events e.fd).mask≠aeNone := by
    rw [hfd] at hreg
    rw [hreg]
    exact remaining_registered ha he
  obtain ⟨hfires,hclient⟩ := fires_of_feeds hc hl hf hfd hmask hm
  refine ⟨hfires,⟨.second (h.secondTurn hd) hfires,hclient,hl,hfd⟩,?_⟩
  rw [eventCalls,if_neg (by simp [not_readable_of_remaining he]),
    if_pos ⟨hm,not_usesFreed_of_remaining he _⟩,writeCalls,offering_of_feeds hc hs hf hne,hfd]
  rfl

/-- A callback of the first pass gets the link of its descriptor, which is live from the
start, for an event that is readable. -/
theorem firstCall_source (hc : Coherent shape w) (ha : Admitted w it) (h : FirstCall w it t e)
    (hclient : (t.events e.fd).clientData=some source) : e∈fired it ∧ e.mask &&& aeReadable≠0 ∧
      ∃ l,w.links source=some l ∧ l.fd=e.fd := by
  obtain ⟨done,todo,hd,hr⟩ := reading_of_firstCall hc ha h
  obtain ⟨-,link,hs⟩ := handlerCall_serves hc ha (.first h)
  rw [hs.client,Option.some.injEq] at hclient
  subst hclient
  obtain ⟨l,hl,hf,-⟩ := reading_link hr hs.attached.live
  obtain ⟨_,_,_,_,-,-,hfires⟩ := h
  exact ⟨mem_of_split hd,(ne_of_and_ne hfires).2,l,hl,hf.symm.trans hs.fd⟩

/-- At the turn of a writable event the second pass offers its open destination the block
read in the first pass on its open source. -/
theorem block_offered (hc : Coherent shape w) (ha : Admitted w it) {d : AeFiredEvent}
    (hu : SecondTurn w it u (unread d)) (hm : d.mask &&& aeWritable≠0) (ht : FirstCall w it t e)
    (hclient : (t.events e.fd).clientData=some source) {block : Block}
    (hread : e.first.read=.data block) (hs : u.links source≠none) (hl : u.links link≠none)
    (hfd : (linkAt u link).fd=d.fd) (hf : Feeds shape u (nodeOf u source) (nodeOf u link)) :
    received u source=block.bytes ∧ Fires u aeWritable (unread d) ∧
      Serves w it u (unread d) d.second link ∧ eventCalls u link (unread d).mask d.second=
        [.write link source d.fd block.bytes d.second.write] := by
  obtain ⟨he,hr,l,hlive,hlfd⟩ := firstCall_source hc ha ht hclient
  obtain ⟨r,done,todo,hd,hw⟩ := writing_of_secondTurn hc ha hu
  have hcu := hw.turn.mid.coherent
  obtain ⟨l',hl'⟩ := Option.ne_none_iff_exists'.mp hs
  obtain ⟨l₀,hl₀,hf₀,-⟩ := writing_link hw hl'
  rw [hlive,Option.some.injEq] at hl₀
  have hblock := block_kept ha hd hw he hr hread hl' (by rw [hf₀,← hl₀,hlfd])
  obtain ⟨m,hm'⟩ := Option.ne_none_iff_exists'.mp hl
  have hatt := hcu.attached hm'
  have hmask : (unread d).mask &&& aeWritable≠0 := and_writable hm (by decide)
  have hwrite := second_write (e:=unread d) ha hd hw hatt (hcu.attached hl') hf hfd hmask
    (by rw [hblock]; exact block.nonempty)
  rw [hblock] at hwrite
  exact ⟨hblock,hwrite⟩

end Blocks

end SerialProxy.Forwarding
