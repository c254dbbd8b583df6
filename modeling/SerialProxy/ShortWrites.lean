import SerialProxy.Forwarding

/-!
# Short writes

A virtual that stays open and is writable in every iteration accepts, in
order, one nonempty front part of every block read from its master. The rest
of a block that a short write did not take is dropped with the reset of the
receive buffers.
-/

namespace SerialProxy.ShortWrites

open FaultPrograms SerialState EventTable SerialNodes SerialLinks EventLoop NodeTopology
open LinkEffects LinkCoherence HandlerEffects DispatchPasses Reconnection Iterations
open TransferOrigins DataIsolation Forwarding

/-- The bytes a `write` on a link has accepted. -/
def acceptedChunk (link : LinkPtr) : Call → Option (List UInt8)
  | .write tolink _ _ data (.accepted count _) =>
    if tolink=link then some (data.take count) else none
  | _ => none

/-- The bytes the writes on a link have accepted, write by write. -/
def acceptedBy (link : LinkPtr) (calls : List Call) : List (List UInt8) :=
  calls.filterMap (acceptedChunk link)

/-- The bytes a `read` on a link has returned. -/
def blockRead (link : LinkPtr) : Call → Option (List UInt8)
  | .read link' _ (.data block) => if link'=link then some block.bytes else none
  | _ => none

/-- The bytes the reads on a link have returned, read by read. -/
def readOn (link : LinkPtr) (calls : List Call) : List (List UInt8) :=
  calls.filterMap (blockRead link)

/-- A nonempty front part of a block. -/
def FrontPart (chunk block : List UInt8) : Prop := chunk≠[] ∧ chunk<+:block

/-- The descriptor of a link is reported writable in an iteration. -/
def ReportsWritable (w : World) (link : LinkPtr) (it : Iteration) : Prop :=
  ∃ e∈fired it,e.fd=(linkAt w link).fd ∧ e.mask &&& aeWritable≠0

section Callbacks

variable {t : World} {link other : LinkPtr} {mask : EventMask} {env : CallResults}
variable {calls calls' : List Call}

@[simp] theorem acceptedBy_append :
    acceptedBy link (calls++calls')=acceptedBy link calls++acceptedBy link calls' :=
  List.filterMap_append

@[simp] theorem readOn_append :
    readOn link (calls++calls')=readOn link calls++readOn link calls' := List.filterMap_append

/-- A callback writes to its own link only. -/
theorem acceptedBy_of_ne (h : link≠other) : acceptedBy link (eventCalls t other mask env)=[] := by
  refine List.filterMap_eq_nil_iff.mpr fun call hm => ?_
  cases call with
  | write tolink fromlink fd data result =>
    obtain ⟨-,rfl,-⟩ := write_of_mem_eventCalls hm
    cases result with
    | accepted count pos => exact if_neg h.symm
    | _ => rfl
  | _ => rfl

/-- A callback reads on its own link only. -/
theorem readOn_of_ne (h : link≠other) : readOn link (eventCalls t other mask env)=[] := by
  refine List.filterMap_eq_nil_iff.mpr fun call hm => ?_
  cases call with
  | read link' fd result =>
    obtain ⟨-,rfl,-⟩ := read_of_mem_eventCalls hm
    cases result with
    | data block => exact if_neg h.symm
    | _ => rfl
  | _ => rfl

theorem readOn_writeCalls {result : WriteResult} : readOn link (writeCalls t other result)=[] := by
  rw [writeCalls]
  split <;> rfl

/-- A callback that is not asked to read reads nothing. -/
theorem readOn_unread (h : mask &&& aeReadable=0) :
    readOn link (eventCalls t other mask env)=[] := by
  rw [eventCalls,if_neg (not_not.mpr h),List.nil_append]
  split
  · exact readOn_writeCalls
  · rfl

/-- What a callback reads on its own link. -/
theorem readOn_own (h : mask &&& aeReadable≠0) :
    readOn link (eventCalls t link mask env)=match env.read with
      | .data block => [block.bytes]
      | _ => [] := by
  have hwrite : readOn link (if mask &&& aeWritable≠0 ∧ ¬ UsesFreed t mask env then
      writeCalls t link env.write else [])=[] := by
    split
    · exact readOn_writeCalls
    · rfl
  rw [eventCalls,if_pos h,readOn_append,hwrite,List.append_nil]
  cases env.read with
  | data block =>
    have hself : blockRead link (.read link (linkAt t link).fd (.data block))=some block.bytes :=
      if_pos rfl
    simp only [readOn,List.filterMap_cons,hself,List.filterMap_nil]
  | _ => rfl

/-- What a write side that leaves its link open has written. -/
theorem acceptedBy_own (h : mask &&& aeReadable=0) (hw : mask &&& aeWritable≠0) {l : SerialLink}
    (hopen : eventLink t link mask env=some l) :
    match offering t (nodeOf t link) with
    | none => acceptedBy link (eventCalls t link mask env)=[]
    | some source => ∃ count,0<count ∧
        acceptedBy link (eventCalls t link mask env)=[(received t source).take count] := by
  have hu : ¬ UsesFreed t mask env := fun hu => hu.1 h
  have hboth : mask &&& aeWritable≠0 ∧ ¬ UsesFreed t mask env := ⟨hw,hu⟩
  have hnot : writeRejected t link env.write=false := by
    by_contra hr
    rw [eventLink,if_pos ⟨hw,by simpa using hr⟩] at hopen
    exact absurd hopen (by simp)
  rw [eventCalls,if_neg (not_not.mpr h),List.nil_append,if_pos hboth,writeCalls]
  rw [writeRejected] at hnot
  cases ho : offering t (nodeOf t link) with
  | none => rfl
  | some source =>
    rw [ho,Option.isSome_some,Bool.true_and] at hnot
    cases hres : env.write with
    | accepted count pos =>
      refine ⟨count,pos,?_⟩
      have hself : acceptedChunk link (.write link source (linkAt t link).fd (received t source)
          (.accepted count pos))=some ((received t source).take count) := if_pos rfl
      simp only [acceptedBy,List.filterMap_cons,hself,List.filterMap_nil]
    | zero =>
      rw [hres] at hnot
      exact Bool.noConfusion hnot
    | fail errno =>
      rw [hres] at hnot
      exact Bool.noConfusion hnot

end Callbacks

/-- A link that only takes data, from the link of its master. -/
structure Follows (shape : Shape) (w : World) (link source : LinkPtr) : Prop where
  /-- The state is coherent. -/
  coherent : Coherent shape w
  /-- The link is open. -/
  target : Attached w link
  /-- Its source is open. -/
  origin : Attached w source
  /-- The source feeds it. -/
  feeds : Feeds shape w (nodeOf w source) (nodeOf w link)
  /-- It is not registered for reading. -/
  mute : eventFlags w (nodeOf w link) &&& aeReadable=0

/-- The read part of an iteration for such a link: nothing is written to it, and
the open source holds what was read on it. -/
structure Collected (w : World) (link source : LinkPtr) (t : World) : Prop where
  /-- The reads and writes come behind the earlier ones. -/
  moves : transfers t.trace=transfers w.trace++moved w t
  /-- Nothing is written yet. -/
  unwritten : acceptedBy link (moved w t)=[]
  /-- The source holds the block read, if any. -/
  block : ∀ l,t.links source=some l → l.recvbuflen=0 ∧ readOn source (moved w t)=[] ∨
    0<l.recvbuflen ∧ ∃ block : Block,l.recvbuf.take l.recvbuflen=block.bytes ∧
      readOn source (moved w t)=[block.bytes]

/-- The write part of an iteration for such a link: what was read has been
offered once the descriptor of the link is handled. -/
structure Offered (w r : World) (link source : LinkPtr) (done : List Fd) (t : World) : Prop where
  /-- The reads and writes come behind the earlier ones. -/
  moves : transfers t.trace=transfers w.trace++moved w t
  /-- Nothing more is read. -/
  reads : readOn source (moved w t)=readOn source (moved w r)
  /-- Before the turn of the link nothing is written to it. -/
  before : (linkAt w link).fd∉done → acceptedBy link (moved w t)=[]
  /-- Behind it, a front part of the block is. -/
  behind : (linkAt w link).fd∈done → t.links link≠none → t.links source≠none →
    List.Forall₂ FrontPart (acceptedBy link (moved w t)) (readOn source (moved w t))

section Iteration

variable {w r t u v : World} {shape : Shape} {it : Iteration} {e : AeFiredEvent}
variable {done todo : List AeFiredEvent} {link source other : LinkPtr} {l : SerialLink}

/-- A live link of the first pass is as in `w` but for its buffer. -/
theorem same_reading (ht : Reading shape w it done t) (hl : t.links link=some l) :
    l.fd=(linkAt w link).fd ∧ nodeOf t link=nodeOf w link ∧ t.events l.fd=w.events l.fd := by
  obtain ⟨l₀,hl₀,hf,hn,he⟩ := reading_link ht hl
  exact ⟨by rw [hf,linkAt_of_some hl₀],
    by rw [nodeOf,nodeOf,linkAt_of_some hl,linkAt_of_some hl₀,hn],he⟩

/-- A live link of the second pass is as in `w` but for its buffer. -/
theorem same_writing (ht : Writing shape w it r done t) (hl : t.links link=some l) :
    l.fd=(linkAt w link).fd ∧ nodeOf t link=nodeOf w link ∧ t.events l.fd=w.events l.fd := by
  obtain ⟨l₀,hl₀,hf,hn,he⟩ := writing_link ht hl
  exact ⟨by rw [hf,linkAt_of_some hl₀],
    by rw [nodeOf,nodeOf,linkAt_of_some hl,linkAt_of_some hl₀,hn],he⟩

/-- The callbacks of the first pass are not called for a link that is not registered for
reading. -/
theorem ne_of_reading (hf : Follows shape w link source) (ht : Reading shape w it done t)
    (hcall : Calling shape t aeReadable e e.first other u) : link≠other := by
  rintro rfl
  obtain ⟨hfd,-,hev⟩ := same_reading ht hcall.attached.live
  have hfires := hcall.fires
  rw [Fires,← hcall.fd,hev,hfd] at hfires
  have hreg := (ne_of_and_ne hfires).1
  by_cases hm : (w.events (linkAt w link).fd).mask=aeNone
  · rw [hm] at hreg
    exact hreg (by decide)
  · obtain ⟨-,he⟩ := hf.coherent.registered_fd hf.target hm
    rw [he] at hreg
    exact hreg hf.mute

/-- A callback of the first pass collects what it reads on the source. -/
theorem collected_step (ha : Admitted w it) (hf : Follows shape w link source)
    (hd : fired it=done++e::todo) (ht : Reading shape w it done t)
    (h : Collected w link source t) (hcall : Calling shape t aeReadable e e.first other u) :
    Collected w link source u := by
  obtain ⟨hmoves,hm⟩ := moved_append h.moves hcall.effect.transfers
  have hr : e.mask &&& aeReadable≠0 := (ne_of_and_ne hcall.fires).2
  refine ⟨hmoves,?_,fun l hl => ?_⟩
  · rw [hm,acceptedBy_append,h.unwritten,acceptedBy_of_ne (ne_of_reading hf ht hcall)]
    rfl
  · rw [hm,readOn_append]
    rcases eq_or_ne source other with rfl|hne
    · obtain ⟨s,hs,hturn⟩ := ht
      obtain ⟨l₀,hl₀,hfd,-⟩ := hturn.mid.links _ _ hcall.attached.live
      have hnew := fd_not_done (fired_nodup ha) hd
      have hempty : (linkAt t source).recvbuflen=0 := by
        have hsame := hturn.mid.later source l₀ hl₀ (by rw [← hfd,hcall.fd]; exact hnew)
        rw [linkAt_of_some hsame]
        exact hs.empty source l₀ hl₀
      have hnone : readOn source (moved w t)=[] := by
        rcases h.block _ hcall.attached.live with ⟨-,hnone⟩|⟨hpos,-⟩
        · exact hnone
        · rw [hempty] at hpos
          exact absurd hpos (Nat.lt_irrefl 0)
      rw [hnone,List.nil_append,readOn_own hr]
      rw [hcall.effect.own,eventLink] at hl
      split at hl
      · exact absurd hl (by simp)
      · cases hread : e.first.read with
        | data block =>
          rw [hread] at hl
          obtain rfl := Option.some.inj hl
          exact .inr ⟨List.length_pos_iff.mpr block.nonempty,block,filled_received _ block,rfl⟩
        | _ =>
          rw [hread] at hl
          rcases linkAfterRead_cases hl with rfl|⟨block,hb,-⟩
          · exact .inl ⟨hempty,rfl⟩
          · exact absurd hb (by simp)
    · rw [hcall.effect.confined.links source hne] at hl
      rw [readOn_of_ne hne,List.append_nil]
      exact h.block l hl

/-- The first pass collects what it reads on the source. -/
theorem collected_of_reading (ha : Admitted w it) (hf : Follows shape w link source)
    (hd : fired it=done++todo) (ht : Reading shape w it done t) : Collected w link source t := by
  refine reading_invariant ha (fun _ t => Collected w link source t) (fun s hs => ?_)
    (fun _ _ _ _ _ _ h _ => h)
    (fun done e todo t other u hd ht h hcall _ => collected_step ha hf hd ht h hcall) hd ht
  have hm : moved w s=[] := moved_of_append (by rw [hs.transfers,List.append_nil])
  refine ⟨by rw [hm,hs.transfers,List.append_nil],by rw [hm]; rfl,fun l hl => ?_⟩
  exact .inl ⟨hs.empty source l hl,by rw [hm]; rfl⟩

/-- In the second pass the link and its source are attached as in `w`, while they are open. -/
theorem follows_writing (hf : Follows shape w link source) (ht : Writing shape w it r done t)
    (hl : t.links link≠none) (hs : t.links source≠none) : Attached t link ∧
      (linkAt t link).fd=(linkAt w link).fd ∧ Attached t source ∧
      Feeds shape t (nodeOf t source) (nodeOf t link) := by
  obtain ⟨l,hl⟩ := Option.ne_none_iff_exists'.mp hl
  obtain ⟨m,hm⟩ := Option.ne_none_iff_exists'.mp hs
  obtain ⟨hfd,hn,-⟩ := same_writing ht hl
  obtain ⟨-,hn',-⟩ := same_writing ht hm
  have hct := ht.turn.mid.coherent
  refine ⟨hct.attached hl,by rw [linkAt_of_some hl,hfd],hct.attached hm,?_⟩
  rw [hn,hn']
  exact hf.feeds.congr (writing_devices ht)

/-- A callback of the second pass offers the block of the open source to the link. -/
theorem chunk_of_call (ha : Admitted w it) (hf : Follows shape w link source)
    (hd : remaining it=done++e::todo) (ht : Writing shape w it r done t)
    (hm : e.mask &&& aeWritable≠0) (hcall : Calling shape t aeWritable e e.second link u)
    (hl : u.links link≠none) (hs : t.links source≠none) :
    List.Forall₂ FrontPart (acceptedBy link (eventCalls t link e.mask e.second))
      (readOn source (moved w r)) := by
  obtain ⟨hatt,hfd,hsrc,hfeeds⟩ := follows_writing hf ht (by rw [hcall.attached.live]; simp) hs
  have hct := ht.turn.mid.coherent
  obtain ⟨l,hl⟩ := Option.ne_none_iff_exists'.mp hl
  rw [hcall.effect.own] at hl
  have hown := acceptedBy_own (not_readable_of_remaining (mem_of_split hd)) hm hl
  have hoffer : offering t (nodeOf t link)=
      if 0<(linkAt t source).recvbuflen then some source else none := by
    rw [offering,sourceLink_of_feeds hct.topology hfeeds,hsrc.back,Option.filter_some]
    simp only [gt_iff_lt,decide_eq_true_eq]
  rw [hoffer] at hown
  rcases (collected_of_reading ha hf (fired_whole _) ht.reading).block _
      (writing_buffers ha hd ht hsrc.live) with ⟨h0,hread⟩|⟨hpos,block,hblock,hread⟩
  · rw [h0] at hown
    rw [hread,hown]
    exact .nil
  · rw [if_pos hpos] at hown
    obtain ⟨count,hcount,hacc⟩ := hown
    rw [hread,hacc,received,hblock]
    refine .cons ⟨?_,List.take_prefix _ _⟩ .nil
    rw [ne_eq,List.take_eq_nil_iff,not_or]
    exact ⟨Nat.ne_of_gt hcount,block.nonempty⟩

/-- A callback of the second pass keeps track of what the link has been offered. -/
theorem offered_step (ha : Admitted w it) (hf : Follows shape w link source)
    (hw : ∀ e∈remaining it,e.fd=(linkAt w link).fd → e.mask &&& aeWritable≠0)
    (hd : remaining it=done++e::todo) (ht : Writing shape w it r done t)
    (h : Offered w r link source (done.map AeFiredEvent.fd) t)
    (hcall : Calling shape t aeWritable e e.second other u) :
    Offered w r link source ((done++[e]).map AeFiredEvent.fd) u := by
  obtain ⟨hmoves,hm⟩ := moved_append h.moves hcall.effect.transfers
  have hreads : readOn source (moved w u)=readOn source (moved w r) := by
    rw [hm,readOn_append,readOn_unread (not_readable_of_remaining (mem_of_split hd)),
      List.append_nil,h.reads]
  have hlive : ∀ p,u.links p≠none → t.links p≠none := by
    intro p hp
    rcases eq_or_ne p other with rfl|hne
    · rw [hcall.attached.live]
      simp
    · rwa [hcall.effect.confined.links p hne] at hp
  rw [List.map_append,List.map_singleton]
  rcases eq_or_ne link other with rfl|hne
  · obtain ⟨hfd,-⟩ := same_writing ht hcall.attached.live
    rw [hcall.fd] at hfd
    have hnew := fd_not_done (remaining_nodup ha) hd
    refine ⟨hmoves,hreads,fun hnot => ?_,fun _ hl hs => ?_⟩
    · exact absurd (List.mem_append_right _ (by rw [hfd]; exact List.mem_cons_self)) hnot
    · rw [hreads,hm,acceptedBy_append,h.before (hfd ▸ hnew),List.nil_append]
      exact chunk_of_call ha hf hd ht (hw e (mem_of_split hd) hfd) hcall hl (hlive source hs)
  · have hacc : acceptedBy link (moved w u)=acceptedBy link (moved w t) := by
      rw [hm,acceptedBy_append,acceptedBy_of_ne hne,List.append_nil]
    refine ⟨hmoves,hreads,fun hnot => ?_,fun hmem hl hs => ?_⟩
    · rw [hacc]
      exact h.before fun hmem => hnot (List.mem_append_left _ hmem)
    · rw [hacc,hreads,← h.reads]
      rcases List.mem_append.mp hmem with hmem|hmem
      · exact h.behind hmem (hlive link hl) (hlive source hs)
      · rw [List.mem_singleton] at hmem
        obtain ⟨l,hl⟩ := Option.ne_none_iff_exists'.mp (hlive link hl)
        obtain ⟨hfd,-⟩ := same_writing ht hl
        exact absurd (link_of_fd ht.turn.mid.coherent hcall.attached hl
          (by rw [hfd,hmem,hcall.fd])) hne

/-- A skipped event is not that of the link, while it and its source are open. -/
theorem offered_skip (ha : Admitted w it) (hf : Follows shape w link source)
    (hw : ∀ e∈remaining it,e.fd=(linkAt w link).fd → e.mask &&& aeWritable≠0)
    (hd : remaining it=done++e::todo) (ht : Writing shape w it r done t)
    (h : Offered w r link source (done.map AeFiredEvent.fd) t) (hskip : ¬ Fires t aeWritable e) :
    Offered w r link source ((done++[e]).map AeFiredEvent.fd) t := by
  rw [List.map_append,List.map_singleton]
  refine ⟨h.moves,h.reads,fun hnot => h.before fun hmem => hnot (List.mem_append_left _ hmem),
    fun hmem hl hs => ?_⟩
  rcases List.mem_append.mp hmem with hmem|hmem
  · exact h.behind hmem hl hs
  · rw [List.mem_singleton] at hmem
    obtain ⟨hatt,hfd,-,hfeeds⟩ := follows_writing hf ht hl hs
    have hreg : (t.events e.fd).mask≠aeNone := by
      obtain ⟨-,-,hev⟩ := same_writing ht hatt.live
      rw [hfd,hmem] at hev
      rw [hev]
      exact remaining_registered ha (mem_of_split hd)
    exact absurd (fires_of_feeds ht.turn.mid.coherent hatt hfeeds (hfd.trans hmem) hreg
      (hw e (mem_of_split hd) hmem.symm)).1 hskip

/-- In an iteration a link that is writable accepts a front part of the block read on its
source, if one was read and both stay open. -/
theorem iteration_chunks (ha : Admitted w it) (hf : Follows shape w link source)
    (hw : ReportsWritable w link it) (hx : aeMainStep it w=.ok () v)
    (hl : v.links link≠none) (hs : v.links source≠none) :
    List.Forall₂ FrontPart (acceptedBy link (moved w v)) (readOn source (moved w v)) := by
  have hmask : ∀ e∈remaining it,e.fd=(linkAt w link).fd → e.mask &&& aeWritable≠0 := by
    intro e he hfd
    obtain ⟨d,hd,rfl⟩ := List.mem_map.mp he
    obtain ⟨d',hd',hfd',hm⟩ := hw
    obtain rfl : d=d' :=
      List.inj_on_of_nodup_map (fired_nodup ha) hd hd' (hfd.trans hfd'.symm)
    exact and_writable hm (by decide)
  have hmem : (linkAt w link).fd∈(remaining it).map AeFiredEvent.fd := by
    obtain ⟨d,hd,hfd,-⟩ := hw
    rw [remaining_fds,← hfd]
    exact List.mem_map_of_mem hd
  have hrule := aeMainStep_rule hf.coherent ha (fun _ _ => True)
    (fun done t => ∀ r,Reading shape w it (fired it) r →
      Offered w r link source (done.map AeFiredEvent.fd) t)
    (fun v => v.links link≠none → v.links source≠none →
      List.Forall₂ FrontPart (acceptedBy link (moved w v)) (readOn source (moved w v)))
    (fun _ _ => True) (fun _ _ => trivial) (fun _ _ _ _ _ _ _ _ => trivial)
    (fun _ _ _ _ _ _ _ _ _ _ => by split <;> trivial) ?_ ?_ ?_ ?_
  · exact hrule.of_ok rfl hx hl hs
  · intro r hr _ r' hr'
    obtain rfl := reading_unique hr hr'
    have hcol := collected_of_reading ha hf (fired_whole _) hr
    exact ⟨hcol.moves,rfl,fun _ => hcol.unwritten,fun h => absurd h (by simp)⟩
  · intro r done e todo t hd ht h hskip r' hr'
    obtain rfl := reading_unique ht.reading hr'
    exact offered_skip ha hf hmask hd ht (h r ht.reading) hskip
  · intro r done e todo t other u hd ht h hcall r' hr'
    obtain rfl := reading_unique ht.reading hr'
    exact offered_step ha hf hmask hd ht (h r ht.reading) hcall
  · intro r t u ht h _ hg hl hs
    have hlive : ∀ p,Attached w p → u.links p≠none → t.links p≠none := by
      intro p hp hu
      obtain ⟨l,hl⟩ := Option.ne_none_iff_exists'.mp hu
      have hlt := hf.coherent.numbered p _ hp.live
      rw [← writing_nextLink ht] at hlt
      rcases hg.new p l hl with htl|⟨hle,-⟩
      · rw [htl]
        simp
      · exact absurd hlt (Nat.not_lt_of_le hle)
    rw [moved_congr hg.transfers]
    exact (h r ht.reading).behind hmem (hlive link hf.target hl) (hlive source hf.origin hs)

end Iteration

section Runs

variable {w t v : World} {shape : Shape} {it : Iteration} {its : List Iteration}
variable {link source : LinkPtr}

/-- A link that stays open with its source takes data in the next iteration, too. -/
theorem Follows.advance (hf : Follows shape w link source) (hc : Coherent shape t)
    (h : Advanced w t) (hl : t.links link≠none) (hs : t.links source≠none) :
    Follows shape t link source ∧ (linkAt t link).fd=(linkAt w link).fd := by
  have hsame : ∀ p,Attached w p → t.links p≠none → Attached t p ∧ nodeOf t p=nodeOf w p ∧
      (linkAt t p).fd=(linkAt w p).fd := by
    intro p hp ht
    obtain ⟨l,hl⟩ := Option.ne_none_iff_exists'.mp ht
    obtain ⟨l₀,hl₀,hfd,hn⟩ := h.links p l hl (hf.coherent.numbered p _ hp.live)
    exact ⟨hc.attached hl,by rw [nodeOf,nodeOf,linkAt_of_some hl,linkAt_of_some hl₀,hn],
      by rw [linkAt_of_some hl,linkAt_of_some hl₀,hfd]⟩
  obtain ⟨hatt,hn,hfd⟩ := hsame link hf.target hl
  obtain ⟨hatt',hn',-⟩ := hsame source hf.origin hs
  refine ⟨⟨hc,hatt,hatt',?_,?_⟩,hfd⟩
  · rw [hn,hn']
    exact hf.feeds.congr h.devices
  · rw [hn,eventFlags_congr hf.coherent.topology h.devices (hf.target.mem hf.coherent.topology)]
    exact hf.mute

theorem moved_trans (h : Advanced w t) (h' : Advanced t v) : moved w v=moved w t++moved t v := by
  obtain ⟨calls,hc⟩ := h.transfers
  obtain ⟨calls',hc'⟩ := h'.transfers
  rw [moved_of_append hc,moved_of_append hc',
    moved_of_append (hc'.trans (by rw [hc,List.append_assoc]))]

/-- A link that was open at the start and is open at the end of a run was open all the time. -/
theorem open_between (hf : Follows shape w link source) (h : Advanced w t) (h' : Advanced t v)
    {p : LinkPtr} (hp : Attached w p) (hv : v.links p≠none) : t.links p≠none := by
  obtain ⟨l,hl⟩ := Option.ne_none_iff_exists'.mp hv
  obtain ⟨l₀,hl₀,-⟩ := h'.links p l hl ((hf.coherent.numbered p _ hp.live).trans_le h.nextLink)
  rw [hl₀]
  simp

/-- Over a run a link that is always writable accepts front parts of the blocks read on its
source. -/
theorem run_chunks (hrun : Run aeMainStep (fun s it => Admitted s it ∧ ReportsWritable s link it)
    w its v) (hf : Follows shape w link source) (hl : v.links link≠none)
    (hs : v.links source≠none) :
    List.Forall₂ FrontPart (acceptedBy link (moved w v)) (readOn source (moved w v)) := by
  induction hrun with
  | nil s =>
    have hm : moved s s=[] := by rw [moved,List.drop_length]
    rw [hm]
    exact .nil
  | cons ha hx hrest ih =>
    have hct := aeMainStep_coherent hf.coherent ha.1 hx
    have hadv := aeMainStep_advanced hf.coherent ha.1 hx
    obtain ⟨-,hadv'⟩ := run_advanced (fun _ _ h => h.1) hct hrest
    have hl' := open_between hf hadv hadv' hf.target hl
    have hs' := open_between hf hadv hadv' hf.origin hs
    rw [moved_trans hadv hadv',acceptedBy_append,readOn_append]
    exact List.rel_append (iteration_chunks ha.1 hf ha.2 hx hl' hs')
      (ih (hf.advance hct hadv hl' hs').1 hl hs)

/-- The chunks that a virtual without the writer flag has accepted over a run in which it
and its master stay open and it is writable in every iteration: each is a nonempty front part
of the block of the master it belongs to, in order, one for every block. -/
theorem accepted_front_parts (h : Running w)
    (hrun : Run aeMainStep (fun s it => Admitted s it ∧ ReportsWritable s link it) w its v)
    (hlink : w.links link≠none ∧ v.links link≠none)
    (hsource : w.links source≠none ∧ v.links source≠none)
    (hvirtual : nodeIsVirtual (nodeAt w (nodeOf w link))=true)
    (hwriter : nodeIsWriter (nodeAt w (nodeOf w link))=false)
    (hmaster : (nodeAt w (nodeOf w link)).virtualof=some (nodeOf w source)) :
    List.Forall₂ FrontPart (acceptedBy link (moved w v)) (readOn source (moved w v)) := by
  obtain ⟨shape,hc⟩ := running_coherent h
  obtain ⟨l,hl⟩ := Option.ne_none_iff_exists'.mp hlink.1
  obtain ⟨m,hm⟩ := Option.ne_none_iff_exists'.mp hsource.1
  have hatt := hc.attached hl
  have hmem := hatt.mem hc.topology
  have hfeeds : Feeds shape w (nodeOf w source) (nodeOf w link) :=
    feeds_of_supplies hc.topology hmem (.inl ⟨hvirtual,hmaster⟩)
  refine run_chunks hrun ⟨hc,hatt,hc.attached hm,hfeeds,?_⟩ hlink.2 hsource.2
  obtain ⟨g,hg,hv⟩ := hc.topology.owner_of_virtual hmem hvirtual
  rw [eventFlags_virtual hc.topology hg hv,hwriter]
  decide

/-- The master sends a block, of which the virtual `b` takes one byte. -/
def shortWrite (block : Block) : Iteration :=
  ⟨.ok [⟨4,true,false,false,false,⟨.data block,.zero⟩,⟨.eof,.zero⟩⟩,
    ⟨5,false,true,false,false,⟨.eof,.zero⟩,⟨.eof,.accepted 1 Nat.one_pos⟩⟩],none⟩

theorem one_lt_bufsiz : [(2 : UInt8)].length<bufsiz := by decide

/-- Two blocks that `b` takes one byte of each. -/
def shortWrites : List Iteration :=
  [shortWrite (sampleBlock 1 [2] one_lt_bufsiz),shortWrite (sampleBlock 3 [] nil_lt_bufsiz)]

/-- The state after the two short writes. -/
def shortEnd : World :=
  finalState (aeMainStep (shortWrite (sampleBlock 3 [] nil_lt_bufsiz))
    (finalState (aeMainStep (shortWrite (sampleBlock 1 [2] one_lt_bufsiz)) sampleBoot)))

theorem shortWrites_run : Run aeMainStep
    (fun s it => Admitted s it ∧ ReportsWritable s 1 it) sampleBoot shortWrites shortEnd := by
  refine .cons ⟨⟨by decide +kernel,by decide +kernel,by decide +kernel,by decide +kernel⟩,?_⟩
    (eq_ok_of_returns (by decide +kernel)) (.cons
      ⟨⟨by decide +kernel,by decide +kernel,by decide +kernel,by decide +kernel⟩,?_⟩
      (eq_ok_of_returns (by decide +kernel)) (.nil _))
  · exact ⟨_,List.mem_of_getElem? (i:=1) rfl,by decide +kernel,by decide⟩
  · exact ⟨_,List.mem_of_getElem? (i:=1) rfl,by decide +kernel,by decide⟩

theorem accepted_front_parts_short : List.Forall₂ FrontPart
    (acceptedBy 1 (moved sampleBoot shortEnd)) (readOn 0 (moved sampleBoot shortEnd)) :=
  accepted_front_parts sampleBoot_running shortWrites_run (by decide +kernel) (by decide +kernel)
    (by decide +kernel) (by decide +kernel) (by decide +kernel)

/-- The byte that the first short write did not take is lost. -/
theorem short_write_loses : ¬ ∀ w its v link source,Running w →
    Run aeMainStep (fun s it => Admitted s it ∧ ReportsWritable s link it) w its v →
    (w.links link≠none ∧ v.links link≠none) → (w.links source≠none ∧ v.links source≠none) →
    nodeIsVirtual (nodeAt w (nodeOf w link))=true → nodeIsWriter (nodeAt w (nodeOf w link))=false →
    (nodeAt w (nodeOf w link)).virtualof=some (nodeOf w source) →
    (∀ fd data result,Call.write link source fd data result∈moved w v →
      ∃ count pos,result=.accepted count pos ∧ count≤data.length) →
    (acceptedBy link (moved w v)).flatten<+:(readOn source (moved w v)).flatten := by
  intro h
  have hmoved : moved sampleBoot shortEnd=
      [.read 0 4 (.data (sampleBlock 1 [2] one_lt_bufsiz)),
        .write 1 0 5 [1,2] (.accepted 1 (by decide)),
        .read 0 4 (.data (sampleBlock 3 [] nil_lt_bufsiz)),
        .write 1 0 5 [3] (.accepted 1 (by decide))] := by decide +kernel
  have htaken : ∀ fd data result,Call.write 1 0 fd data result∈moved sampleBoot shortEnd →
      ∃ count pos,result=.accepted count pos ∧ count≤data.length := by
    intro fd data result hm
    rw [hmoved] at hm
    simp only [List.mem_cons,reduceCtorEq,Call.write.injEq,false_or,true_and,List.not_mem_nil,
      or_false] at hm
    obtain ⟨-,rfl,rfl⟩|⟨-,rfl,rfl⟩ := hm
    · exact ⟨1,by decide,rfl,by decide⟩
    · exact ⟨1,by decide,rfl,by decide⟩
  have hlost := h sampleBoot shortWrites shortEnd 1 0 sampleBoot_running shortWrites_run
    (by decide +kernel) (by decide +kernel) (by decide +kernel) (by decide +kernel)
    (by decide +kernel) htaken
  rw [hmoved] at hlost
  exact absurd hlost (by decide)

end Runs

end SerialProxy.ShortWrites
