import SerialProxy.LinkCoherence

/-!
# What one call of the callback does

A callback reads into the buffer of its own link and writes the buffer of the
source link of its node. It returns, or dereferences its own link after the
read side has closed it; in both cases the state is coherent and nothing
outside its own link, node and registration has changed.
-/

namespace SerialProxy.HandlerEffects

open FaultPrograms LinkedCells CText SerialState EventTable SerialNodes SerialLinks NodeTopology
open LinkEffects LinkCoherence

/-- The calls that move data. -/
def isTransfer : Call → Bool
  | .read _ _ _ => true
  | .write _ _ _ _ _ => true
  | _ => false

/-- The reads and writes among some calls, in order. -/
def transfers (calls : List Call) : List Call := calls.filter isTransfer

theorem transfers_append (calls calls' : List Call) :
    transfers (calls++calls')=transfers calls++transfers calls' := List.filter_append _ _

/-- One node is the source of another: a master of its virtuals, and the first
writer of a master of that master. -/
def Feeds (shape : Shape) (w : World) (source node : NodePtr) : Prop :=
  ∃ g∈shape,(node∈g.2 ∧ source=g.1) ∨ (node=g.1 ∧ writerOf w g.2=some source)

section Sources

variable {w w' : World} {shape : Shape} {g : NodePtr×List NodePtr} {node source : NodePtr}
variable {link : LinkPtr}

/-- A virtual copies from the link of its master. -/
theorem sourceLink_virtual (ht : Topology w shape) (hg : g∈shape) (hv : node∈g.2) :
    sourceLink w node=(nodeAt w g.1).link := by
  obtain ⟨n,hn,hf,ho,-⟩ := ht.virtual g hg node hv
  rw [sourceLink,nodeAt_of_some hn,nodeIsVirtual_of_flags hf,if_pos rfl,ho,Option.bind_some]

/-- A master copies from the link of its first writer. -/
theorem sourceLink_master (ht : Topology w shape) (hg : g∈shape) :
    sourceLink w g.1=(writerOf w g.2).bind fun v => (nodeAt w v).link := by
  obtain ⟨m,hm,hf,-⟩ := ht.master g hg
  rw [sourceLink,nodeAt_of_some hm,not_nodeIsVirtual_of_flags hf,if_neg Bool.false_ne_true,
    serialGetVirtualWriterNode_apply ht hg]
  cases writerOf w g.2 <;> rfl

/-- The link a node copies from is the one of the node that feeds it. -/
theorem sourceLink_of_feeds (ht : Topology w shape) (h : Feeds shape w source node) :
    sourceLink w node=(nodeAt w source).link := by
  obtain ⟨g,hg,⟨hv,rfl⟩|⟨rfl,hw⟩⟩ := h
  · exact sourceLink_virtual ht hg hv
  · rw [sourceLink_master ht hg,hw,Option.bind_some]

theorem feeds_of_sourceLink (ht : Topology w shape) (hm : shape.Mem node)
    (h : sourceLink w node=some link) :
    ∃ source,Feeds shape w source node ∧ (nodeAt w source).link=some link := by
  obtain ⟨g,hg,rfl|hv⟩ := hm
  · rw [sourceLink_master ht hg,Option.bind_eq_some_iff] at h
    obtain ⟨v,hv,hlink⟩ := h
    exact ⟨v,⟨g,hg,.inr ⟨rfl,hv⟩⟩,hlink⟩
  · rw [sourceLink_virtual ht hg hv] at h
    exact ⟨g.1,⟨g,hg,.inl ⟨hv,rfl⟩⟩,h⟩

/-- Both ends of a feed are nodes of the tree, and they are different. -/
theorem Feeds.mem (ht : Topology w shape) (h : Feeds shape w source node) :
    shape.Mem source ∧ shape.Mem node ∧ source≠node := by
  obtain ⟨g,hg,⟨hv,rfl⟩|⟨rfl,hw⟩⟩ := h
  · exact ⟨⟨g,hg,.inl rfl⟩,⟨g,hg,.inr hv⟩,ht.master_ne_virtual hg hg hv⟩
  · have hv := (writerOf_some hw).1
    exact ⟨⟨g,hg,.inr hv⟩,⟨g,hg,.inl rfl⟩,(ht.master_ne_virtual hg hg hv).symm⟩

theorem Feeds.congr (hs : SameDevices w w') (h : Feeds shape w source node) :
    Feeds shape w' source node := by
  obtain ⟨g,hg,h⟩ := h
  exact ⟨g,hg,by rwa [writerOf_congr hs]⟩

/-- The source link depends on the node that feeds only. -/
theorem sourceLink_congr (ht : Topology w shape) (hs : SameDevices w w') (hm : shape.Mem node)
    (hn : ∀ source,Feeds shape w source node → w'.nodes source=w.nodes source) :
    sourceLink w' node=sourceLink w node := by
  have ht' := hs.topology ht
  obtain ⟨g,hg,rfl|hv⟩ := hm
  · rw [sourceLink_master ht hg,sourceLink_master ht' hg,writerOf_congr hs]
    cases hw : writerOf w g.2 with
    | none => rfl
    | some v => rw [Option.bind_some,Option.bind_some,nodeAt,nodeAt,hn v ⟨g,hg,.inr ⟨rfl,hw⟩⟩]
  · rw [sourceLink_virtual ht hg hv,sourceLink_virtual ht' hg hv,nodeAt,nodeAt,
      hn g.1 ⟨g,hg,.inl ⟨hv,rfl⟩⟩]

/-- Every link that is copied from is attached, to a node that feeds. -/
theorem source_attached (hc : Coherent shape w) (hm : shape.Mem node)
    (h : sourceLink w node=some link) :
    Attached w link ∧ Feeds shape w (nodeOf w link) node := by
  obtain ⟨source,hf,hlink⟩ := feeds_of_sourceLink hc.topology hm h
  obtain ⟨n,hn⟩ := hc.topology.live_of_mem (hf.mem hc.topology).1
  rw [nodeAt_of_some hn] at hlink
  obtain ⟨ha,ho⟩ := hc.attached_of_node hn hlink
  exact ⟨ha,ho ▸ hf⟩

end Sources

/-- The reach of one callback: its own link, node and registration. -/
structure Confined (w : World) (link : LinkPtr) (w' : World) : Prop where
  /-- Devices are as before. -/
  devices : SameDevices w w'
  /-- Other links are as before. -/
  links : ∀ other,other≠link → w'.links other=w.links other
  /-- Its own link is closed, or differs in its buffer only. -/
  own : ∀ l',w'.links link=some l' → ∃ l,w.links link=some l ∧ l'.fd=l.fd ∧ l'.sfd=l.sfd ∧
    l'.node=l.node
  /-- Other nodes are as before. -/
  nodes : ∀ node,node≠nodeOf w link → w'.nodes node=w.nodes node
  /-- Other registrations are as before. -/
  events : ∀ fd,fd≠(linkAt w link).fd → w'.events fd=w.events fd
  /-- Its own registration is as before, or removed with the link. -/
  ownEvents : ((w'.events (linkAt w link).fd).mask=aeNone ∧ w'.links link=none) ∨
    w'.events (linkAt w link).fd=w.events (linkAt w link).fd
  /-- The table has its size. -/
  setsize : w'.setsize=w.setsize
  /-- No link was allocated. -/
  nextLink : w'.nextLink=w.nextLink

namespace Confined

variable {w w' : World} {link : LinkPtr}

theorem of_receive (ha : Attached w link) (block : Block) (errno : Errno) (calls : List Call) :
    Confined w link (record (receive w link block) errno calls) where
  devices := ⟨fun _ => rfl,rfl,rfl⟩
  links := fun _ h => receive_links_of_ne h w block
  own := by
    intro l' hl'
    have he := (receive_links_self w link block).symm.trans hl'
    rw [Option.some.injEq] at he
    subst he
    exact ⟨_,ha.live,rfl,rfl,rfl⟩
  nodes := fun _ _ => rfl
  events := fun _ _ => rfl
  ownEvents := .inr rfl
  setsize := rfl
  nextLink := rfl

theorem refl (w : World) (link : LinkPtr) : Confined w link w where
  devices := .refl w
  links := fun _ _ => rfl
  own := fun l hl => ⟨l,hl,rfl,rfl,rfl⟩
  nodes := fun _ _ => rfl
  events := fun _ _ => rfl
  ownEvents := .inr rfl
  setsize := rfl
  nextLink := rfl

theorem of_record (w : World) (link : LinkPtr) (errno : Errno) (calls : List Call) :
    Confined w link (record w errno calls) where
  devices := ⟨fun _ => rfl,rfl,rfl⟩
  links := fun _ _ => rfl
  own := fun l hl => ⟨l,hl,rfl,rfl,rfl⟩
  nodes := fun _ _ => rfl
  events := fun _ _ => rfl
  ownEvents := .inr rfl
  setsize := rfl
  nextLink := rfl

theorem of_close {shape : Shape} (hc : Coherent shape w) (ha : Attached w link) :
    Confined w link (close w link) where
  devices := SameDevices.close ha
  links := fun _ h => close_links_of_ne h
  own := fun l hl => absurd hl (by rw [close_links_self]; simp)
  nodes := fun _ h => close_nodes_of_ne h
  events := fun _ h => close_events_of_ne h
  ownEvents := .inl ⟨hc.close_events_self ha,close_links_self w link⟩
  setsize := rfl
  nextLink := rfl

/-- A second part of the callback, run while the link is still attached. -/
theorem trans (h : Confined w link w') (hl : Attached w' link)
    {w'' : World} (h' : Confined w' link w'') : Confined w link w'' := by
  obtain ⟨l,hlive,hf,-,hn⟩ := h.own _ hl.live
  have hfd : (linkAt w' link).fd=(linkAt w link).fd := by rw [hf,linkAt_of_some hlive]
  have hnode : nodeOf w' link=nodeOf w link := by
    rw [nodeOf,nodeOf,hn,linkAt_of_some hlive]
  refine ⟨h.devices.trans h'.devices,?_,?_,?_,?_,?_,h'.setsize.trans h.setsize,
    h'.nextLink.trans h.nextLink⟩
  · intro other ho
    rw [h'.links other ho,h.links other ho]
  · intro l'' hl''
    obtain ⟨l',hl',hf',hs',hn'⟩ := h'.own l'' hl''
    obtain ⟨l,hl,hf,hs,hn⟩ := h.own l' hl'
    exact ⟨l,hl,hf'.trans hf,hs'.trans hs,hn'.trans hn⟩
  · intro node ho
    rw [h'.nodes node (hnode ▸ ho),h.nodes node ho]
  · intro fd ho
    rw [h'.events fd (hfd ▸ ho),h.events fd ho]
  · rcases h'.ownEvents with he|he
    · exact .inl (hfd ▸ he)
    · rw [hfd] at he
      rw [he]
      exact h.ownEvents.imp_left fun hn => absurd (hl.live.symm.trans hn.2) (by simp)

end Confined

/-- Outcome of a part of the callback: the reads and writes it makes, and its
own link afterwards. -/
structure Effect (shape : Shape) (w : World) (link : LinkPtr) (calls : List Call)
    (own : Option SerialLink) (w' : World) : Prop where
  /-- The state stays coherent. -/
  coherent : Coherent shape w'
  /-- Nothing else has changed. -/
  confined : Confined w link w'
  /-- The reads and writes made. -/
  transfers : transfers w'.trace=transfers w.trace++calls
  /-- Its own link, if it is still open. -/
  own : w'.links link=own

theorem Effect.trans {shape : Shape} {w w' w'' : World} {link : LinkPtr} {calls calls' : List Call}
    {l : SerialLink} {own : Option SerialLink} (h : Effect shape w link calls (some l) w')
    (h' : Effect shape w' link calls' own w'') : Effect shape w link (calls++calls') own w'' where
  coherent := h'.coherent
  confined := h.confined.trans (h.coherent.attached h.own) h'.confined
  transfers := by rw [h'.transfers,h.transfers,List.append_assoc]
  own := h'.own

/-- A link with a block in its buffer. -/
def filled (l : SerialLink) (block : Block) : SerialLink :=
  {l with recvbuf := block.bytes++l.recvbuf.drop block.bytes.length, recvbuflen := block.bytes.length}

/-- A filled buffer holds exactly its block. -/
theorem filled_received (l : SerialLink) (block : Block) :
    (filled l block).recvbuf.take (filled l block).recvbuflen=block.bytes := by
  simp [filled]

/-- The own link after the read side. -/
def linkAfterRead (w : World) (link : LinkPtr) : ReadResult → Option SerialLink
  | .data block => some (filled (linkAt w link) block)
  | result => if readCloses w.errno result then none else some (linkAt w link)

/-- The write of the write side, if one is made. -/
def writeCalls (w : World) (link : LinkPtr) (result : WriteResult) : List Call :=
  match offering w (nodeOf w link) with
  | none => []
  | some source => [.write link source (linkAt w link).fd (received w source) result]

/-- The write side makes a write that closes the link. -/
def writeRejected (w : World) (link : LinkPtr) (result : WriteResult) : Bool :=
  (offering w (nodeOf w link)).isSome && writeCloses result

/-- The own link after the write side. -/
def linkAfterWrite (w : World) (link : LinkPtr) (result : WriteResult) : Option SerialLink :=
  if writeRejected w link result then none else some (linkAt w link)

section Sides

variable {w : World} {shape : Shape} {link : LinkPtr}

/-- Recorded calls, of which only some move data. -/
theorem effect_record (hc : Coherent shape w) (ha : Attached w link) (errno : Errno)
    {calls moved : List Call} (h : transfers calls=moved) :
    Effect shape w link moved (some (linkAt w link)) (record w errno calls) where
  coherent := (SameExceptBuffers.record w errno calls).coherent hc
  confined := Confined.of_record w link errno calls
  transfers := h ▸ transfers_append _ _
  own := ha.live

/-- Closing the own link moves no data. -/
theorem effect_close (hc : Coherent shape w) (ha : Attached w link) :
    Effect shape w link [] none (close w link) where
  coherent := hc.close ha
  confined := Confined.of_close hc ha
  transfers := by
    have hq : transfers (closeCalls link (linkAt w link))=[] := by
      unfold closeCalls
      split <;> rfl
    change transfers (w.trace++_)=_
    rw [transfers_append,hq]
  own := close_links_self w link

/-- Recorded calls and then the closing of the own link. -/
theorem effect_record_close (hc : Coherent shape w) (ha : Attached w link) (errno : Errno)
    {calls moved : List Call} (h : transfers calls=moved) :
    Effect shape w link moved none (close (record w errno calls) link) := by
  have hr := effect_record hc ha errno h
  have hx := hr.trans (effect_close hr.coherent (ha.record errno calls))
  rwa [List.append_nil] at hx

/-- The read side makes one read, which fills the buffer or closes the link. -/
theorem afterRead_effect (hc : Coherent shape w) (ha : Attached w link) (result : ReadResult) :
    Effect shape w link [.read link (linkAt w link).fd result] (linkAfterRead w link result)
      (afterRead w link result) := by
  by_cases hd : ∃ block,result=.data block
  · obtain ⟨block,rfl⟩ := hd
    have hs : SameExceptBuffers w (receive w link block) :=
      SameExceptBuffers.update ha.live _ _
    exact ⟨(SameExceptBuffers.record _ _ _).coherent (hs.coherent hc),
      Confined.of_receive ha block _ _,transfers_append _ _,receive_links_self w link block⟩
  · have hd : ∀ block,result≠.data block := fun block h => hd ⟨block,h⟩
    have hown : linkAfterRead w link result=
        if readCloses w.errno result then none else some (linkAt w link) := by
      cases result with
      | data block => exact absurd rfl (hd block)
      | eof => rfl
      | fail e => rfl
    rw [afterRead_of_not_data hd,hown]
    split
    · exact effect_record_close hc ha _ rfl
    · exact effect_record hc ha _ rfl

/-- The write side makes one write when a block is offered, and closes the
link when that write is rejected. -/
theorem afterWrite_effect (hc : Coherent shape w) (ha : Attached w link) (result : WriteResult) :
    Effect shape w link (writeCalls w link result) (linkAfterWrite w link result)
      (afterWrite w link result) := by
  rw [writeCalls,linkAfterWrite,writeRejected,afterWrite]
  cases offering w (nodeOf w link) with
  | none => exact ⟨hc,.refl w link,(List.append_nil _).symm,ha.live⟩
  | some source =>
    cases result with
    | accepted count hpos => exact effect_record hc ha _ rfl
    | zero => exact effect_record_close hc ha _ rfl
    | fail errno => exact effect_record_close hc ha _ rfl

/-- A callback never changes what its own node is offered. -/
theorem offering_own {w' : World} (hc : Coherent shape w) (ha : Attached w link)
    (h : Confined w link w') : offering w' (nodeOf w link)=offering w (nodeOf w link) ∧
      ∀ source,offering w (nodeOf w link)=some source → linkAt w' source=linkAt w source := by
  have hm := ha.mem hc.topology
  have hsrc : sourceLink w' (nodeOf w link)=sourceLink w (nodeOf w link) :=
    sourceLink_congr hc.topology h.devices hm fun source hf =>
      h.nodes source (hf.mem hc.topology).2.2
  have hlink : ∀ source,sourceLink w (nodeOf w link)=some source →
      linkAt w' source=linkAt w source := by
    intro source hs
    have hne : source≠link := by
      rintro rfl
      exact ((source_attached hc hm hs).2.mem hc.topology).2.2 rfl
    rw [linkAt,linkAt,h.links source hne]
  refine ⟨?_,fun source hs => hlink source (Option.filter_eq_some_iff.mp hs).1⟩
  rw [offering,offering,hsrc]
  cases hs : sourceLink w (nodeOf w link) with
  | none => rfl
  | some source => rw [Option.filter_some,Option.filter_some,hlink source hs]

end Sides

/-- The callback is asked for both sides and its read side closes the link. -/
def UsesFreed (w : World) (mask : EventMask) (env : CallResults) : Prop :=
  mask &&& aeReadable≠0 ∧ mask &&& aeWritable≠0 ∧ readCloses w.errno env.read=true

instance (w : World) (mask : EventMask) (env : CallResults) : Decidable (UsesFreed w mask env) :=
  inferInstanceAs (Decidable (_ ∧ _))

/-- The reads and writes of one callback. -/
def eventCalls (w : World) (link : LinkPtr) (mask : EventMask) (env : CallResults) : List Call :=
  (if mask &&& aeReadable≠0 then [.read link (linkAt w link).fd env.read] else [])++
    if mask &&& aeWritable≠0 ∧ ¬ UsesFreed w mask env then writeCalls w link env.write else []

/-- The own link after its callback. -/
def eventLink (w : World) (link : LinkPtr) (mask : EventMask) (env : CallResults) :
    Option SerialLink :=
  if mask &&& aeWritable≠0 ∧ writeRejected w link env.write=true then none
  else if mask &&& aeReadable≠0 then linkAfterRead w link env.read
  else some (linkAt w link)

section Callback

variable {w w' : World} {shape : Shape} {link : LinkPtr} {mask : EventMask} {env : CallResults}

/-- The node and the descriptor of a link that a part of the callback left open. -/
theorem Effect.same_link {calls : List Call} {l : SerialLink}
    (h : Effect shape w link calls (some l) w') :
    nodeOf w' link=nodeOf w link ∧ (linkAt w' link).fd=(linkAt w link).fd ∧ linkAt w' link=l := by
  obtain ⟨l₀,hl₀,hf,-,hn⟩ := h.confined.own l h.own
  have hl := linkAt_of_some h.own
  have hl₀ := linkAt_of_some hl₀
  exact ⟨by rw [nodeOf,nodeOf,hl,hn,hl₀],by rw [hl,hf,hl₀],hl⟩

/-- The read side does not change what the write side then does. -/
theorem writeCalls_after {calls : List Call} {l : SerialLink} (hc : Coherent shape w)
    (ha : Attached w link) (h : Effect shape w link calls (some l) w') (result : WriteResult) :
    writeCalls w' link result=writeCalls w link result ∧
      (offering w' (nodeOf w' link)).isSome=(offering w (nodeOf w link)).isSome := by
  obtain ⟨hn,hf,-⟩ := h.same_link
  obtain ⟨ho,hs⟩ := offering_own hc ha h.confined
  refine ⟨?_,by rw [hn,ho]⟩
  rw [writeCalls,writeCalls,hn,ho,hf]
  cases hsrc : offering w (nodeOf w link) with
  | none => rfl
  | some source => simp only [received,hs source hsrc]

/-- The write side after the read side left the link open. -/
theorem serialWriteHandler_effect (hc : Coherent shape w) (ha : Attached w link)
    (result : WriteResult) : serialWriteHandler link result w=.ok () (afterWrite w link result) ∧
      Effect shape w link (writeCalls w link result) (linkAfterWrite w link result)
        (afterWrite w link result) :=
  ⟨serialWriteHandler_apply hc.topology ha
    (fun _ hs => (source_attached hc (ha.mem hc.topology) hs).1) result,
    afterWrite_effect hc ha result⟩

/-- The write side dereferences its link first. -/
theorem serialWriteHandler_freed {result : WriteResult} (h : w.links link=none) :
    serialWriteHandler link result w=.error (.freedLink link) w := by
  simp [serialWriteHandler,derefLink,h]

/-- A read that returns data leaves the link open. -/
theorem linkAfterRead_eq_none {result : ReadResult} :
    linkAfterRead w link result=none ↔ readCloses w.errno result=true := by
  cases result <;> simp [linkAfterRead,readCloses]

/-- A callback that does not close its link before the write side returns. -/
theorem serialEventHandler_returns (hc : Coherent shape w) (ha : Attached w link)
    (hu : ¬ UsesFreed w mask env) : ∃ w',
      Effect shape w link (eventCalls w link mask env) (eventLink w link mask env) w' ∧
      serialEventHandler (some link) mask env w=.ok () w' := by
  by_cases hr : mask &&& aeReadable≠0
  · have hread := serialReadHandler_apply hc.topology ha env.read
    have he := afterRead_effect hc ha env.read
    by_cases hw : mask &&& aeWritable≠0
    · have hclose : ¬ readCloses w.errno env.read=true := fun h => hu ⟨hr,hw,h⟩
      obtain ⟨l,hl⟩ := Option.ne_none_iff_exists'.mp (mt linkAfterRead_eq_none.mp hclose)
      rw [hl] at he
      obtain ⟨hwrite,he'⟩ := serialWriteHandler_effect he.coherent (he.coherent.attached he.own)
        env.write
      obtain ⟨hcalls,hoffer⟩ := writeCalls_after hc ha he env.write
      refine ⟨afterWrite (afterRead w link env.read) link env.write,?_,?_⟩
      · have ht := he.trans he'
        rw [hcalls,linkAfterWrite,writeRejected,hoffer,he.same_link.2.2] at ht
        simp only [eventCalls,eventLink,writeRejected,if_pos hr,hw,hu,ne_eq,not_false_eq_true,
          true_and,and_self,if_true,hl]
        exact ht
      · rw [serialEventHandler,if_pos hr,bind_of_ok hread,if_pos hw]
        exact hwrite
    · refine ⟨afterRead w link env.read,?_,?_⟩
      · simp only [eventCalls,eventLink,if_pos hr,hw,false_and,if_false,List.append_nil]
        exact he
      · rw [serialEventHandler,if_pos hr,bind_of_ok hread,if_neg hw]
        rfl
  · by_cases hw : mask &&& aeWritable≠0
    · obtain ⟨hwrite,he⟩ := serialWriteHandler_effect hc ha env.write
      refine ⟨afterWrite w link env.write,?_,?_⟩
      · simp only [eventCalls,eventLink,if_neg hr,hw,hu,ne_eq,not_false_eq_true,true_and,and_self,
          if_true,List.nil_append]
        exact he
      · rw [serialEventHandler,if_neg hr,if_pos hw]
        exact hwrite
    · refine ⟨w,?_,?_⟩
      · simp only [eventCalls,eventLink,if_neg hr,hw,false_and,if_false,List.append_nil]
        exact ⟨hc,.refl w link,(List.append_nil _).symm,ha.live⟩
      · rw [serialEventHandler,if_neg hr,if_neg hw]
        rfl

/-- A callback whose read side closes the link dereferences it in the write side. -/
theorem serialEventHandler_freed (hc : Coherent shape w) (ha : Attached w link)
    (hu : UsesFreed w mask env) : ∃ w',
      Effect shape w link (eventCalls w link mask env) (eventLink w link mask env) w' ∧
      serialEventHandler (some link) mask env w=.error (.freedLink link) w' := by
  obtain ⟨hr,hw,hclose⟩ := hu
  have he := afterRead_effect hc ha env.read
  have hnone : linkAfterRead w link env.read=none := linkAfterRead_eq_none.mpr hclose
  refine ⟨afterRead w link env.read,?_,?_⟩
  · have hl : eventLink w link mask env=none := by
      rw [eventLink,if_pos hr,hnone,ite_self]
    rw [hl,← hnone,eventCalls,if_pos hr,if_neg fun h => h.2 ⟨hr,hw,hclose⟩,List.append_nil]
    exact he
  · rw [serialEventHandler,if_pos hr,bind_of_ok (serialReadHandler_apply hc.topology ha env.read),
      if_pos hw]
    exact serialWriteHandler_freed (he.own.trans hnone)

/-- What a callback does to a coherent state, and how it ends. -/
theorem serialEventHandler_spec (hc : Coherent shape w) (ha : Attached w link) (mask : EventMask)
    (env : CallResults) : ∃ w',
      Effect shape w link (eventCalls w link mask env) (eventLink w link mask env) w' ∧
      serialEventHandler (some link) mask env w=
        if UsesFreed w mask env then .error (.freedLink link) w' else .ok () w' := by
  by_cases hu : UsesFreed w mask env
  · obtain ⟨w',he,hx⟩ := serialEventHandler_freed hc ha hu
    exact ⟨w',he,by rw [if_pos hu,hx]⟩
  · obtain ⟨w',he,hx⟩ := serialEventHandler_returns hc ha hu
    exact ⟨w',he,by rw [if_neg hu,hx]⟩

end Callback

end SerialProxy.HandlerEffects
