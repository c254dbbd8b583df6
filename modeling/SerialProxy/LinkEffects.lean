import SerialProxy.NodeTopology

/-!
# What closing, reading and writing do to the state

Closed forms of the state after `_serialFreeLink` and after each side of the
callback, for a link that is attached to a live node of the tree, and the
equations that say the programs reach exactly these states.
-/

namespace SerialProxy.LinkEffects

open FaultPrograms CText SerialState EventTable SerialNodes SerialLinks NodeTopology

/-- The link at an address, or an empty one. -/
def linkAt (w : World) (link : LinkPtr) : SerialLink :=
  (w.links link).getD ⟨-1,-1,[],0,none⟩

theorem linkAt_of_some {w : World} {link : LinkPtr} {l : SerialLink} (h : w.links link=some l) :
    linkAt w link=l := by
  rw [linkAt,h,Option.getD_some]

/-- The node a link points to; only used for links that have one. -/
def nodeOf (w : World) (link : LinkPtr) : NodePtr := ((linkAt w link).node).getD 0

/-- A live link with an open descriptor whose node is live and points back to it. -/
structure Attached (w : World) (link : LinkPtr) : Prop where
  /-- The link is live. -/
  live : w.links link=some (linkAt w link)
  /-- It has a node. -/
  node : (linkAt w link).node=some (nodeOf w link)
  /-- Its node is live. -/
  nodeLive : w.nodes (nodeOf w link)=some (nodeAt w (nodeOf w link))
  /-- Its node holds it. -/
  back : (nodeAt w (nodeOf w link)).link=some link
  /-- Its descriptor is open. -/
  fd : (linkAt w link).fd≠-1

/-- Append calls to the trace, after which `errno` has a value. -/
def record (w : World) (errno : Errno) (calls : List Call) : World :=
  {w with errno := errno, trace := w.trace++calls}

/-- The receive buffer of a link after a successful read. -/
def receive (w : World) (link : LinkPtr) (block : Block) : World :=
  {w with links := Function.update w.links link (some {linkAt w link with
    recvbuf := block.bytes++(linkAt w link).recvbuf.drop block.bytes.length
    recvbuflen := block.bytes.length})}

/-- The link a block was received on. -/
theorem receive_links_self (w : World) (link : LinkPtr) (block : Block) :
    (receive w link block).links link=some {linkAt w link with
      recvbuf := block.bytes++(linkAt w link).recvbuf.drop block.bytes.length
      recvbuflen := block.bytes.length} :=
  Function.update_self _ _ _

theorem receive_links_of_ne {link other : LinkPtr} (h : other≠link) (w : World) (block : Block) :
    (receive w link block).links other=w.links other :=
  Function.update_of_ne h _ _

/-- The calls `_serialFreeLink` makes for a link with an open descriptor. -/
def closeCalls (link : LinkPtr) (l : SerialLink) : List Call :=
  .close l.fd::((if l.sfd≠-1 then [Call.close l.sfd] else [])++[.freeLink link])

/-- A call for each descriptor of a link, in order. -/
def eachFd (call : Fd → FdCall) (l : SerialLink) : List FdCall :=
  (if l.fd≠-1 then [call l.fd] else [])++if l.sfd≠-1 then [call l.sfd] else []

/-- The open descriptors that remain when a link is closed. -/
def remainingFds (fds : Finset Fd) (l : SerialLink) : Finset Fd :=
  if l.sfd≠-1 then (fds.erase l.fd).erase l.sfd else fds.erase l.fd

/-- State after `_serialFreeLink` of an attached link, when these event flags
are the ones it computes. -/
def closeLink (w : World) (link : LinkPtr) (flags : EventMask) : World :=
  {deleteFileEvent w (linkAt w link).fd flags with
    nodes := Function.update w.nodes (nodeOf w link)
      (some {nodeAt w (nodeOf w link) with link := none})
    links := Function.update w.links link none
    openFds := remainingFds w.openFds (linkAt w link)
    trace := w.trace++closeCalls link (linkAt w link)
    fdCalls := w.fdCalls++.delete (linkAt w link).fd flags::eachFd .close (linkAt w link)}

theorem derefLink_of_some {w : World} {link : LinkPtr} {l : SerialLink}
    (h : w.links link=some l) : derefLink link w=.ok l w := by
  simp [derefLink,h]

theorem modifyLink_of_some {w : World} {link : LinkPtr} {l : SerialLink}
    (h : w.links link=some l) (f : SerialLink → SerialLink) :
    modifyLink link f w=.ok () {w with links := Function.update w.links link (some (f l))} := by
  simp [modifyLink,derefLink_of_some h]

/-- Closing an attached link reaches the closed state. -/
theorem serialFreeLink_apply {w : World} {link : LinkPtr} {flags : EventMask}
    (ha : Attached w link) (hf : serialEventFlags (nodeOf w link) w=.ok flags w) :
    serialFreeLink link w=.ok () (closeLink w link flags) := by
  have hn : (deleteFileEvent w (linkAt w link).fd flags).nodes (nodeOf w link)=
      some (nodeAt w (nodeOf w link)) := ha.nodeLive
  simp only [serialFreeLink,bind_apply,derefLink_of_some ha.live,ha.node,ne_eq,ha.fd,not_false_eq_true,
    if_true,hf,aeDeleteFileEvent,modify_apply,modifyNode_of_some hn,sysClose,emit]
  have hcalls : (deleteFileEvent w (linkAt w link).fd flags).fdCalls=
      w.fdCalls++[.delete (linkAt w link).fd flags] := rfl
  by_cases hs : (linkAt w link).sfd=-1
  · simp [modifyLink,derefLink,ha.live,hs,releaseLink,emit,closeLink,closeCalls,remainingFds,
      eachFd,ha.fd,hcalls]
  · simp [modifyLink,derefLink,ha.live,hs,releaseLink,emit,closeLink,closeCalls,remainingFds,
      eachFd,ha.fd,hcalls]

/-- A read that makes the handler close its link, given `errno` before it. -/
def readCloses (errno : Errno) : ReadResult → Bool
  | .data _ => false
  | .eof => errno≠eagain
  | .fail e => e≠eagain

/-- The value of `errno` after a read. -/
def readErrno (errno : Errno) : ReadResult → Errno
  | .data _ => errno
  | .eof => errno
  | .fail e => e

/-- A write that makes the handler close the link it writes to. -/
def writeCloses : WriteResult → Bool
  | .accepted _ _ => false
  | .zero => true
  | .fail _ => true

/-- The value of `errno` after a write. -/
def writeErrno (errno : Errno) : WriteResult → Errno
  | .accepted _ _ => errno
  | .zero => errno
  | .fail e => e

/-- The name and descriptor of a link in the messages. -/
def deviceText (w : World) (link : LinkPtr) : CString :=
  (nodeAt w (nodeOf w link)).name++" (".toList++decimal (linkAt w link).fd++")".toList

/-- State after closing an attached link with the event flags of its node. -/
def close (w : World) (link : LinkPtr) : World := closeLink w link (eventFlags w (nodeOf w link))

/-- State after `_serialReadHandler` of an attached link. -/
def afterRead (w : World) (link : LinkPtr) (result : ReadResult) : World :=
  let call := Call.read link (linkAt w link).fd result
  match result with
  | .data block =>
    record (receive w link block) w.errno
      [call,.log llDebug ("Read ".toList++decimal block.bytes.length++" bytes from ".toList++
        deviceText w link)]
  | result =>
    if readCloses w.errno result then
      close (record w (readErrno w.errno result)
        [call,.logErrno llError ("I/O error reading from ".toList++deviceText w link++
          " node link".toList) (readErrno w.errno result)]) link
    else record w (readErrno w.errno result) [call]

/-- The link a callback copies from: the one of the master of a virtual, or
the one of the first writer of a master. -/
def sourceLink (w : World) (node : NodePtr) : Option LinkPtr :=
  if nodeIsVirtual (nodeAt w node) then
    (nodeAt w node).virtualof.bind fun master => (nodeAt w master).link
  else match serialGetVirtualWriterNode node w with
    | .ok (some virtual) _ => (nodeAt w virtual).link
    | _ => none

/-- The received bytes of a link. -/
def received (w : World) (link : LinkPtr) : List UInt8 :=
  (linkAt w link).recvbuf.take (linkAt w link).recvbuflen

/-- The link a callback on a node would write from: its source link, while
that holds received bytes. -/
def offering (w : World) (node : NodePtr) : Option LinkPtr :=
  (sourceLink w node).filter fun source => (linkAt w source).recvbuflen>0

/-- State after a `write` of the bytes received by one link to another. -/
def afterForward (w : World) (source link : LinkPtr) (result : WriteResult) : World :=
  let call := Call.write link source (linkAt w link).fd (received w source) result
  match result with
  | .accepted count _ =>
    record w w.errno [call,.log llDebug ("Wrote ".toList++decimal count++" bytes from ".toList++
      deviceText w source++" to ".toList++deviceText w link)]
  | result =>
    close (record w (writeErrno w.errno result)
      [call,.logErrno llError ("I/O error writing to ".toList++deviceText w link++
        " node link".toList) (writeErrno w.errno result)]) link

/-- State after `_serialWriteHandler` of an attached link. -/
def afterWrite (w : World) (link : LinkPtr) (result : WriteResult) : World :=
  match offering w (nodeOf w link) with
  | none => w
  | some source => afterForward w source link result

theorem Attached.record {w : World} {link : LinkPtr} (ha : Attached w link) (errno : Errno)
    (calls : List Call) : Attached (record w errno calls) link :=
  ⟨ha.live,ha.node,ha.nodeLive,ha.back,ha.fd⟩

/-- An attached link prints its text without effect. -/
theorem linkText_apply {w : World} {link : LinkPtr} (ha : Attached w link) :
    linkText link w=.ok (deviceText w link) w := by
  simp [linkText,derefLink_of_some ha.live,ha.node,nonNull,derefNode_of_some ha.nodeLive,deviceText]

section Tree

variable {w : World} {shape : Shape} {link : LinkPtr}

theorem SameDevices.record (w : World) (errno : Errno) (calls : List Call) :
    SameDevices w (record w errno calls) := ⟨fun _ => rfl,rfl,rfl⟩

/-- The node of an attached link is a node of the tree. -/
theorem Attached.mem (ht : Topology w shape) (ha : Attached w link) : shape.Mem (nodeOf w link) :=
  ht.covered _ _ ha.nodeLive

/-- Under the tree, an attached link is closed by `_serialLinkIOError`. -/
theorem serialLinkIOError_apply (ht : Topology w shape) (ha : Attached w link) :
    serialLinkIOError link w=.ok () (close w link) :=
  serialFreeLink_apply ha (serialEventFlags_apply ht (ha.mem ht))

/-- A read that returns no data: the call is recorded and `errno` set. -/
theorem sysRead_apply_of_not_data (ha : Attached w link) {result : ReadResult}
    (hd : ∀ block,result≠.data block) : ∃ nread : ℤ,nread≤0 ∧
      sysRead link result w=
        .ok nread (record w (readErrno w.errno result) [.read link (linkAt w link).fd result]) := by
  cases result with
  | data block => exact absurd rfl (hd block)
  | eof =>
    refine ⟨0,le_rfl,?_⟩
    simp only [sysRead,bind_apply,derefLink_of_some ha.live,emit,modify_apply,pure_apply]
    rfl
  | fail errno =>
    refine ⟨-1,by omega,?_⟩
    simp only [sysRead,bind_apply,derefLink_of_some ha.live,emit,setErrno,modify_apply,pure_apply]
    rfl

/-- A read that returns no data closes the link unless `errno` is `EAGAIN` after it. -/
theorem readCloses_of_not_data {errno : Errno} {result : ReadResult}
    (hd : ∀ block,result≠.data block) :
    readCloses errno result=decide (readErrno errno result≠eagain) := by
  cases result with
  | data block => exact absurd rfl (hd block)
  | eof => rfl
  | fail e => rfl

theorem afterRead_of_not_data {result : ReadResult} (hd : ∀ block,result≠.data block) :
    afterRead w link result=
      if readCloses w.errno result then
        close (record w (readErrno w.errno result) [.read link (linkAt w link).fd result,
          .logErrno llError ("I/O error reading from ".toList++deviceText w link++
            " node link".toList) (readErrno w.errno result)]) link
      else record w (readErrno w.errno result) [.read link (linkAt w link).fd result] := by
  cases result with
  | data block => exact absurd rfl (hd block)
  | eof => rfl
  | fail e => rfl

/-- An error message reports the value `errno` has. -/
theorem serverLogErrno_record (w : World) (errno : Errno) (calls : List Call) (level : ℕ)
    (text : CString) : serverLogErrno level text (record w errno calls)=
      .ok () (record w errno (calls++[.logErrno level text errno])) := by
  simp [serverLogErrno,emit,record,List.append_assoc]

/-- A read that returns data fills the buffer, records its length and logs. -/
theorem serialReadHandler_data (ha : Attached w link) (block : Block) :
    serialReadHandler link (.data block) w=.ok () (afterRead w link (.data block)) := by
  have hpos : ¬ (block.bytes.length : ℤ)≤0 := by
    have := List.length_pos_iff.mpr block.nonempty
    omega
  simp only [serialReadHandler,sysRead,derefLink,bind_apply,get_apply,ha.live,pure_apply,emit,
    modify_apply,modifyLink,Function.update_self,hpos,if_false,linkText,ha.node,nonNull,derefNode,
    ha.nodeLive,serverLog,Function.update_idem,Int.toNat_natCast,afterRead,record,receive,
    deviceText,List.append_assoc,List.cons_append,List.nil_append]

/-- A read that returns no data closes the link unless `errno` says to try again. -/
theorem serialReadHandler_of_not_data (ht : Topology w shape) (ha : Attached w link)
    {result : ReadResult} (hd : ∀ block,result≠.data block) :
    serialReadHandler link result w=.ok () (afterRead w link result) := by
  obtain ⟨nread,hn,hr⟩ := sysRead_apply_of_not_data ha hd
  have he : ∀ calls : List Call,(record w (readErrno w.errno result) calls).errno=
      readErrno w.errno result := fun _ => rfl
  rw [serialReadHandler,bind_of_ok hr,if_pos hn,bind_apply,get_apply]
  dsimp only
  rw [he,afterRead_of_not_data hd]
  by_cases hc : readErrno w.errno result=eagain
  · rw [if_neg (by simp [hc]),if_neg (by simp [readCloses_of_not_data hd,hc])]
    rfl
  · rw [if_pos (by simpa using hc),if_pos (by simp [readCloses_of_not_data hd,hc]),
      bind_of_ok (linkText_apply (ha.record _ _)),bind_apply,serverLogErrno_record]
    exact serialLinkIOError_apply ((SameDevices.record _ _ _).topology ht) (ha.record _ _)

/-- `_serialReadHandler` of an attached link. -/
theorem serialReadHandler_apply (ht : Topology w shape) (ha : Attached w link)
    (result : ReadResult) :
    serialReadHandler link result w=.ok () (afterRead w link result) := by
  by_cases hd : ∃ block,result=.data block
  · obtain ⟨block,rfl⟩ := hd
    exact serialReadHandler_data ha block
  · exact serialReadHandler_of_not_data ht ha fun block h => hd ⟨block,h⟩

/-- A `write` records its call and sets `errno`; its count is positive exactly
when it keeps the link open. -/
theorem sysWrite_apply {source : LinkPtr} (hs : Attached w source) (ha : Attached w link)
    (result : WriteResult) : ∃ nwrite : ℤ,(nwrite≤0 ↔ writeCloses result=true) ∧
      (∀ count hpos,result=.accepted count hpos → nwrite=count) ∧
      sysWrite source link result w=.ok nwrite (record w (writeErrno w.errno result)
        [.write link source (linkAt w link).fd (received w source) result]) := by
  cases result with
  | accepted count hpos =>
    refine ⟨count,by simp [writeCloses]; omega,fun _ _ h => by cases h; rfl,?_⟩
    simp only [sysWrite,bind_apply,derefLink_of_some hs.live,derefLink_of_some ha.live,emit,
      modify_apply,pure_apply]
    rfl
  | zero =>
    refine ⟨0,by simp [writeCloses],by simp,?_⟩
    simp only [sysWrite,bind_apply,derefLink_of_some hs.live,derefLink_of_some ha.live,emit,
      modify_apply,pure_apply]
    rfl
  | fail errno =>
    refine ⟨-1,by simp [writeCloses],by simp,?_⟩
    simp only [sysWrite,bind_apply,derefLink_of_some hs.live,derefLink_of_some ha.live,emit,
      setErrno,modify_apply,pure_apply]
    rfl

/-- A message is recorded behind the calls before it. -/
theorem serverLog_record (w : World) (errno : Errno) (calls : List Call) (level : ℕ)
    (text : CString) : serverLog level text (record w errno calls)=
      .ok () (record w errno (calls++[.log level text])) := by
  simp [serverLog,emit,record,List.append_assoc]

/-- A `write` that accepts bytes is logged, and changes nothing else. -/
theorem serialWriteLink_accepted {source : LinkPtr} (hs : Attached w source)
    (ha : Attached w link) (hlen : (linkAt w source).recvbuflen>0) {count : ℕ} (hpos : 0<count) :
    serialWriteLink (some source) link (.accepted count hpos) w=
      .ok () (afterForward w source link (.accepted count hpos)) := by
  obtain ⟨nwrite,hn,hcount,hw⟩ := sysWrite_apply hs ha (.accepted count hpos)
  rw [serialWriteLink,bind_of_ok (derefLink_of_some hs.live),if_pos hlen,bind_of_ok hw,
    if_neg (by simp [hn,writeCloses]),bind_of_ok (linkText_apply (hs.record _ _)),
    bind_of_ok (linkText_apply (ha.record _ _)),serverLog_record,hcount count hpos rfl]
  rfl

/-- A `write` that fails or accepts nothing closes the link it was made on. -/
theorem serialWriteLink_rejected (ht : Topology w shape) {source : LinkPtr}
    (hs : Attached w source) (ha : Attached w link) (hlen : (linkAt w source).recvbuflen>0)
    {result : WriteResult} (hr : writeCloses result=true) :
    serialWriteLink (some source) link result w=
      .ok () (afterForward w source link result) := by
  obtain ⟨nwrite,hn,-,hw⟩ := sysWrite_apply hs ha result
  rw [serialWriteLink,bind_of_ok (derefLink_of_some hs.live),if_pos hlen,bind_of_ok hw,
    if_pos (hn.mpr hr),bind_of_ok (linkText_apply (ha.record _ _)),
    bind_of_ok (serverLogErrno_record _ _ _ _ _),
    serialLinkIOError_apply ((SameDevices.record _ _ _).topology ht) (ha.record _ _)]
  cases result with
  | accepted count hpos => exact Bool.noConfusion hr
  | zero => rfl
  | fail errno => rfl

theorem serialWriteLink_apply (ht : Topology w shape) {source : LinkPtr}
    (hs : Attached w source) (ha : Attached w link) (hlen : (linkAt w source).recvbuflen>0)
    (result : WriteResult) :
    serialWriteLink (some source) link result w=
      .ok () (afterForward w source link result) := by
  cases result with
  | accepted count hpos => exact serialWriteLink_accepted hs ha hlen hpos
  | zero => exact serialWriteLink_rejected ht hs ha hlen rfl
  | fail errno => exact serialWriteLink_rejected ht hs ha hlen rfl

/-- Nothing is written from a link that has received nothing. -/
theorem serialWriteLink_of_empty {source : LinkPtr} (hs : Attached w source)
    (hlen : ¬ (linkAt w source).recvbuflen>0) (result : WriteResult) :
    serialWriteLink (some source) link result w=.ok () w := by
  simp only [serialWriteLink,bind_apply,derefLink_of_some hs.live,hlen,if_false,pure_apply]

/-- `_serialWriteHandler` looks for the source link of the node and forwards from it. -/
theorem serialWriteHandler_eq (ht : Topology w shape) (ha : Attached w link)
    (result : WriteResult) :
    serialWriteHandler link result w=serialWriteLink (sourceLink w (nodeOf w link)) link result w := by
  have hn := ha.nodeLive
  rw [serialWriteHandler,bind_of_ok (derefLink_of_some ha.live),ha.node,nonNull,
    bind_of_ok (pure_apply _ _),bind_of_ok (derefNode_of_some hn)]
  obtain ⟨g,hg,hm|hv⟩ := ha.mem ht
  · obtain ⟨m,hm',hf,-⟩ := ht.master g hg
    rw [hm,hm',Option.some.injEq] at hn
    rw [sourceLink,hm,← hn,not_nodeIsVirtual_of_flags hf,nodeIsMaster_of_flags hf]
    rw [if_neg Bool.false_ne_true,if_pos rfl,if_neg Bool.false_ne_true]
    have hw := serialGetVirtualWriterNode_apply ht hg
    rw [bind_of_ok hw,hw]
    cases hwr : writerOf w g.2 with
    | none => rfl
    | some v =>
      obtain ⟨n,hn',-⟩ := ht.virtual g hg v (writerOf_some hwr).1
      dsimp only
      rw [bind_of_ok (derefNode_of_some hn'),nodeAt_of_some hn']
  · obtain ⟨n,hn',hf,ho,-⟩ := ht.virtual g hg _ hv
    obtain ⟨m,hm,-⟩ := ht.master g hg
    rw [hn',Option.some.injEq] at hn
    rw [sourceLink,← hn,nodeIsVirtual_of_flags hf,if_pos rfl,if_pos rfl,ho,nonNull,
      bind_of_ok (pure_apply _ _),bind_of_ok (derefNode_of_some hm),Option.bind_some,
      nodeAt_of_some hm]

/-- `_serialWriteHandler` of an attached link whose source link is attached. -/
theorem serialWriteHandler_apply (ht : Topology w shape) (ha : Attached w link)
    (hs : ∀ source,sourceLink w (nodeOf w link)=some source → Attached w source)
    (result : WriteResult) :
    serialWriteHandler link result w=.ok () (afterWrite w link result) := by
  rw [serialWriteHandler_eq ht ha,afterWrite,offering]
  cases hsrc : sourceLink w (nodeOf w link) with
  | none => rfl
  | some source =>
    rw [Option.filter_some]
    by_cases hlen : (linkAt w source).recvbuflen>0
    · rw [if_pos (by simpa using hlen)]
      exact serialWriteLink_apply ht (hs source hsrc) ha hlen result
    · rw [if_neg (by simpa using hlen)]
      exact serialWriteLink_of_empty (hs source hsrc) hlen result

end Tree

end SerialProxy.LinkEffects
