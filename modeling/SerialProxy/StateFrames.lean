import SerialProxy.EventLoop

/-!
# Frames of the functions that stay inside the process

A part of the state that is decided by the file system and by the calls that
touch it is kept by every function that works on the heap, on the event table and
on descriptors, or that only logs: by loading a configuration and by an iteration
of the event loop that does not reconnect. Only a connect attempt on a virtual and
the release of one write to the file system, and then at the path of that node.
-/

namespace SerialProxy.StateFrames

open FaultPrograms LinkedCells CText SerialState EventTable SerialNodes SerialLinks SerialConfig
open EventLoop

/-- The path that a call removes or links, if it does. -/
def touchedPath : Call → Option CString
  | .remove path => some path
  | .symlink _ path => some path
  | _ => none

/-- Only the file system, the terminals and the calls that touch a path decide this part. -/
structure FilePart {γ : Type} (part : World → γ) : Prop where
  /-- The rest of the state does not matter. -/
  inside : ∀ w t,t.trace=w.trace → t.ttys=w.ttys → t.symlinks=w.symlinks → part t=part w
  /-- Other calls do not matter. -/
  calls : ∀ w call,touchedPath call=none → part {w with trace := w.trace++[call]}=part w

section Frames

variable {γ : Type} {part : World → γ} (hp : FilePart part)
include hp

/-- A recorded call that touches no path keeps the part. -/
theorem keeps_emit {call : Call} (hc : touchedPath call=none) : Keeps part (emit call) :=
  fun w => hp.calls w call hc

/-- So does whatever changes neither the trace nor terminals and paths. -/
theorem keeps_inside {f : World → World} (hf : ∀ w,(f w).trace=w.trace ∧ (f w).ttys=w.ttys ∧
    (f w).symlinks=w.symlinks) : Keeps part (modify f : Prog PUnit) :=
  keeps_modify fun w => hp.inside w (f w) (hf w).1 (hf w).2.1 (hf w).2.2

/-- `errno` is inside the process. -/
theorem keeps_setErrno (errno : Errno) : Keeps part (setErrno errno) :=
  keeps_inside hp (by exact fun _ => ⟨rfl,rfl,rfl⟩)

/-- A message touches no path. -/
theorem keeps_serverLog (level : ℕ) (text : CString) : Keeps part (serverLog level text) :=
  keeps_emit hp rfl

/-- Nor does one with the value of `errno`. -/
theorem keeps_serverLogErrno (level : ℕ) (text : CString) :
    Keeps part (serverLogErrno level text) :=
  keeps_get.bind fun _ => keeps_emit hp rfl

omit hp in
/-- A link that is read stays the same, or stops the program. -/
theorem keeps_derefLink (link : LinkPtr) : Keeps part (derefLink link) :=
  keeps_get.bind fun w => by
    cases w.links link with
    | none => exact keeps_throw _
    | some l => exact keeps_pure l

omit hp in
/-- So does a node. -/
theorem keeps_derefNode (node : NodePtr) : Keeps part (derefNode node) :=
  keeps_get.bind fun w => by
    cases w.nodes node with
    | none => exact keeps_throw _
    | some n => exact keeps_pure n

omit hp in
/-- A search reads nodes only. -/
theorem keeps_findNode (test : SerialNode → Bool) (head : Option NodePtr) :
    Keeps part (findNode test head) :=
  keeps_get.bind fun _ => keeps_scan keeps_derefNode test _ head

omit hp in
/-- A walk keeps the part if its body does. -/
theorem keeps_visitNodes {body : NodePtr → Prog Unit} (hbody : ∀ node,Keeps part (body node))
    (head : Option NodePtr) : Keeps part (visitNodes body head) :=
  keeps_get.bind fun _ => keeps_visit keeps_derefNode hbody _ head

/-- The fields of links are inside the process. -/
theorem keeps_modifyLink (link : LinkPtr) (f : SerialLink → SerialLink) :
    Keeps part (modifyLink link f) :=
  (keeps_derefLink link).bind fun _ => keeps_inside hp (by exact fun _ => ⟨rfl,rfl,rfl⟩)

/-- So are those of nodes. -/
theorem keeps_modifyNode (node : NodePtr) (f : SerialNode → SerialNode) :
    Keeps part (modifyNode node f) :=
  (keeps_derefNode node).bind fun _ => keeps_inside hp (by exact fun _ => ⟨rfl,rfl,rfl⟩)

/-- A link that is freed was inside the process. -/
theorem keeps_releaseLink (link : LinkPtr) : Keeps part (releaseLink link) :=
  (keeps_derefLink link).bind fun _ =>
    (keeps_inside hp (by exact fun _ => ⟨rfl,rfl,rfl⟩)).bind fun _ => keeps_emit hp rfl

/-- So was a node. -/
theorem keeps_releaseNode (node : NodePtr) : Keeps part (releaseNode node) :=
  (keeps_derefNode node).bind fun _ =>
    (keeps_inside hp (by exact fun _ => ⟨rfl,rfl,rfl⟩)).bind fun _ => keeps_emit hp rfl

/-- `close` touches no path. -/
theorem keeps_sysClose (fd : Fd) : Keeps part (sysClose fd) :=
  (keeps_inside hp (by exact fun _ => ⟨rfl,rfl,rfl⟩)).bind fun _ => keeps_emit hp rfl

/-- A new descriptor touches none. -/
theorem keeps_sysOpenFd (alloc : FreshFd) : Keeps part (sysOpenFd alloc) :=
  keeps_get.bind fun _ =>
    (keeps_inside hp (by exact fun _ => ⟨rfl,rfl,rfl⟩)).bind fun _ => keeps_pure _

/-- A new link is inside the process. -/
theorem keeps_callocLink : Keeps part callocLink :=
  keeps_get.bind fun _ =>
    (keeps_inside hp (by exact fun _ => ⟨rfl,rfl,rfl⟩)).bind fun _ => keeps_pure _

/-- The report of a failed call touches no path. -/
theorem keeps_sysCheck (result : Option Errno) (text : CString) :
    Keeps part (sysCheck result text) := by
  cases result with
  | none => exact keeps_pure true
  | some errno => exact (keeps_setErrno hp errno).bind fun _ =>
      (keeps_serverLogErrno hp _ _).bind fun _ => keeps_pure false

omit hp in
/-- The flags are read off the nodes. -/
theorem keeps_serialEventFlags (node : NodePtr) : Keeps part (serialEventFlags node) :=
  (keeps_derefNode node).bind fun _ =>
    (((keeps_derefNode node).bind fun _ => keeps_findNode _ _).bind fun _ => keeps_pure _).ite
      ((keeps_pure _).ite (keeps_pure _))

/-- A registration is inside the process. -/
theorem keeps_aeCreateFileEvent (fd : Fd) (mask : EventMask) (clientData : LinkPtr)
    (epollCtl : Option Errno) : Keeps part (aeCreateFileEvent fd mask clientData epollCtl) := by
  refine Keeps.bind (keeps_inside hp (by exact fun _ => ⟨rfl,rfl,rfl⟩)) fun _ =>
    keeps_get.bind fun w => ((keeps_setErrno hp erange).bind fun _ => keeps_pure false).ite ?_
  cases epollCtl with
  | some errno => exact (keeps_setErrno hp errno).bind fun _ => keeps_pure false
  | none =>
    refine Keeps.bind (keeps_inside hp ?_) fun _ => keeps_pure true
    exact fun _ => ⟨rfl,rfl,rfl⟩

/-- So is the end of one. -/
theorem keeps_aeDeleteFileEvent (fd : Fd) (mask : EventMask) :
    Keeps part (aeDeleteFileEvent fd mask) :=
  keeps_inside hp (by exact fun _ => ⟨rfl,rfl,rfl⟩)

/-- `_serialFreeLink` leaves the path of a virtual where it is. -/
theorem keeps_serialFreeLink (link : LinkPtr) : Keeps part (serialFreeLink link) := by
  refine (keeps_derefLink link).bind fun l => ?_
  have hrelease := keeps_releaseLink hp link
  have hslave := Keeps.ite (p:=l.sfd≠-1) ((keeps_sysClose hp l.sfd).bind fun _ =>
    (keeps_modifyLink hp link fun l => {l with sfd := -1}).bind fun _ => hrelease) hrelease
  have hclose := Keeps.ite (p:=l.fd≠-1) ((keeps_sysClose hp l.fd).bind fun _ =>
    (keeps_modifyLink hp link fun l => {l with fd := -1}).bind fun _ => hslave) hslave
  cases l.node with
  | none => exact hclose
  | some node =>
    have hnode := (keeps_modifyNode hp node fun n => {n with link := none}).bind fun _ => hclose
    exact ((keeps_serialEventFlags node).bind fun flags =>
      (keeps_aeDeleteFileEvent hp l.fd flags).bind fun _ => hnode).ite hnode

/-- The walk over a list changes its links only, by induction on its bound. -/
theorem keeps_unlinkNode {clearHead : Prog Unit} (hclear : Keeps part clearHead) (node : NodePtr)
    (prev : Option NodePtr) (bound : ℕ) (head : Option NodePtr) :
    Keeps part (unlinkNode clearHead node prev bound head) := by
  induction bound generalizing head with
  | zero =>
    cases head with
    | none => exact keeps_pure ()
    | some cur => exact keeps_throw _
  | succ bound ih =>
    cases head with
    | none => exact keeps_pure ()
    | some cur =>
      refine Keeps.ite ?_ ((keeps_derefNode cur).bind fun c => ih c.next)
      cases prev with
      | none => exact hclear.bind fun _ => keeps_modifyNode hp node _
      | some p =>
        exact (keeps_derefNode node).bind fun n => (keeps_modifyNode hp p _).bind fun _ =>
          keeps_modifyNode hp node _

/-- A virtual is taken out of the list of its master without its path. -/
theorem keeps_serialRemoveVirtualNode (master virtual : NodePtr) :
    Keeps part (serialRemoveVirtualNode master virtual) :=
  (keeps_derefNode master).bind fun _ => keeps_get.bind fun _ =>
    keeps_unlinkNode hp (keeps_modifyNode hp master _) virtual none _ _

/-- The speed of a device is no path. -/
theorem keeps_serialSetSpeed (node : NodePtr) (link : LinkPtr) (env : ConnectResults) :
    Keeps part (serialSetSpeed node link env) := by
  refine (keeps_derefNode node).bind fun n => Keeps.ite ?_ (keeps_pure true)
  refine (keeps_derefLink link).bind fun l => ?_
  cases standardSpeeds.find? fun speed : ℕ => (speed : ℤ)=n.baudrate with
  | some speed => exact (keeps_emit hp rfl).bind fun _ => keeps_pure true
  | none =>
    cases env.tiocgserial with
    | error errno => exact (keeps_setErrno hp errno).bind fun _ => keeps_pure false
    | ok baudBase =>
      refine Keeps.ite ((keeps_throw Fault.divByZero).bind fun _ => ?_) ?_
      all_goals exact (keeps_emit hp rfl).bind fun _ => keeps_sysCheck hp _ _

/-- A connect attempt behind its opening branches. -/
theorem keeps_serialCreateLink_rest (node : NodePtr) (link : LinkPtr) (env : ConnectResults) :
    Keeps part (do
      let l ← derefLink link
      let flags ← serialEventFlags node
      let _ ← aeCreateFileEvent l.fd flags link env.epollCtl
      modifyNode node fun n => {n with link := some link}
      modifyLink link fun l => {l with node := some node}
      pure (some link)) :=
  (keeps_derefLink link).bind fun l => (keeps_serialEventFlags node).bind fun flags =>
    (keeps_aeCreateFileEvent hp l.fd flags link env.epollCtl).bind fun _ =>
      (keeps_modifyNode hp node _).bind fun _ =>
        (keeps_modifyLink hp link _).bind fun _ => keeps_pure _

/-- A buffer that is emptied is inside the process. -/
theorem keeps_resetBuffer (node : NodePtr) : Keeps part (resetBuffer node) :=
  (keeps_derefNode node).bind fun n => by
    cases n.link with
    | none => exact keeps_pure ()
    | some link => exact keeps_modifyLink hp link _

/-- The reset of the buffers. -/
theorem keeps_serialBeforeSleep : Keeps part serialBeforeSleep :=
  keeps_get.bind fun _ =>
    (keeps_visitNodes (fun node => (keeps_resetBuffer hp node).bind fun _ =>
      (keeps_derefNode node).bind fun _ => keeps_visitNodes (keeps_resetBuffer hp) _) _).bind
        fun _ => keeps_emit hp rfl

/-- A poll sets `errno` at most. -/
theorem keeps_aeApiPoll (poll : Except Errno (List PollEntry)) : Keeps part (aeApiPoll poll) := by
  cases poll with
  | error errno => exact (keeps_setErrno hp errno).bind fun _ => keeps_pure _
  | ok entries => exact keeps_pure _

omit hp in
/-- A test of a pointer changes nothing. -/
theorem keeps_nonNull {α : Type} (pointer : Option α) : Keeps part (nonNull pointer) := by
  cases pointer with
  | none => exact keeps_throw _
  | some a => exact keeps_pure a

omit hp in
/-- The text of a message is read off a node. -/
theorem keeps_linkText (link : LinkPtr) : Keeps part (linkText link) :=
  (keeps_derefLink link).bind fun l => (keeps_nonNull l.node).bind fun node =>
    (keeps_derefNode node).bind fun _ => keeps_pure _

/-- A read is recorded, and sets `errno` at most. -/
theorem keeps_sysRead (link : LinkPtr) (result : ReadResult) :
    Keeps part (sysRead link result) := by
  refine (keeps_derefLink link).bind fun l => (keeps_emit hp rfl).bind fun _ => ?_
  cases result with
  | data block => exact (keeps_modifyLink hp link _).bind fun _ => keeps_pure _
  | eof => exact keeps_pure _
  | fail errno => exact (keeps_setErrno hp errno).bind fun _ => keeps_pure _

/-- So is a write. -/
theorem keeps_sysWrite (fromlink tolink : LinkPtr) (result : WriteResult) :
    Keeps part (sysWrite fromlink tolink result) := by
  refine (keeps_derefLink fromlink).bind fun source => (keeps_derefLink tolink).bind fun target =>
    (keeps_emit hp rfl).bind fun _ => ?_
  cases result with
  | accepted count pos => exact keeps_pure _
  | zero => exact keeps_pure _
  | fail errno => exact (keeps_setErrno hp errno).bind fun _ => keeps_pure _

/-- The read side fills a buffer or frees a link. -/
theorem keeps_serialReadHandler (link : LinkPtr) (result : ReadResult) :
    Keeps part (serialReadHandler link result) := by
  refine (keeps_sysRead hp link result).bind fun nread => Keeps.ite ?_ ?_
  · refine keeps_get.bind fun w => Keeps.ite ?_ (keeps_pure ())
    exact (keeps_linkText link).bind fun _ => (keeps_serverLogErrno hp _ _).bind
      fun _ => keeps_serialFreeLink hp link
  · exact (keeps_linkText link).bind fun _ => (keeps_serverLog hp _ _).bind
      fun _ => keeps_modifyLink hp link _

/-- The write side reports, or frees the link it writes to. -/
theorem keeps_serialWriteLink (fromlink : Option LinkPtr) (tolink : LinkPtr)
    (result : WriteResult) : Keeps part (serialWriteLink fromlink tolink result) := by
  cases fromlink with
  | none => exact keeps_pure ()
  | some fromlink =>
    refine (keeps_derefLink fromlink).bind fun source => Keeps.ite ?_ (keeps_pure ())
    refine (keeps_sysWrite hp fromlink tolink result).bind fun nwrite => Keeps.ite ?_ ?_
    · exact (keeps_linkText tolink).bind fun _ => (keeps_serverLogErrno hp _ _).bind
        fun _ => keeps_serialFreeLink hp tolink
    · exact (keeps_linkText fromlink).bind fun _ => (keeps_linkText tolink).bind
        fun _ => keeps_serverLog hp _ _

/-- It looks for its source among the nodes. -/
theorem keeps_serialWriteHandler (link : LinkPtr) (result : WriteResult) :
    Keeps part (serialWriteHandler link result) := by
  refine (keeps_derefLink link).bind fun l => (keeps_nonNull l.node).bind fun node =>
    (keeps_derefNode node).bind fun n => Keeps.ite ?_ (Keeps.ite ?_ (keeps_pure ()))
  · exact (keeps_nonNull n.virtualof).bind fun master => (keeps_derefNode master).bind
      fun m => keeps_serialWriteLink hp m.link link result
  · refine ((keeps_derefNode node).bind fun _ => keeps_findNode _ _).bind fun found => ?_
    cases found with
    | none => exact keeps_pure ()
    | some virtual =>
      exact (keeps_derefNode virtual).bind fun v => keeps_serialWriteLink hp v.link link result

/-- A callback, also when it closes its link. -/
theorem keeps_serialEventHandler (privdata : Option LinkPtr) (mask : EventMask)
    (env : CallResults) : Keeps part (serialEventHandler privdata mask env) := by
  cases privdata with
  | none => exact keeps_pure ()
  | some link =>
    have hwrite := Keeps.ite (p:=mask &&& aeWritable≠0)
      (keeps_serialWriteHandler hp link env.write) (keeps_pure PUnit.unit)
    exact ((keeps_serialReadHandler hp link env.read).bind fun _ => hwrite).ite hwrite

/-- A new node has no path yet. -/
theorem keeps_serialCreateNode (nodename : CString) (flags : UInt32) :
    Keeps part (serialCreateNode nodename flags) :=
  keeps_get.bind fun _ =>
    (keeps_inside hp (by exact fun _ => ⟨rfl,rfl,rfl⟩)).bind fun _ => keeps_pure _

/-- The list of masters is inside the process. -/
theorem keeps_serialAddNode (node : NodePtr) : Keeps part (serialAddNode node) := by
  refine keeps_get.bind fun w => ?_
  have hrest := keeps_inside hp (f:=fun w : World => {w with masterHead := some node})
    fun _ => ⟨rfl,rfl,rfl⟩
  cases w.masterHead with
  | none => exact hrest
  | some head => exact (keeps_modifyNode hp node _).bind fun _ => hrest

/-- So is that of the virtuals of a master. -/
theorem keeps_serialAddVirtualNode (master virtual : NodePtr) :
    Keeps part (serialAddVirtualNode master virtual) := by
  refine (keeps_derefNode master).bind fun m => ?_
  have hrest := (keeps_modifyNode hp master fun m => {m with virtualHead := some virtual}).bind
    fun _ => keeps_modifyNode hp virtual fun v => {v with virtualof := some master}
  cases m.virtualHead with
  | none => exact hrest
  | some head => exact (keeps_modifyNode hp virtual _).bind fun _ => hrest

/-- A name is computed, or the process ends with a message. -/
theorem keeps_virtualNameOrExit (sectionName suffix : CString) :
    Keeps part (virtualNameOrExit sectionName suffix) := by
  unfold virtualNameOrExit
  cases serialVirtualName sectionName suffix pathMax with
  | none => exact (keeps_emit hp rfl).bind fun _ => keeps_throw _
  | some name => exact keeps_pure name

/-- A token of the key `virtuals` makes nodes only. -/
theorem keeps_addVirtual (sectionName : CString) (node : NodePtr) (token : CString) :
    Keeps part (addVirtual sectionName node token) := by
  refine (keeps_virtualNameOrExit hp _ _).bind fun name => ?_
  refine ((keeps_derefNode node).bind fun _ => keeps_findNode _ _).bind fun found => ?_
  cases found with
  | none =>
    exact (keeps_serialCreateNode hp _ _).bind fun _ => keeps_serialAddVirtualNode hp _ _
  | some virtual => exact keeps_pure ()

/-- The key `writer` sets a flag. -/
theorem keeps_setWriter (sectionName : CString) (node : NodePtr) (value : CString) :
    Keeps part (setWriter sectionName node value) := by
  refine (keeps_virtualNameOrExit hp _ _).bind fun name => ?_
  refine ((keeps_derefNode node).bind fun _ => keeps_findNode _ _).bind fun found => ?_
  cases found with
  | none => exact keeps_pure ()
  | some virtual => exact keeps_modifyNode hp _ _

/-- The node of a section is found or made. -/
theorem keeps_sectionNode (sectionName : CString) : Keeps part (sectionNode sectionName) := by
  refine (keeps_get.bind fun _ => keeps_findNode _ _).bind fun found => ?_
  cases found with
  | none => exact (keeps_serialCreateNode hp _ _).bind fun _ =>
      (keeps_serialAddNode hp _).bind fun _ => keeps_pure _
  | some node => exact keeps_pure node

/-- An entry of the configuration. -/
theorem keeps_serialConfigHandler (e : ConfigEntry) : Keeps part (serialConfigHandler e) :=
  (keeps_sectionNode hp _).bind fun node =>
    ((keeps_modifyNode hp node _).bind fun _ => keeps_pure true).ite
      (((keeps_forM (keeps_addVirtual hp _ node) _).bind fun _ => keeps_pure true).ite
        (((keeps_setWriter hp _ node _).bind fun _ => keeps_pure true).ite (keeps_pure false)))

/-- Loading the configuration touches no path. -/
theorem keeps_loadEntries (entries : List ConfigEntry) : Keeps part (loadEntries entries) :=
  keeps_forM (fun e => (keeps_serialConfigHandler hp e).bind fun _ => keeps_pure ()) entries

end Frames

end SerialProxy.StateFrames
