import SerialProxy.EventTable
import SerialProxy.SerialNodes

/-!
# Links: connecting, closing and forwarding

The functions of serial.c that own a connection: `_serialCreateLink` with its
single cleanup, `_serialFreeLink`, the read and write sides of the callback,
the periodic reconnect, the reset of the receive buffers and the teardown.
The results of all system calls are arguments.
-/

namespace SerialProxy.SerialLinks

open FaultPrograms CText SerialState EventTable SerialNodes

/-- The pair of descriptors `openpty` opens, with the name of the slave terminal. -/
structure PtyPair where
  /-- Master side. -/
  master : FreshFd
  /-- Slave side. -/
  slave : FreshFd
  /-- `ttyname` of the slave side. -/
  tty : CString

/-- Results of the system calls of one connect attempt; an error carries its `errno`. -/
structure ConnectResults where
  /-- `open`. -/
  openPath : Except Errno FreshFd
  /-- `isatty`: it returns 0 and sets `errno` for a descriptor that is no terminal. -/
  isatty : Option Errno
  /-- `openpty`. -/
  openpty : Except Errno PtyPair
  /-- `remove` of the path of a virtual. -/
  remove : Option Errno
  /-- `symlink`. -/
  symlink : Option Errno
  /-- `tcgetattr`. -/
  tcgetattr : Option Errno
  /-- `ioctl(TIOCGSERIAL)`, with the base rate of the device. -/
  tiocgserial : Except Errno ℤ
  /-- `ioctl(TIOCSSERIAL)`. -/
  tiocsserial : Option Errno
  /-- `tcsetattr`. -/
  tcsetattr : Option Errno
  /-- `epoll_ctl` of the registration. -/
  epollCtl : Option Errno

/-- `_serialEventFlags`. -/
def serialEventFlags (node : NodePtr) : Prog EventMask := do
  let n ← derefNode node
  if nodeIsMaster n then
    let writer ← serialGetVirtualWriterNode node
    pure (if writer.isSome then aeReadable ||| aeWritable else aeReadable)
  else if nodeIsVirtual n then
    pure (if nodeIsWriter n then aeWritable ||| aeReadable else aeWritable)
  else
    pure aeNone

/-- `_serialEventString`; its last two tests are the same. -/
def serialEventString (node : NodePtr) : Prog CString := do
  let flags ← serialEventFlags node
  pure (if flags &&& (aeReadable ||| aeWritable)≠0 then "rw".toList
    else if flags &&& aeReadable≠0 then "r".toList
    else if flags &&& aeReadable≠0 then "w".toList
    else "(null)".toList)

/-- `_serialFreeLink`. -/
def serialFreeLink (link : LinkPtr) : Prog Unit := do
  let l ← derefLink link
  match l.node with
  | some node =>
    if l.fd≠-1 then
      let flags ← serialEventFlags node
      aeDeleteFileEvent l.fd flags
    modifyNode node fun n => {n with link := none}
  | none => pure ()
  if l.fd≠-1 then
    sysClose l.fd
    modifyLink link fun l => {l with fd := -1}
  if l.sfd≠-1 then
    sysClose l.sfd
    modifyLink link fun l => {l with sfd := -1}
  releaseLink link

/-- `_serialLinkIOError`. -/
def serialLinkIOError (link : LinkPtr) : Prog Unit := serialFreeLink link

/-- `calloc` of a link, with both descriptors set to -1. -/
def callocLink : Prog LinkPtr := do
  let w ← get
  modify fun w => {w with
    links := Function.update w.links w.nextLink
      (some ⟨-1,-1,List.replicate bufsiz 0,0,none⟩)
    nextLink := w.nextLink+1}
  pure w.nextLink

/-- A call that only succeeds or fails; a failure is logged under its name. -/
def sysCheck (result : Option Errno) (text : CString) : Prog Bool :=
  match result with
  | some errno => do
    setErrno errno
    serverLogErrno llError text
    pure false
  | none => pure true

/-- `symlink(target, path)`, logged when it fails. -/
def sysSymlink (target path : CString) (result : Option Errno) : Prog Bool := do
  emit (.symlink target path)
  if result.isNone then
    modify fun w => {w with symlinks := Function.update w.symlinks path (some target)}
  sysCheck result "symlink".toList

/-- The opening branches of `_serialCreateLink`; false for `goto err`. -/
def serialOpenLink (node : NodePtr) (link : LinkPtr) (env : ConnectResults) : Prog Bool := do
  let n ← derefNode node
  if nodeIsMaster n then
    emit (.openPath node n.name)
    match env.openPath with
    | .error errno => sysCheck (some errno) "open".toList
    | .ok alloc =>
      let fd ← sysOpenFd alloc
      modifyLink link fun l => {l with fd := fd}
      match env.isatty with
      | some errno => setErrno errno
      | none => pure ()
      -- `isatty` returns 1 or 0, so that its comparison with -1 never holds
      if (if env.isatty.isNone then (1 : ℤ) else 0)=-1 then
        serverLogErrno llError "isatty".toList
        pure false
      else
        pure true
  else if nodeIsVirtual n then
    emit (.openpty node)
    match env.openpty with
    | .error errno => sysCheck (some errno) "openpty".toList
    | .ok pty =>
      let fd ← sysOpenFd pty.master
      let sfd ← sysOpenFd pty.slave
      modify fun w => {w with ttys := Function.update w.ttys sfd pty.tty}
      modifyLink link fun l => {l with fd := fd, sfd := sfd}
      sysRemove n.name env.remove
      let w ← get
      sysSymlink (w.ttys sfd) n.name env.symlink
  else
    pure true

/-- The speeds of the `switch` for which Linux defines a constant. -/
def standardSpeeds : List ℕ :=
  [0,50,75,110,134,150,200,300,600,1200,1800,2400,4800,9600,19200,57600,38400,115200,230400,
    460800,576000,921600,1000000,1152000,1500000,2000000,2500000,3000000,3500000,4000000]

/-- The `switch` over the baudrate of a master; false for `goto err`. -/
def serialSetSpeed (node : NodePtr) (link : LinkPtr) (env : ConnectResults) : Prog Bool := do
  let n ← derefNode node
  if nodeIsMaster n then
    let l ← derefLink link
    match standardSpeeds.find? (fun speed : ℕ => (speed : ℤ)=n.baudrate) with
    | some speed =>
      emit (.setSpeed l.fd speed)
      pure true
    | none =>
      match env.tiocgserial with
      | .error errno =>
        setErrno errno
        pure false
      | .ok baudBase =>
        if n.baudrate=0 then throw .divByZero
        emit (.setDivisor l.fd (baudBase.tdiv n.baudrate))
        sysCheck env.tiocsserial "ioctl".toList
  else
    pure true

/-- `_serialCreateLink` up to the registration; false for `goto err`. -/
def serialConfigureLink (node : NodePtr) (link : LinkPtr) (env : ConnectResults) : Prog Bool := do
  if ← serialOpenLink node link env then
    if ← sysCheck env.tcgetattr "tcgetattr".toList then
      if ← serialSetSpeed node link env then
        sysCheck env.tcsetattr "tcsetattr".toList
      else pure false
    else pure false
  else pure false

/-- `_serialCreateLink`; nothing when the attempt failed. The result of the
registration is not looked at. -/
def serialCreateLink (node : NodePtr) (env : ConnectResults) : Prog (Option LinkPtr) := do
  let link ← callocLink
  if ← serialConfigureLink node link env then
    let l ← derefLink link
    let flags ← serialEventFlags node
    let _ ← aeCreateFileEvent l.fd flags link env.epollCtl
    modifyNode node fun n => {n with link := some link}
    modifyLink link fun l => {l with node := some node}
    pure (some link)
  else
    serialLinkIOError link
    pure none

/-- `serialConnectNode`; true for `C_OK`. -/
def serialConnectNode (node : NodePtr) (env : ConnectResults) : Prog Bool := do
  let n ← derefNode node
  if n.link.isSome then
    pure false
  else
    let link ← serialCreateLink node env
    pure link.isSome

/-- The message of `_serialReconnect` about a node it has connected. -/
def logReconnected (text : CString) (node : NodePtr) : Prog Unit := do
  let n ← derefNode node
  let l ← derefLink (← nonNull n.link)
  let events ← serialEventString node
  serverLog llInfo (text++n.name++" (".toList++decimal l.fd++") [".toList++events++"]".toList)

/-- One turn of the inner loop of `_serialReconnect`. -/
def reconnectVirtual (env : NodePtr → ConnectResults) (vnode : NodePtr) : Prog Unit := do
  let v ← derefNode vnode
  if v.link.isNone then
    if ← serialConnectNode vnode (env vnode) then
      logReconnected "Reconnected virtual: ".toList vnode
    else
      serverLog llWarn ("Problem reconnecting virtual serial device: ".toList++v.name)

/-- The first half of a turn of the outer loop of `_serialReconnect`; its result is `connected`. -/
def reconnectSerial (env : NodePtr → ConnectResults) (node : NodePtr) : Prog Bool := do
  let n ← derefNode node
  if n.link.isNone then
    if ← serialConnectNode node (env node) then
      logReconnected "Reconnected serial: ".toList node
      pure true
    else
      serverLog llWarn ("Problem reconnecting serial device: ".toList++n.name)
      pure false
  else
    pure true

/-- One turn of the outer loop of `_serialReconnect`. -/
def reconnectMaster (env : NodePtr → ConnectResults) (node : NodePtr) : Prog Unit := do
  if ← reconnectSerial env node then
    let n ← derefNode node
    visitNodes (reconnectVirtual env) n.virtualHead

/-- `_serialReconnect`, with the results of the attempt on each node. -/
def serialReconnect (env : NodePtr → ConnectResults) : Prog Unit := do
  let w ← get
  visitNodes (reconnectMaster env) w.masterHead

/-- `serialCron`. -/
def serialCron (env : NodePtr → ConnectResults) : Prog Unit := serialReconnect env

/-- Reset of the receive buffer of one node, if it is connected. -/
def resetBuffer (node : NodePtr) : Prog Unit := do
  let n ← derefNode node
  match n.link with
  | some link => modifyLink link fun l => {l with recvbuflen := 0}
  | none => pure ()

/-- One turn of the outer loop of `serialBeforeSleep`. -/
def resetMaster (node : NodePtr) : Prog Unit := do
  resetBuffer node
  let n ← derefNode node
  visitNodes resetBuffer n.virtualHead

/-- `serialBeforeSleep`. -/
def serialBeforeSleep : Prog Unit := do
  let w ← get
  visitNodes resetMaster w.masterHead
  emit (.usleep 1000000)

/-- `read(link->fd, &link->recvbuf, BUFSIZ)`. -/
def sysRead (link : LinkPtr) (result : ReadResult) : Prog ℤ := do
  let l ← derefLink link
  emit (.read link l.fd result)
  match result with
  | .data block =>
    modifyLink link fun l =>
      {l with recvbuf := block.bytes++l.recvbuf.drop block.bytes.length}
    pure block.bytes.length
  | .eof => pure 0
  | .fail errno =>
    setErrno errno
    pure (-1)

/-- `write(tolink->fd, fromlink->recvbuf, fromlink->recvbuflen)`. -/
def sysWrite (fromlink tolink : LinkPtr) (result : WriteResult) : Prog ℤ := do
  let source ← derefLink fromlink
  let target ← derefLink tolink
  emit (.write tolink fromlink target.fd (source.recvbuf.take source.recvbuflen) result)
  match result with
  | .accepted count _ => pure count
  | .zero => pure 0
  | .fail errno =>
    setErrno errno
    pure (-1)

/-- The node name and descriptor of a link, as the messages print them. -/
def linkText (link : LinkPtr) : Prog CString := do
  let l ← derefLink link
  let n ← derefNode (← nonNull l.node)
  pure (n.name++" (".toList++decimal l.fd++")".toList)

/-- `_serialReadHandler`. -/
def serialReadHandler (link : LinkPtr) (result : ReadResult) : Prog Unit := do
  let nread ← sysRead link result
  if nread≤0 then
    let w ← get
    if w.errno≠eagain then
      let device ← linkText link
      serverLogErrno llError ("I/O error reading from ".toList++device++" node link".toList)
      serialLinkIOError link
  else
    let device ← linkText link
    serverLog llDebug ("Read ".toList++decimal nread++" bytes from ".toList++device)
    modifyLink link fun l => {l with recvbuflen := nread.toNat}

/-- `_serialWriteLink`. -/
def serialWriteLink (fromlink : Option LinkPtr) (tolink : LinkPtr) (result : WriteResult) :
    Prog Unit := do
  match fromlink with
  | none => pure ()
  | some fromlink =>
    let source ← derefLink fromlink
    if source.recvbuflen>0 then
      let nwrite ← sysWrite fromlink tolink result
      if nwrite≤0 then
        let device ← linkText tolink
        serverLogErrno llError ("I/O error writing to ".toList++device++" node link".toList)
        serialLinkIOError tolink
      else
        let origin ← linkText fromlink
        let device ← linkText tolink
        serverLog llDebug ("Wrote ".toList++decimal nwrite++" bytes from ".toList++origin++
          " to ".toList++device)

/-- `_serialWriteHandler`. -/
def serialWriteHandler (link : LinkPtr) (result : WriteResult) : Prog Unit := do
  let l ← derefLink link
  let node ← nonNull l.node
  let n ← derefNode node
  if nodeIsVirtual n then
    let master ← derefNode (← nonNull n.virtualof)
    serialWriteLink master.link link result
  else if nodeIsMaster n then
    match ← serialGetVirtualWriterNode node with
    | some virtual =>
      let v ← derefNode virtual
      serialWriteLink v.link link result
    | none => pure ()

/-- `_serialEventHandler`. -/
def serialEventHandler (privdata : Option LinkPtr) (mask : EventMask) (env : CallResults) :
    Prog Unit := do
  match privdata with
  | none => pure ()
  | some link =>
    if mask &&& aeReadable≠0 then
      serialReadHandler link env.read
    if mask &&& aeWritable≠0 then
      serialWriteHandler link env.write

/-- Closing and freeing one node of `serialTerm`. -/
def termNode (text : CString) (node : NodePtr) (remove : Option Errno) : Prog Unit := do
  let n ← derefNode node
  serverLog llInfo (text++n.name)
  match n.link with
  | some link =>
    serialFreeLink link
    modifyNode node fun n => {n with link := none}
  | none => pure ()
  serialFreeNode node remove

/-- The inner loop of `serialTerm`, which reads the link to the next node first. -/
def termVirtuals (env : NodePtr → Option Errno) : ℕ → Option NodePtr → Prog Unit
  | _,none => pure ()
  | 0,some _ => throw .diverges
  | bound+1,some vnode => do
    let v ← derefNode vnode
    termNode "Closing virtual: ".toList vnode (env vnode)
    termVirtuals env bound v.next

/-- The outer loop of `serialTerm`. -/
def termMasters (env : NodePtr → Option Errno) : ℕ → Option NodePtr → Prog Unit
  | _,none => pure ()
  | 0,some _ => throw .diverges
  | bound+1,some node => do
    let n ← derefNode node
    let w ← get
    termVirtuals env w.nextNode n.virtualHead
    let n ← derefNode node
    termNode "Closing serial: ".toList node (env node)
    termMasters env bound n.next

/-- `serialTerm`, with the results of the calls of `remove`. -/
def serialTerm (env : NodePtr → Option Errno) : Prog Unit := do
  let w ← get
  termMasters env w.nextNode w.masterHead

end SerialProxy.SerialLinks
