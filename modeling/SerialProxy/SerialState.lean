import SerialProxy.FaultPrograms
import SerialProxy.CText
import Mathlib.Data.Finset.Lattice.Fold
import Mathlib.Logic.Function.Basic

/-!
# State of the daemon: node and link heaps, event table, kernel

Nodes and links live in two heaps with an explicit live set: an address that
holds nothing was never allocated or has been freed, and dereferencing it is
a fault. Addresses are numbered in the order of allocation and never reused.
The event table is that of the event loop. The kernel part keeps the open
file descriptors, the terminal behind each pty, the symbolic links and the
value of `errno`. Every call that leaves the program, every release of memory
and every log message is recorded, in order, in a trace that no function of
the program reads.
-/

namespace SerialProxy.SerialState

open FaultPrograms CText

/-- Address of a `serialNode`. -/
abbrev NodePtr := ℕ

/-- Address of a `serialLink`. -/
abbrev LinkPtr := ℕ

/-- A file descriptor, with -1 for none. -/
abbrev Fd := ℤ

/-- A value of `errno`. -/
abbrev Errno := ℤ

/-- `EAGAIN` of Linux. -/
def eagain : Errno := 11

/-- `ERANGE` of Linux. -/
def erange : Errno := 34

/-- `BUFSIZ` of the C library, the size of a receive buffer. -/
def bufsiz : ℕ := 8192

/-- `PATH_MAX`, the size of a name buffer. -/
def pathMax : ℕ := 4096

/-- `CONFIG_DEFAULT_MAX_CLIENTS`, the size of the event table. -/
def configDefaultMaxClients : ℕ := 1000

/-- A set of `AE_READABLE` and `AE_WRITABLE`. -/
abbrev EventMask := BitVec 2

/-- `AE_NONE`. -/
def aeNone : EventMask := 0

/-- `AE_READABLE`. -/
def aeReadable : EventMask := 1

/-- `AE_WRITABLE`. -/
def aeWritable : EventMask := 2

/-- `SERIAL_FLAG_MASTER`. -/
def serialFlagMaster : UInt32 := 1

/-- `SERIAL_FLAG_VIRTUAL`. -/
def serialFlagVirtual : UInt32 := 2

/-- `SERIAL_FLAG_WRITER`. -/
def serialFlagWriter : UInt32 := 4

/-- An open connection of a node. -/
structure SerialLink where
  /-- Serial file descriptor. -/
  fd : Fd
  /-- Slave file descriptor of a pty. -/
  sfd : Fd
  /-- Receive buffer, all `BUFSIZ` bytes of it. -/
  recvbuf : List UInt8
  /-- Number of bytes received. -/
  recvbuflen : ℕ
  /-- Node of this link, if any. -/
  node : Option NodePtr
  deriving DecidableEq

/-- A device of the configuration. -/
structure SerialNode where
  /-- Path of the device. -/
  name : CString
  /-- Master, virtual and writer flags. -/
  flags : UInt32
  /-- First virtual, of a master. -/
  virtualHead : Option NodePtr
  /-- Master, of a virtual. -/
  virtualof : Option NodePtr
  /-- Requested speed. -/
  baudrate : ℤ
  /-- Link of this node while it is connected. -/
  link : Option LinkPtr
  /-- Next node of the list this node is in. -/
  next : Option NodePtr
  deriving DecidableEq

/-- `nodeIsMaster(n)`. -/
def nodeIsMaster (n : SerialNode) : Bool := n.flags &&& serialFlagMaster≠0

/-- `nodeIsVirtual(n)`. -/
def nodeIsVirtual (n : SerialNode) : Bool := n.flags &&& serialFlagVirtual≠0

/-- `nodeIsWriter(n)`. -/
def nodeIsWriter (n : SerialNode) : Bool := n.flags &&& serialFlagWriter≠0

/-- An entry of the event table. The program registers one callback only,
`_serialEventHandler`, so the two procedure pointers are not stored. -/
structure AeFileEvent where
  /-- Registered events. -/
  mask : EventMask
  /-- Link handed to the callback. -/
  clientData : Option LinkPtr
  deriving DecidableEq

/-- What `read` put into a receive buffer: at least one byte, at most `BUFSIZ`. -/
structure Block where
  /-- The bytes, in order. -/
  bytes : List UInt8
  /-- A successful read is not empty. -/
  nonempty : bytes≠[]
  /-- The buffer is never overrun. -/
  fits : bytes.length≤bufsiz
  deriving DecidableEq

/-- Outcome of `read`. -/
inductive ReadResult
  /-- A positive count, with the bytes. -/
  | data (block : Block)
  /-- Zero: end of file or hang-up; `errno` keeps its value. -/
  | eof
  /-- -1, with its `errno`. -/
  | fail (errno : Errno)
  deriving DecidableEq

/-- Outcome of `write`. -/
inductive WriteResult
  /-- A positive count. -/
  | accepted (count : ℕ) (pos : 0<count)
  /-- Zero; `errno` keeps its value. -/
  | zero
  /-- -1, with its `errno`. -/
  | fail (errno : Errno)
  deriving DecidableEq

/-- The calls that leave the program, the releases of memory and the log
messages. The node or link a call is made for is recorded with it. -/
inductive Call
  /-- `open(path)` for a master. -/
  | openPath (node : NodePtr) (path : CString)
  /-- `openpty` for a virtual. -/
  | openpty (node : NodePtr)
  /-- `remove(path)`. -/
  | remove (path : CString)
  /-- `symlink(target, path)`. -/
  | symlink (target path : CString)
  /-- `cfsetispeed` and `cfsetospeed` with the constant of this speed. -/
  | setSpeed (fd : Fd) (speed : ℕ)
  /-- `ioctl(TIOCSSERIAL)` with this custom divisor. -/
  | setDivisor (fd : Fd) (divisor : ℤ)
  /-- `read` into the buffer of a link. -/
  | read (link : LinkPtr) (fd : Fd) (result : ReadResult)
  /-- `write` of these bytes, from the buffer of one link to the descriptor of another. -/
  | write (tolink fromlink : LinkPtr) (fd : Fd) (data : List UInt8) (result : WriteResult)
  /-- `close`. -/
  | close (fd : Fd)
  /-- `free` of a link. -/
  | freeLink (link : LinkPtr)
  /-- `free` of a node. -/
  | freeNode (node : NodePtr)
  /-- `serverLog`. -/
  | log (level : ℕ) (text : CString)
  /-- `serverLogErrno`, with the value of `errno` it reports. -/
  | logErrno (level : ℕ) (text : CString) (errno : Errno)
  /-- `fprintf(stderr, ...)`. -/
  | stderr (text : CString)
  /-- `usleep`. -/
  | usleep (micros : ℕ)
  deriving DecidableEq

/-- The calls that decide which descriptors are open and which ones the kernel watches. -/
inductive FdCall
  /-- The kernel hands out a descriptor. -/
  | opened (fd : Fd)
  /-- `close`. -/
  | close (fd : Fd)
  /-- `aeCreateFileEvent`, with the result of its `epoll_ctl`. -/
  | create (fd : Fd) (mask : EventMask) (clientData : LinkPtr) (epollCtl : Option Errno)
  /-- `aeDeleteFileEvent`. -/
  | delete (fd : Fd) (mask : EventMask)
  deriving DecidableEq

/-- `LL_DEBUG`. -/
def llDebug : ℕ := 0

/-- `LL_INFO`. -/
def llInfo : ℕ := 1

/-- `LL_WARN`. -/
def llWarn : ℕ := 2

/-- `LL_ERROR`. -/
def llError : ℕ := 3

/-- Ways in which the program stops other than by returning. -/
inductive Fault
  /-- A link is dereferenced that is not live. -/
  | freedLink (link : LinkPtr)
  /-- A node is dereferenced that is not live. -/
  | freedNode (node : NodePtr)
  /-- The null pointer is dereferenced. -/
  | nullDeref
  /-- A division by zero. -/
  | divByZero
  /-- A walk takes more turns than there ever were nodes, hence never ends. -/
  | diverges
  /-- `exit(code)`. -/
  | exit (code : ℕ)
  deriving DecidableEq

/-- The whole state: program heap, event table, kernel and trace. -/
structure World where
  /-- Live nodes. -/
  nodes : NodePtr → Option SerialNode
  /-- Number of nodes ever allocated. -/
  nextNode : NodePtr
  /-- `server.serial.master_head`. -/
  masterHead : Option NodePtr
  /-- Live links. -/
  links : LinkPtr → Option SerialLink
  /-- Number of links ever allocated. -/
  nextLink : LinkPtr
  /-- Event table of the event loop. -/
  events : Fd → AeFileEvent
  /-- Highest registered descriptor, or -1. -/
  maxfd : Fd
  /-- Size of the event table. -/
  setsize : ℕ
  /-- Open file descriptors of the process. -/
  openFds : Finset Fd
  /-- Terminal name of each slave descriptor. -/
  ttys : Fd → CString
  /-- Symbolic links of the file system, by path. -/
  symlinks : CString → Option CString
  /-- The global `errno`. -/
  errno : Errno
  /-- Everything that left the program, in order. -/
  trace : List Call
  /-- The calls on descriptors, in order. -/
  fdCalls : List FdCall

/-- State before the configuration is read: `aeCreateEventLoop` has set every
mask to `AE_NONE`, and the standard streams and the epoll descriptor are open. -/
def World.boot : World where
  nodes := fun _ => none
  nextNode := 0
  masterHead := none
  links := fun _ => none
  nextLink := 0
  events := fun _ => ⟨aeNone,none⟩
  maxfd := -1
  setsize := configDefaultMaxClients
  openFds := {0,1,2,3}
  ttys := fun _ => []
  symlinks := fun _ => none
  errno := 0
  trace := []
  fdCalls := []

/-- Programs of the daemon. -/
abbrev Prog := EStateM Fault World

/-- Record a call. -/
def emit (call : Call) : Prog Unit := modify fun w => {w with trace := w.trace++[call]}

/-- Store a value of `errno`. -/
def setErrno (errno : Errno) : Prog Unit := modify fun w => {w with errno := errno}

/-- `serverLog`; the verbosity test belongs to the logger and is not applied here. -/
def serverLog (level : ℕ) (text : CString) : Prog Unit := emit (.log level text)

/-- `serverLogErrno`, reporting the current `errno`. -/
def serverLogErrno (level : ℕ) (text : CString) : Prog Unit := do
  let w ← get
  emit (.logErrno level text w.errno)

/-- Dereference a pointer that may be null. -/
def nonNull {α : Type} : Option α → Prog α
  | some a => pure a
  | none => throw .nullDeref

/-- Read a link through its address. -/
def derefLink (link : LinkPtr) : Prog SerialLink := do
  let w ← get
  match w.links link with
  | some l => pure l
  | none => throw (.freedLink link)

/-- Read a node through its address. -/
def derefNode (node : NodePtr) : Prog SerialNode := do
  let w ← get
  match w.nodes node with
  | some n => pure n
  | none => throw (.freedNode node)

/-- Write fields of a link through its address. -/
def modifyLink (link : LinkPtr) (f : SerialLink → SerialLink) : Prog Unit := do
  let l ← derefLink link
  modify fun w => {w with links := Function.update w.links link (some (f l))}

/-- Write fields of a node through its address. -/
def modifyNode (node : NodePtr) (f : SerialNode → SerialNode) : Prog Unit := do
  let n ← derefNode node
  modify fun w => {w with nodes := Function.update w.nodes node (some (f n))}

/-- `free` of a link. -/
def releaseLink (link : LinkPtr) : Prog Unit := do
  let _ ← derefLink link
  modify fun w => {w with links := Function.update w.links link none}
  emit (.freeLink link)

/-- `free` of a node. -/
def releaseNode (node : NodePtr) : Prog Unit := do
  let _ ← derefNode node
  modify fun w => {w with nodes := Function.update w.nodes node none}
  emit (.freeNode node)

/-- `close(fd)`. -/
def sysClose (fd : Fd) : Prog Unit := do
  modify fun w => {w with openFds := w.openFds.erase fd, fdCalls := w.fdCalls++[.close fd]}
  emit (.close fd)

/-- `remove(path)`; the program ignores its result. -/
def sysRemove (path : CString) (result : Option Errno) : Prog Unit := do
  emit (.remove path)
  match result with
  | some errno => setErrno errno
  | none => modify fun w => {w with symlinks := Function.update w.symlinks path none}

/-- A way for the kernel to hand out a descriptor that is not open. -/
structure FreshFd where
  /-- The descriptor chosen when these are open. -/
  choose : Finset Fd → Fd
  /-- It is not open. -/
  fresh : ∀ fds,choose fds∉fds
  /-- It is a descriptor, not the error value. -/
  nonneg : ∀ fds,0≤choose fds

/-- Open the descriptor the kernel hands out. -/
def sysOpenFd (alloc : FreshFd) : Prog Fd := do
  let w ← get
  modify fun w => {w with
    openFds := insert (alloc.choose w.openFds) w.openFds
    fdCalls := w.fdCalls++[.opened (alloc.choose w.openFds)]}
  pure (alloc.choose w.openFds)

end SerialProxy.SerialState
