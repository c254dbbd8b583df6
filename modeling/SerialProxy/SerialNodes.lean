import SerialProxy.LinkedCells
import SerialProxy.SerialState

/-!
# Node lists

Creation, lookup and removal of nodes, over the linked lists of the heap. A
walk over a list is bounded by the number of nodes ever allocated; a walk
that needs more turns has met a cycle and would never end.
-/

namespace SerialProxy.SerialNodes

open FaultPrograms LinkedCells CText SerialState

/-- Search a node list for the first node that passes a test. -/
def findNode (test : SerialNode → Bool) (head : Option NodePtr) : Prog (Option NodePtr) := do
  let w ← get
  scan derefNode SerialNode.next test .diverges w.nextNode head

/-- Visit every node of a list, reading its link to the next one afterwards. -/
def visitNodes (body : NodePtr → Prog Unit) (head : Option NodePtr) : Prog Unit := do
  let w ← get
  visit derefNode SerialNode.next body .diverges w.nextNode head

/-- `serialGetNode`. -/
def serialGetNode (nodename : CString) : Prog (Option NodePtr) := do
  let w ← get
  findNode (fun n => n.name=nodename) w.masterHead

/-- `serialGetVirtualNode`. -/
def serialGetVirtualNode (master : NodePtr) (nodename : CString) : Prog (Option NodePtr) := do
  let m ← derefNode master
  findNode (fun n => n.name=nodename) m.virtualHead

/-- `serialGetVirtualWriterNode`. -/
def serialGetVirtualWriterNode (master : NodePtr) : Prog (Option NodePtr) := do
  let m ← derefNode master
  findNode nodeIsWriter m.virtualHead

/-- The node `serialCreateNode` fills in; `calloc` has cleared its pointers. -/
def newNode (nodename : CString) (flags : UInt32) : SerialNode where
  name := strlcpy nodename pathMax
  flags := flags
  virtualHead := none
  virtualof := none
  baudrate := 9600
  link := none
  next := none

/-- `serialCreateNode`. -/
def serialCreateNode (nodename : CString) (flags : UInt32) : Prog NodePtr := do
  let w ← get
  modify fun w => {w with
    nodes := Function.update w.nodes w.nextNode (some (newNode nodename flags))
    nextNode := w.nextNode+1}
  pure w.nextNode

/-- `serialAddNode`. -/
def serialAddNode (node : NodePtr) : Prog Unit := do
  let w ← get
  match w.masterHead with
  | some head => modifyNode node fun n => {n with next := some head}
  | none => pure ()
  modify fun w => {w with masterHead := some node}

/-- `serialAddVirtualNode`. -/
def serialAddVirtualNode (master virtual : NodePtr) : Prog Unit := do
  let m ← derefNode master
  match m.virtualHead with
  | some head => modifyNode virtual fun n => {n with next := some head}
  | none => pure ()
  modifyNode master fun n => {n with virtualHead := some virtual}
  modifyNode virtual fun n => {n with virtualof := some master}

/-- The loop of `serialRemoveVirtualNode` and `serialDelNode`. Neither moves
`prev` on while it walks, so it keeps the value it was called with. -/
def unlinkNode (clearHead : Prog Unit) (node : NodePtr) (prev : Option NodePtr) :
    ℕ → Option NodePtr → Prog Unit
  | _,none => pure ()
  | 0,some _ => throw .diverges
  | bound+1,some cur =>
    if node=cur then do
      match prev with
      | none => clearHead
      | some p =>
        let n ← derefNode node
        modifyNode p fun q => {q with next := n.next}
      modifyNode node fun n => {n with next := none}
    else do
      let c ← derefNode cur
      unlinkNode clearHead node prev bound c.next

/-- `serialRemoveVirtualNode`. -/
def serialRemoveVirtualNode (master virtual : NodePtr) : Prog Unit := do
  let m ← derefNode master
  let w ← get
  unlinkNode (modifyNode master fun n => {n with virtualHead := none}) virtual none w.nextNode
    m.virtualHead

/-- `serialDelNode`. -/
def serialDelNode (node : NodePtr) : Prog Unit := do
  let w ← get
  unlinkNode (modify fun w => {w with masterHead := none}) node none w.nextNode w.masterHead

/-- `serialFreeNode`, with the result of its `remove`. -/
def serialFreeNode (node : NodePtr) (remove : Option Errno) : Prog Unit := do
  let n ← derefNode node
  visitNodes (fun cur => modifyNode cur fun c => {c with virtualof := none}) n.virtualHead
  if nodeIsVirtual n then
    sysRemove n.name remove
    match n.virtualof with
    | some master => serialRemoveVirtualNode master node
    | none => pure ()
  modifyNode node fun n => {n with virtualHead := none}
  releaseNode node

/-- `serialVirtualName` with the format `%s.%s`: nothing when the name does
not fit the buffer. -/
def serialVirtualName (device name : CString) (nameSize : ℕ) : Option CString :=
  let joined := device++ '.'::name
  if joined.length<nameSize then some joined else none

end SerialProxy.SerialNodes
