import SerialProxy.Iterations
import SerialProxy.NodeLists

/-!
# The teardown

`serialTerm` takes the lists apart while it walks them: the virtuals of each
master, then the master. Freeing the first virtual of a master clears the head
of its list, so that the later ones are not looked for in it. A state of the
teardown is determined by the nodes freed so far, and every node, link,
descriptor and path is released exactly once.
-/

namespace SerialProxy.Teardown

open FaultPrograms LinkedCells CText SerialState EventTable SerialNodes SerialLinks EventLoop
open NodeTopology NodeLists LinkEffects LinkCoherence Iterations

/-- The order in which the teardown frees the nodes. -/
def termOrder (shape : Shape) : List NodePtr := shape.flatMap fun g => g.2++[g.1]

/-- The message about a node that is being closed. -/
def termText (n : SerialNode) : CString :=
  if nodeIsVirtual n then "Closing virtual: ".toList else "Closing serial: ".toList

/-- The calls that close the link of a node, if it has one. -/
def closingCalls (w : World) (n : SerialNode) : List Call :=
  match n.link with
  | some link => closeCalls link (linkAt w link)
  | none => []

/-- The calls that free a node. -/
def freeingCalls (node : NodePtr) (n : SerialNode) : List Call :=
  if nodeIsVirtual n then [.remove n.name,.freeNode node] else [.freeNode node]

/-- The calls of one turn of `serialTerm`. -/
def termCalls (w : World) (node : NodePtr) : List Call :=
  let n := nodeAt w node
  .log llInfo (termText n++n.name)::(closingCalls w n++freeingCalls node n)

/-- The head of the list of a node: kept until the first of its virtuals is freed. -/
def headAfter (w : World) (done : List NodePtr) (node : NodePtr) : Option NodePtr :=
  if ∃ v∈done,(nodeAt w v).virtualof=some node then none else (nodeAt w node).virtualHead

/-- The nodes left after some have been freed. -/
def nodesAfter (w : World) (done : List NodePtr) (node : NodePtr) : Option SerialNode :=
  if node∈done then none
  else (w.nodes node).map fun n => {n with virtualHead := headAfter w done node}

/-- The links left after the nodes that held the others have been freed. -/
def linksAfter (w : World) (done : List NodePtr) (link : LinkPtr) : Option SerialLink :=
  if ∃ node∈done,(nodeAt w node).link=some link then none else w.links link

/-- A state of the teardown of `w`. -/
structure Standing (w : World) (done : List NodePtr) (t : World) : Prop where
  /-- Freed nodes are gone. -/
  nodes : t.nodes=nodesAfter w done
  /-- Their links are gone. -/
  links : t.links=linksAfter w done
  /-- No node was allocated. -/
  nextNode : t.nextNode=w.nextNode
  /-- The table has its size. -/
  setsize : t.setsize=w.setsize
  /-- Descriptors of other links keep their registration. -/
  events : ∀ fd,(∀ node∈done,∀ link,(nodeAt w node).link=some link → (linkAt w link).fd≠fd) →
    t.events fd=w.events fd
  /-- No descriptor was registered anew. -/
  clients : ∀ fd,(t.events fd).clientData=(w.events fd).clientData ∧
    ((t.events fd).mask≠aeNone → (w.events fd).mask≠aeNone)

section States

variable {w t u : World} {shape : Shape} {done : List NodePtr} {node v : NodePtr}
variable {n m : SerialNode} {link : LinkPtr} {g : NodePtr×List NodePtr}

theorem closingCalls_some (hlink : n.link=some link) :
    closingCalls w n=closeCalls link (linkAt w link) := by
  rw [closingCalls,hlink]

theorem Standing.start (w : World) : Standing w [] w where
  nodes := by
    funext node
    cases h : w.nodes node <;> simp [nodesAfter,headAfter,nodeAt,h]
  links := by
    funext link
    simp [linksAfter]
  nextNode := rfl
  setsize := rfl
  events := fun _ _ => rfl
  clients := fun _ => ⟨rfl,id⟩

theorem Standing.record (h : Standing w done t) (errno : Errno) (calls : List Call) :
    Standing w done (record t errno calls) :=
  ⟨h.nodes,h.links,h.nextNode,h.setsize,h.events,h.clients⟩

/-- A node that is left differs in the head of its list only. -/
theorem Standing.nodes_some (h : Standing w done t) (hn : w.nodes node=some n) (hd : node∉done) :
    t.nodes node=some {n with virtualHead := headAfter w done node} := by
  rw [h.nodes,nodesAfter,if_neg hd,hn,Option.map_some]

/-- The nodes left when a virtual has been freed. -/
theorem nodesAfter_virtual (hv : w.nodes v=some n) (ho : n.virtualof=some node)
    (hm : w.nodes node=some m) (hd : node∉done) (hne : node≠v) :
    nodesAfter w (done++[v])=Function.update (Function.update (nodesAfter w done) node
      (some {m with virtualHead := none})) v none := by
  funext x
  rcases eq_or_ne x v with rfl|hxv
  · rw [Function.update_self,nodesAfter,if_pos (by simp)]
  · rw [Function.update_of_ne hxv]
    have hmem : x∈done++[v] ↔ x∈done := by simp [hxv]
    rcases eq_or_ne x node with rfl|hxm
    · have hex : ∃ y∈done++[v],(nodeAt w y).virtualof=some x :=
        ⟨v,by simp,by rw [nodeAt_of_some hv,ho]⟩
      rw [Function.update_self,nodesAfter,if_neg (hmem.not.mpr hd),hm,Option.map_some,headAfter,
        if_pos hex]
    · have hex : (∃ y∈done++[v],(nodeAt w y).virtualof=some x) ↔
          ∃ y∈done,(nodeAt w y).virtualof=some x := by
        simp [or_and_right,exists_or,nodeAt_of_some hv,ho,hxm.symm]
      rw [Function.update_of_ne hxm,nodesAfter,nodesAfter]
      simp only [hmem,headAfter,hex]

/-- The nodes left when a master has been freed. -/
theorem nodesAfter_master (hm : w.nodes node=some m) (ho : m.virtualof=none) :
    nodesAfter w (done++[node])=Function.update (nodesAfter w done) node none := by
  funext x
  rcases eq_or_ne x node with rfl|hx
  · rw [Function.update_self,nodesAfter,if_pos (by simp)]
  · have hmem : x∈done++[node] ↔ x∈done := by simp [hx]
    have hex : (∃ y∈done++[node],(nodeAt w y).virtualof=some x) ↔
        ∃ y∈done,(nodeAt w y).virtualof=some x := by
      simp [or_and_right,exists_or,nodeAt_of_some hm,ho]
    rw [Function.update_of_ne hx,nodesAfter,nodesAfter]
    simp only [hmem,headAfter,hex]

theorem linksAfter_linked (hn : w.nodes node=some n) (hlink : n.link=some link) :
    linksAfter w (done++[node])=Function.update (linksAfter w done) link none := by
  funext x
  rcases eq_or_ne x link with rfl|hx
  · have hex : ∃ y∈done++[node],(nodeAt w y).link=some x :=
      ⟨node,by simp,by rw [nodeAt_of_some hn,hlink]⟩
    rw [Function.update_self,linksAfter,if_pos hex]
  · have hex : (∃ y∈done++[node],(nodeAt w y).link=some x) ↔
        ∃ y∈done,(nodeAt w y).link=some x := by
      simp [or_and_right,exists_or,nodeAt_of_some hn,hlink,hx.symm]
    rw [Function.update_of_ne hx,linksAfter,linksAfter]
    simp only [hex]

theorem linksAfter_unlinked (hn : w.nodes node=some n) (hlink : n.link=none) :
    linksAfter w (done++[node])=linksAfter w done := by
  funext x
  have hex : (∃ y∈done++[node],(nodeAt w y).link=some x) ↔
      ∃ y∈done,(nodeAt w y).link=some x := by
    simp [or_and_right,exists_or,nodeAt_of_some hn,hlink]
  simp only [linksAfter,hex]

/-- The link of a node that is left is live. -/
theorem Standing.links_kept (hc : Coherent shape w) (h : Standing w done t)
    (hn : w.nodes node=some n) (hd : node∉done) (hlink : n.link=some link) :
    t.links link=w.links link := by
  rw [h.links,linksAfter,if_neg]
  rintro ⟨other,hother,ho⟩
  obtain ⟨on,hon,ho⟩ := node_of_link ho
  obtain ⟨l,hl,hb⟩ := hc.linked other on link hon ho
  obtain ⟨l',hl',hb'⟩ := hc.linked node n link hn hlink
  rw [hl,Option.some.injEq] at hl'
  rw [← hl',hb,Option.some.injEq] at hb'
  exact hd (hb' ▸ hother)

end States

section Freeing

variable {u : World} {node v : NodePtr} {n m : SerialNode} {cells : List NodePtr}
variable {head : Option NodePtr}

/-- A list of virtuals that is empty, or a chain that has the node to remove. -/
def Removable (u : World) (v : NodePtr) (head : Option NodePtr) : Prop :=
  head=none ∨ ∃ cells,Chain (nodeNext u) head cells ∧ v∈cells ∧ cells.length≤u.nextNode

/-- Removing a virtual leaves its master without a list. -/
theorem serialRemoveVirtualNode_apply (hm : u.nodes node=some m) (hv : u.nodes v=some n)
    (hne : v≠node) (hr : Removable u v m.virtualHead) : ∃ next,
    serialRemoveVirtualNode node v u=.ok () {u with
      nodes := Function.update (Function.update u.nodes node (some {m with virtualHead := none})) v
        (some {n with next := next})} := by
  simp only [serialRemoveVirtualNode,bind_apply,derefNode_of_some hm,get_apply]
  rcases hr with hnil|⟨cells,hc,hmem,hb⟩
  · refine ⟨n.next,?_⟩
    have hself : (some {m with virtualHead := none} : Option SerialNode)=u.nodes node := by
      rw [hm,← hnil]
    have hself' : (some {n with next := n.next} : Option SerialNode)=u.nodes v := hv.symm
    rw [hnil,hself,Function.update_eq_self,hself',Function.update_eq_self,unlinkNode]
    rfl
  · refine ⟨none,?_⟩
    have hv' : Function.update u.nodes node (some {m with virtualHead := none}) v=some n := by
      rw [Function.update_of_ne hne,hv]
    rw [unlinkNode_chain hc hmem hb,bind_of_ok (modifyNode_of_some hm _),modifyNode_of_some hv']

/-- The loop over the virtuals of a node without any. -/
theorem visitNodes_none (body : NodePtr → Prog Unit) : visitNodes body none u=.ok () u := by
  simp only [visitNodes,bind_apply,get_apply]
  cases u.nextNode <;> rfl

/-- The last two statements of `serialFreeNode`. -/
theorem clearAndRelease (hn : u.nodes node=some n) :
    (do
      modifyNode node fun n => {n with virtualHead := none}
      releaseNode node : Prog Unit) u=.ok () {u with
        nodes := Function.update u.nodes node none, trace := u.trace++[.freeNode node]} := by
  rw [bind_of_ok (modifyNode_of_some hn _),releaseNode,
    bind_of_ok (derefNode_of_some (n:={n with virtualHead := none}) (Function.update_self _ _ _))]
  simp only [bind_apply,modify_apply,emit,Function.update_idem]

/-- Freeing a node that is no virtual and has none. -/
theorem serialFreeNode_master (remove : Option Errno) (hn : u.nodes node=some n) (hh : n.virtualHead=none)
    (hv : nodeIsVirtual n=false) : serialFreeNode node remove u=.ok () {u with
      nodes := Function.update u.nodes node none, trace := u.trace++freeingCalls node n} := by
  rw [serialFreeNode,bind_of_ok (derefNode_of_some hn),hh,bind_of_ok (visitNodes_none _),hv,
    freeingCalls,hv]
  exact clearAndRelease hn

/-- Freeing a virtual, which is first removed from the list of its master. -/
theorem serialFreeNode_virtual (remove : Option Errno) (hn : u.nodes v=some n) (hh : n.virtualHead=none)
    (hv : nodeIsVirtual n=true) (ho : n.virtualof=some node) (hm : u.nodes node=some m)
    (hne : v≠node) (hr : Removable u v m.virtualHead) : ∃ errno symlinks,
    serialFreeNode v remove u=.ok () {u with
      nodes := Function.update (Function.update u.nodes node (some {m with virtualHead := none})) v
        none
      errno := errno
      symlinks := symlinks
      trace := u.trace++freeingCalls v n} := by
  obtain ⟨errno,symlinks,hremove⟩ : ∃ errno symlinks,sysRemove n.name remove u=
      .ok () {u with errno := errno, symlinks := symlinks, trace := u.trace++[.remove n.name]} := by
    cases remove with
    | none => exact ⟨u.errno,_,rfl⟩
    | some e => exact ⟨e,u.symlinks,rfl⟩
  refine ⟨errno,symlinks,?_⟩
  obtain ⟨next,hunlink⟩ := serialRemoveVirtualNode_apply (u:={u with
    errno := errno, symlinks := symlinks, trace := u.trace++[.remove n.name]}) hm hn hne hr
  rw [serialFreeNode,bind_of_ok (derefNode_of_some hn),hh,bind_of_ok (visitNodes_none _),
    if_pos hv,freeingCalls,if_pos hv,bind_of_ok hremove,ho]
  refine (bind_of_ok hunlink _).trans ((clearAndRelease (Function.update_self _ _ _)).trans ?_)
  simp only [Function.update_idem,List.append_assoc,List.cons_append,List.nil_append]

end Freeing

/-- The registrations after the link of a node is closed with these event flags. -/
def closedEvents (w t : World) (n : SerialNode) (flags : EventMask) : Fd → AeFileEvent :=
  match n.link with
  | some link => (deleteFileEvent t (linkAt w link).fd flags).events
  | none => t.events

/-- A state of the teardown in which the link of one more node has been closed. -/
structure Closed (w : World) (done : List NodePtr) (node : NodePtr) (n : SerialNode)
    (flags : EventMask) (t u : World) : Prop where
  /-- The node has no link. -/
  nodes : u.nodes=Function.update t.nodes node
    (some {n with virtualHead := headAfter w done node, link := none})
  /-- Its link is gone. -/
  links : u.links=linksAfter w (done++[node])
  /-- No node was allocated. -/
  nextNode : u.nextNode=w.nextNode
  /-- The table has its size. -/
  setsize : u.setsize=w.setsize
  /-- Its descriptor lost these events. -/
  events : u.events=closedEvents w t n flags
  /-- The calls that closed it. -/
  trace : u.trace=t.trace++closingCalls w n

/-- The event flags that the turn of a node removes: the virtuals of a master are
gone when its own turn comes, and its writer with them. -/
def termFlags (w : World) (node : NodePtr) : EventMask :=
  if nodeIsVirtual (nodeAt w node) then eventFlags w node else aeReadable

/-- The turn of a node in `serialTerm`. -/
def termTurn (w : World) (env : NodePtr → Option Errno) (node : NodePtr) : Prog Unit :=
  termNode (termText (nodeAt w node)) node (env node)

/-- The turns of some nodes, in order. -/
def termTurns (w : World) (env : NodePtr → Option Errno) (nodes : List NodePtr) : Prog Unit :=
  nodes.forM (termTurn w env)

/-- What the turn of a node does to a state of the teardown. -/
structure Turned (w : World) (done : List NodePtr) (node : NodePtr) (t u : World) : Prop where
  /-- The node is freed. -/
  standing : Standing w (done++[node]) u
  /-- Its descriptor lost these events. -/
  events : u.events=closedEvents w t (nodeAt w node) (termFlags w node)
  /-- The calls that freed it. -/
  trace : u.trace=t.trace++termCalls w node

section Turns

variable {w t u : World} {shape : Shape} {done : List NodePtr} {node v : NodePtr}
variable {n : SerialNode} {link : LinkPtr} {g : NodePtr×List NodePtr} {flags : EventMask}
variable {env : NodePtr → Option Errno}

/-- The link of a node that is left is still attached to it. -/
theorem Standing.attached (hc : Coherent shape w) (h : Standing w done t)
    (hn : w.nodes node=some n) (hd : node∉done) (hlink : n.link=some link) :
    Attached t link ∧ linkAt t link=linkAt w link ∧ nodeOf t link=node := by
  obtain ⟨ha,ho⟩ := hc.attached_of_node hn hlink
  have hl := (h.links_kept hc hn hd hlink).trans ha.live
  have he : linkAt t link=linkAt w link := linkAt_of_some hl
  have hnode : nodeOf t link=node := by
    rw [nodeOf,he]
    exact ho
  have hleft := h.nodes_some hn hd
  refine ⟨⟨he ▸ hl,?_,?_,?_,he ▸ ha.fd⟩,he,hnode⟩
  · rw [he,hnode,ha.node,ho]
  · rw [hnode,nodeAt_of_some hleft,hleft]
  · rw [hnode,nodeAt_of_some hleft]
    exact hlink

/-- A virtual that is left computes the event flags it had. -/
theorem Standing.flags_virtual (ht : Topology w shape) (h : Standing w done t) (hg : g∈shape)
    (hv : v∈g.2) (hd : v∉done) : serialEventFlags v t=.ok (eventFlags w v) t := by
  obtain ⟨n,hn,hf,-⟩ := ht.virtual g hg v hv
  simp only [serialEventFlags,bind_apply,derefNode_of_some (h.nodes_some hn hd),
    eventFlags_virtual ht hg hv,nodeAt_of_some hn]
  have hmaster : nodeIsMaster {n with virtualHead := headAfter w done v}=false :=
    not_nodeIsMaster_of_flags hf
  have hvirtual : nodeIsVirtual {n with virtualHead := headAfter w done v}=true :=
    nodeIsVirtual_of_flags hf
  rw [hmaster,hvirtual]
  rfl

/-- Once its virtuals are freed, a master has no list. -/
theorem headAfter_master (ht : Topology w shape) (hg : g∈shape) (hall : ∀ v∈g.2,v∈done) :
    headAfter w done g.1=none := by
  obtain ⟨m,hm,-,-,hchain⟩ := ht.master g hg
  rw [headAfter]
  split
  · rfl
  · next hnone =>
    rw [nodeAt_of_some hm]
    cases hvs : g.2 with
    | nil =>
      rw [hvs] at hchain
      exact hchain
    | cons v vs =>
      have hv : v∈g.2 := hvs ▸ List.mem_cons_self
      obtain ⟨n,hn,-,ho,-⟩ := ht.virtual g hg v hv
      exact absurd ⟨v,hall v hv,by rw [nodeAt_of_some hn,ho]⟩ hnone

/-- A virtual has no list. -/
theorem headAfter_virtual (ht : Topology w shape) (hg : g∈shape) (hv : v∈g.2) :
    headAfter w done v=none := by
  obtain ⟨n,hn,-,-,hh⟩ := ht.virtual g hg v hv
  rw [headAfter,nodeAt_of_some hn,hh,ite_self]

/-- A master whose virtuals are freed computes flags without its writer. -/
theorem Standing.flags_master (ht : Topology w shape) (h : Standing w done t) (hg : g∈shape)
    (hd : g.1∉done) (hall : ∀ v∈g.2,v∈done) : serialEventFlags g.1 t=.ok aeReadable t := by
  obtain ⟨m,hm,hf,-⟩ := ht.master g hg
  have hleft := h.nodes_some hm hd
  rw [headAfter_master ht hg hall] at hleft
  have hmaster : nodeIsMaster {m with virtualHead := none}=true :=
    nodeIsMaster_of_flags hf
  have hnone : findNode nodeIsWriter none t=.ok none t := by
    simp only [findNode,bind_apply,get_apply]
    cases t.nextNode <;> rfl
  simp only [serialEventFlags,bind_apply,derefNode_of_some hleft,hmaster,if_true,
    serialGetVirtualWriterNode,hnone]
  rfl

/-- The part of a turn that closes the link of the node. -/
def closeNodeLink (node : NodePtr) : Option LinkPtr → Prog Unit
  | some link => do
    serialFreeLink link
    modifyNode node fun n => {n with link := none}
  | none => pure ()

theorem Standing.close (hc : Coherent shape w) (h : Standing w done t)
    (hn : w.nodes node=some n) (hd : node∉done) (hflags : serialEventFlags node t=.ok flags t) :
    ∃ u,closeNodeLink node n.link t=.ok () u ∧ Closed w done node n flags t u := by
  have hleft := h.nodes_some hn hd
  cases hlink : n.link with
  | none =>
    refine ⟨t,rfl,?_,?_,h.nextNode,h.setsize,?_,?_⟩
    · rw [← hlink]
      exact ((Function.update_eq_self_iff).mpr hleft.symm).symm
    · rw [linksAfter_unlinked hn hlink,h.links]
    · rw [closedEvents,hlink]
    · rw [closingCalls,hlink,List.append_nil]
  | some link =>
    obtain ⟨ha,hl,ho⟩ := h.attached hc hn hd hlink
    have hclosed : (closeLink t link flags).nodes=Function.update t.nodes node
        (some {n with virtualHead := headAfter w done node, link := none}) := by
      rw [closeLink,ho,nodeAt_of_some hleft]
    have hself := (congrFun hclosed node).trans (Function.update_self _ _ _)
    have hfree := serialFreeLink_apply ha
      (show serialEventFlags (nodeOf t link) t=.ok flags t by rw [ho,hflags])
    refine ⟨_,(bind_of_ok hfree _).trans (modifyNode_of_some hself _),?_,?_,h.nextNode,h.setsize,
      ?_,?_⟩
    · dsimp only
      rw [hclosed,Function.update_idem]
    · rw [linksAfter_linked hn hlink,← h.links]
      rfl
    · have he : closedEvents w t n flags=(deleteFileEvent t (linkAt w link).fd flags).events := by
        rw [closedEvents,hlink]
      rw [he,← hl]
      rfl
    · rw [closingCalls_some hlink,← hl]
      rfl

/-- Removing events registers nothing. -/
theorem deleteFileEvent_client (t : World) (fd fd' : Fd) (mask : EventMask) :
    ((deleteFileEvent t fd mask).events fd').clientData=(t.events fd').clientData ∧
      (((deleteFileEvent t fd mask).events fd').mask≠aeNone → (t.events fd').mask≠aeNone) := by
  rcases eq_or_ne fd' fd with rfl|hne
  · dsimp only [deleteFileEvent]
    split
    · exact ⟨rfl,id⟩
    · next hin =>
      rw [Function.update_self]
      exact ⟨rfl,fun _ h => hin (.inr h)⟩
  · rw [deleteFileEvent_events_of_ne mask hne]
    exact ⟨rfl,id⟩

/-- After a turn the node and its link are gone. -/
theorem Closed.standing {s u' : World} (h : Standing w done s) (hn : w.nodes node=some n)
    (hcl : Closed w done node n flags s u) (hnodes : u'.nodes=nodesAfter w (done++[node]))
    (hlinks : u'.links=u.links) (hnext : u'.nextNode=u.nextNode) (hsize : u'.setsize=u.setsize)
    (hevents : u'.events=u.events) : Standing w (done++[node]) u' where
  nodes := hnodes
  links := hlinks.trans hcl.links
  nextNode := hnext.trans hcl.nextNode
  setsize := hsize.trans hcl.setsize
  events := by
    intro fd hfd
    have hold := h.events fd fun x hx => hfd x (List.mem_append_left _ hx)
    rw [hevents,hcl.events,closedEvents]
    cases hlink : n.link with
    | none => exact hold
    | some link =>
      have hne := hfd node (by simp) link (by rw [nodeAt_of_some hn,hlink])
      exact (deleteFileEvent_events_of_ne _ hne.symm).trans hold
  clients := by
    intro fd
    obtain ⟨hclient,hmask⟩ := h.clients fd
    rw [hevents,hcl.events,closedEvents]
    cases n.link with
    | none => exact ⟨hclient,hmask⟩
    | some link =>
      obtain ⟨hclient',hmask'⟩ := deleteFileEvent_client s (linkAt w link).fd fd flags
      exact ⟨hclient'.trans hclient,fun hm => hmask (hmask' hm)⟩

/-- A turn of `serialTerm` in its parts. -/
theorem termNode_apply {remove : Option Errno} {text : CString} (hn : t.nodes node=some n) :
    termNode text node remove t=
      (closeNodeLink node n.link >>= fun _ => serialFreeNode node remove)
        (LinkEffects.record t t.errno [.log llInfo (text++n.name)]) := by
  rw [termNode,bind_of_ok (derefNode_of_some hn)]
  cases n.link with
  | none => rfl
  | some link =>
    rw [closeNodeLink,bind_assoc]
    rfl

/-- A turn, for a node that is left. -/
theorem termTurn_of_free (hc : Coherent shape w) (h : Standing w done t)
    (hn : w.nodes node=some n) (hd : node∉done)
    (hflags : ∀ s,Standing w done s → serialEventFlags node s=.ok (termFlags w node) s)
    (hfree : ∀ s u,Standing w done s → Closed w done node n (termFlags w node) s u → ∃ u',
      serialFreeNode node (env node) u=.ok () u' ∧ Standing w (done++[node]) u' ∧
        u'.events=u.events ∧ u'.trace=u.trace++freeingCalls node n) :
    ∃ u,termTurn w env node t=.ok () u ∧ Turned w done node t u := by
  have hat := nodeAt_of_some hn
  have hlog := h.record t.errno [.log llInfo (termText n++n.name)]
  obtain ⟨s,hclose,hclosed⟩ := hlog.close hc hn hd (hflags _ hlog)
  obtain ⟨u,hrun,hs,hevents,htrace⟩ := hfree _ s hlog hclosed
  refine ⟨u,?_,hs,?_,?_⟩
  · rw [termTurn,hat,termNode_apply (h.nodes_some hn hd),bind_of_ok hclose]
    exact hrun
  · rw [hevents,hclosed.events,hat,closedEvents,closedEvents]
    rfl
  · rw [htrace,hclosed.trace,termCalls,hat]
    simp [LinkEffects.record,List.append_assoc]

/-- The turn of a virtual whose master is left. -/
theorem termTurn_virtual (hc : Coherent shape w) (h : Standing w done t) (hg : g∈shape)
    (hv : v∈g.2) (hd : v∉done) (hmaster : g.1∉done) :
    ∃ u,termTurn w env v t=.ok () u ∧ Turned w done v t u := by
  obtain ⟨n,hn,hf,ho,hh⟩ := hc.topology.virtual g hg v hv
  obtain ⟨m,hm,hmf,hmo,hchain⟩ := hc.topology.master g hg
  have hne : v≠g.1 := (hc.topology.master_ne_virtual hg hg hv).symm
  have hvirtual := nodeIsVirtual_of_flags hf
  have hflags : termFlags w v=eventFlags w v := by rw [termFlags,nodeAt_of_some hn,if_pos hvirtual]
  refine termTurn_of_free hc h hn hd
    (fun s hs => hflags ▸ hs.flags_virtual hc.topology hg hv hd) ?_
  intro s u hs hcl
  have hself : u.nodes v=some {n with virtualHead := headAfter w done v, link := none} := by
    rw [hcl.nodes,Function.update_self]
  have hkept : ∀ x,x≠v → u.nodes x=s.nodes x := fun x hx => by
    rw [hcl.nodes,Function.update_of_ne hx]
  have hlist : Removable u v (headAfter w done g.1) := by
    rw [headAfter]
    split
    · exact .inl rfl
    · next hnone =>
      rw [nodeAt_of_some hm]
      refine .inr ⟨g.2,hchain.congr fun a ha => ?_,hv,hcl.nextNode ▸ hc.topology.virtuals_length hg⟩
      obtain ⟨b,hb,-,hbo,-⟩ := hc.topology.virtual g hg a ha
      have had : a∉done := fun had => hnone ⟨a,had,by rw [nodeAt_of_some hb,hbo]⟩
      rcases eq_or_ne a v with rfl|hav
      · rw [nodeNext,nodeNext,hself,hn]
        rfl
      · rw [nodeNext,nodeNext,hkept a hav,hs.nodes_some hb had,hb]
        rfl
  obtain ⟨errno,symlinks,hrun⟩ := serialFreeNode_virtual (env v) hself
    (headAfter_virtual hc.topology hg hv) hvirtual ho
    ((hkept _ hne.symm).trans (hs.nodes_some hm hmaster)) hne hlist
  refine ⟨_,hrun,hcl.standing hs hn ?_ rfl rfl rfl rfl,rfl,rfl⟩
  dsimp only
  rw [nodesAfter_virtual hn ho hm hmaster hne.symm,hcl.nodes,hs.nodes,
    Function.update_comm hne,Function.update_idem]

/-- The turn of a master whose virtuals are freed. -/
theorem termTurn_master (hc : Coherent shape w) (h : Standing w done t) (hg : g∈shape)
    (hd : g.1∉done) (hall : ∀ v∈g.2,v∈done) :
    ∃ u,termTurn w env g.1 t=.ok () u ∧ Turned w done g.1 t u := by
  obtain ⟨m,hm,hf,ho,-⟩ := hc.topology.master g hg
  have hmaster := not_nodeIsVirtual_of_flags hf
  have hflags : termFlags w g.1=aeReadable := by
    rw [termFlags,nodeAt_of_some hm,hmaster,if_neg Bool.false_ne_true]
  refine termTurn_of_free hc h hm hd
    (fun s hs => hflags ▸ hs.flags_master hc.topology hg hd hall) ?_
  intro s u hs hcl
  have hself : u.nodes g.1=some {m with virtualHead := headAfter w done g.1, link := none} := by
    rw [hcl.nodes,Function.update_self]
  have hrun := serialFreeNode_master (env g.1) hself
    (headAfter_master hc.topology hg hall) hmaster
  refine ⟨_,hrun,hcl.standing hs hm ?_ rfl rfl rfl rfl,rfl,rfl⟩
  dsimp only
  rw [nodesAfter_master hm ho,hcl.nodes,hs.nodes,Function.update_idem]

end Turns

section Loops

variable {w t : World} {shape : Shape} {done todo rest : List NodePtr} {node : NodePtr}
variable {env : NodePtr → Option Errno} {g : NodePtr×List NodePtr} {head : Option NodePtr}
variable {bound : ℕ}

theorem mem_termOrder : node∈termOrder shape ↔ shape.Mem node := by
  simp only [termOrder,List.mem_flatMap,List.mem_append,List.mem_singleton,Shape.Mem]
  exact exists_congr fun g => and_congr_right fun _ => or_comm

theorem termOrder_perm (shape : Shape) :
    (termOrder shape).Perm (shape.flatMap fun g => g.1::g.2) := by
  induction shape with
  | nil => exact .nil
  | cons g shape ih =>
    rw [termOrder,List.flatMap_cons,List.flatMap_cons]
    exact (List.perm_append_singleton g.1 g.2).append ih

/-- No node is freed twice. -/
theorem termOrder_nodup (ht : Topology w shape) : (termOrder shape).Nodup :=
  (termOrder_perm shape).nodup_iff.mpr ht.nodes_nodup

/-- A virtual is freed before its master, and a master behind all of its virtuals. -/
theorem termOrder_split (ht : Topology w shape) (h : termOrder shape=done++node::todo) :
    node∉done ∧ ∃ g∈shape,(node∈g.2 ∧ g.1∉done) ∨ (node=g.1 ∧ ∀ v∈g.2,v∈done) := by
  have hn := termOrder_nodup ht
  rw [h] at hn
  refine ⟨fun hm => List.disjoint_of_nodup_append hn hm List.mem_cons_self,?_⟩
  obtain ⟨g,hg,hnode⟩ := mem_termOrder.mp (h ▸ List.mem_append_right _ List.mem_cons_self :
    node∈termOrder shape)
  obtain ⟨before,after,rfl⟩ := List.append_of_mem hg
  have horder : termOrder (before++g::after)=termOrder before++g.2++g.1::termOrder after := by
    simp [termOrder]
  refine ⟨g,hg,?_⟩
  rcases hnode with rfl|hv
  · obtain rfl := front_unique hn (h.symm.trans horder)
    exact .inr ⟨rfl,fun v hv => List.mem_append_right _ hv⟩
  · obtain ⟨front,back,hvs⟩ := List.append_of_mem hv
    have hsplit : termOrder (before++g::after)=
        (termOrder before++front)++node::(back++g.1::termOrder after) := by
      rw [horder,hvs]
      simp
    obtain rfl := front_unique hn (h.symm.trans hsplit)
    rw [h.symm.trans hsplit] at hn
    refine .inl ⟨hv,fun hm => List.disjoint_of_nodup_append hn hm ?_⟩
    exact List.mem_cons_of_mem _ (List.mem_append_right _ List.mem_cons_self)

/-- Every turn returns. -/
theorem termTurn_spec (hc : Coherent shape w) (h : Standing w done t)
    (hsplit : termOrder shape=done++node::todo) :
    ∃ u,termTurn w env node t=.ok () u ∧ Turned w done node t u := by
  obtain ⟨hd,g,hg,⟨hv,hmaster⟩|⟨rfl,hall⟩⟩ := termOrder_split hc.topology hsplit
  · exact termTurn_virtual hc h hg hv hd hmaster
  · exact termTurn_master hc h hg hd hall

/-- The turns in the order of the lists all return. -/
theorem termTurns_spec (hc : Coherent shape w) (h : Standing w done t)
    (hsplit : termOrder shape=done++(todo++rest)) : ∃ u,termTurns w env todo t=.ok () u ∧
      Standing w (done++todo) u ∧ u.trace=t.trace++todo.flatMap (termCalls w) := by
  induction todo generalizing done t with
  | nil => exact ⟨t,rfl,by rwa [List.append_nil],by simp⟩
  | cons node todo ih =>
    obtain ⟨s,hturn,hs⟩ : ∃ s,termTurn w env node t=.ok () s ∧ Turned w done node t s :=
      termTurn_spec hc h hsplit
    obtain ⟨u,hrun,hu,htrace⟩ := ih hs.standing (by simpa using hsplit)
    refine ⟨u,?_,by simpa using hu,?_⟩
    · rw [termTurns,List.forM_eq_forM,List.forM_cons,bind_of_ok hturn]
      exact hrun
    · rw [htrace,hs.trace,List.flatMap_cons,List.append_assoc]

/-- A node that is left links to the node it linked to. -/
theorem Standing.next (h : Standing w done t) {rest : Option NodePtr}
    (hn : nodeNext w node=some rest) (hd : node∉done) :
    ∃ n,t.nodes node=some n ∧ n.next=rest := by
  obtain ⟨n,hnode,hnext⟩ := Option.map_eq_some_iff.mp hn
  exact ⟨_,h.nodes_some hnode hd,hnext⟩

/-- The inner loop of `serialTerm` takes the turns of the virtuals of a master. -/
theorem termVirtuals_eq (hc : Coherent shape w) (hg : g∈shape) (h : Standing w done t)
    (hsub : ∀ v∈todo,v∈g.2) (hsplit : termOrder shape=done++(todo++rest))
    (hchain : Chain (nodeNext w) head todo) (hb : todo.length≤bound) :
    termVirtuals env bound head t=termTurns w env todo t := by
  induction todo generalizing done t head bound with
  | nil =>
    rw [show head=none from hchain]
    cases bound <;> rfl
  | cons v todo ih =>
    obtain ⟨rfl,next,hn,hchain⟩ := hchain
    obtain ⟨bound,rfl⟩ : ∃ k,bound=k+1 := ⟨bound-1,by simp at hb; omega⟩
    obtain ⟨n,hnode,hnext⟩ := h.next hn (termOrder_split hc.topology hsplit).1
    obtain ⟨u,hu,hf,-⟩ := hc.topology.virtual g hg v (hsub v List.mem_cons_self)
    obtain ⟨s,hturn,hs⟩ : ∃ s,termTurn w env v t=.ok () s ∧ Turned w done v t s :=
      termTurn_spec hc h hsplit
    have hnode' : termNode "Closing virtual: ".toList v (env v) t=.ok () s := by
      rw [← hturn,termTurn,nodeAt_of_some hu,termText,if_pos (nodeIsVirtual_of_flags hf)]
    rw [termVirtuals,bind_of_ok (derefNode_of_some hnode),bind_of_ok hnode',hnext,termTurns,
      List.forM_eq_forM,List.forM_cons,bind_of_ok hturn]
    exact ih hs.standing (fun x hx => hsub x (List.mem_cons_of_mem _ hx)) (by simpa using hsplit)
      hchain (by simpa using hb)

/-- A node that points back to a master is one of its virtuals. -/
theorem mem_of_virtualof (ht : Topology w shape) (hg : g∈shape)
    (h : (nodeAt w node).virtualof=some g.1) : node∈g.2 := by
  cases hn : w.nodes node with
  | none => simp [nodeAt,hn,newNode] at h
  | some n =>
    rw [nodeAt_of_some hn] at h
    obtain ⟨g',hg',rfl|hv⟩ := ht.covered node n hn
    · obtain ⟨m,hm,-,ho,-⟩ := ht.master g' hg'
      rw [hn,Option.some.injEq] at hm
      rw [hm,ho] at h
      exact absurd h (by simp)
    · obtain ⟨u,hu,-,ho,-⟩ := ht.virtual g' hg' node hv
      rw [hn,Option.some.injEq] at hu
      rw [hu,ho,Option.some.injEq] at h
      exact ht.eq_of_master hg' hg h ▸ hv

/-- The outer loop of `serialTerm` takes the turns of all nodes. -/
theorem termMasters_eq (hc : Coherent shape w) {groups : Shape} (h : Standing w done t)
    (hsub : ∀ g∈groups,g∈shape) (hsplit : termOrder shape=done++termOrder groups)
    (hchain : Chain (nodeNext w) head (groups.map Prod.fst)) (hb : groups.length≤bound) :
    termMasters env bound head t=termTurns w env (termOrder groups) t := by
  induction groups generalizing done t head bound with
  | nil =>
    rw [show head=none from hchain]
    cases bound <;> rfl
  | cons g groups ih =>
    obtain ⟨rfl,next,hn,hchain⟩ := hchain
    obtain ⟨bound,rfl⟩ : ∃ k,bound=k+1 := ⟨bound-1,by simp at hb; omega⟩
    have hg : g∈shape := hsub g List.mem_cons_self
    have horder : termOrder (g::groups)=g.2++g.1::termOrder groups := by simp [termOrder]
    rw [horder] at hsplit ⊢
    have hmid : termOrder shape=(done++g.2)++g.1::termOrder groups := by rw [hsplit]; simp
    have hgd := (termOrder_split hc.topology hmid).1
    have hnone : ¬ ∃ v∈done,(nodeAt w v).virtualof=some g.1 := by
      rintro ⟨v,hvd,hof⟩
      have hv := mem_of_virtualof hc.topology hg hof
      refine List.disjoint_of_nodup_append (hsplit ▸ termOrder_nodup hc.topology) hvd ?_
      exact List.mem_append_left _ hv
    obtain ⟨m,hm,hf,-,hvirtuals⟩ := hc.topology.master g hg
    have hleft := h.nodes_some hm fun hmem => hgd (List.mem_append_left _ hmem)
    rw [headAfter,if_neg hnone,nodeAt_of_some hm] at hleft
    have hloop : termVirtuals env t.nextNode m.virtualHead t=termTurns w env g.2 t :=
      termVirtuals_eq hc hg h (fun v hv => hv) hsplit hvirtuals
        (h.nextNode.symm ▸ hc.topology.virtuals_length hg)
    obtain ⟨s,hrun,hs,-⟩ : ∃ s,termTurns w env g.2 t=.ok () s ∧ Standing w (done++g.2) s ∧
        s.trace=t.trace++g.2.flatMap (termCalls w) := termTurns_spec hc h hsplit
    obtain ⟨n,hnode,hnext⟩ := hs.next hn hgd
    obtain ⟨r,hturn,hr⟩ : ∃ r,termTurn w env g.1 s=.ok () r ∧ Turned w (done++g.2) g.1 s r :=
      termTurn_spec hc hs hmid
    have hnode' : termNode "Closing serial: ".toList g.1 (env g.1) s=.ok () r := by
      rw [← hturn,termTurn,nodeAt_of_some hm,termText,not_nodeIsVirtual_of_flags hf,
        if_neg Bool.false_ne_true]
    have hturns : termTurns w env (g.2++g.1::termOrder groups) t=
        termTurns w env (termOrder groups) r := by
      simp only [termTurns,List.forM_eq_forM,List.forM_append,List.forM_cons]
      exact (bind_of_ok hrun _).trans (bind_of_ok hturn _)
    rw [termMasters,bind_of_ok (derefNode_of_some hleft),bind_of_ok (get_apply _),
      bind_of_ok (hloop.trans hrun),bind_of_ok (derefNode_of_some hnode),bind_of_ok hnode',hnext,
      hturns]
    exact ih hr.standing (fun x hx => hsub x (List.mem_cons_of_mem _ hx)) (by simpa using hmid)
      hchain (by simpa using hb)

/-- The teardown takes the turns of all nodes, each master behind its virtuals. -/
theorem serialTerm_eq (hc : Coherent shape w) (env : NodePtr → Option Errno) :
    serialTerm env w=termTurns w env (termOrder shape) w := by
  have hloop : termMasters env w.nextNode w.masterHead w=termTurns w env (termOrder shape) w :=
    termMasters_eq hc (.start w) (fun g hg => hg) rfl hc.topology.masters
      (by simpa using hc.topology.masters_length)
  simpa only [serialTerm,bind_apply,get_apply] using hloop

/-- The teardown of a running daemon returns, with these calls. -/
theorem serialTerm_spec (hc : Coherent shape w) (env : NodePtr → Option Errno) : ∃ u,
    serialTerm env w=.ok () u ∧ Standing w (termOrder shape) u ∧
      u.trace=w.trace++(termOrder shape).flatMap (termCalls w) := by
  rw [serialTerm_eq hc]
  exact termTurns_spec hc (.start w) (List.append_nil _).symm

end Loops

end SerialProxy.Teardown
