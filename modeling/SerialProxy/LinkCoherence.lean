import SerialProxy.LinkEffects

/-!
# Links, nodes and registrations fit together

The invariant of a running daemon: the links held by the nodes are exactly the
live ones, every link owns its descriptors alone, and every registration names
the live link of its descriptor with the events of its node. It survives
changes of receive buffers and the closing of a link.
-/

namespace SerialProxy.LinkCoherence

open FaultPrograms LinkedCells CText SerialState EventTable SerialNodes SerialLinks NodeTopology
open LinkEffects

/-- The descriptors of a link: its own, and the slave side of a pty. -/
def Owns (l : SerialLink) (fd : Fd) : Prop := fd≠-1 ∧ (fd=l.fd ∨ fd=l.sfd)

/-- A registered descriptor is that of a live link, with the events of its node. -/
structure Registered (w : World) (fd : Fd) : Prop where
  /-- It lies in the table. -/
  inTable : fd<w.setsize
  /-- Its client data is a live link with this descriptor. -/
  client : ∃ link l node,(w.events fd).clientData=some link ∧ w.links link=some l ∧ l.fd=fd ∧
    l.node=some node ∧ (w.events fd).mask=eventFlags w node

/-- Links, nodes and registrations of a state fit together. -/
structure Coherent (shape : Shape) (w : World) : Prop where
  /-- The nodes form the tree. -/
  topology : Topology w shape
  /-- A live link is held by a node. -/
  held : ∀ link l,w.links link=some l → ∃ node n,w.nodes node=some n ∧ n.link=some link
  /-- The link of a node is live and points back. -/
  linked : ∀ node n link,w.nodes node=some n → n.link=some link →
    ∃ l,w.links link=some l ∧ l.node=some node
  /-- A live link has a descriptor. -/
  connected : ∀ link l,w.links link=some l → l.fd≠-1
  /-- The two descriptors of a link are different. -/
  sides : ∀ link l,w.links link=some l → l.sfd≠l.fd
  /-- The descriptors of a link are open. -/
  opened : ∀ link l fd,w.links link=some l → Owns l fd → fd∈w.openFds
  /-- No two links share a descriptor. -/
  separate : ∀ link l link' l' fd,w.links link=some l → w.links link'=some l' →
    Owns l fd → Owns l' fd → link=link'
  /-- Registrations are those of live links. -/
  registered : ∀ fd,(w.events fd).mask≠aeNone → Registered w fd
  /-- Links are numbered in the order of allocation. -/
  numbered : ∀ link l,w.links link=some l → link<w.nextLink

namespace Coherent

variable {w : World} {shape : Shape} {link : LinkPtr} {l : SerialLink} {node : NodePtr}
variable {n : SerialNode}

/-- The node a live link points to is live and holds it. -/
theorem node_live (hc : Coherent shape w) (hl : w.links link=some l) :
    ∃ node n,l.node=some node ∧ w.nodes node=some n ∧ n.link=some link := by
  obtain ⟨node,n,hn,hlink⟩ := hc.held link l hl
  obtain ⟨l',hl',hnode⟩ := hc.linked node n link hn hlink
  rw [hl,Option.some.injEq] at hl'
  exact ⟨node,n,hl' ▸ hnode,hn,hlink⟩

theorem node_mem (hc : Coherent shape w) (hl : w.links link=some l) (h : l.node=some node) :
    shape.Mem node := by
  obtain ⟨node',n,hnode,hn,-⟩ := hc.node_live hl
  rw [h,Option.some.injEq] at hnode
  exact hnode ▸ hc.topology.covered node' n hn

/-- The next number of a link is not in use. -/
theorem nextLink_unused (hc : Coherent shape w) : w.links w.nextLink=none := by
  by_contra hne
  obtain ⟨l,hl⟩ := Option.ne_none_iff_exists'.mp hne
  exact absurd (hc.numbered _ l hl) (lt_irrefl _)

/-- Every live link is attached. -/
theorem attached (hc : Coherent shape w) (hl : w.links link=some l) : Attached w link := by
  obtain ⟨node,n,hnode,hn,hlink⟩ := hc.node_live hl
  have he := linkAt_of_some hl
  have ho : nodeOf w link=node := by rw [nodeOf,he,hnode,Option.getD_some]
  exact ⟨he ▸ hl,by rw [he,hnode,ho],by rw [ho,nodeAt_of_some hn,hn],
    by rw [ho,nodeAt_of_some hn,hlink],by rw [he]; exact hc.connected link l hl⟩

/-- The link of a node is attached, to that node. -/
theorem attached_of_node (hc : Coherent shape w) (hn : w.nodes node=some n)
    (hlink : n.link=some link) : Attached w link ∧ nodeOf w link=node := by
  obtain ⟨l,hl,hnode⟩ := hc.linked node n link hn hlink
  exact ⟨hc.attached hl,by rw [nodeOf,linkAt_of_some hl,hnode,Option.getD_some]⟩

end Coherent

/-- A state that differs in the contents of receive buffers, in `errno` and in
the trace only. -/
structure SameExceptBuffers (w w' : World) : Prop where
  /-- Live nodes agree. -/
  nodes : w'.nodes=w.nodes
  /-- The head of the list is the same. -/
  masterHead : w'.masterHead=w.masterHead
  /-- No node was allocated. -/
  nextNode : w'.nextNode=w.nextNode
  /-- Live links agree except for their buffers. -/
  links : ∀ link,(w'.links link).map (fun l => {l with recvbuf := [], recvbuflen := 0})=
    (w.links link).map (fun l => {l with recvbuf := [], recvbuflen := 0})
  /-- No link was allocated. -/
  nextLink : w'.nextLink=w.nextLink
  /-- Registrations agree. -/
  events : w'.events=w.events
  /-- So does the highest descriptor. -/
  maxfd : w'.maxfd=w.maxfd
  /-- The table has its size. -/
  setsize : w'.setsize=w.setsize
  /-- The same descriptors are open. -/
  openFds : w'.openFds=w.openFds
  /-- No call was made on a descriptor. -/
  fdCalls : w'.fdCalls=w.fdCalls

namespace SameExceptBuffers

variable {w w' w'' : World} {link : LinkPtr} {l : SerialLink}

theorem refl (w : World) : SameExceptBuffers w w :=
  ⟨rfl,rfl,rfl,fun _ => rfl,rfl,rfl,rfl,rfl,rfl,rfl⟩

theorem symm (h : SameExceptBuffers w w') : SameExceptBuffers w' w :=
  ⟨h.nodes.symm,h.masterHead.symm,h.nextNode.symm,fun link => (h.links link).symm,
    h.nextLink.symm,h.events.symm,h.maxfd.symm,h.setsize.symm,h.openFds.symm,h.fdCalls.symm⟩

theorem trans (h : SameExceptBuffers w w') (h' : SameExceptBuffers w' w'') :
    SameExceptBuffers w w'' :=
  ⟨h'.nodes.trans h.nodes,h'.masterHead.trans h.masterHead,h'.nextNode.trans h.nextNode,
    fun link => (h'.links link).trans (h.links link),h'.nextLink.trans h.nextLink,
    h'.events.trans h.events,h'.maxfd.trans h.maxfd,h'.setsize.trans h.setsize,
    h'.openFds.trans h.openFds,h'.fdCalls.trans h.fdCalls⟩

theorem devices (h : SameExceptBuffers w w') : SameDevices w w' :=
  ⟨fun node => by rw [h.nodes],h.masterHead,h.nextNode⟩

/-- A live link stays live, and differs in its buffer only. -/
theorem live_link (h : SameExceptBuffers w w') (hl : w.links link=some l) :
    ∃ l',w'.links link=some l' ∧ l'.fd=l.fd ∧ l'.sfd=l.sfd ∧ l'.node=l.node := by
  have he := h.links link
  rw [hl] at he
  cases hl' : w'.links link with
  | none => simp [hl'] at he
  | some l' =>
    rw [hl'] at he
    simp only [Option.map_some,Option.some.injEq,SerialLink.mk.injEq] at he
    exact ⟨l',rfl,he.1,he.2.1,he.2.2.2.2⟩

/-- Recording calls changes no buffer. -/
theorem record (w : World) (errno : Errno) (calls : List Call) :
    SameExceptBuffers w (record w errno calls) :=
  ⟨rfl,rfl,rfl,fun _ => rfl,rfl,rfl,rfl,rfl,rfl,rfl⟩

/-- Changing the buffer of a live link. -/
theorem update (hl : w.links link=some l) (buf : List UInt8) (len : ℕ) :
    SameExceptBuffers w {w with
      links := Function.update w.links link (some {l with recvbuf := buf, recvbuflen := len})} := by
  refine ⟨rfl,rfl,rfl,fun link' => ?_,rfl,rfl,rfl,rfl,rfl,rfl⟩
  rcases eq_or_ne link' link with rfl|hne
  · simp [hl]
  · simp [hne]

/-- Coherence does not depend on what the buffers hold. -/
theorem coherent {shape : Shape} (h : SameExceptBuffers w w') (hc : Coherent shape w) :
    Coherent shape w' where
  topology := h.devices.topology hc.topology
  held := by
    intro link l hl
    obtain ⟨l₀,hl₀,-⟩ := h.symm.live_link hl
    rw [h.nodes]
    exact hc.held link l₀ hl₀
  linked := by
    intro node n link hn hlink
    rw [h.nodes] at hn
    obtain ⟨l₀,hl₀,hnode⟩ := hc.linked node n link hn hlink
    obtain ⟨l,hl,-,-,he⟩ := h.live_link hl₀
    exact ⟨l,hl,he.trans hnode⟩
  connected := by
    intro link l hl
    obtain ⟨l₀,hl₀,hf,-⟩ := h.symm.live_link hl
    rw [← hf]
    exact hc.connected link l₀ hl₀
  sides := by
    intro link l hl
    obtain ⟨l₀,hl₀,hf,hs,-⟩ := h.symm.live_link hl
    rw [← hf,← hs]
    exact hc.sides link l₀ hl₀
  opened := by
    intro link l fd hl ho
    obtain ⟨l₀,hl₀,hf,hs,-⟩ := h.symm.live_link hl
    rw [Owns,← hf,← hs] at ho
    rw [h.openFds]
    exact hc.opened link l₀ fd hl₀ ho
  separate := by
    intro link l link' l' fd hl hl' ho ho'
    obtain ⟨l₀,hl₀,hf,hs,-⟩ := h.symm.live_link hl
    obtain ⟨l₁,hl₁,hf',hs',-⟩ := h.symm.live_link hl'
    rw [Owns,← hf,← hs] at ho
    rw [Owns,← hf',← hs'] at ho'
    exact hc.separate link l₀ link' l₁ fd hl₀ hl₁ ho ho'
  registered := by
    intro fd hm
    rw [h.events] at hm
    obtain ⟨hlt,link,l₀,node,hd,hl₀,hf,hn,hmask⟩ := hc.registered fd hm
    obtain ⟨l,hl,hf',-,hn'⟩ := h.live_link hl₀
    have hnode : shape.Mem node := hc.node_mem hl₀ hn
    refine ⟨by rw [h.setsize]; exact hlt,link,l,node,by rw [h.events]; exact hd,hl,
      hf'.trans hf,hn'.trans hn,?_⟩
    rw [h.events,hmask,eventFlags_congr hc.topology h.devices hnode]
  numbered := by
    intro link l hl
    obtain ⟨l₀,hl₀,-⟩ := h.symm.live_link hl
    rw [h.nextLink]
    exact hc.numbered link l₀ hl₀

end SameExceptBuffers

section Closing

variable {w : World} {shape : Shape} {link other : LinkPtr} {fd : Fd}

/-- Closing a link changes no device. -/
theorem SameDevices.close (ha : Attached w link) : SameDevices w (close w link) := by
  refine ⟨fun node => ?_,rfl,rfl⟩
  change (Function.update w.nodes (nodeOf w link) _ node).map _=_
  rcases eq_or_ne node (nodeOf w link) with rfl|hne
  · simp [ha.nodeLive]
  · simp [hne]

/-- A link of its own descriptor owns it. -/
theorem owns_fd (ha : Attached w link) : Owns (linkAt w link) (linkAt w link).fd := ⟨ha.fd,.inl rfl⟩

/-- The registration of the descriptor of an attached link is its own. -/
theorem Coherent.registered_fd (hc : Coherent shape w) (ha : Attached w link)
    (hm : (w.events (linkAt w link).fd).mask≠aeNone) :
    (linkAt w link).fd<w.setsize ∧ w.events (linkAt w link).fd=⟨eventFlags w (nodeOf w link),some link⟩ := by
  obtain ⟨hlt,p,l,node,hd,hl,hf,hn,hmask⟩ := hc.registered _ hm
  have hp : p=link := hc.separate p l link _ (linkAt w link).fd hl ha.live
    ⟨ha.fd,.inl hf.symm⟩ (owns_fd ha)
  subst hp
  rw [ha.live,Option.some.injEq] at hl
  subst hl
  rw [ha.node,Option.some.injEq] at hn
  subst hn
  exact ⟨hlt,by rw [← hmask,← hd]⟩

/-- After the closing nothing is registered for its descriptor. -/
theorem Coherent.close_events_self (hc : Coherent shape w) (ha : Attached w link) :
    ((close w link).events (linkAt w link).fd).mask=aeNone := by
  refine deleteFileEvent_mask fun hm => ?_
  obtain ⟨hlt,he⟩ := hc.registered_fd ha hm
  exact ⟨hlt,by rw [he]⟩

theorem close_events_of_ne (h : fd≠(linkAt w link).fd) :
    (close w link).events fd=w.events fd :=
  deleteFileEvent_events_of_ne _ h

theorem close_links_self (w : World) (link : LinkPtr) : (close w link).links link=none :=
  Function.update_self _ _ _

theorem close_links_of_ne (h : other≠link) : (close w link).links other=w.links other :=
  Function.update_of_ne h _ _

theorem close_nodes_of_ne {node : NodePtr} (h : node≠nodeOf w link) :
    (close w link).nodes node=w.nodes node :=
  Function.update_of_ne h _ _

/-- A link that is live after a closing was live before, and is another one. -/
theorem close_links_some {l : SerialLink} (h : (close w link).links other=some l) :
    other≠link ∧ w.links other=some l := by
  rcases eq_or_ne other link with rfl|hne
  · rw [close_links_self] at h
    exact absurd h (by simp)
  · exact ⟨hne,close_links_of_ne hne ▸ h⟩

/-- Another link keeps its descriptors open. -/
theorem mem_remainingFds {l : SerialLink} {fds : Finset Fd} (h : fd∈fds) (hn : ¬ Owns l fd)
    (hfd : fd≠-1) : fd∈remainingFds fds l := by
  have h1 : fd≠l.fd := fun he => hn ⟨hfd,.inl he⟩
  have h2 : fd≠l.sfd := fun he => hn ⟨hfd,.inr he⟩
  unfold remainingFds
  split <;> simp [h,h1,h2]

/-- Closing an attached link keeps everything else together. -/
theorem Coherent.close (hc : Coherent shape w) (ha : Attached w link) :
    Coherent shape (close w link) where
  topology := (SameDevices.close ha).topology hc.topology
  held := by
    intro other l hl
    obtain ⟨hne,hl⟩ := close_links_some hl
    obtain ⟨node,n,hn,hlink⟩ := hc.held other l hl
    have hnode : node≠nodeOf w link := by
      rintro rfl
      rw [ha.nodeLive,Option.some.injEq] at hn
      rw [← hn,ha.back,Option.some.injEq] at hlink
      exact hne hlink.symm
    exact ⟨node,n,by rw [close_nodes_of_ne hnode,hn],hlink⟩
  linked := by
    intro node n other hn hlink
    rcases eq_or_ne node (nodeOf w link) with rfl|hnode
    · have he : (LinkEffects.close w link).nodes (nodeOf w link)=_ := Function.update_self _ _ _
      rw [he,Option.some.injEq] at hn
      rw [← hn] at hlink
      exact absurd hlink (by simp)
    · rw [close_nodes_of_ne hnode] at hn
      obtain ⟨l,hl,hback⟩ := hc.linked node n other hn hlink
      refine ⟨l,?_,hback⟩
      rw [close_links_of_ne,hl]
      rintro rfl
      rw [ha.live,Option.some.injEq] at hl
      rw [← hl,ha.node,Option.some.injEq] at hback
      exact hnode hback.symm
  connected := fun other l hl => hc.connected other l (close_links_some hl).2
  sides := fun other l hl => hc.sides other l (close_links_some hl).2
  opened := by
    intro other l fd hl ho
    obtain ⟨hne,hl⟩ := close_links_some hl
    refine mem_remainingFds (hc.opened other l fd hl ho) (fun h => hne ?_) ho.1
    exact hc.separate other l link _ fd hl ha.live ho h
  separate := fun other l other' l' fd hl hl' =>
    hc.separate other l other' l' fd (close_links_some hl).2 (close_links_some hl').2
  registered := by
    intro fd hm
    have hne : fd≠(linkAt w link).fd := by
      rintro rfl
      exact hm (hc.close_events_self ha)
    rw [close_events_of_ne hne] at hm
    obtain ⟨hlt,other,l,node,hd,hl,hf,hn,hmask⟩ := hc.registered fd hm
    have ho : other≠link := by
      rintro rfl
      rw [ha.live,Option.some.injEq] at hl
      exact hne (hl ▸ hf.symm)
    refine ⟨hlt,other,l,node,?_,by rw [close_links_of_ne ho,hl],hf,hn,?_⟩
    · rw [close_events_of_ne hne,hd]
    · rw [close_events_of_ne hne,hmask,
        eventFlags_congr hc.topology (SameDevices.close ha) (hc.node_mem hl hn)]
  numbered := fun other l hl => hc.numbered other l (close_links_some hl).2

end Closing

end SerialProxy.LinkCoherence
