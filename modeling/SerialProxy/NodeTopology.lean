import SerialProxy.SerialLinks

/-!
# The device tree in the heap

The masters form one chain from the head of the list, and the virtuals of
each master one chain from that master. The tree is described by the list of
its masters, each with the list of its virtuals. A run of the event loop only
changes the links of the nodes, so that the tree and everything computed from
it stay the same.
-/

namespace SerialProxy.NodeTopology

open FaultPrograms LinkedCells CText SerialState EventTable SerialNodes SerialLinks

/-- The masters of the list, each with its list of virtuals. -/
abbrev Shape := List (NodePtr×List NodePtr)

/-- The link to the next node of each live node. -/
def nodeNext (w : World) (node : NodePtr) : Option (Option NodePtr) :=
  (w.nodes node).map SerialNode.next

/-- The node at an address, or an empty one. -/
def nodeAt (w : World) (node : NodePtr) : SerialNode := (w.nodes node).getD (newNode [] 0)

/-- The node at a live address. -/
theorem nodeAt_of_some {w : World} {node : NodePtr} {n : SerialNode} (h : w.nodes node=some n) :
    nodeAt w node=n := by
  rw [nodeAt,h,Option.getD_some]

/-- Only a live node has a link. -/
theorem node_of_link {w : World} {node : NodePtr} {link : LinkPtr}
    (h : (nodeAt w node).link=some link) : ∃ n,w.nodes node=some n ∧ n.link=some link := by
  cases hn : w.nodes node with
  | none => simp [nodeAt,hn,newNode] at h
  | some n => exact ⟨n,rfl,by rwa [nodeAt_of_some hn] at h⟩

/-- A live node of the tree is a master of the list or one of its virtuals. -/
def Shape.Mem (shape : Shape) (node : NodePtr) : Prop := ∃ g∈shape,node=g.1 ∨ node∈g.2

/-- The tree of a heap. -/
structure Topology (w : World) (shape : Shape) : Prop where
  /-- The masters are chained from the head of the list. -/
  masters : Chain (nodeNext w) w.masterHead (shape.map Prod.fst)
  /-- Each of them is a master, with its virtuals chained from it. -/
  master : ∀ g∈shape,∃ m,w.nodes g.1=some m ∧ m.flags=serialFlagMaster ∧ m.virtualof=none ∧
    Chain (nodeNext w) m.virtualHead g.2
  /-- A virtual points back to its master and has no virtuals. -/
  virtual : ∀ g∈shape,∀ v∈g.2,∃ n,w.nodes v=some n ∧
    (n.flags=serialFlagVirtual ∨ n.flags=serialFlagVirtual ||| serialFlagWriter) ∧
    n.virtualof=some g.1 ∧ n.virtualHead=none
  /-- No other node is live. -/
  covered : ∀ node n,w.nodes node=some n → shape.Mem node
  /-- Nodes are numbered in the order of allocation. -/
  numbered : ∀ node n,w.nodes node=some n → node<w.nextNode

section Flags

variable {n : SerialNode}

/-- The flags of a master. -/
theorem nodeIsMaster_of_flags (h : n.flags=serialFlagMaster) : nodeIsMaster n=true := by
  rw [nodeIsMaster,h]; decide

/-- A master is no virtual. -/
theorem not_nodeIsVirtual_of_flags (h : n.flags=serialFlagMaster) : nodeIsVirtual n=false := by
  rw [nodeIsVirtual,h]; decide

/-- A virtual, writer or not, is no master. -/
theorem not_nodeIsMaster_of_flags
    (h : n.flags=serialFlagVirtual ∨ n.flags=serialFlagVirtual ||| serialFlagWriter) :
    nodeIsMaster n=false := by
  rcases h with h|h <;> rw [nodeIsMaster,h] <;> decide

/-- It is a virtual. -/
theorem nodeIsVirtual_of_flags
    (h : n.flags=serialFlagVirtual ∨ n.flags=serialFlagVirtual ||| serialFlagWriter) :
    nodeIsVirtual n=true := by
  rcases h with h|h <;> rw [nodeIsVirtual,h] <;> decide

end Flags

/-- Two states with the same devices: every node is the same up to its link. -/
structure SameDevices (w w' : World) : Prop where
  /-- Live nodes agree except for their links. -/
  nodes : ∀ node,(w'.nodes node).map (fun n => {n with link := none})=
    (w.nodes node).map (fun n => {n with link := none})
  /-- The head of the list is the same. -/
  masterHead : w'.masterHead=w.masterHead
  /-- No node was allocated. -/
  nextNode : w'.nextNode=w.nextNode

namespace SameDevices

variable {w w' w'' : World}

/-- The devices are those they are. -/
theorem refl (w : World) : SameDevices w w := ⟨fun _ => rfl,rfl,rfl⟩

/-- They may be compared the other way. -/
theorem symm (h : SameDevices w w') : SameDevices w' w :=
  ⟨fun node => (h.nodes node).symm,h.masterHead.symm,h.nextNode.symm⟩

/-- They may be compared over a state between. -/
theorem trans (h : SameDevices w w') (h' : SameDevices w' w'') : SameDevices w w'' :=
  ⟨fun node => (h'.nodes node).trans (h.nodes node),h'.masterHead.trans h.masterHead,
    h'.nextNode.trans h.nextNode⟩

/-- A live node stays live, and differs in its link only. -/
theorem node (h : SameDevices w w') {node : NodePtr} {n : SerialNode} (hn : w.nodes node=some n) :
    ∃ link,w'.nodes node=some {n with link := link} := by
  have he := h.nodes node
  rw [hn] at he
  cases hn' : w'.nodes node with
  | none => simp [hn'] at he
  | some n' =>
    rw [hn'] at he
    simp only [Option.map_some,Option.some.injEq,SerialNode.mk.injEq] at he
    refine ⟨n'.link,?_⟩
    cases n'; cases n
    simp_all

/-- Everything but the link of a node, on dead addresses too. -/
theorem nodeAt (h : SameDevices w w') (node : NodePtr) :
    {nodeAt w' node with link := none}={nodeAt w node with link := none} := by
  have he := h.nodes node
  unfold NodeTopology.nodeAt
  cases hn : w.nodes node <;> cases hn' : w'.nodes node <;> simp_all

/-- The lists link the same nodes. -/
theorem nodeNext (h : SameDevices w w') : nodeNext w'=nodeNext w := by
  funext node
  have he := congrArg (Option.map SerialNode.next) (h.nodes node)
  simpa only [Option.map_map,Function.comp_def,NodeTopology.nodeNext] using he

/-- The tree is that of any state with the same devices. -/
theorem topology (h : SameDevices w w') {shape : Shape} (ht : Topology w shape) :
    Topology w' shape where
  masters := by
    rw [h.nodeNext,h.masterHead]
    exact ht.masters
  master := by
    intro g hg
    obtain ⟨m,hm,hf,hv,hc⟩ := ht.master g hg
    obtain ⟨link,hm'⟩ := h.node hm
    exact ⟨_,hm',hf,hv,by rw [h.nodeNext]; exact hc⟩
  virtual := by
    intro g hg v hv
    obtain ⟨n,hn,hf,ho,hh⟩ := ht.virtual g hg v hv
    obtain ⟨link,hn'⟩ := h.node hn
    exact ⟨_,hn',hf,ho,hh⟩
  covered := by
    intro node n hn
    obtain ⟨link,hn'⟩ := h.symm.node hn
    exact ht.covered node _ hn'
  numbered := by
    intro node n hn
    obtain ⟨link,hn'⟩ := h.symm.node hn
    rw [h.nextNode]
    exact ht.numbered node _ hn'

end SameDevices

namespace Topology

variable {w : World} {shape : Shape} {g g' : NodePtr×List NodePtr} {node v : NodePtr}

/-- A node of the topology is live. -/
theorem live_of_mem (ht : Topology w shape) (h : shape.Mem node) : ∃ n,w.nodes node=some n := by
  obtain ⟨g,hg,rfl|hv⟩ := h
  · obtain ⟨m,hm,-⟩ := ht.master g hg
    exact ⟨m,hm⟩
  · obtain ⟨n,hn,-⟩ := ht.virtual g hg node hv
    exact ⟨n,hn⟩

/-- Its number has been given out. -/
theorem lt_of_mem (ht : Topology w shape) (h : shape.Mem node) : node<w.nextNode := by
  obtain ⟨n,hn⟩ := ht.live_of_mem h
  exact ht.numbered node n hn

/-- The walk over the masters fits the bound of the walks. -/
theorem masters_length (ht : Topology w shape) : (shape.map Prod.fst).length≤w.nextNode := by
  refine ht.masters.length_le fun node hn => ?_
  obtain ⟨g,hg,rfl⟩ := List.mem_map.mp hn
  exact ht.lt_of_mem ⟨g,hg,.inl rfl⟩

/-- The walk over the virtuals of a master fits the bound of the walks. -/
theorem virtuals_length (ht : Topology w shape) (hg : g∈shape) : g.2.length≤w.nextNode := by
  obtain ⟨m,-,-,-,hc⟩ := ht.master g hg
  exact hc.length_le fun v hv => ht.lt_of_mem ⟨g,hg,.inr hv⟩

/-- No master is listed twice. -/
theorem masters_nodup (ht : Topology w shape) : (shape.map Prod.fst).Nodup := ht.masters.nodup

/-- Neither is a virtual. -/
theorem virtuals_nodup (ht : Topology w shape) (hg : g∈shape) : g.2.Nodup := by
  obtain ⟨m,-,-,-,hc⟩ := ht.master g hg
  exact hc.nodup

/-- A master determines its entry of the shape. -/
theorem eq_of_master (ht : Topology w shape) (hg : g∈shape) (hg' : g'∈shape) (h : g.1=g'.1) :
    g=g' :=
  List.inj_on_of_nodup_map ht.masters_nodup hg hg' h

/-- A virtual belongs to one master only. -/
theorem eq_of_virtual (ht : Topology w shape) (hg : g∈shape) (hg' : g'∈shape) (hv : v∈g.2)
    (hv' : v∈g'.2) : g=g' := by
  obtain ⟨n,hn,-,ho,-⟩ := ht.virtual g hg v hv
  obtain ⟨n',hn',-,ho',-⟩ := ht.virtual g' hg' v hv'
  rw [hn,Option.some.injEq] at hn'
  subst hn'
  exact ht.eq_of_master hg hg' (Option.some.inj (ho.symm.trans ho'))

/-- No node is both a master and a virtual. -/
theorem master_ne_virtual (ht : Topology w shape) (hg : g∈shape) (hg' : g'∈shape) (hv : v∈g'.2) :
    g.1≠v := by
  rintro rfl
  obtain ⟨m,hm,hf,-⟩ := ht.master g hg
  obtain ⟨n,hn,hf',-⟩ := ht.virtual g' hg' _ hv
  rw [hm,Option.some.injEq] at hn
  subst hn
  have h0 := not_nodeIsMaster_of_flags hf'
  rw [nodeIsMaster_of_flags hf] at h0
  exact Bool.noConfusion h0

/-- A node with the flag of a virtual is among the virtuals of a master. -/
theorem owner_of_virtual (ht : Topology w shape) (hm : shape.Mem node)
    (h : nodeIsVirtual (nodeAt w node)=true) : ∃ g∈shape,node∈g.2 := by
  obtain ⟨g,hg,rfl|hv⟩ := hm
  · obtain ⟨m,hm,hf,-⟩ := ht.master g hg
    rw [nodeAt_of_some hm,not_nodeIsVirtual_of_flags hf] at h
    exact Bool.noConfusion h
  · exact ⟨g,hg,hv⟩

/-- A node with the flag of a master is in the list of the masters. -/
theorem group_of_master (ht : Topology w shape) (hm : shape.Mem node)
    (h : nodeIsMaster (nodeAt w node)=true) : ∃ g∈shape,g.1=node := by
  obtain ⟨g,hg,rfl|hv⟩ := hm
  · exact ⟨g,hg,rfl⟩
  · obtain ⟨n,hn,hf,-⟩ := ht.virtual g hg node hv
    rw [nodeAt_of_some hn,not_nodeIsMaster_of_flags hf] at h
    exact Bool.noConfusion h

/-- The nodes of the tree, each master before its virtuals, are all different. -/
theorem nodes_nodup (ht : Topology w shape) : (shape.flatMap fun g => g.1::g.2).Nodup := by
  refine List.nodup_flatMap.mpr ⟨fun g hg => ?_,?_⟩
  · exact List.nodup_cons.mpr ⟨fun hm => ht.master_ne_virtual hg hg hm rfl,ht.virtuals_nodup hg⟩
  · have hpair : shape.Pairwise fun g g' => g.1≠g'.1 := List.pairwise_map.mp ht.masters_nodup
    refine hpair.imp_of_mem fun {g g'} hg hg' hne => ?_
    intro x hx hx'
    rcases List.mem_cons.mp hx with hm|hv <;> rcases List.mem_cons.mp hx' with hm'|hv'
    · exact hne (hm.symm.trans hm')
    · exact ht.master_ne_virtual hg hg' hv' hm.symm
    · exact ht.master_ne_virtual hg' hg hv hm'.symm
    · exact hne (congrArg Prod.fst (ht.eq_of_virtual hg hg' hv hv'))

end Topology

section Walks

variable {w : World} {shape : Shape} {g : NodePtr×List NodePtr} {v : NodePtr} {n : SerialNode}

/-- A live node can be read. -/
theorem derefNode_of_some {node : NodePtr} (h : w.nodes node=some n) :
    derefNode node w=.ok n w := by
  simp [derefNode,h]

/-- It can be written. -/
theorem modifyNode_of_some {w : World} {node : NodePtr} {n : SerialNode}
    (h : w.nodes node=some n) (f : SerialNode → SerialNode) :
    modifyNode node f w=.ok () {w with nodes := Function.update w.nodes node (some (f n))} := by
  simp [modifyNode,derefNode_of_some h]

/-- A search over a chain of live nodes is the search over its list. -/
theorem findNode_chain {head : Option NodePtr} {cells : List NodePtr} (test : SerialNode → Bool)
    (hc : Chain (nodeNext w) head cells) (hb : cells.length≤w.nextNode) :
    findNode test head w=.ok (cells.find? fun v => test (nodeAt w v)) w := by
  have hlive : ∀ a∈cells,derefNode a w=.ok (nodeAt w a) w := by
    intro a ha
    obtain ⟨rest,hr⟩ := hc.allocated ha
    cases hn : w.nodes a with
    | none => simp [nodeNext,hn] at hr
    | some n => rw [derefNode_of_some hn,nodeAt_of_some hn]
  simp only [findNode,bind_apply,get_apply]
  refine scan_chain hlive (hc.congr fun a ha => ?_) hb
  obtain ⟨rest,hr⟩ := hc.allocated ha
  cases hn : w.nodes a with
  | none => simp [nodeNext,hn] at hr
  | some n => simp [nodeNext,hn,nodeAt]

/-- A visit of a chain of live nodes handles them in order, while the devices
stay those of the start. -/
theorem visitNodes_rule {head : Option NodePtr} {cells : List NodePtr} {E : Fault → World → Prop}
    (body : NodePtr → Prog Unit) (I : List NodePtr → World → Prop)
    (hdev : ∀ done t,I done t → SameDevices w t)
    (hbody : ∀ done a todo,cells=done++a::todo →
      Ensures (I done) (body a) (fun _ => I (done++[a])) E)
    (hc : Chain (nodeNext w) head cells) (hb : cells.length≤w.nextNode) :
    Ensures (I []) (visitNodes body head) (fun _ => I cells) E := by
  intro s hs
  simp only [visitNodes,bind_apply,get_apply]
  refine visit_rule (fun a => (nodeAt w a).next) I ?_ hbody (hc.congr fun a ha => ?_) ?_ s hs
  · intro done t ht a ha
    obtain ⟨rest,hr⟩ := hc.allocated ha
    cases hn : w.nodes a with
    | none => simp [nodeNext,hn] at hr
    | some n =>
      obtain ⟨link,hn'⟩ := (hdev done t ht).node hn
      exact ⟨_,derefNode_of_some hn',by rw [nodeAt_of_some hn]⟩
  · obtain ⟨rest,hr⟩ := hc.allocated ha
    cases hn : w.nodes a with
    | none => simp [nodeNext,hn] at hr
    | some n => simp [nodeNext,hn,nodeAt]
  · rw [(hdev [] s hs).nextNode]
    exact hb

/-- A walk over the masters of the tree handles them in order, each with its
virtuals at hand. -/
theorem visitMasters_rule {E : Fault → World → Prop} (body : NodePtr → Prog Unit)
    (ht : Topology w shape) (I : Shape → World → Prop)
    (hdev : ∀ done t,I done t → SameDevices w t)
    (hbody : ∀ done g todo,shape=done++g::todo →
      Ensures (I done) (body g.1) (fun _ => I (done++[g])) E) :
    Ensures (I []) (visitNodes body w.masterHead) (fun _ => I shape) E := by
  have hall : shape.take (shape.map Prod.fst).length=shape := by simp
  have hrule := visitNodes_rule (E:=E) body (fun done => I (shape.take done.length))
    (fun done => hdev _) ?_ ht.masters ht.masters_length
  · rwa [hall] at hrule
  · intro done a todo hsplit
    have hlt : done.length<shape.length := by
      have := congrArg List.length hsplit
      simp at this
      omega
    have hcut : shape=shape.take done.length++shape[done.length]::shape.drop (done.length+1) := by
      rw [← List.drop_eq_getElem_cons hlt,List.take_append_drop]
    have ha : shape[done.length].1=a := by
      have hget : (shape.map Prod.fst)[done.length]?=some a := by
        rw [hsplit,List.getElem?_append_right le_rfl]
        simp
      rw [List.getElem?_map,List.getElem?_eq_getElem hlt] at hget
      exact Option.some.inj hget
    have hstep := hbody _ _ _ hcut
    rw [ha,← List.take_succ_eq_append_getElem hlt] at hstep
    simpa using hstep

/-- The first virtual of a list with the writer flag. -/
def writerOf (w : World) (virtuals : List NodePtr) : Option NodePtr :=
  virtuals.find? fun v => nodeIsWriter (nodeAt w v)

/-- The writer of some virtuals depends on the devices only. -/
theorem writerOf_congr {w' : World} (h : SameDevices w w') (virtuals : List NodePtr) :
    writerOf w' virtuals=writerOf w virtuals := by
  have hf : (fun v => nodeIsWriter (nodeAt w' v))=fun v => nodeIsWriter (nodeAt w v) := by
    funext v
    have he := congrArg SerialNode.flags (h.nodeAt v)
    simp only at he
    rw [nodeIsWriter,nodeIsWriter,he]
  rw [writerOf,writerOf,hf]

/-- The first writer is a virtual of the list and has the flag. -/
theorem writerOf_some {virtuals : List NodePtr} (h : writerOf w virtuals=some v) :
    v∈virtuals ∧ nodeIsWriter (nodeAt w v)=true :=
  ⟨List.mem_of_find?_eq_some h,by simpa using List.find?_some h⟩

/-- The search finds the first writer of the virtuals. -/
theorem serialGetVirtualWriterNode_apply (ht : Topology w shape) (hg : g∈shape) :
    serialGetVirtualWriterNode g.1 w=.ok (writerOf w g.2) w := by
  obtain ⟨m,hm,-,-,hc⟩ := ht.master g hg
  simp only [serialGetVirtualWriterNode,bind_apply,derefNode_of_some hm]
  exact findNode_chain _ hc (ht.virtuals_length hg)

/-- The lookup of a path returns the first master that has it. -/
theorem serialGetNode_apply (ht : Topology w shape) (nodename : CString) :
    serialGetNode nodename w=
      .ok ((shape.map Prod.fst).find? fun v => (nodeAt w v).name=nodename) w := by
  simp only [serialGetNode,bind_apply,get_apply]
  exact findNode_chain _ ht.masters ht.masters_length

/-- What `_serialEventFlags` returns in a state. -/
def eventFlags (w : World) (node : NodePtr) : EventMask :=
  match serialEventFlags node w with
  | .ok flags _ => flags
  | .error _ _ => aeNone

/-- A master is registered for reading, and for writing when it has a writer. -/
theorem serialEventFlags_master (ht : Topology w shape) (hg : g∈shape) :
    serialEventFlags g.1 w=
      .ok (if (writerOf w g.2).isSome then aeReadable ||| aeWritable else aeReadable) w := by
  obtain ⟨m,hm,hf,-⟩ := ht.master g hg
  simp only [serialEventFlags,bind_apply,derefNode_of_some hm,nodeIsMaster_of_flags hf,if_true,
    serialGetVirtualWriterNode_apply ht hg,pure_apply]

/-- A virtual is registered for writing, and for reading when it is a writer. -/
theorem serialEventFlags_virtual (ht : Topology w shape) (hg : g∈shape) (hv : v∈g.2) :
    serialEventFlags v w=
      .ok (if nodeIsWriter (nodeAt w v) then aeWritable ||| aeReadable else aeWritable) w := by
  obtain ⟨n,hn,hf,-⟩ := ht.virtual g hg v hv
  simp only [serialEventFlags,bind_apply,derefNode_of_some hn,not_nodeIsMaster_of_flags hf,
    nodeIsVirtual_of_flags hf,if_true,Bool.false_eq_true,if_false,nodeAt_of_some hn,pure_apply]

/-- A master is read, and written when it has a writer. -/
theorem eventFlags_master (ht : Topology w shape) (hg : g∈shape) :
    eventFlags w g.1=
      if (writerOf w g.2).isSome then aeReadable ||| aeWritable else aeReadable := by
  rw [eventFlags,serialEventFlags_master ht hg]

/-- A virtual is written, and read when it is the writer. -/
theorem eventFlags_virtual (ht : Topology w shape) (hg : g∈shape) (hv : v∈g.2) :
    eventFlags w v=
      if nodeIsWriter (nodeAt w v) then aeWritable ||| aeReadable else aeWritable := by
  rw [eventFlags,serialEventFlags_virtual ht hg hv]

/-- The event flags of a node of the tree are computed without effect. -/
theorem serialEventFlags_apply (ht : Topology w shape) {node : NodePtr} (h : shape.Mem node) :
    serialEventFlags node w=.ok (eventFlags w node) w := by
  obtain ⟨g,hg,rfl|hv⟩ := h
  · rw [eventFlags_master ht hg,serialEventFlags_master ht hg]
  · rw [eventFlags_virtual ht hg hv,serialEventFlags_virtual ht hg hv]

/-- The event flags depend on the devices only. -/
theorem eventFlags_congr (ht : Topology w shape) {w' : World} (hs : SameDevices w w')
    {node : NodePtr} (h : shape.Mem node) : eventFlags w' node=eventFlags w node := by
  obtain ⟨g,hg,rfl|hv⟩ := h
  · rw [eventFlags_master ht hg,eventFlags_master (hs.topology ht) hg,writerOf_congr hs]
  · have he := congrArg SerialNode.flags (hs.nodeAt node)
    simp only at he
    rw [eventFlags_virtual ht hg hv,eventFlags_virtual (hs.topology ht) hg hv,
      nodeIsWriter,nodeIsWriter,he]

/-- A node of the tree is always registered for something. -/
theorem eventFlags_ne_none (ht : Topology w shape) {node : NodePtr} (h : shape.Mem node) :
    eventFlags w node≠aeNone := by
  obtain ⟨g,hg,rfl|hv⟩ := h
  · rw [eventFlags_master ht hg]
    split <;> decide
  · rw [eventFlags_virtual ht hg hv]
    split <;> decide

end Walks

end SerialProxy.NodeTopology
