import SerialProxy.DeviceConfig
import SerialProxy.NodeTopology
import Mathlib.Data.List.TakeWhile

/-!
# The loader builds the described tree

The heap after any list of entries represents the device tree of those
entries: the masters and virtuals are chained in the order of the tree, and
nothing outside the node lists has changed. When the entries describe no tree
the loader ends the process.
-/

namespace SerialProxy.ConfigLoading

open FaultPrograms LinkedCells CText SerialState EventTable SerialNodes SerialLinks
open SerialConfig DeviceConfig NodeTopology

/-- A node is the virtual it should be. -/
def DescribesVirtual (w : World) (v : NodePtr) (d : VirtualDevice) : Prop :=
  (nodeAt w v).name=d.name ∧ nodeIsWriter (nodeAt w v)=d.writer

/-- A node with its chain of virtuals is the master it should be. -/
def Describes (w : World) (g : NodePtr×List NodePtr) (d : MasterDevice) : Prop :=
  (nodeAt w g.1).name=d.name ∧ (nodeAt w g.1).baudrate=d.baudrate ∧
    List.Forall₂ (DescribesVirtual w) g.2 d.virtuals

/-- A heap without links represents a device tree. -/
structure Represents (w : World) (shape : Shape) (tree : DeviceTree) : Prop where
  /-- The nodes form a tree of this shape. -/
  topology : Topology w shape
  /-- They are the devices of the tree, in order. -/
  described : List.Forall₂ (Describes w) shape tree
  /-- No node has a link yet. -/
  unlinked : ∀ node n,w.nodes node=some n → n.link=none
  /-- The virtuals of a master have different names. -/
  distinct : ∀ d∈tree,(d.virtuals.map VirtualDevice.name).Nodup

/-- Loading touches the node lists only. -/
structure SameOutside (w w' : World) : Prop where
  /-- Links are the same. -/
  links : w'.links=w.links
  /-- No link was allocated. -/
  nextLink : w'.nextLink=w.nextLink
  /-- Registrations agree. -/
  events : w'.events=w.events
  /-- So does the highest descriptor. -/
  maxfd : w'.maxfd=w.maxfd
  /-- The table has its size. -/
  setsize : w'.setsize=w.setsize
  /-- The same descriptors are open. -/
  openFds : w'.openFds=w.openFds
  /-- No call was made on a descriptor. -/
  fdCalls : w'.fdCalls=w.fdCalls
  /-- Nothing left the program. -/
  trace : w'.trace=w.trace

theorem SameOutside.refl (w : World) : SameOutside w w := ⟨rfl,rfl,rfl,rfl,rfl,rfl,rfl,rfl⟩

theorem SameOutside.trans {w w' w'' : World} (h : SameOutside w w') (h' : SameOutside w' w'') :
    SameOutside w w'' :=
  ⟨h'.links.trans h.links,h'.nextLink.trans h.nextLink,h'.events.trans h.events,
    h'.maxfd.trans h.maxfd,h'.setsize.trans h.setsize,h'.openFds.trans h.openFds,
    h'.fdCalls.trans h.fdCalls,h'.trace.trans h.trace⟩

section Tree

variable {w w' : World} {shape before after : Shape} {g g' : NodePtr×List NodePtr}
variable {node : NodePtr} {n n' m : SerialNode}

/-- The world after a node is overwritten. -/
def setNode (w : World) (node : NodePtr) (n : SerialNode) : World :=
  {w with nodes := Function.update w.nodes node (some n)}

theorem setNode_self (w : World) (node : NodePtr) (n : SerialNode) :
    (setNode w node n).nodes node=some n := Function.update_self _ _ _

theorem setNode_of_ne {other : NodePtr} (h : other≠node) (w : World) (n : SerialNode) :
    (setNode w node n).nodes other=w.nodes other := Function.update_of_ne h _ _

/-- Overwriting a node without moving it keeps every link to a next node. -/
theorem setNode_nodeNext (hn : w.nodes node=some n) (hnext : n'.next=n.next) :
    nodeNext (setNode w node n')=nodeNext w := by
  funext other
  rcases eq_or_ne other node with rfl|hne
  · rw [nodeNext,nodeNext,setNode_self,hn,Option.map_some,Option.map_some,hnext]
  · rw [nodeNext,nodeNext,setNode_of_ne hne]

/-- Overwriting the name, the speed or the writer flag of a node keeps the tree. -/
theorem topology_setNode (ht : Topology w shape) (hn : w.nodes node=some n)
    (hnext : n'.next=n.next) (hhead : n'.virtualHead=n.virtualHead)
    (hof : n'.virtualof=n.virtualof)
    (hflags : n'.flags=n.flags ∨
      nodeIsVirtual n=true ∧ n'.flags=serialFlagVirtual ||| serialFlagWriter) :
    Topology (setNode w node n') shape where
  masters := by
    rw [setNode_nodeNext hn hnext]
    exact ht.masters
  master := by
    intro g hg
    obtain ⟨m,hm,hf,ho,hc⟩ := ht.master g hg
    rw [setNode_nodeNext hn hnext]
    rcases eq_or_ne g.1 node with he|hne
    · rw [he,hn,Option.some.injEq] at hm
      subst hm
      refine ⟨n',by rw [he,setNode_self],?_,hof.trans ho,by rw [hhead]; exact hc⟩
      rcases hflags with hsame|⟨hv,-⟩
      · exact hsame.trans hf
      · rw [not_nodeIsVirtual_of_flags hf] at hv
        exact absurd hv (by simp)
    · exact ⟨m,by rw [setNode_of_ne hne,hm],hf,ho,hc⟩
  virtual := by
    intro g hg v hv
    obtain ⟨u,hu,hf,ho,hh⟩ := ht.virtual g hg v hv
    rcases eq_or_ne v node with rfl|hne
    · rw [hn,Option.some.injEq] at hu
      subst hu
      refine ⟨n',setNode_self _ _ _,?_,hof.trans ho,hhead.trans hh⟩
      rcases hflags with hsame|⟨-,hw⟩
      · rw [hsame]
        exact hf
      · exact .inr hw
    · exact ⟨u,by rw [setNode_of_ne hne,hu],hf,ho,hh⟩
  covered := by
    intro other u hu
    rcases eq_or_ne other node with rfl|hne
    · exact ht.covered other n hn
    · rw [setNode_of_ne hne] at hu
      exact ht.covered other u hu
  numbered := by
    intro other u hu
    rcases eq_or_ne other node with rfl|hne
    · exact ht.numbered other n hn
    · rw [setNode_of_ne hne] at hu
      exact ht.numbered other u hu

/-- A chain of old nodes does not depend on nodes allocated later. -/
theorem chain_of_old {head : Option NodePtr} {cells : List NodePtr}
    (hc : Chain (nodeNext w) head cells) (hb : ∀ a∈cells,a<w.nextNode)
    (hsame : ∀ a,a<w.nextNode → nodeNext w' a=nodeNext w a) :
    Chain (nodeNext w') head cells :=
  hc.congr fun a ha => hsame a (hb a ha)

theorem masters_lt (ht : Topology w shape) : ∀ a∈shape.map Prod.fst,a<w.nextNode := by
  intro a ha
  obtain ⟨g,hg,rfl⟩ := List.mem_map.mp ha
  exact ht.lt_of_mem ⟨g,hg,.inl rfl⟩

theorem virtuals_lt (ht : Topology w shape) (hg : g∈shape) : ∀ v∈g.2,v<w.nextNode :=
  fun _ hv => ht.lt_of_mem ⟨g,hg,.inr hv⟩

/-- A new master goes in front of the list. -/
theorem topology_addMaster (ht : Topology w shape) (hf : n.flags=serialFlagMaster)
    (ho : n.virtualof=none) (hh : n.virtualHead=none) (hnext : n.next=w.masterHead)
    (hw : w'.nodes=Function.update w.nodes w.nextNode (some n)) (hhead : w'.masterHead=some w.nextNode)
    (hnum : w'.nextNode=w.nextNode+1) : Topology w' ((w.nextNode,[])::shape) := by
  have hold : ∀ a,a<w.nextNode → w'.nodes a=w.nodes a := fun a ha => by
    rw [hw,Function.update_of_ne (Nat.ne_of_lt ha)]
  have hself : w'.nodes w.nextNode=some n := by rw [hw,Function.update_self]
  have hchain : ∀ a,a<w.nextNode → nodeNext w' a=nodeNext w a := fun a ha => by
    rw [nodeNext,nodeNext,hold a ha]
  refine ⟨?masters,?master,?virtual,?covered,?numbered⟩
  case masters =>
    rw [hhead]
    have hfirst : nodeNext w' w.nextNode=some w.masterHead := by
      rw [nodeNext,hself,Option.map_some,hnext]
    refine .cons hfirst ?_
    exact chain_of_old ht.masters (masters_lt ht) hchain
  case master =>
    intro g hg
    rcases List.mem_cons.mp hg with rfl|hg
    · exact ⟨n,hself,hf,ho,by rw [hh]; exact .nil⟩
    · obtain ⟨m,hm,hmf,hmo,hmc⟩ := ht.master g hg
      exact ⟨m,by rw [hold _ (ht.lt_of_mem ⟨g,hg,.inl rfl⟩),hm],hmf,hmo,
        chain_of_old hmc (virtuals_lt ht hg) hchain⟩
  case virtual =>
    intro g hg v hv
    rcases List.mem_cons.mp hg with rfl|hg
    · exact absurd hv (by simp)
    · obtain ⟨u,hu,h⟩ := ht.virtual g hg v hv
      exact ⟨u,by rw [hold _ (virtuals_lt ht hg v hv),hu],h⟩
  case covered =>
    intro node u hu
    rcases eq_or_ne node w.nextNode with rfl|hne
    · exact ⟨_,List.mem_cons_self,.inl rfl⟩
    · rw [hw,Function.update_of_ne hne] at hu
      obtain ⟨g,hg,h⟩ := ht.covered node u hu
      exact ⟨g,List.mem_cons_of_mem _ hg,h⟩
  case numbered =>
    intro node u hu
    rw [hnum]
    rcases eq_or_ne node w.nextNode with rfl|hne
    · exact Nat.lt_succ_self _
    · rw [hw,Function.update_of_ne hne] at hu
      exact (ht.numbered node u hu).trans (Nat.lt_succ_self _)

/-- The masters in front of one and behind it are others. -/
theorem other_of_mem (ht : Topology w (before++g::after)) {x : NodePtr×List NodePtr}
    (hx : x∈before ∨ x∈after) : x∈before++g::after ∧ x≠g := by
  have hnd := ht.masters_nodup
  rw [List.map_append,List.map_cons,List.nodup_append] at hnd
  rcases hx with hx|hx
  · refine ⟨List.mem_append_left _ hx,fun h => ?_⟩
    exact hnd.2.2 x.1 (List.mem_map_of_mem hx) g.1 List.mem_cons_self (by rw [h])
  · refine ⟨List.mem_append_right _ (List.mem_cons_of_mem _ hx),fun h => ?_⟩
    exact (List.nodup_cons.mp hnd.2.1).1 (h ▸ List.mem_map_of_mem hx)

/-- A master of a list in which one was replaced is the new one, or another one than the old. -/
theorem mem_of_replaced (ht : Topology w (before++g::after))
    {x g' : NodePtr×List NodePtr} (hx : x∈before++g'::after) :
    x=g' ∨ x∈before++g::after ∧ x≠g := by
  rcases List.mem_append.mp hx with hx|hx
  · exact .inr (other_of_mem ht (.inl hx))
  · rcases List.mem_cons.mp hx with rfl|hx
    · exact .inl rfl
    · exact .inr (other_of_mem ht (.inr hx))

/-- A new virtual goes in front of the virtuals of its master. -/
theorem topology_addVirtual (ht : Topology w (before++g::after)) (hm : w.nodes g.1=some m)
    (hf : n.flags=serialFlagVirtual) (ho : n.virtualof=some g.1) (hh : n.virtualHead=none)
    (hnext : n.next=m.virtualHead)
    (hw : w'.nodes=Function.update (Function.update w.nodes w.nextNode (some n)) g.1
      (some {m with virtualHead := some w.nextNode}))
    (hhead : w'.masterHead=w.masterHead) (hnum : w'.nextNode=w.nextNode+1) :
    Topology w' (before++(g.1,w.nextNode::g.2)::after) := by
  have hg : g∈before++g::after := by simp
  have hlt := ht.lt_of_mem ⟨g,hg,.inl rfl⟩
  have hne : w.nextNode≠g.1 := fun h => absurd (h ▸ hlt) (Nat.lt_irrefl _)
  have hself : w'.nodes w.nextNode=some n := by
    rw [hw,Function.update_of_ne hne,Function.update_self]
  have hmaster : w'.nodes g.1=some {m with virtualHead := some w.nextNode} := by
    rw [hw,Function.update_self]
  have hold : ∀ a,a<w.nextNode → a≠g.1 → w'.nodes a=w.nodes a := fun a ha hag => by
    rw [hw,Function.update_of_ne hag,Function.update_of_ne (Nat.ne_of_lt ha)]
  have hchain : ∀ a,a<w.nextNode → nodeNext w' a=nodeNext w a := fun a ha => by
    rcases eq_or_ne a g.1 with rfl|hag
    · rw [nodeNext,nodeNext,hmaster,hm]
      rfl
    · rw [nodeNext,nodeNext,hold a ha hag]
  have hshape : (before++(g.1,w.nextNode::g.2)::after).map Prod.fst=
      (before++g::after).map Prod.fst := by simp
  refine ⟨?masters,?master,?virtual,?covered,?numbered⟩
  case masters =>
    rw [hhead,hshape]
    exact chain_of_old ht.masters (masters_lt ht) hchain
  case master =>
    intro x hx
    rcases mem_of_replaced ht hx with rfl|⟨hx,hxg⟩
    · obtain ⟨m',hm',hmf,hmo,hmc⟩ := ht.master g hg
      rw [hm,Option.some.injEq] at hm'
      subst hm'
      have hfirst : nodeNext w' w.nextNode=some m.virtualHead := by
        rw [nodeNext,hself,Option.map_some,hnext]
      exact ⟨_,hmaster,hmf,hmo,
        .cons hfirst (chain_of_old hmc (virtuals_lt ht hg) hchain)⟩
    · obtain ⟨m',hm',hmf,hmo,hmc⟩ := ht.master x hx
      have hxne : x.1≠g.1 := fun h => hxg (ht.eq_of_master hx hg h)
      exact ⟨m',by rw [hold _ (ht.lt_of_mem ⟨x,hx,.inl rfl⟩) hxne,hm'],hmf,hmo,
        chain_of_old hmc (virtuals_lt ht hx) hchain⟩
  case virtual =>
    intro x hx v hv
    have hkeep : ∀ y∈before++g::after,v∈y.2 → ∃ n,w'.nodes v=some n ∧
        (n.flags=serialFlagVirtual ∨ n.flags=serialFlagVirtual ||| serialFlagWriter) ∧
        n.virtualof=some y.1 ∧ n.virtualHead=none := by
      intro y hy hvy
      obtain ⟨u,hu,h⟩ := ht.virtual y hy v hvy
      have hvg : v≠g.1 := (ht.master_ne_virtual hg hy hvy).symm
      exact ⟨u,by rw [hold _ (virtuals_lt ht hy v hvy) hvg,hu],h⟩
    rcases mem_of_replaced ht hx with rfl|⟨hx,-⟩
    · rcases List.mem_cons.mp hv with rfl|hv
      · exact ⟨n,hself,.inl hf,ho,hh⟩
      · exact hkeep g hg hv
    · exact hkeep x hx hv
  case covered =>
    intro node u hu
    rcases eq_or_ne node w.nextNode with rfl|hnew
    · exact ⟨_,List.mem_append_right _ List.mem_cons_self,.inr List.mem_cons_self⟩
    · have hlive : ∃ u',w.nodes node=some u' := by
        rcases eq_or_ne node g.1 with rfl|hag
        · exact ⟨m,hm⟩
        · rw [hw,Function.update_of_ne hag,Function.update_of_ne hnew] at hu
          exact ⟨u,hu⟩
      obtain ⟨u',hu'⟩ := hlive
      obtain ⟨y,hy,h⟩ := ht.covered node u' hu'
      rcases List.mem_append.mp hy with hy|hy
      · exact ⟨y,List.mem_append_left _ hy,h⟩
      · rcases List.mem_cons.mp hy with rfl|hy
        · exact ⟨_,List.mem_append_right _ List.mem_cons_self,h.imp id (List.mem_cons_of_mem _)⟩
        · exact ⟨y,List.mem_append_right _ (List.mem_cons_of_mem _ hy),h⟩
  case numbered =>
    intro node u hu
    rw [hnum]
    rcases eq_or_ne node w.nextNode with rfl|hnew
    · exact Nat.lt_succ_self _
    · rcases eq_or_ne node g.1 with rfl|hag
      · exact hlt.trans (Nat.lt_succ_self _)
      · rw [hw,Function.update_of_ne hag,Function.update_of_ne hnew] at hu
        exact (ht.numbered node u hu).trans (Nat.lt_succ_self _)

end Tree

/-- The node of a new virtual. -/
def virtualNode (name : CString) (master : NodePtr) (next : Option NodePtr) : SerialNode :=
  {newNode name serialFlagVirtual with next := next, virtualof := some master}

/-- A new virtual is no writer. -/
theorem virtualNode_writer (name : CString) (master : NodePtr) (next : Option NodePtr) :
    nodeIsWriter (virtualNode name master next)=false := by
  change decide (serialFlagVirtual &&& serialFlagWriter≠0)=false
  decide

/-- The world with a new node in front of the virtuals of a master. -/
def withVirtual (w : World) (master : NodePtr) (m n : SerialNode) : World :=
  {w with
    nodes := Function.update (Function.update w.nodes w.nextNode (some n)) master
      (some {m with virtualHead := some w.nextNode})
    nextNode := w.nextNode+1}

section WithVirtual

variable {w : World} {master node : NodePtr} {m : SerialNode}

theorem withVirtual_master (w : World) (master : NodePtr) (m n : SerialNode) :
    (withVirtual w master m n).nodes master=some {m with virtualHead := some w.nextNode} :=
  Function.update_self _ _ _

theorem withVirtual_self (hne : w.nextNode≠master) (n : SerialNode) :
    (withVirtual w master m n).nodes w.nextNode=some n :=
  (Function.update_of_ne hne _ _).trans (Function.update_self _ _ _)

theorem withVirtual_of_ne (hm : node≠master) (hn : node≠w.nextNode) (n : SerialNode) :
    (withVirtual w master m n).nodes node=w.nodes node :=
  (Function.update_of_ne hm _ _).trans (Function.update_of_ne hn _ _)

end WithVirtual

/-- The node of a new master. -/
def masterNode (name : CString) (next : Option NodePtr) : SerialNode :=
  {newNode name serialFlagMaster with next := next}

/-- The world with a new node in front of the masters. -/
def withMaster (w : World) (n : SerialNode) : World :=
  {w with
    nodes := Function.update w.nodes w.nextNode (some n)
    nextNode := w.nextNode+1
    masterHead := some w.nextNode}

/-- A represented tree with one of its masters in focus. -/
structure Focus (w : World) (before : Shape) (g : NodePtr×List NodePtr) (after : Shape)
    (tb : DeviceTree) (d : MasterDevice) (ta : DeviceTree) : Prop where
  /-- The nodes form a tree. -/
  topology : Topology w (before++g::after)
  /-- The masters before it are described. -/
  before : List.Forall₂ (Describes w) before tb
  /-- The master in focus is described. -/
  master : Describes w g d
  /-- The masters after it are described. -/
  after : List.Forall₂ (Describes w) after ta
  /-- No node has a link yet. -/
  unlinked : ∀ node n,w.nodes node=some n → n.link=none
  /-- The virtuals of a master have different names. -/
  distinct : ∀ d'∈tb++d::ta,(d'.virtuals.map VirtualDevice.name).Nodup

section Focus

variable {w w' : World} {before after : Shape} {g g' : NodePtr×List NodePtr}
variable {tb ta : DeviceTree} {d d' : MasterDevice}

theorem Focus.represents (h : Focus w before g after tb d ta) :
    Represents w (before++g::after) (tb++d::ta) :=
  ⟨h.topology,List.rel_append h.before (.cons h.master h.after),h.unlinked,h.distinct⟩

theorem Describes.congr (h : Describes w g d)
    (hsame : ∀ node,node=g.1 ∨ node∈g.2 → w'.nodes node=w.nodes node) : Describes w' g d := by
  obtain ⟨hn,hb,hv⟩ := h
  have hmaster : nodeAt w' g.1=nodeAt w g.1 := by rw [nodeAt,nodeAt,hsame _ (.inl rfl)]
  refine ⟨by rw [hmaster,hn],by rw [hmaster,hb],?_⟩
  have hvs : ∀ v∈g.2,nodeAt w' v=nodeAt w v := fun v hv => by rw [nodeAt,nodeAt,hsame v (.inr hv)]
  refine ((List.forall₂_and_left _ _).mpr ⟨hvs,hv⟩).imp fun v dv hpair => ?_
  obtain ⟨he,hd⟩ := hpair
  exact ⟨by rw [he]; exact hd.1,by rw [he]; exact hd.2⟩

/-- The other masters of the list, and their virtuals, are outside the one in focus. -/
theorem Focus.outside (h : Focus w before g after tb d ta) {x : NodePtr×List NodePtr}
    (hx : x∈before ∨ x∈after) {node : NodePtr} (hm : node=x.1 ∨ node∈x.2) :
    node<w.nextNode ∧ node≠g.1 ∧ node∉g.2 := by
  have hg : g∈before++g::after := by simp
  obtain ⟨hx',hne⟩ := other_of_mem h.topology hx
  refine ⟨h.topology.lt_of_mem ⟨x,hx',hm⟩,?_,?_⟩
  · rcases hm with rfl|hv
    · exact fun he => hne (h.topology.eq_of_master hx' hg he)
    · exact (h.topology.master_ne_virtual hg hx' hv).symm
  · intro hv
    rcases hm with rfl|hv'
    · exact h.topology.master_ne_virtual hx' hg hv rfl
    · exact hne (h.topology.eq_of_virtual hx' hg hv' hv)

/-- A change inside the master in focus leaves the others as they are. -/
theorem Focus.replace (h : Focus w before g after tb d ta)
    (ht : Topology w' (before++g'::after))
    (hsame : ∀ node,node<w.nextNode → node≠g.1 → node∉g.2 → w'.nodes node=w.nodes node)
    (hd : Describes w' g' d') (hu : ∀ node n,w'.nodes node=some n → n.link=none)
    (hn : (d'.virtuals.map VirtualDevice.name).Nodup) : Focus w' before g' after tb d' ta := by
  have hkeep : ∀ xs : Shape,(∀ x∈xs,x∈before ∨ x∈after) → ∀ ds : DeviceTree,
      List.Forall₂ (Describes w) xs ds → List.Forall₂ (Describes w') xs ds := by
    intro xs hxs ds hds
    refine ((List.forall₂_and_left _ _).mpr ⟨hxs,hds⟩).imp fun x dx ⟨hx,hdx⟩ => ?_
    refine hdx.congr fun node hm => ?_
    obtain ⟨hlt,hne,hnv⟩ := h.outside hx hm
    exact hsame node hlt hne hnv
  refine ⟨ht,hkeep _ (fun _ => .inl) _ h.before,hd,hkeep _ (fun _ => .inr) _ h.after,hu,?_⟩
  intro d₀ hd₀
  rcases List.mem_append.mp hd₀ with hm|hm
  · exact h.distinct d₀ (List.mem_append_left _ hm)
  · rcases List.mem_cons.mp hm with rfl|hm
    · exact hn
    · exact h.distinct d₀ (List.mem_append_right _ (List.mem_cons_of_mem _ hm))

theorem Focus.live (h : Focus w before g after tb d ta) : ∃ m,w.nodes g.1=some m ∧
    m.flags=serialFlagMaster ∧ m.virtualof=none ∧ Chain (nodeNext w) m.virtualHead g.2 :=
  h.topology.master g (by simp)

/-- The names of the virtuals of the master in focus. -/
theorem Focus.virtual_names (h : Focus w before g after tb d ta) :
    g.2.map (fun v => (nodeAt w v).name)=d.virtuals.map VirtualDevice.name := by
  have hv := h.master.2.2
  generalize g.2=vs at hv
  generalize d.virtuals=ds at hv
  induction hv with
  | nil => rfl
  | cons hd _ ih => rw [List.map_cons,List.map_cons,hd.1,ih]

/-- The lookup of a virtual by name. -/
theorem Focus.getVirtual (h : Focus w before g after tb d ta) (name : CString) :
    serialGetVirtualNode g.1 name w=
      .ok (g.2.find? fun v => (nodeAt w v).name=name) w := by
  obtain ⟨m,hm,-,-,hc⟩ := h.live
  rw [serialGetVirtualNode,bind_of_ok (derefNode_of_some hm)]
  exact findNode_chain _ hc (h.topology.virtuals_length (by simp))

/-- A lookup that finds nothing. -/
theorem Focus.absent (h : Focus w before g after tb d ta) {name : CString}
    (hfind : (g.2.find? fun v => (nodeAt w v).name=name)=none) : ∀ v∈d.virtuals,v.name≠name := by
  intro v hv he
  have hm : v.name∈g.2.map (fun v => (nodeAt w v).name) :=
    h.virtual_names ▸ List.mem_map_of_mem hv
  obtain ⟨u,hu,hun⟩ := List.mem_map.mp hm
  exact absurd (List.find?_eq_none.mp hfind u hu) (by simpa using hun.trans he)

/-- The key `baudrate`. -/
theorem Focus.setBaudrate (h : Focus w before g after tb d ta) (b : ℤ) : ∃ w',
    modifyNode g.1 (fun n => {n with baudrate := b}) w=.ok () w' ∧ SameOutside w w' ∧
      Focus w' before g after tb {d with baudrate := b} ta := by
  obtain ⟨m,hm,hf,ho,hc⟩ := h.live
  have hother : ∀ node,node≠g.1 →
      (setNode w g.1 {m with baudrate := b}).nodes node=w.nodes node :=
    fun node hne => setNode_of_ne hne w _
  refine ⟨setNode w g.1 {m with baudrate := b},modifyNode_of_some hm _,
    ⟨rfl,rfl,rfl,rfl,rfl,rfl,rfl,rfl⟩,?_⟩
  refine h.replace (topology_setNode h.topology hm rfl rfl rfl (.inl rfl))
    (fun node _ hne _ => hother node hne) ?_ ?_ (h.distinct d (by simp))
  · obtain ⟨hn,-,hv⟩ := h.master
    have hself : nodeAt (setNode w g.1 {m with baudrate := b}) g.1={m with baudrate := b} :=
      nodeAt_of_some (setNode_self _ _ _)
    rw [nodeAt_of_some hm] at hn
    refine ⟨by rw [hself]; exact hn,by rw [hself],?_⟩
    refine ((List.forall₂_and_left _ _).mpr ⟨fun v hv => hv,hv⟩).imp fun v dv ⟨hvm,hd⟩ => ?_
    have hne : v≠g.1 := (h.topology.master_ne_virtual (g:=g) (by simp) (by simp) hvm).symm
    rw [DescribesVirtual,nodeAt,hother v hne]
    exact hd
  · intro node n hn
    rcases eq_or_ne node g.1 with rfl|hne
    · rw [setNode_self,Option.some.injEq] at hn
      rw [← hn]
      exact h.unlinked g.1 m hm
    · rw [hother node hne] at hn
      exact h.unlinked node n hn

/-- Marking a name that no virtual has changes nothing. -/
theorem markWriter_absent {name : CString} (h : ∀ v∈d.virtuals,v.name≠name) :
    d.virtuals.map (markWriter name)=d.virtuals := by
  conv_rhs => rw [← List.map_id d.virtuals]
  exact List.map_congr_left fun v hv => if_neg (h v hv)

/-- Setting the writer flag of the virtual of a name. -/
theorem Focus.markVirtual (h : Focus w before g after tb d ta) {v : NodePtr} {name : CString}
    (hv : v∈g.2) (hname : (nodeAt w v).name=name) : ∃ w',
    modifyNode v (fun n => {n with flags := n.flags ||| serialFlagWriter}) w=.ok () w' ∧
      SameOutside w w' ∧
      Focus w' before g after tb {d with virtuals := d.virtuals.map (markWriter name)} ta := by
  obtain ⟨n,hn,hf,-⟩ := h.topology.virtual g (by simp) v hv
  have hflags : n.flags ||| serialFlagWriter=serialFlagVirtual ||| serialFlagWriter := by
    rcases hf with hf|hf
    · rw [hf]
    · rw [hf]
      decide
  have hvg : v≠g.1 := (h.topology.master_ne_virtual (g:=g) (by simp) (by simp) hv).symm
  have hother : ∀ node,node≠v → (setNode w v
      {n with flags := n.flags ||| serialFlagWriter}).nodes node=w.nodes node :=
    fun node hne => setNode_of_ne hne w _
  refine ⟨setNode w v {n with flags := n.flags ||| serialFlagWriter},modifyNode_of_some hn _,
    ⟨rfl,rfl,rfl,rfl,rfl,rfl,rfl,rfl⟩,?_⟩
  refine h.replace (topology_setNode h.topology hn rfl rfl rfl
    (.inr ⟨nodeIsVirtual_of_flags hf,hflags⟩)) (fun node _ _ hnv => hother node fun he => hnv (he ▸ hv))
    ?_ ?_ ?_
  · obtain ⟨hmn,hmb,hvs⟩ := h.master
    have hmaster : nodeAt (setNode w v {n with flags := n.flags ||| serialFlagWriter}) g.1=
        nodeAt w g.1 := by rw [nodeAt,nodeAt,hother g.1 hvg.symm]
    refine ⟨by rw [hmaster]; exact hmn,by rw [hmaster]; exact hmb,?_⟩
    have hinj : ∀ u∈g.2,(nodeAt w u).name=name → u=v := by
      intro u hu hun
      have hnd := h.distinct d (by simp)
      rw [← h.virtual_names] at hnd
      exact List.inj_on_of_nodup_map hnd hu hv (hun.trans hname.symm)
    rw [List.forall₂_map_right_iff]
    refine ((List.forall₂_and_left _ _).mpr ⟨hinj,hvs⟩).imp fun u du hpair => ?_
    obtain ⟨hu,hd⟩ := hpair
    by_cases hun : du.name=name
    · obtain rfl := hu (hd.1.trans hun)
      rw [markWriter,if_pos hun,DescribesVirtual,nodeAt_of_some (setNode_self _ _ _)]
      refine ⟨?_,?_⟩
      · rw [← hd.1,nodeAt_of_some hn]
      · rw [nodeIsWriter,hflags]
        change decide ((serialFlagVirtual ||| serialFlagWriter) &&& serialFlagWriter≠0)=true
        decide
    · have hne : u≠v := by
        rintro rfl
        exact hun (hd.1.symm.trans hname)
      rw [markWriter,if_neg hun,DescribesVirtual,nodeAt,hother u hne]
      exact hd
  · intro node u hu
    rcases eq_or_ne node v with rfl|hne
    · rw [setNode_self,Option.some.injEq] at hu
      rw [← hu]
      exact h.unlinked node n hn
    · rw [hother node hne] at hu
      exact h.unlinked node u hu
  · rw [markWriter_names]
    exact h.distinct d (by simp)

/-- The key `writer`. -/
theorem Focus.setWriter (h : Focus w before g after tb d ta) {s value name : CString}
    (hfit : serialVirtualName s value pathMax=some name) : ∃ w',
    setWriter s g.1 value w=.ok () w' ∧ SameOutside w w' ∧
      Focus w' before g after tb {d with virtuals := d.virtuals.map (markWriter name)} ta := by
  have hname : virtualNameOrExit s value w=.ok name w := by rw [virtualNameOrExit,hfit]; rfl
  rw [SerialConfig.setWriter,bind_of_ok hname,bind_of_ok (h.getVirtual name)]
  cases hfind : g.2.find? fun v => (nodeAt w v).name=name with
  | none =>
    rw [markWriter_absent (h.absent hfind)]
    exact ⟨w,rfl,.refl w,h⟩
  | some v =>
    exact h.markVirtual (List.mem_of_find?_eq_some hfind) (by simpa using List.find?_some hfind)

/-- Creating a virtual and linking it in front of those of its master. -/
theorem Focus.createVirtual (h : Focus w before g after tb d ta) {m : SerialNode}
    (hm : w.nodes g.1=some m) (name : CString) :
    (do
      let vnode ← serialCreateNode name serialFlagVirtual
      serialAddVirtualNode g.1 vnode : Prog Unit) w=
      .ok () (withVirtual w g.1 m (virtualNode name g.1 m.virtualHead)) := by
  have hne : w.nextNode≠g.1 := fun he =>
    absurd (he ▸ h.topology.lt_of_mem ⟨g,by simp,.inl rfl⟩) (Nat.lt_irrefl _)
  cases hhead : m.virtualHead with
  | none =>
    simp only [serialCreateNode,serialAddVirtualNode,bind_apply,get_apply,modify_apply,pure_apply,
      modifyNode,derefNode,Function.update_of_ne hne.symm,Function.update_of_ne hne,hm,hhead,
      Function.update_self]
    rw [Function.update_comm hne.symm,Function.update_idem]
    rfl
  | some head =>
    simp only [serialCreateNode,serialAddVirtualNode,bind_apply,get_apply,modify_apply,pure_apply,
      modifyNode,derefNode,Function.update_of_ne hne.symm,Function.update_of_ne hne,hm,hhead,
      Function.update_self,Function.update_idem]
    rw [Function.update_comm hne.symm,Function.update_idem]
    rfl

/-- A new virtual is described with its master. -/
theorem Focus.insert (h : Focus w before g after tb d ta) {name : CString}
    (hfit : name.length<pathMax) (hnew : ∀ v∈d.virtuals,v.name≠name) : ∃ w',
    (do
      let vnode ← serialCreateNode name serialFlagVirtual
      serialAddVirtualNode g.1 vnode : Prog Unit) w=.ok () w' ∧ SameOutside w w' ∧
      Focus w' before (g.1,w.nextNode::g.2) after tb
        {d with virtuals := ⟨name,false⟩::d.virtuals} ta := by
  obtain ⟨m,hm,-⟩ := h.live
  have hne : w.nextNode≠g.1 := fun he =>
    absurd (he ▸ h.topology.lt_of_mem ⟨g,by simp,.inl rfl⟩) (Nat.lt_irrefl _)
  have hself := withVirtual_self hne (m:=m) (virtualNode name g.1 m.virtualHead)
  have hother : ∀ node,node≠g.1 → node≠w.nextNode →
      (withVirtual w g.1 m (virtualNode name g.1 m.virtualHead)).nodes node=w.nodes node :=
    fun node hg hn => withVirtual_of_ne hg hn _
  have hmaster := withVirtual_master w g.1 m (virtualNode name g.1 m.virtualHead)
  refine ⟨_,h.createVirtual hm name,⟨rfl,rfl,rfl,rfl,rfl,rfl,rfl,rfl⟩,h.replace
    (topology_addVirtual h.topology hm rfl rfl rfl rfl rfl rfl rfl)
    (fun node hlt hg _ => hother node hg (Nat.ne_of_lt hlt)) ?_ ?_ ?_⟩
  · obtain ⟨hmn,hmb,hvs⟩ := h.master
    rw [nodeAt_of_some hm] at hmn hmb
    refine ⟨by rw [nodeAt_of_some hmaster]; exact hmn,by rw [nodeAt_of_some hmaster]; exact hmb,
      .cons ?_ ?_⟩
    · rw [DescribesVirtual,nodeAt_of_some hself]
      exact ⟨strlcpy_of_lt hfit,virtualNode_writer name g.1 m.virtualHead⟩
    · refine ((List.forall₂_and_left _ _).mpr ⟨fun v hv => hv,hvs⟩).imp fun v dv ⟨hv,hd⟩ => ?_
      have hvg : v≠g.1 := (h.topology.master_ne_virtual (g:=g) (by simp) (by simp) hv).symm
      have hvn : v≠w.nextNode := Nat.ne_of_lt (virtuals_lt h.topology (by simp) v hv)
      rw [DescribesVirtual,nodeAt,hother v hvg hvn]
      exact hd
  · intro node u hu
    rcases eq_or_ne node g.1 with rfl|hg
    · rw [hmaster,Option.some.injEq] at hu
      rw [← hu]
      exact h.unlinked g.1 m hm
    · rcases eq_or_ne node w.nextNode with rfl|hn
      · rw [hself,Option.some.injEq] at hu
        rw [← hu]
        rfl
      · rw [hother node hg hn] at hu
        exact h.unlinked node u hu
  · rw [List.map_cons,List.nodup_cons]
    refine ⟨fun hm => ?_,h.distinct d (by simp)⟩
    obtain ⟨v,hv,he⟩ := List.mem_map.mp hm
    exact hnew v hv he

/-- The name of a token, or the end of the process. -/
theorem virtualNameOrExit_none {s value : CString} (h : serialVirtualName s value pathMax=none)
    (w : World) : ∃ w',virtualNameOrExit s value w=.error (.exit 1) w' := by
  rw [virtualNameOrExit,h]
  exact ⟨_,rfl⟩

theorem virtualNameOrExit_some {s value name : CString}
    (h : serialVirtualName s value pathMax=some name) (w : World) :
    virtualNameOrExit s value w=.ok name w := by
  rw [virtualNameOrExit,h]
  rfl

/-- One token of the key `virtuals`. -/
theorem Focus.addVirtual (h : Focus w before g after tb d ta) {s token : CString}
    (hx : addToken s d token=some d') : ∃ w' vs,addVirtual s g.1 token w=.ok () w' ∧
      SameOutside w w' ∧ Focus w' before (g.1,vs) after tb d' ta := by
  obtain ⟨name,hfit,rfl⟩ := Option.map_eq_some_iff.mp hx
  rw [SerialConfig.addVirtual,bind_of_ok (virtualNameOrExit_some hfit w),
    bind_of_ok (h.getVirtual name)]
  cases hfind : g.2.find? fun v => (nodeAt w v).name=name with
  | none =>
    have hnew : ∀ v∈d.virtuals,v.name≠name := h.absent hfind
    obtain ⟨w',hrun,hs,hf⟩ := h.insert (serialVirtualName_lt hfit) hnew
    have hi : insertVirtual name d={d with virtuals := ⟨name,false⟩::d.virtuals} :=
      if_neg (by simpa using hnew)
    rw [hi]
    exact ⟨w',_,hrun,hs,hf⟩
  | some v =>
    have hi : insertVirtual name d=d := by
      refine if_pos (List.any_eq_true.mpr ?_)
      have hm : (nodeAt w v).name∈d.virtuals.map VirtualDevice.name :=
        h.virtual_names ▸ List.mem_map_of_mem (List.mem_of_find?_eq_some hfind)
      obtain ⟨dv,hdv,he⟩ := List.mem_map.mp hm
      have hv : (nodeAt w v).name=name := by simpa using List.find?_some hfind
      exact ⟨dv,hdv,by simpa using he.trans hv⟩
    rw [hi]
    exact ⟨w,g.2,rfl,.refl w,h⟩

/-- The loop over the tokens of the key `virtuals`. -/
theorem Focus.addVirtuals (h : Focus w before g after tb d ta) {s : CString}
    {tokens : List CString} (hx : tokens.foldlM (addToken s) d=some d') : ∃ w' vs,
    tokens.forM (SerialConfig.addVirtual s g.1) w=.ok () w' ∧ SameOutside w w' ∧
      Focus w' before (g.1,vs) after tb d' ta := by
  obtain ⟨node,vs⟩ := g
  induction tokens generalizing w d vs with
  | nil =>
    rw [List.foldlM_nil,Option.pure_def,Option.some.injEq] at hx
    exact ⟨w,vs,rfl,.refl w,hx ▸ h⟩
  | cons token tokens ih =>
    rw [List.foldlM_cons,Option.bind_eq_bind,Option.bind_eq_some_iff] at hx
    obtain ⟨d₁,hadd,hrest⟩ := hx
    obtain ⟨w₁,vs₁,hr₁,hs₁,hf₁⟩ := h.addVirtual hadd
    obtain ⟨w₂,vs₂,hr₂,hs₂,hf₂⟩ := ih hrest _ hf₁
    refine ⟨w₂,vs₂,?_,hs₁.trans hs₂,hf₂⟩
    rw [List.forM_eq_forM,List.forM_cons,bind_of_ok hr₁]
    exact hr₂

/-- A token whose name does not fit ends the process. -/
theorem Focus.addVirtuals_exit (h : Focus w before g after tb d ta) {s : CString}
    {tokens : List CString} (hx : tokens.foldlM (addToken s) d=none) : ∃ w',
    tokens.forM (SerialConfig.addVirtual s g.1) w=.error (.exit 1) w' := by
  obtain ⟨node,vs⟩ := g
  induction tokens generalizing w d vs with
  | nil => exact absurd hx (by simp)
  | cons token tokens ih =>
    rw [List.foldlM_cons,Option.bind_eq_bind] at hx
    rw [List.forM_eq_forM,List.forM_cons]
    cases hadd : addToken s d token with
    | none =>
      rw [addToken,Option.map_eq_none_iff] at hadd
      obtain ⟨w',hw'⟩ := virtualNameOrExit_none hadd w
      exact ⟨w',bind_of_error (bind_of_error hw' _) _⟩
    | some d₁ =>
      rw [hadd,Option.bind_some] at hx
      obtain ⟨w₁,vs₁,hr₁,-,hf₁⟩ := h.addVirtual hadd
      obtain ⟨w',hw'⟩ := ih hx _ hf₁
      exact ⟨w',by rw [bind_of_ok hr₁]; exact hw'⟩

end Focus

section Sections

variable {w : World} {shape : Shape} {tree tree' : DeviceTree} {s : CString}

/-- The lookup of a master by name stops at the same place in heap and tree. -/
theorem find_section (h : List.Forall₂ (Describes w) shape tree) (s : CString) :
    ((shape.map Prod.fst).find? (fun v => (nodeAt w v).name=s)=none ∧ ∀ d∈tree,d.name≠s) ∨
    ∃ before g after tb d ta,shape=before++g::after ∧ tree=tb++d::ta ∧
      List.Forall₂ (Describes w) before tb ∧ Describes w g d ∧
      List.Forall₂ (Describes w) after ta ∧ (∀ x∈tb,x.name≠s) ∧ d.name=s ∧
      (shape.map Prod.fst).find? (fun v => (nodeAt w v).name=s)=some g.1 := by
  induction h with
  | nil => exact .inl ⟨rfl,by simp⟩
  | @cons g d shape tree hd hall ih =>
    by_cases hn : d.name=s
    · refine .inr ⟨[],g,shape,[],d,tree,rfl,rfl,.nil,hd,hall,by simp,hn,?_⟩
      rw [List.map_cons,List.find?_cons_of_pos (by simpa using hd.1.trans hn)]
    · have hskip : ((g::shape).map Prod.fst).find? (fun v => (nodeAt w v).name=s)=
          (shape.map Prod.fst).find? (fun v => (nodeAt w v).name=s) := by
        rw [List.map_cons,List.find?_cons_of_neg (by simpa [hd.1] using hn)]
      rw [hskip]
      rcases ih with ⟨hf,hne⟩|⟨before,g',after,tb,d',ta,rfl,rfl,hb,hg,ha,hne,hn',hf⟩
      · exact .inl ⟨hf,by simpa using ⟨hn,hne⟩⟩
      · exact .inr ⟨g::before,g',after,d::tb,d',ta,rfl,rfl,.cons hd hb,hg,ha,
          by simpa using ⟨hn,hne⟩,hn',hf⟩

/-- An update of a section that no master has. -/
theorem updateSection_new (f : MasterDevice → Option MasterDevice) (h : ∀ d∈tree,d.name≠s) :
    updateSection s f tree=(f (newMaster s)).map fun d => d::tree := by
  have hdrop : tree.dropWhile (fun d : MasterDevice => d.name≠s)=[] :=
    List.dropWhile_eq_nil_iff.mpr fun d hd => by simpa using h d hd
  rw [updateSection,hdrop]

/-- An update of a section that a master has. -/
theorem updateSection_found (f : MasterDevice → Option MasterDevice) {tb ta : DeviceTree}
    {d : MasterDevice} (hb : ∀ x∈tb,x.name≠s) (hd : d.name=s) :
    updateSection s f (tb++d::ta)=(f d).map fun d' => tb++d'::ta := by
  have hpos : ∀ x∈tb,(decide (x.name≠s))=true := fun x hx => by simpa using hb x hx
  rw [updateSection,List.dropWhile_append_of_pos hpos,List.takeWhile_append_of_pos hpos,
    List.dropWhile_cons_of_neg (by simpa using hd),List.takeWhile_cons_of_neg (by simpa using hd),
    List.append_nil]

/-- Creating a master and linking it in front of the others. -/
theorem createMaster (w : World) (s : CString) :
    (do
      let node ← serialCreateNode s serialFlagMaster
      serialAddNode node
      pure node : Prog NodePtr) w=
      .ok w.nextNode (withMaster w (masterNode s w.masterHead)) := by
  cases hhead : w.masterHead with
  | none =>
    simp only [serialCreateNode,serialAddNode,bind_apply,get_apply,modify_apply,pure_apply,hhead]
    rfl
  | some head =>
    simp only [serialCreateNode,serialAddNode,bind_apply,get_apply,modify_apply,pure_apply,hhead,
      modifyNode,derefNode,Function.update_self,Function.update_idem]
    rfl

/-- A new master is described, and the others still are. -/
theorem Represents.insert (h : Represents w shape tree) (s : CString) :
    Focus (withMaster w (masterNode s w.masterHead)) [] (w.nextNode,[]) shape [] (newMaster s)
      tree := by
  have hself : (withMaster w (masterNode s w.masterHead)).nodes w.nextNode=
      some (masterNode s w.masterHead) := Function.update_self _ _ _
  have hother : ∀ node,node≠w.nextNode →
      (withMaster w (masterNode s w.masterHead)).nodes node=w.nodes node :=
    fun node hne => Function.update_of_ne hne _ _
  refine ⟨topology_addMaster h.topology rfl rfl rfl rfl rfl rfl rfl,.nil,?_,?_,?_,?_⟩
  · rw [Describes,nodeAt_of_some hself]
    exact ⟨rfl,rfl,.nil⟩
  · refine ((List.forall₂_and_left _ _).mpr ⟨fun g hg => hg,h.described⟩).imp fun g d ⟨hg,hd⟩ => ?_
    exact hd.congr fun node hm => hother node (Nat.ne_of_lt (h.topology.lt_of_mem ⟨g,hg,hm⟩))
  · intro node n hn
    rcases eq_or_ne node w.nextNode with rfl|hne
    · rw [hself,Option.some.injEq] at hn
      rw [← hn]
      rfl
    · rw [hother node hne] at hn
      exact h.unlinked node n hn
  · intro d hd
    rcases List.mem_cons.mp hd with rfl|hd
    · exact List.nodup_nil
    · exact h.distinct d hd

/-- The lookup or creation of the master of a section. -/
theorem sectionNode_spec (h : Represents w shape tree) (s : CString) : ∃ w' before g after tb d ta,
    sectionNode s w=.ok g.1 w' ∧ SameOutside w w' ∧ Focus w' before g after tb d ta ∧
      ∀ f,updateSection s f tree=(f d).map fun d' => tb++d'::ta := by
  have hlookup := serialGetNode_apply h.topology s
  rw [sectionNode]
  rcases find_section h.described s with
    ⟨hf,hne⟩|⟨before,g,after,tb,d,ta,rfl,rfl,hb,hg,ha,hne,hn,hf⟩
  · rw [hf] at hlookup
    refine ⟨withMaster w (masterNode s w.masterHead),[],(w.nextNode,[]),shape,[],newMaster s,tree,
      ?_,⟨rfl,rfl,rfl,rfl,rfl,rfl,rfl,rfl⟩,
      h.insert s,fun f => updateSection_new f hne⟩
    rw [bind_of_ok hlookup]
    exact createMaster w s
  · rw [hf] at hlookup
    exact ⟨w,before,g,after,tb,d,ta,by rw [bind_of_ok hlookup]; rfl,.refl w,
      ⟨h.topology,hb,hg,ha,h.unlinked,h.distinct⟩,fun f => updateSection_found f hne hn⟩

/-- One entry does to the heap what it does to the tree. -/
theorem serialConfigHandler_refines (h : Represents w shape tree) {e : ConfigEntry}
    (hx : applyEntry tree e=some tree') : ∃ valid w' shape',
    serialConfigHandler e w=.ok valid w' ∧ SameOutside w w' ∧ Represents w' shape' tree' := by
  obtain ⟨w₁,before,g,after,tb,d,ta,hnode,hs₁,hf,hup⟩ := sectionNode_spec h e.sectionName
  rw [applyEntry,hup] at hx
  obtain ⟨d',hd,rfl⟩ := Option.map_eq_some_iff.mp hx
  rw [serialConfigHandler,bind_of_ok hnode]
  unfold updateMaster at hd
  split at hd
  · next hk =>
    rw [Option.some.injEq] at hd
    subst hd
    obtain ⟨w₂,hr,hs₂,hf₂⟩ := hf.setBaudrate (atoi e.value)
    rw [if_pos hk,bind_of_ok hr]
    exact ⟨true,w₂,_,rfl,hs₁.trans hs₂,hf₂.represents⟩
  · next hb =>
    rw [if_neg hb]
    split at hd
    · next hk =>
      obtain ⟨w₂,vs,hr,hs₂,hf₂⟩ := hf.addVirtuals hd
      rw [if_pos hk,bind_of_ok hr]
      exact ⟨true,w₂,_,rfl,hs₁.trans hs₂,hf₂.represents⟩
    · next hv =>
      rw [if_neg hv]
      split at hd
      · next hk =>
        obtain ⟨name,hname,rfl⟩ := Option.map_eq_some_iff.mp hd
        obtain ⟨w₂,hr,hs₂,hf₂⟩ := hf.setWriter hname
        rw [if_pos hk,bind_of_ok hr]
        exact ⟨true,w₂,_,rfl,hs₁.trans hs₂,hf₂.represents⟩
      · next hw =>
        rw [Option.some.injEq] at hd
        subst hd
        rw [if_neg hw]
        exact ⟨false,w₁,_,rfl,hs₁,hf.represents⟩

/-- An entry that describes nothing ends the process. -/
theorem serialConfigHandler_exit (h : Represents w shape tree) {e : ConfigEntry}
    (hx : applyEntry tree e=none) : ∃ w',serialConfigHandler e w=.error (.exit 1) w' := by
  obtain ⟨w₁,before,g,after,tb,d,ta,hnode,-,hf,hup⟩ := sectionNode_spec h e.sectionName
  rw [applyEntry,hup,Option.map_eq_none_iff] at hx
  rw [serialConfigHandler,bind_of_ok hnode]
  unfold updateMaster at hx
  split at hx
  · exact absurd hx (by simp)
  · next hb =>
    rw [if_neg hb]
    split at hx
    · next hk =>
      obtain ⟨w',hw'⟩ := hf.addVirtuals_exit hx
      rw [if_pos hk]
      exact ⟨w',bind_of_error hw' _⟩
    · next hv =>
      rw [if_neg hv]
      split at hx
      · next hk =>
        rw [Option.map_eq_none_iff] at hx
        obtain ⟨w',hw'⟩ := virtualNameOrExit_none hx w₁
        rw [if_pos hk]
        exact ⟨w',bind_of_error (bind_of_error hw' _) _⟩
      · exact absurd hx (by simp)

/-- Loading entries builds the tree they describe, or ends the process. -/
theorem loadEntries_refines (entries : List ConfigEntry) (h : Represents w shape tree) :
    match entries.foldlM applyEntry tree with
    | some tree' => ∃ w' shape',loadEntries entries w=.ok () w' ∧ SameOutside w w' ∧
        Represents w' shape' tree'
    | none => ∃ w',loadEntries entries w=.error (.exit 1) w' := by
  induction entries generalizing w shape tree with
  | nil => exact ⟨w,shape,rfl,.refl w,h⟩
  | cons e entries ih =>
    rw [List.foldlM_cons,Option.bind_eq_bind]
    cases hx : applyEntry tree e with
    | none =>
      obtain ⟨w',hw'⟩ := serialConfigHandler_exit h hx
      exact ⟨w',bind_of_error (bind_of_error hw' _) _⟩
    | some tree₁ =>
      obtain ⟨valid,w₁,shape₁,hr,hs₁,h₁⟩ := serialConfigHandler_refines h hx
      have hload : loadEntries (e::entries) w=loadEntries entries w₁ := by
        rw [loadEntries,List.forM_eq_forM,List.forM_cons,bind_assoc,bind_of_ok hr]
        rfl
      rw [Option.bind_some]
      have hrest := ih h₁
      cases hx' : entries.foldlM applyEntry tree₁ with
      | none =>
        rw [hx'] at hrest
        obtain ⟨w',hw'⟩ := hrest
        exact ⟨w',hload.trans hw'⟩
      | some tree₂ =>
        rw [hx'] at hrest
        obtain ⟨w',shape',hr',hs',h'⟩ := hrest
        exact ⟨w',shape',hload.trans hr',hs₁.trans hs',h'⟩

/-- The empty state represents the empty tree. -/
theorem represents_boot : Represents World.boot [] [] where
  topology := {
    masters := rfl
    master := by simp
    virtual := by simp
    covered := fun _ _ h => absurd h (by simp [World.boot])
    numbered := fun _ _ h => absurd h (by simp [World.boot]) }
  described := .nil
  unlinked := fun _ _ h => absurd h (by simp [World.boot])
  distinct := by simp

/-- The loader returns exactly when the entries describe a tree, and then the
heap represents it. -/
theorem loadEntries_boot {entries : List ConfigEntry} {w : World}
    (h : loadEntries entries World.boot=.ok () w) : ∃ tree shape,treeOf entries=some tree ∧
      SameOutside World.boot w ∧ Represents w shape tree := by
  have hl := loadEntries_refines entries represents_boot
  rw [h] at hl
  cases ht : treeOf entries with
  | none =>
    rw [show entries.foldlM applyEntry []=none from ht] at hl
    obtain ⟨w',hw'⟩ := hl
    exact absurd hw' (by simp)
  | some tree =>
    rw [show entries.foldlM applyEntry []=some tree from ht] at hl
    obtain ⟨w',shape,hw',hs,hr⟩ := hl
    rw [EStateM.Result.ok.injEq] at hw'
    rw [hw'.2]
    exact ⟨tree,shape,rfl,hs,hr⟩

/-- Entries whose paths fit are loaded. -/
theorem loadEntries_of_fits {entries : List ConfigEntry} (hfit : Fits entries) :
    ∃ tree w shape,treeOf entries=some tree ∧ loadEntries entries World.boot=.ok () w ∧
      Represents w shape tree := by
  obtain ⟨tree,ht⟩ := treeOf_isSome hfit
  have hl := loadEntries_refines entries represents_boot
  rw [show entries.foldlM applyEntry []=some tree from ht] at hl
  obtain ⟨w,shape,hx,-,hr⟩ := hl
  exact ⟨tree,w,shape,ht,hx,hr⟩

end Sections

/-- One device with two virtuals, the first of them a writer. -/
def sampleEntries : List ConfigEntry :=
  [⟨"/dev/ttyS5".toList,"virtuals".toList,"a b".toList⟩,
    ⟨"/dev/ttyS5".toList,"writer".toList,"a".toList⟩]

end SerialProxy.ConfigLoading
