import SerialProxy.PrimitiveChanges

/-!
# The paths of linked virtuals

A client opens a virtual by its path. As long as the virtual has a link, the symbolic link at
this path leads to the terminal of that link, whatever was lost, failed or reconnected before:
every attempt replaces the symbolic link of its own virtual only, and a link that is closed
takes its terminal with it, not that of another one. All it needs is that no other virtual is
given the same path.
-/

namespace SerialProxy.LinkedPaths

open FaultPrograms LinkedCells CText SerialState EventTable SerialNodes SerialLinks SerialConfig
open EventLoop NodeTopology LinkEffects LinkCoherence HandlerEffects ConnectEffects
open ConnectOutcomes Reconnection ConfigLoading Iterations HeldSymlinks PrimitiveChanges

/-- No other virtual has the name of this node. -/
def Unshared (w : World) (node : NodePtr) : Prop :=
  ∀ other m,w.nodes other=some m → nodeIsVirtual m=true → m.name=(nodeAt w node).name → other=node

/-- The path of a node leads to the terminal of its link, if it has one. -/
def Leads (w : World) (node : NodePtr) : Prop :=
  ∀ link l,w.links link=some l → l.node=some node →
    l.sfd≠-1 ∧ w.symlinks (nodeAt w node).name=some (w.ttys l.sfd)

section Changing

variable {w s t : World} {shape : Shape} {link : LinkPtr} {l : SerialLink} {node other : NodePtr}
variable {n m : SerialNode}

/-- Nodes keep their names. -/
theorem name_of_devices (h : SameDevices w t) (node : NodePtr) :
    (nodeAt t node).name=(nodeAt w node).name := by
  have he := congrArg SerialNode.name (h.nodeAt node)
  exact he

/-- They stay virtual. -/
theorem virtual_of_devices (h : SameDevices w t) (node : NodePtr) :
    nodeIsVirtual (nodeAt t node)=nodeIsVirtual (nodeAt w node) := by
  have he := congrArg nodeIsVirtual (h.nodeAt node)
  exact he

/-- So a path that belongs to one virtual stays its own. -/
theorem Unshared.devices (h : Unshared w node) (hs : SameDevices w t) : Unshared t node := by
  intro other m hm hv hname
  obtain ⟨link,hm'⟩ := hs.symm.node hm
  rw [name_of_devices hs] at hname
  exact h other _ hm' hv hname

/-- A path leads where it did while only buffers change. -/
theorem Leads.inside (h : Leads w node) (hs : SameExceptBuffers w t) (hf : files t=files w) :
    Leads t node := by
  intro link l hl hnode
  obtain ⟨l',hl',-,hsfd,hback⟩ := hs.symm.live_link hl
  rw [name_of_devices hs.devices,show t.symlinks=w.symlinks from congrArg Prod.fst hf,
    show t.ttys=w.ttys from congrArg Prod.snd hf,← hsfd]
  exact h link l' hl' (hback.trans hnode)

/-- It does so too behind a close. -/
theorem Leads.close (h : Leads w node) (ha : Attached w link) : Leads (close w link) node := by
  intro other l hl hnode
  rw [name_of_devices (SameDevices.close ha)]
  exact h other l (close_links_some hl).2 hnode

/-- An attempt that gets as far as the link leaves the path of a virtual leading to its
terminal, whatever was there before. -/
theorem opened_leads {env : ConnectResults} (hm : nodeIsMaster n=false)
    (hv : nodeIsVirtual n=true) (hopen : openWorks n env=true) :
    openedSfd w.openFds n env≠-1 ∧
      openedSymlinks w n env n.name=some (openedTtys w n env (openedSfd w.openFds n env)) := by
  rw [openWorks,hm,if_neg Bool.false_ne_true,if_pos hv,Bool.and_eq_true] at hopen
  obtain ⟨hok,hsym⟩ := hopen
  cases hopenpty : env.openpty with
  | error errno =>
    rw [hopenpty] at hok
    exact absurd hok Bool.false_ne_true
  | ok pty =>
    have hpty : openedPty n env=some pty := by
      rw [openedPty,hm,if_neg Bool.false_ne_true,if_pos hv,hopenpty]
      rfl
    have hsfd := openedSfd_of_pty w.openFds hpty
    refine ⟨hsfd ▸ FreshFd.ne_error pty.slave _,?_⟩
    rw [openedSymlinks,openedTtys,hpty]
    dsimp only [placed]
    rw [if_pos hsym,Function.update_self,Function.update_self]

/-- Attempts on other nodes leave a path alone that no other virtual has. -/
theorem openedSymlinks_other {env : ConnectResults} {path : CString}
    (h : nodeIsVirtual n=true → path≠n.name) : openedSymlinks w n env path=w.symlinks path := by
  by_cases hv : nodeIsVirtual n=true
  · exact openedSymlinks_of_ne (h hv) w env
  · have hnone : openedPty n env=none := by
      rw [openedPty,if_neg hv,ite_self]
    rw [openedSymlinks,hnone]

/-- No virtual is a master. -/
theorem not_master (hc : Coherent shape w) (hn : w.nodes node=some n)
    (hv : nodeIsVirtual n=true) : nodeIsMaster n=false := by
  obtain ⟨g,hg,hvg⟩ := hc.topology.owner_of_virtual (hc.topology.covered node n hn)
    (by rwa [nodeAt_of_some hn])
  obtain ⟨m,hm,hf,-⟩ := hc.topology.virtual g hg node hvg
  rw [hn,Option.some.injEq] at hm
  exact hm ▸ not_nodeIsMaster_of_flags hf

/-- An attempt on another node leaves the path alone; one on this node makes it lead to the new
terminal, or leaves the virtual unconnected. -/
theorem Leads.attempt {env : NodePtr → ConnectResults} (hc : Coherent shape w)
    (hv : nodeIsVirtual (nodeAt w node)=true) (hu : Unshared w node) (h : Leads w node)
    (hs : AttemptStep env w other t) : Leads t node := by
  have hg : Growing shape env w t := hs.growing ⟨hc,.refl w⟩
  have ho := hs.outcome
  obtain ⟨n,hn,-⟩ := hs.live
  rw [nodeAt_of_some hn] at ho
  intro link l hl hnode
  obtain ⟨node',m,hback,hm,hlink⟩ := hg.coherent.node_live hl
  rw [hnode,Option.some.injEq] at hback
  subst hback
  rw [name_of_devices hg.grown.devices,ho.symlinks,ho.ttys]
  rcases eq_or_ne node other with rfl|hne
  · obtain ⟨link',hm',hworks⟩ := hs.linked hn
    rw [hm,Option.some.injEq] at hm'
    have hw : attemptWorks n (env node)=true := by
      rw [← hworks,show link'=some link by rw [← hlink,hm']]
      rfl
    have hresult := hs.result
    rw [nodeAt_of_some hn,hw,if_pos rfl] at hresult
    obtain ⟨l',hcon⟩ := hresult
    have hself := congrFun hcon.nodes node
    rw [hm,Function.update_self,Option.some.injEq] at hself
    have hnext : link=w.nextLink := by
      rw [hself,Option.some.injEq] at hlink
      exact hlink.symm
    obtain ⟨l₀,hl₀,-,hsfd⟩ := ho.link hw
    rw [← hnext,hl,Option.some.injEq] at hl₀
    rw [hl₀,hsfd,nodeAt_of_some hn]
    rw [nodeAt_of_some hn] at hv
    have hopen : openWorks n (env node)=true := by
      simp only [attemptWorks,Bool.and_eq_true] at hw
      exact hw.1.1.1
    exact opened_leads (not_master hc hn hv) hv hopen
  · have hm' := (hs.others hne).symm.trans hm
    obtain ⟨l',hl',hback⟩ := hc.linked node m link hm' hlink
    rw [hg.grown.links link l' hl',Option.some.injEq] at hl
    subst hl
    obtain ⟨hsfd,hsym⟩ := h link l' hl' hback
    refine ⟨hsfd,?_⟩
    rw [openedTtys_of_mem (hc.opened link l' l'.sfd hl' ⟨hsfd,.inr rfl⟩),← hsym]
    exact openedSymlinks_other fun hvn hname => hne (hu other n hn hvn hname.symm).symm

/-- What every primitive change keeps: paths that are not shared lead to the terminals. -/
theorem Change.leads (hc : Coherent shape w) (hch : Change shape w t)
    (h : ∀ node,nodeIsVirtual (nodeAt w node)=true → Unshared w node → Leads w node) :
    ∀ node,nodeIsVirtual (nodeAt t node)=true → Unshared t node → Leads t node := by
  have hd := Change.devices hc hch
  intro node hv hu
  rw [virtual_of_devices hd] at hv
  replace hu := hu.devices hd.symm
  cases hch with
  | inside hs hf => exact (h node hv hu).inside hs hf
  | close ha => exact (h node hv hu).close ha
  | attempt _ hs => exact (h node hv hu).attempt hc hv hu hs

/-- In every state that the loop of the daemon reaches, the path of a linked virtual leads to
the terminal that its own link holds open, unless another virtual has the same path. -/
theorem linked_path_leads (h : Running w) (hn : w.nodes node=some n)
    (hv : nodeIsVirtual n=true) (hu : Unshared w node) (hlink : n.link=some link) :
    ∃ l,w.links link=some l ∧ l.sfd∈w.openFds ∧ w.symlinks n.name=some (w.ttys l.sfd) ∧
      ∀ other l',w.links other=some l' → l'.sfd=l.sfd → other=link := by
  obtain ⟨shape,s,hs,hch⟩ := running_changes h
  have hstart : ∀ node,nodeIsVirtual (nodeAt s node)=true → Unshared s node → Leads s node :=
    fun node _ _ link l hl => by
      rw [hs.links] at hl
      exact absurd hl.symm (Option.some_ne_none l)
  obtain ⟨hc,hleads⟩ := hch.invariant hs.coherent hstart fun _ _ hc hi hstep =>
    Change.leads hc hstep hi
  obtain ⟨l,hl,hback⟩ := hc.linked node n link hn hlink
  have hown := hleads node (by rwa [nodeAt_of_some hn]) hu link l hl hback
  rw [nodeAt_of_some hn] at hown
  obtain ⟨hsfd,hsym⟩ := hown
  refine ⟨l,hl,hc.opened link l l.sfd hl ⟨hsfd,.inr rfl⟩,hsym,fun other l' hl' hsame => ?_⟩
  exact hc.separate other l' link l l.sfd hl' hl ⟨hsfd,.inr hsame.symm⟩ ⟨hsfd,.inr rfl⟩

/-- Behind the start of the sample the path of the virtual `b` leads to its terminal. -/
theorem linked_path_leads_boot : ∃ l,sampleBoot.links 1=some l ∧ l.sfd∈sampleBoot.openFds ∧
    sampleBoot.symlinks (nodeAt sampleBoot 2).name=some (sampleBoot.ttys l.sfd) ∧
    ∀ other l',sampleBoot.links other=some l' → l'.sfd=l.sfd → other=1 := by
  have hn : sampleBoot.nodes 2=some (nodeAt sampleBoot 2) := by decide +kernel
  have hu : Unshared sampleBoot 2 := fun other m hm _ hname =>
    sampleBoot_distinct other 2 m _ hm hn hname
  exact linked_path_leads sampleBoot_running hn (by decide +kernel) hu (by decide +kernel)

end Changing

end SerialProxy.LinkedPaths
