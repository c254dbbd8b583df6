import SerialProxy.Iterations

/-!
# `serialConnectNode` between all and nothing

A failed attempt leaves a node as it was, and a successful one connects it. But
`_serialCreateLink` does not look at the result of the registration: a link that
could not be registered is attached to its node all the same.
-/

namespace SerialProxy.ConnectContract

open FaultPrograms SerialState EventTable SerialNodes SerialLinks EventLoop NodeTopology
open LinkEffects LinkCoherence ConnectEffects Reconnection ConnectOutcomes ConfigLoading Iterations

/-- The node has a live link that is registered for its events. -/
def IsConnected (t : World) (node : NodePtr) : Prop :=
  ∃ n link l flags,t.nodes node=some n ∧ n.link=some link ∧ t.links link=some l ∧
    serialEventFlags node t=.ok flags t ∧ t.events l.fd=⟨flags,some link⟩ ∧ flags≠aeNone

/-- The node has no link, and descriptors and registrations are as before. -/
structure Untouched (w : World) (node : NodePtr) (t : World) : Prop where
  /-- The node has no link. -/
  free : ∃ n,t.nodes node=some n ∧ n.link=none
  /-- The same descriptors are open. -/
  openFds : t.openFds=w.openFds
  /-- Registrations agree. -/
  events : t.events=w.events

/-- The call connects the node, or returns `C_ERR` and leaves nothing behind. -/
def AllOrNothing (w : World) (node : NodePtr) (env : ConnectResults) : Prop :=
  ∃ ok t,serialConnectNode node env w=.ok ok t ∧
    if ok then IsConnected t node else Untouched w node t

section Contract

variable {w t u : World} {shape : Shape} {node : NodePtr} {n : SerialNode} {env : ConnectResults}

/-- An attached link whose descriptor is registered. -/
theorem isConnected_of_registered (hc : Coherent shape w) (hn : w.nodes node=some n)
    {l : SerialLink} (h : Connected w node env l t) (he : t.events=register w node l.fd) :
    IsConnected t node := by
  have hmem := hc.topology.covered node n hn
  have hdev := connected_devices hn h
  have hflags := serialEventFlags_apply (hdev.topology hc.topology) hmem
  rw [eventFlags_congr hc.topology hdev hmem] at hflags
  refine ⟨_,w.nextLink,l,eventFlags w node,by rw [h.nodes,Function.update_self],rfl,
    by rw [h.links,Function.update_self],hflags,?_,eventFlags_ne_none hc.topology hmem⟩
  rw [he,register_self hc h]

/-- An abandoned attempt leaves the node as it was. -/
theorem untouched_of_abandoned (hn : w.nodes node=some n) (hfree : n.link=none)
    (h : Abandoned w t) : Untouched w node t :=
  ⟨⟨n,by rw [h.nodes,hn],hfree⟩,h.openFds,h.events⟩

/-- A link that was not registered leaves its node unconnected behind a success. -/
theorem not_allOrNothing (hc : Coherent shape w) (hn : w.nodes node=some n) (hfree : n.link=none)
    (hw : attemptWorks n env=true)
    (hfail : ¬ (openedFd w.openFds n env<w.setsize ∧ env.epollCtl=none)) :
    ¬ AllOrNothing w node env := by
  rintro ⟨ok,t,hx,h⟩
  obtain ⟨u,ho,hx',hcon⟩ := serialConnectNode_outcome env hc hn hfree
  rw [hx',EStateM.Result.ok.injEq] at hx
  obtain ⟨rfl,rfl⟩ := hx
  rw [hw,if_pos rfl] at h hcon
  obtain ⟨l,hcon⟩ := hcon
  obtain ⟨n',link,l',flags,hn',hlink,hl',-,hreg,hflags⟩ := h
  rw [hcon.nodes,Function.update_self,Option.some.injEq] at hn'
  subst hn'
  rw [Option.some.injEq] at hlink
  subst hlink
  rw [hcon.links,Function.update_self,Option.some.injEq] at hl'
  subst hl'
  have hmask := connected_unregistered hc hcon
  rw [ho.unregistered hfail] at hreg
  rw [hreg] at hmask
  exact hflags hmask

/-- The call is all or nothing exactly when an attempt that gets as far as the
registration has a descriptor inside the table and an `epoll_ctl` that succeeds. -/
theorem allOrNothing_iff (hc : Coherent shape w) (hn : w.nodes node=some n) (hfree : n.link=none) :
    AllOrNothing w node env ↔ (attemptWorks n env=true →
      openedFd w.openFds n env<w.setsize ∧ env.epollCtl=none) := by
  constructor
  · intro h hw
    by_contra hfail
    exact not_allOrNothing hc hn hfree hw hfail h
  · intro hreg
    obtain ⟨u,ho,hx,h⟩ := serialConnectNode_outcome env hc hn hfree
    refine ⟨attemptWorks n env,u,hx,?_⟩
    cases hw : attemptWorks n env with
    | false =>
      rw [hw,if_neg Bool.false_ne_true] at h
      exact untouched_of_abandoned hn hfree h
    | true =>
      rw [hw,if_pos rfl] at h
      obtain ⟨l,h⟩ := h
      obtain ⟨hlt,hepoll⟩ := hreg hw
      obtain ⟨l',hl',hfd,-⟩ := ho.link hw
      rw [h.links,Function.update_self,Option.some.injEq] at hl'
      subst hl'
      exact isConnected_of_registered hc hn h (h.registered (hfd ▸ hlt) hepoll)

end Contract

section Sample

/-- An attempt in which no call succeeds that can fail. -/
def failingConnect : ConnectResults where
  openPath := .error 2
  isatty := some 25
  openpty := .error 2
  remove := some 2
  symlink := some 17
  tcgetattr := some 25
  tiocgserial := .error 25
  tiocsserial := some 25
  tcsetattr := some 25
  epollCtl := some 28

/-- The state in which the loop starts when nothing could be opened. -/
def unconnectedBoot : World :=
  finalState (serialInit sampleEntries (fun _ => failingConnect) World.boot)

/-- The sample is a state in which the loop runs. -/
theorem unconnectedBoot_running : Running unconnectedBoot :=
  ⟨_,[],⟨sampleEntries,fun _ => failingConnect,eq_ok_of_returns (by decide +kernel)⟩,.nil _⟩

/-- The first node, which is the master. -/
def unconnectedNode : SerialNode := nodeAt unconnectedBoot 0

/-- Its node is live. -/
theorem unconnectedNode_live : unconnectedBoot.nodes 0=some unconnectedNode := by decide +kernel

/-- The sample attempt works. -/
theorem allOrNothing_iff_working : ∃ shape,Coherent shape unconnectedBoot ∧
    (AllOrNothing unconnectedBoot 0 workingConnect ↔
      (attemptWorks unconnectedNode workingConnect=true →
        openedFd unconnectedBoot.openFds unconnectedNode workingConnect<unconnectedBoot.setsize ∧
          workingConnect.epollCtl=none)) := by
  obtain ⟨shape,hc⟩ := running_coherent unconnectedBoot_running
  exact ⟨shape,hc,allOrNothing_iff hc unconnectedNode_live (by decide +kernel)⟩

/-- The device opens, but `epoll_ctl` has no room for it. -/
theorem unregistered_node_connected : ¬ ∀ w node n env,Running w → w.nodes node=some n →
    n.link=none → AllOrNothing w node env := by
  intro h
  obtain ⟨shape,hc⟩ := running_coherent unconnectedBoot_running
  exact not_allOrNothing hc unconnectedNode_live (by decide +kernel)
    (by decide +kernel) (fun hreg => absurd hreg.2 (by decide))
    (h unconnectedBoot 0 unconnectedNode {workingConnect with epollCtl := some 28}
      unconnectedBoot_running unconnectedNode_live (by decide +kernel))

end Sample

end SerialProxy.ConnectContract
