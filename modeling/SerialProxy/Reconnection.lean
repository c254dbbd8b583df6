import SerialProxy.ConnectOutcomes

/-!
# Reconnecting the tree

A reconnect keeps every open link, with its registration and its buffer, and
adds links with empty buffers for nodes that had none. It always returns.
-/

namespace SerialProxy.Reconnection

open FaultPrograms LinkedCells CText SerialState EventTable SerialNodes SerialLinks NodeTopology
open LinkEffects LinkCoherence HandlerEffects ConnectEffects ConnectOutcomes

/-- `epoll_ctl` succeeds in every attempt. -/
def EpollWorks (env : NodePtr → ConnectResults) : Prop := ∀ node,(env node).epollCtl=none

/-- The state in the middle of a reconnect that started in `w`, whose new links
are registered if `works` holds. -/
structure Grown (works : Prop) (w t : World) : Prop where
  /-- Devices are those of the start. -/
  devices : SameDevices w t
  /-- Open links are kept as they are. -/
  links : ∀ link l,w.links link=some l → t.links link=some l
  /-- New links have received nothing. -/
  new : ∀ link l,t.links link=some l → w.links link=some l ∨ w.nextLink≤link ∧ l.recvbuflen=0
  /-- Open links keep their registrations. -/
  kept : ∀ link l,w.links link=some l → t.events l.fd=w.events l.fd
  /-- New links are registered when there is room. -/
  registered : works → ∀ link l,t.links link=some l → w.links link=none →
    l.fd<t.setsize → (t.events l.fd).mask≠aeNone
  /-- The table has its size. -/
  setsize : t.setsize=w.setsize
  /-- Numbers are only used up. -/
  nextLink : w.nextLink≤t.nextLink
  /-- No data moved. -/
  transfers : transfers t.trace=transfers w.trace

namespace Grown

variable {works works' : Prop} {w t u : World} {shape : Shape}

/-- A quiet part adds nothing. -/
theorem of_quiet (h : Quiet w t) : Grown works w t where
  devices := ⟨fun _ => by rw [h.nodes],h.masterHead,h.nextNode⟩
  links := by rw [h.links]; exact fun _ _ h => h
  new := by rw [h.links]; exact fun _ _ h => .inl h
  kept := by rw [h.events]; exact fun _ _ _ => rfl
  registered := by
    intro _ link l hl hn
    rw [h.links,hn] at hl
    exact absurd hl (by simp)
  setsize := h.setsize
  nextLink := h.nextLink.ge
  transfers := h.transfers

/-- Nothing is added at the start. -/
theorem refl (w : World) : Grown works w w := of_quiet (.refl w)

/-- An abandoned attempt adds nothing. -/
theorem of_abandoned (h : Abandoned w t) : Grown works w t where
  devices := ⟨fun _ => by rw [h.nodes],h.masterHead,h.nextNode⟩
  links := by rw [h.links]; exact fun _ _ h => h
  new := by rw [h.links]; exact fun _ _ h => .inl h
  kept := by rw [h.events]; exact fun _ _ _ => rfl
  registered := by
    intro _ link l hl hn
    rw [h.links,hn] at hl
    exact absurd hl (by simp)
  setsize := h.setsize
  nextLink := by rw [h.nextLink]; exact Nat.le_succ _
  transfers := h.transfers

/-- What two parts add is added by both together. -/
theorem trans (h : Grown works w t) (h' : Grown works t u) : Grown works w u where
  devices := h.devices.trans h'.devices
  links := fun link l hl => h'.links link l (h.links link l hl)
  new := by
    intro link l hl
    rcases h'.new link l hl with ht|⟨hle,he⟩
    · exact h.new link l ht
    · exact .inr ⟨h.nextLink.trans hle,he⟩
  kept := fun link l hl => (h'.kept link l (h.links link l hl)).trans (h.kept link l hl)
  registered := by
    intro hw link l hl hn hlt
    cases ht : t.links link with
    | none => exact h'.registered hw link l hl ht hlt
    | some l' =>
      have he := h'.links link l' ht
      rw [hl,Option.some.injEq] at he
      subst he
      rw [h'.kept link l ht]
      exact h.registered hw link l ht hn (by rw [← h'.setsize]; exact hlt)
  setsize := h'.setsize.trans h.setsize
  nextLink := h.nextLink.trans h'.nextLink
  transfers := h'.transfers.trans h.transfers

/-- New links may be promised under a stronger condition. -/
theorem mono (h : Grown works w t) (hw : works' → works) : Grown works' w t :=
  {h with registered := fun h' => h.registered (hw h')}

end Grown

section Connect

variable {env : NodePtr → ConnectResults} {results : ConnectResults} {w t : World} {shape : Shape}
variable {node : NodePtr} {l : SerialLink} {n : SerialNode}

/-- Coherence ignores the trace, `errno` and the files outside. -/
theorem quiet_same (h : Quiet w t) : SameExceptBuffers w t :=
  ⟨h.nodes,h.masterHead,h.nextNode,fun _ => by rw [h.links],h.nextLink,h.events,h.maxfd,
    h.setsize,h.openFds,h.fdCalls⟩

/-- Numbers that are used up do not matter, nor do the calls on descriptors. -/
theorem coherent_nextLink (hc : Coherent shape w) {next : LinkPtr} (hle : w.nextLink≤next)
    (calls : List FdCall) : Coherent shape {w with nextLink := next, fdCalls := calls} := by
  have hs : SameDevices w {w with nextLink := next, fdCalls := calls} := ⟨fun _ => rfl,rfl,rfl⟩
  refine ⟨hs.topology hc.topology,hc.held,hc.linked,hc.connected,hc.sides,hc.opened,hc.separate,
    fun fd hm => ?_,fun link l hl => (hc.numbered link l hl).trans_le hle⟩
  obtain ⟨hlt,link,l,node,hd,hl,hf,hn,hmask⟩ := hc.registered fd hm
  exact ⟨hlt,link,l,node,hd,hl,hf,hn,
    hmask.trans (eventFlags_congr hc.topology hs (hc.node_mem hl hn)).symm⟩

/-- A failed attempt keeps the state coherent. -/
theorem coherent_of_abandoned (hc : Coherent shape w) (h : Abandoned w t) : Coherent shape t := by
  have hs : SameExceptBuffers w {t with nextLink := w.nextLink, fdCalls := w.fdCalls} :=
    ⟨h.nodes,h.masterHead,h.nextNode,fun _ => by rw [h.links],rfl,h.events,h.maxfd,h.setsize,
      h.openFds,rfl⟩
  have hle : w.nextLink≤t.nextLink := by rw [h.nextLink]; exact Nat.le_succ _
  exact coherent_nextLink (hs.coherent hc) hle t.fdCalls

/-- A new link changes no device. -/
theorem connected_devices (hn : w.nodes node=some n) (h : Connected w node results l t) :
    SameDevices w t := by
  refine ⟨fun node' => ?_,h.masterHead,h.nextNode⟩
  rw [h.nodes]
  rcases eq_or_ne node' node with rfl|hne
  · rw [Function.update_self,hn,nodeAt_of_some hn]
    rfl
  · rw [Function.update_of_ne hne]

/-- A link of the new state is the new one or an old one. -/
theorem connected_links_some (h : Connected w node results l t) {link : LinkPtr}
    {l' : SerialLink} (hl : t.links link=some l') :
    (link=w.nextLink ∧ l'=l) ∨ link≠w.nextLink ∧ w.links link=some l' := by
  rw [h.links] at hl
  rcases eq_or_ne link w.nextLink with rfl|hne
  · rw [Function.update_self,Option.some.injEq] at hl
    exact .inl ⟨rfl,hl.symm⟩
  · rw [Function.update_of_ne hne] at hl
    exact .inr ⟨hne,hl⟩

/-- Old links are kept: their numbers are smaller than that of the new one. -/
theorem connected_links_kept (hc : Coherent shape w) (h : Connected w node results l t)
    {link : LinkPtr} {l' : SerialLink} (hl : w.links link=some l') : t.links link=some l' := by
  rw [h.links,Function.update_of_ne (Nat.ne_of_lt (hc.numbered link l' hl)),hl]

/-- A new descriptor is not registered yet. -/
theorem connected_unregistered (hc : Coherent shape w) (h : Connected w node results l t) :
    (w.events l.fd).mask=aeNone := by
  by_contra hm
  obtain ⟨-,link,l',_,-,hl,hf,-⟩ := hc.registered l.fd hm
  exact h.fresh l.fd ⟨h.isOpen,.inl rfl⟩ (hc.opened link l' l.fd hl ⟨h.isOpen,.inl hf.symm⟩)

/-- Descriptors of old links are not the new one. -/
theorem connected_fd_ne (hc : Coherent shape w) (h : Connected w node results l t)
    {link : LinkPtr} {l' : SerialLink} (hl : w.links link=some l') : l'.fd≠l.fd := by
  intro he
  exact h.fresh l'.fd ⟨hc.connected link l' hl,.inl he⟩
    (hc.opened link l' l'.fd hl ⟨hc.connected link l' hl,.inl rfl⟩)

/-- The new link is registered for the events of its node. -/
theorem register_self (hc : Coherent shape w) (h : Connected w node results l t) :
    register w node l.fd l.fd=⟨eventFlags w node,some w.nextLink⟩ := by
  rw [register,Function.update_self,connected_unregistered hc h]
  exact congrArg (AeFileEvent.mk · _) BitVec.zero_or

/-- Other descriptors keep their registration. -/
theorem register_of_ne {fd fd' : Fd} (hne : fd'≠fd) :
    register w node fd fd'=w.events fd' := Function.update_of_ne hne _ _

/-- A successful attempt keeps the state coherent. -/
theorem coherent_of_connected (hc : Coherent shape w) (hn : w.nodes node=some n)
    (hfree : n.link=none) (h : Connected w node results l t) : Coherent shape t where
  topology := (connected_devices hn h).topology hc.topology
  held := by
    intro link l' hl
    rcases connected_links_some h hl with ⟨rfl,rfl⟩|⟨-,hl⟩
    · exact ⟨node,_,by rw [h.nodes,Function.update_self],rfl⟩
    · obtain ⟨node',n',hn',hlink⟩ := hc.held link l' hl
      have hne : node'≠node := by
        rintro rfl
        rw [hn,Option.some.injEq] at hn'
        rw [← hn',hfree] at hlink
        exact absurd hlink (by simp)
      exact ⟨node',n',by rw [h.nodes,Function.update_of_ne hne,hn'],hlink⟩
  linked := by
    intro node' n' link hn' hlink
    rw [h.nodes] at hn'
    rcases eq_or_ne node' node with rfl|hne
    · rw [Function.update_self,Option.some.injEq] at hn'
      subst hn'
      rw [Option.some.injEq] at hlink
      subst hlink
      exact ⟨l,by rw [h.links,Function.update_self],h.back⟩
    · rw [Function.update_of_ne hne] at hn'
      obtain ⟨l',hl',hback⟩ := hc.linked node' n' link hn' hlink
      exact ⟨l',connected_links_kept hc h hl',hback⟩
  connected := by
    intro link l' hl
    rcases connected_links_some h hl with ⟨rfl,rfl⟩|⟨-,hl⟩
    · exact h.isOpen
    · exact hc.connected link l' hl
  sides := by
    intro link l' hl
    rcases connected_links_some h hl with ⟨rfl,rfl⟩|⟨-,hl⟩
    · exact h.sides
    · exact hc.sides link l' hl
  opened := by
    intro link l' fd hl ho
    rw [h.openFds]
    rcases connected_links_some h hl with ⟨rfl,rfl⟩|⟨-,hl⟩
    · exact .inr ho
    · exact .inl (hc.opened link l' fd hl ho)
  separate := by
    intro link l₁ link' l₂ fd hl hl' ho ho'
    rcases connected_links_some h hl with ⟨rfl,rfl⟩|⟨-,hl⟩
    · rcases connected_links_some h hl' with ⟨rfl,rfl⟩|⟨-,hl'⟩
      · rfl
      · exact absurd (hc.opened link' l₂ fd hl' ho') (h.fresh fd ho)
    · rcases connected_links_some h hl' with ⟨rfl,rfl⟩|⟨-,hl'⟩
      · exact absurd (hc.opened link l₁ fd hl ho) (h.fresh fd ho')
      · exact hc.separate link l₁ link' l₂ fd hl hl' ho ho'
  registered := by
    intro fd hm
    have hdev := connected_devices hn h
    have hmem := hc.topology.covered node n hn
    have hold : t.events fd=w.events fd → Registered t fd := by
      intro he
      rw [he] at hm
      obtain ⟨hlt,link,l',node',hd,hl',hf,hnode,hmask⟩ := hc.registered fd hm
      refine ⟨by rw [h.setsize]; exact hlt,link,l',node',by rw [he]; exact hd,
        connected_links_kept hc h hl',hf,hnode,?_⟩
      rw [he,hmask,eventFlags_congr hc.topology hdev (hc.node_mem hl' hnode)]
    rcases h.events with he|⟨hlt,he⟩
    · exact hold (by rw [he])
    · rcases eq_or_ne fd l.fd with rfl|hne
      · have hr : t.events l.fd=⟨eventFlags w node,some w.nextLink⟩ := by
          rw [he,register_self hc h]
        refine ⟨by rw [h.setsize]; exact hlt,w.nextLink,l,node,by rw [hr],
          by rw [h.links,Function.update_self],rfl,h.back,?_⟩
        rw [hr,eventFlags_congr hc.topology hdev hmem]
      · exact hold (by rw [he,register_of_ne hne])
  numbered := by
    intro link l' hl
    rw [h.nextLink]
    rcases connected_links_some h hl with ⟨rfl,rfl⟩|⟨-,hl⟩
    · exact Nat.lt_succ_self _
    · exact (hc.numbered link l' hl).trans (Nat.lt_succ_self _)

/-- A successful attempt adds one link to the open ones. -/
theorem grown_of_connected (hc : Coherent shape w) (hn : w.nodes node=some n)
    (h : Connected w node (env node) l t) : Grown (EpollWorks env) w t where
  devices := connected_devices hn h
  links := fun _ _ => connected_links_kept hc h
  new := by
    intro link l' hl
    rcases connected_links_some h hl with ⟨rfl,rfl⟩|⟨-,hl⟩
    · exact .inr ⟨le_rfl,h.empty⟩
    · exact .inl hl
  kept := by
    intro link l' hl
    rcases h.events with he|⟨-,he⟩
    · rw [he]
    · rw [he,register_of_ne (connected_fd_ne hc h hl)]
  registered := by
    intro hw link l' hl hnone hlt
    rcases connected_links_some h hl with ⟨rfl,rfl⟩|⟨-,hl⟩
    · rw [h.setsize] at hlt
      rw [h.registered hlt (hw node),register_self hc h]
      exact eventFlags_ne_none hc.topology (hc.topology.covered node n hn)
    · rw [hnone] at hl
      exact absurd hl (by simp)
  setsize := h.setsize
  nextLink := by rw [h.nextLink]; exact Nat.le_succ _
  transfers := h.transfers

end Connect

/-- The invariant of a reconnect that started in `w`. -/
structure Growing (shape : Shape) (env : NodePtr → ConnectResults) (w t : World) : Prop where
  /-- The state is coherent. -/
  coherent : Coherent shape t
  /-- Only new links were added. -/
  grown : Grown (EpollWorks env) w t

/-- A message was logged, and nothing else happened. -/
structure Noted (t u : World) : Prop where
  /-- Nothing the loop depends on has changed. -/
  quiet : Quiet t u
  /-- Nothing outside has changed. -/
  files : SameFiles t u

/-- One connect attempt, on a node without a link. -/
structure AttemptStep (env : NodePtr → ConnectResults) (t : World) (node : NodePtr) (u : World) :
    Prop where
  /-- The node is live and has no link. -/
  live : ∃ n,t.nodes node=some n ∧ n.link=none
  /-- What the attempt leaves outside. -/
  outcome : Outcome t node (nodeAt t node) (env node) u
  /-- What it does to the heap. -/
  result : if attemptWorks (nodeAt t node) (env node) then ∃ l,Connected t node (env node) l u
    else Abandoned t u

/-- A reconnect from `w` that has attempted these nodes one after another. -/
inductive AttemptRun (env : NodePtr → ConnectResults) (w : World) : List NodePtr → World → Prop
  /-- No attempt yet. -/
  | start : AttemptRun env w [] w
  /-- A message. -/
  | note {nodes : List NodePtr} {t u : World} : AttemptRun env w nodes t → Noted t u →
      AttemptRun env w nodes u
  /-- One more attempt. -/
  | attempt {nodes : List NodePtr} {t u : World} {node : NodePtr} : AttemptRun env w nodes t →
      AttemptStep env t node u → AttemptRun env w (nodes++[node]) u

section Attempts

variable {env : NodePtr → ConnectResults} {w t u : World} {shape : Shape} {node other : NodePtr}
variable {n : SerialNode} {nodes : List NodePtr}

/-- A quiet part changes nothing about the growth. -/
theorem Growing.quiet (h : Growing shape env w t) (hq : Quiet t u) : Growing shape env w u :=
  ⟨(quiet_same hq).coherent h.coherent,h.grown.trans (.of_quiet hq)⟩

/-- What an attempt on a node returns and leaves behind. -/
theorem createLink_outcome (env : ConnectResults) (hc : Coherent shape w)
    (hn : w.nodes node=some n) : ∃ u,Outcome w node n env u ∧ if attemptWorks n env then
      serialCreateLink node env w=.ok (some w.nextLink) u ∧ ∃ l,Connected w node env l u
    else serialCreateLink node env w=.ok none u ∧ Abandoned w u :=
  serialCreateLink_outcome env hc.topology (hc.topology.covered node n hn) hc.nextLink_unused hn

/-- What the call does with a node without a link. -/
theorem serialConnectNode_outcome (env : ConnectResults) (hc : Coherent shape w)
    (hn : w.nodes node=some n) (hfree : n.link=none) :
    ∃ u,Outcome w node n env u ∧
      serialConnectNode node env w=.ok (attemptWorks n env) u ∧
      if attemptWorks n env then ∃ l,Connected w node env l u else Abandoned w u := by
  obtain ⟨u,ho,hx⟩ := createLink_outcome env hc hn
  refine ⟨u,ho,?_⟩
  rw [serialConnectNode,bind_of_ok (derefNode_of_some hn),hfree]
  cases hw : attemptWorks n env with
  | false =>
    rw [hw,if_neg Bool.false_ne_true] at hx
    exact ⟨by simp [hx.1],by simpa using hx.2⟩
  | true =>
    rw [hw,if_pos rfl] at hx
    exact ⟨by simp [hx.1],by simpa using hx.2⟩

/-- The attempt is one step of a reconnect. -/
theorem serialConnectNode_step (env : NodePtr → ConnectResults) (hc : Coherent shape t)
    (hn : t.nodes node=some n) (hfree : n.link=none) :
    ∃ u,serialConnectNode node (env node) t=.ok (attemptWorks n (env node)) u ∧
      AttemptStep env t node u := by
  obtain ⟨u,ho,hx,hresult⟩ := serialConnectNode_outcome (env node) hc hn hfree
  have he := nodeAt_of_some hn
  exact ⟨u,hx,⟨n,hn,hfree⟩,he.symm ▸ ho,he.symm ▸ hresult⟩

namespace AttemptStep

/-- An attempt only adds. -/
theorem growing (h : AttemptStep env t node u) (hg : Growing shape env w t) :
    Growing shape env w u := by
  obtain ⟨n,hn,hfree⟩ := h.live
  have hresult := h.result
  split at hresult
  · obtain ⟨l,hcon⟩ := hresult
    exact ⟨coherent_of_connected hg.coherent hn hfree hcon,
      hg.grown.trans (grown_of_connected hg.coherent hn hcon)⟩
  · exact ⟨coherent_of_abandoned hg.coherent hresult,hg.grown.trans (.of_abandoned hresult)⟩

/-- The other nodes are as before. -/
theorem others (h : AttemptStep env t node u) (hne : other≠node) :
    u.nodes other=t.nodes other := by
  have hresult := h.result
  split at hresult
  · obtain ⟨l,hcon⟩ := hresult
    rw [hcon.nodes,Function.update_of_ne hne]
  · rw [hresult.nodes]

/-- The node is linked behind the attempt exactly when it succeeded. -/
theorem linked (h : AttemptStep env t node u) (hn : t.nodes node=some n) :
    ∃ link,u.nodes node=some {n with link := link} ∧
      link.isSome=attemptWorks n (env node) := by
  obtain ⟨n',hn',hfree⟩ := h.live
  rw [hn,Option.some.injEq] at hn'
  subst hn'
  have hresult := h.result
  rw [nodeAt_of_some hn] at hresult
  cases hw : attemptWorks n (env node) with
  | true =>
    rw [hw,if_pos rfl] at hresult
    obtain ⟨l,hcon⟩ := hresult
    exact ⟨some t.nextLink,by rw [hcon.nodes,Function.update_self,nodeAt_of_some hn],rfl⟩
  | false =>
    rw [hw,if_neg Bool.false_ne_true] at hresult
    exact ⟨none,by rw [hresult.nodes,hn,← hfree],rfl⟩

end AttemptStep

namespace AttemptRun

theorem growing (h : AttemptRun env w nodes t) (hc : Coherent shape w) :
    Growing shape env w t := by
  induction h with
  | start => exact ⟨hc,.refl w⟩
  | note _ hn ih => exact ih.quiet hn.quiet
  | attempt _ hs ih => exact hs.growing ih

/-- There is one attempt for each of the nodes. -/
theorem attempts (h : AttemptRun env w nodes t) :
    attempts t.trace=attempts w.trace++nodes := by
  induction h with
  | start => exact (List.append_nil _).symm
  | note _ hn ih => rw [hn.files.attempts,ih]
  | attempt _ hs ih => rw [hs.outcome.attempts,ih,List.append_assoc]

/-- Nodes that were not attempted are as before. -/
theorem others (h : AttemptRun env w nodes t) (hnot : node∉nodes) :
    t.nodes node=w.nodes node := by
  induction h with
  | start => rfl
  | note _ hn ih => rw [hn.quiet.nodes,ih hnot]
  | attempt _ hs ih =>
    rw [List.mem_append,List.mem_singleton,not_or] at hnot
    rw [hs.others hnot.2,ih hnot.1]

/-- Nodes that were attempted had no link, and have one exactly when the attempt succeeded. -/
theorem linked (h : AttemptRun env w nodes t) (hmem : node∈nodes) :
    ∃ n link,w.nodes node=some n ∧ n.link=none ∧ t.nodes node=some {n with link := link} ∧
      link.isSome=attemptWorks n (env node) := by
  induction h with
  | start => exact absurd hmem List.not_mem_nil
  | note _ hn ih =>
    rw [hn.quiet.nodes]
    exact ih hmem
  | @attempt nodes t u last hrun hs ih =>
    rcases eq_or_ne node last with rfl|hne
    · obtain ⟨n,hn,hfree⟩ := hs.live
      obtain ⟨link,hlink,hworks⟩ := hs.linked hn
      by_cases hold : node∈nodes
      · obtain ⟨n',link',hn',hfree',ht,-⟩ := ih hold
        rw [hn,Option.some.injEq] at ht
        subst ht
        obtain rfl : link'=none := hfree
        rw [show ({n' with link := none} : SerialNode)=n' by rw [← hfree']] at hlink hworks
        exact ⟨n',link,hn',hfree',hlink,hworks⟩
      · exact ⟨n,link,by rw [← hrun.others hold,hn],hfree,hlink,hworks⟩
    · rw [hs.others hne]
      exact ih ((List.mem_append.mp hmem).resolve_right fun h => hne (List.mem_singleton.mp h))

end AttemptRun

end Attempts

/-- The nodes among these that have no link. -/
def unlinked (w : World) (nodes : List NodePtr) : List NodePtr :=
  nodes.filter fun node => (nodeAt w node).link.isNone

/-- A master has a link behind a reconnect. -/
def connects (w : World) (env : NodePtr → ConnectResults) (node : NodePtr) : Bool :=
  (nodeAt w node).link.isSome || attemptWorks (nodeAt w node) (env node)

/-- The attempts on a master and its virtuals. -/
def groupAttempts (w : World) (env : NodePtr → ConnectResults) (g : NodePtr×List NodePtr) :
    List NodePtr :=
  unlinked w [g.1]++if connects w env g.1 then unlinked w g.2 else []

/-- The attempts of a reconnect, in order. -/
def attemptOrder (w : World) (env : NodePtr → ConnectResults) (shape : Shape) : List NodePtr :=
  shape.flatMap (groupAttempts w env)

section Loops

variable {env : NodePtr → ConnectResults} {w t : World} {shape : Shape} {node : NodePtr}
variable {n : SerialNode} {nodes : List NodePtr}

/-- A message is noted. -/
theorem serverLog_noted (level : ℕ) (text : CString) (t : World) :
    ∃ u,serverLog level text t=.ok () u ∧ Noted t u := by
  refine ⟨{t with trace := t.trace++[.log level text]},rfl,
    ⟨rfl,rfl,rfl,rfl,rfl,rfl,rfl,rfl,rfl,rfl,?_⟩,rfl,rfl,?_⟩
  · rw [transfers_append]
    exact List.append_nil _
  · rw [attempts_append]
    exact List.append_nil _

/-- The message about a node that has a link. -/
theorem logReconnected_noted (hc : Coherent shape t) (hm : shape.Mem node) {link : LinkPtr}
    (hn : t.nodes node=some n) (hlink : n.link=some link) (text : CString) :
    ∃ u,logReconnected text node t=.ok () u ∧ Noted t u := by
  obtain ⟨l,hl,-⟩ := hc.linked node n link hn hlink
  rw [logReconnected,bind_of_ok (derefNode_of_some hn),hlink,nonNull,
    bind_of_ok (pure_apply _ _),bind_of_ok (derefLink_of_some hl),serialEventString,bind_assoc,
    bind_of_ok (serialEventFlags_apply hc.topology hm),pure_bind]
  exact serverLog_noted llInfo _ t

/-- A node without a link is attempted, and its message follows. -/
theorem connect_noted (hc : Coherent shape w) (h : AttemptRun env w nodes t) (hm : shape.Mem node)
    (hn : t.nodes node=some n) (hfree : n.link=none) (success failure : CString) :
    ∃ s u,serialConnectNode node (env node) t=.ok (attemptWorks n (env node)) s ∧
      (if attemptWorks n (env node) then logReconnected success node
        else serverLog llWarn (failure++n.name) : Prog Unit) s=.ok () u ∧
      AttemptRun env w (nodes++[node]) u := by
  obtain ⟨s,hx,hs⟩ := serialConnectNode_step env (h.growing hc).coherent hn hfree
  have hrun := h.attempt hs
  obtain ⟨link,hlink,hworks⟩ := hs.linked hn
  cases hw : attemptWorks n (env node) with
  | true =>
    obtain ⟨link,rfl⟩ := Option.isSome_iff_exists.mp (hworks.trans hw)
    obtain ⟨u,hu,hnoted⟩ := logReconnected_noted (hrun.growing hc).coherent hm hlink rfl success
    exact ⟨s,u,hw ▸ hx,by rw [if_pos rfl,hu],hrun.note hnoted⟩
  | false =>
    obtain ⟨u,hu,hnoted⟩ := serverLog_noted llWarn (failure++n.name) s
    exact ⟨s,u,hw ▸ hx,by rw [if_neg Bool.false_ne_true,hu],hrun.note hnoted⟩

/-- One turn of the loop over the virtuals of a master. -/
theorem reconnectVirtual_rule (hc : Coherent shape w) (hm : shape.Mem node) (hnot : node∉nodes) :
    Ensures (AttemptRun env w nodes) (reconnectVirtual env node)
      (fun _ => AttemptRun env w (nodes++unlinked w [node])) fun _ _ => False := by
  intro t h
  obtain ⟨n,hn⟩ := hc.topology.live_of_mem hm
  have ht := (h.others hnot).trans hn
  rw [reconnectVirtual,bind_of_ok (derefNode_of_some ht),unlinked,List.filter_singleton,
    nodeAt_of_some hn]
  cases hfree : n.link with
  | some link =>
    rw [Option.isNone_some]
    simpa using h
  | none =>
    obtain ⟨s,u,hx,hu,hrun⟩ := connect_noted hc h hm ht hfree "Reconnected virtual: ".toList
      "Problem reconnecting virtual serial device: ".toList
    rw [Option.isNone_none,if_pos rfl,bind_of_ok hx,hu]
    exact hrun

/-- The attempt on a master, before its virtuals. -/
theorem reconnectSerial_rule (hc : Coherent shape w) (hm : shape.Mem node) (hnot : node∉nodes) :
    Ensures (AttemptRun env w nodes) (reconnectSerial env node) (fun connected t =>
      connected=connects w env node ∧ AttemptRun env w (nodes++unlinked w [node]) t)
      fun _ _ => False := by
  intro t h
  obtain ⟨n,hn⟩ := hc.topology.live_of_mem hm
  have ht := (h.others hnot).trans hn
  rw [reconnectSerial,bind_of_ok (derefNode_of_some ht),unlinked,List.filter_singleton,connects,
    nodeAt_of_some hn]
  cases hfree : n.link with
  | some link =>
    rw [Option.isNone_some,Option.isSome_some]
    simpa using h
  | none =>
    obtain ⟨s,u,hx,hu,hrun⟩ := connect_noted hc h hm ht hfree "Reconnected serial: ".toList
      "Problem reconnecting serial device: ".toList
    rw [Option.isNone_none,if_pos rfl,bind_of_ok hx,Option.isSome_none,Bool.false_or]
    cases hw : attemptWorks n (env node) with
    | true =>
      rw [hw,if_pos rfl] at hu
      rw [if_pos rfl,bind_of_ok hu]
      exact ⟨rfl,hrun⟩
    | false =>
      rw [hw,if_neg Bool.false_ne_true] at hu
      rw [if_neg Bool.false_ne_true,bind_of_ok hu]
      exact ⟨rfl,hrun⟩

/-- The nodes without a link in two groups come one after another. -/
theorem unlinked_append (w : World) (nodes nodes' : List NodePtr) :
    unlinked w (nodes++nodes')=unlinked w nodes++unlinked w nodes' := List.filter_append _ _

/-- They are among the nodes. -/
theorem mem_of_unlinked (h : node∈unlinked w nodes) : node∈nodes := List.mem_of_mem_filter h

/-- The attempts of a group are for its nodes. -/
theorem mem_of_groupAttempts {g : NodePtr×List NodePtr} (h : node∈groupAttempts w env g) :
    node∈g.1::g.2 := by
  rcases List.mem_append.mp h with hm|hv
  · exact List.mem_cons.mpr (.inl (List.mem_singleton.mp (mem_of_unlinked hm)))
  · split at hv
    · exact List.mem_cons_of_mem _ (mem_of_unlinked hv)
    · exact absurd hv List.not_mem_nil

/-- Attempts are made on nodes of the tree only. -/
theorem mem_of_attemptOrder (h : node∈attemptOrder w env shape) :
    node∈shape.flatMap fun g => g.1::g.2 := by
  obtain ⟨g,hg,hm⟩ := List.mem_flatMap.mp h
  exact List.mem_flatMap.mpr ⟨g,hg,mem_of_groupAttempts hm⟩

/-- One turn of the loop over the masters. -/
theorem reconnectMaster_rule (hc : Coherent shape w) {done todo : Shape}
    {g : NodePtr×List NodePtr} (hsplit : shape=done++g::todo) :
    Ensures (AttemptRun env w (attemptOrder w env done)) (reconnectMaster env g.1)
      (fun _ => AttemptRun env w (attemptOrder w env (done++[g]))) fun _ _ => False := by
  have hg : g∈shape := hsplit ▸ by simp
  have hall := hc.topology.nodes_nodup
  rw [hsplit,List.flatMap_append,List.flatMap_cons] at hall
  have hdone : ∀ node∈g.1::g.2,node∉attemptOrder w env done := fun node hm hd =>
    List.disjoint_of_nodup_append hall (mem_of_attemptOrder hd) (List.mem_append_left _ hm)
  have hgroup : (g.1::g.2).Nodup := (List.nodup_append.mp hall.of_append_right).1
  have horder : attemptOrder w env (done++[g])=
      attemptOrder w env done++groupAttempts w env g := by
    simp [attemptOrder]
  rw [horder,groupAttempts]
  refine (reconnectSerial_rule hc ⟨g,hg,.inl rfl⟩ (hdone g.1 List.mem_cons_self)).bind
    fun connected => ?_
  rintro t ⟨rfl,ht⟩
  cases connects w env g.1 with
  | false =>
    rw [if_neg Bool.false_ne_true,if_neg Bool.false_ne_true,List.append_nil]
    exact ht
  | true =>
    have hdev := (ht.growing hc).grown.devices
    obtain ⟨m,hm,-,-,hchain⟩ := (hdev.topology hc.topology).master g hg
    rw [if_pos rfl,bind_of_ok (derefNode_of_some hm),if_pos rfl,← List.append_assoc]
    have hrule := visitNodes_rule (E:=fun _ _ => False) (reconnectVirtual env)
      (fun vs => AttemptRun env w ((attemptOrder w env done++unlinked w [g.1])++unlinked w vs))
      (fun _ v hv => hdev.symm.trans (hv.growing hc).grown.devices) (fun vs v rest hvs => ?_)
      hchain ((hdev.topology hc.topology).virtuals_length hg)
    · refine hrule t ?_
      rw [show unlinked w []=[] from rfl,List.append_nil]
      exact ht
    · rw [unlinked_append,← List.append_assoc]
      have hv : v∈g.2 := hvs ▸ by simp
      refine reconnectVirtual_rule hc ⟨g,hg,.inr hv⟩ fun hmem => ?_
      rcases List.mem_append.mp hmem with hmem|hmem
      · rcases List.mem_append.mp hmem with hmem|hmem
        · exact hdone v (List.mem_cons_of_mem _ hv) hmem
        · rw [List.mem_singleton.mp (mem_of_unlinked hmem)] at hv
          exact (List.nodup_cons.mp hgroup).1 hv
      · have hn := (List.nodup_cons.mp hgroup).2
        rw [hvs] at hn
        exact List.disjoint_of_nodup_append hn (mem_of_unlinked hmem) List.mem_cons_self

/-- A reconnect returns, and is a run of attempts in the order of the lists. -/
theorem serialReconnect_attempts (hc : Coherent shape w) (env : NodePtr → ConnectResults) :
    ∃ t,serialReconnect env w=.ok () t ∧ AttemptRun env w (attemptOrder w env shape) t := by
  have hrule := visitMasters_rule (E:=fun _ _ => False) (reconnectMaster env) hc.topology
    (fun done => AttemptRun env w (attemptOrder w env done))
    (fun _ _ ht => (ht.growing hc).grown.devices)
    fun done g todo hsplit => reconnectMaster_rule hc hsplit
  simp only [serialReconnect,bind_apply,get_apply]
  cases hx : visitNodes (reconnectMaster env) w.masterHead w with
  | error f t => exact absurd (hrule.of_error .start hx) id
  | ok _ t => exact ⟨t,rfl,hrule.of_ok .start hx⟩

/-- A reconnect returns, and has only added links. -/
theorem serialReconnect_spec (hc : Coherent shape w) (env : NodePtr → ConnectResults) :
    ∃ t,serialReconnect env w=.ok () t ∧ Growing shape env w t := by
  obtain ⟨t,hx,hrun⟩ := serialReconnect_attempts hc env
  exact ⟨t,hx,hrun.growing hc⟩

end Loops

end SerialProxy.Reconnection
