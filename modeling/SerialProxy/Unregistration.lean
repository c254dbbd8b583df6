import SerialProxy.Release
import SerialProxy.TransferOrigins

/-!
# Registrations of closed links

`_serialFreeLink` computes the events to remove from the node lists as they
are at that moment. While the daemon runs these are the registered ones. In the
teardown the turn of a master comes when its virtuals are gone: the writer is
no longer found, and the master stays registered for writing behind the free.
-/

namespace SerialProxy.Unregistration

open FaultPrograms LinkedCells SerialState EventTable SerialNodes SerialLinks EventLoop
open NodeTopology LinkEffects LinkCoherence HandlerEffects Reconnection Iterations TransferOrigins
open ConfigLoading Teardown Release

/-- The steps in which a daemon in state `w` closes links: the callbacks of an
iteration, connect attempts and the turns of the teardown. -/
inductive ClosingStep (w : World) : World → World → Prop
  /-- A callback of an iteration. -/
  | callback {it : Iteration} {t : World} {e : AeFiredEvent} {env : CallResults} :
      Admitted w it → HandlerCall w it t e env →
      ClosingStep w t (finalState (serialEventHandler (t.events e.fd).clientData e.mask env t))
  /-- A connect attempt, in any state that fits together. -/
  | connect {shape : Shape} {t : World} {node : NodePtr} {env : ConnectResults} :
      Coherent shape t → shape.Mem node →
      ClosingStep w t (finalState (serialConnectNode node env t))
  /-- A turn of the teardown. -/
  | turn {shape : Shape} {done todo : List NodePtr} {node : NodePtr} {t : World}
      {env : NodePtr → Option Errno} : Coherent shape w → termOrder shape=done++node::todo →
      termTurns w env done w=.ok () t → ClosingStep w t (finalState (termTurn w env node t))

/-- Nothing is registered for a closed link. -/
structure Unregistered (u : World) (link : LinkPtr) (fd : Fd) : Prop where
  /-- Its descriptor is not registered. -/
  descriptor : (u.events fd).mask=aeNone
  /-- No registration has it as client data. -/
  client : ∀ fd',(u.events fd').clientData=some link → (u.events fd').mask=aeNone

/-- Every step that closes a registered link leaves it unregistered. -/
def ClosesUnregistered (w : World) : Prop := ∀ t u link l,ClosingStep w t u →
  t.links link=some l → u.links link=none → (t.events l.fd).mask≠aeNone →
    (t.events l.fd).clientData=some link → Unregistered u link l.fd

/-- No registered master has a writer. -/
def WriterlessMasters (w : World) : Prop := ∀ node link,nodeIsMaster (nodeAt w node)=true →
  (nodeAt w node).link=some link → (w.events (linkAt w link).fd).mask≠aeNone →
    serialGetVirtualWriterNode node w=.ok none w

section Callbacks

variable {w t u : World} {shape : Shape} {link : LinkPtr} {l : SerialLink} {node : NodePtr}

/-- In a state that fits together a link that is gone is no client. -/
theorem unclaimed_of_coherent (hc : Coherent shape u) (hl : u.links link=none) {fd : Fd}
    (h : (u.events fd).clientData=some link) : (u.events fd).mask=aeNone := by
  by_contra hm
  obtain ⟨-,p,lp,-,hclient,hlive,-⟩ := hc.registered fd hm
  rw [h,Option.some.injEq] at hclient
  rw [← hclient,hl] at hlive
  exact absurd hlive (by simp)

/-- A callback that closes its link unregisters it. -/
theorem callback_unregisters (hc : Coherent shape w) {it : Iteration} {e : AeFiredEvent}
    {env : CallResults} (ha : Admitted w it) (hcall : HandlerCall w it t e env)
    (hu : u=finalState (serialEventHandler (t.events e.fd).clientData e.mask env t))
    (hl : t.links link=some l) (hgone : u.links link=none)
    (hclient : (t.events l.fd).clientData=some link) : Unregistered u link l.fd := by
  obtain ⟨hct,own,hs⟩ := handlerCall_serves hc ha hcall
  obtain ⟨u',he,hrun⟩ := serialEventHandler_spec hct hs.attached e.mask env
  have hfinal : u=u' := by
    rw [hu,hs.client,hrun]
    split <;> rfl
  subst hfinal
  have hown : link=own := by
    by_contra hne
    rw [he.confined.links link hne,hl] at hgone
    exact absurd hgone (by simp)
  subst hown
  have hlt := linkAt_of_some hl
  refine ⟨?_,fun fd => unclaimed_of_coherent he.coherent hgone⟩
  rcases he.confined.ownEvents with ⟨hm,-⟩|hsame
  · rw [hlt] at hm
    exact hm
  · rw [hlt] at hsame
    exact unclaimed_of_coherent he.coherent hgone (by rw [hsame,hclient])

/-- A connect attempt closes no link of before. -/
theorem connect_keeps {env : ConnectResults} (hc : Coherent shape t) (hm : shape.Mem node)
    (hl : t.links link=some l) :
    (finalState (serialConnectNode node env t)).links link=some l := by
  obtain ⟨n,hn⟩ := hc.topology.live_of_mem hm
  cases hlink : n.link with
  | some link' =>
    have hx : serialConnectNode node env t=.ok false t := by
      rw [serialConnectNode,bind_of_ok (derefNode_of_some hn),hlink]
      rfl
    rw [hx]
    exact hl
  | none =>
    obtain ⟨u,hx,hs⟩ := serialConnectNode_step (fun _ => env) hc hn hlink
    rw [hx]
    exact (hs.growing (w:=t) ⟨hc,.refl t⟩).grown.links link l hl

end Callbacks

section Turns

variable {w t u : World} {shape : Shape} {link : LinkPtr} {l : SerialLink} {node : NodePtr}
variable {done todo : List NodePtr} {env : NodePtr → Option Errno}

/-- The state before a turn, and the turn itself. -/
theorem turn_spec (env : NodePtr → Option Errno) (hc : Coherent shape w)
    (hsplit : termOrder shape=done++node::todo) : ∃ t u,
      termTurns w env done w=.ok () t ∧ Standing w done t ∧
      termTurn w env node t=.ok () u ∧ Turned w done node t u := by
  obtain ⟨t,hrun,hs,-⟩ : ∃ t,termTurns w env done w=.ok () t ∧ Standing w ([]++done) t ∧
      t.trace=w.trace++done.flatMap (termCalls w) :=
    termTurns_spec hc (.start w) (show termOrder shape=[]++(done++node::todo) from hsplit)
  rw [List.nil_append] at hs
  obtain ⟨u,hturn,hu⟩ : ∃ u,termTurn w env node t=.ok () u ∧ Turned w done node t u :=
    termTurn_spec hc hs hsplit
  exact ⟨t,u,hrun,hs,hturn,hu⟩

/-- The link that a turn closes is that of its node. -/
theorem link_of_turn (hs : Standing w done t) (hu : Standing w (done++[node]) u)
    (hl : t.links link=some l) (hgone : u.links link=none) :
    (nodeAt w node).link=some link ∧ w.links link=some l := by
  rw [hs.links,linksAfter] at hl
  split at hl
  · exact absurd hl (by simp)
  · next hnone =>
    refine ⟨?_,hl⟩
    rw [hu.links,linksAfter] at hgone
    split at hgone
    · next hsome =>
      obtain ⟨x,hx,hlink⟩ := hsome
      rcases List.mem_append.mp hx with hx|hx
      · exact absurd ⟨x,hx,hlink⟩ hnone
      · exact List.mem_singleton.mp hx ▸ hlink
    · rw [hl] at hgone
      exact absurd hgone (by simp)

/-- Until the turn of its node, the descriptor of a link keeps its registration. -/
theorem kept_registration (hc : Coherent shape w) (hs : Standing w done t) (hd : node∉done)
    (hlink : (nodeAt w node).link=some link) (hl : w.links link=some l) :
    t.events l.fd=w.events l.fd := by
  refine hs.events l.fd fun x hx p hp hfd => hd ?_
  obtain ⟨lp,hlp,hback⟩ := live_of_link hc hp
  rw [linkAt_of_some hlp] at hfd
  obtain rfl := hc.separate p lp link l l.fd hlp hl
    ⟨hfd ▸ hc.connected p lp hlp,.inl hfd.symm⟩ ⟨hc.connected link l hl,.inl rfl⟩
  obtain ⟨l',hl',hback'⟩ := live_of_link hc hlink
  rw [hlp,Option.some.injEq] at hl'
  rw [← hl',hback,Option.some.injEq] at hback'
  exact hback' ▸ hx

/-- The registration a turn leaves for the descriptor of the link it closes. -/
theorem turn_mask (hc : Coherent shape w) (hs : Standing w done t) (hd : node∉done)
    (hu : Turned w done node t u) (hlink : (nodeAt w node).link=some link)
    (hl : w.links link=some l) (hm : (w.events l.fd).mask≠aeNone) :
    (u.events l.fd).mask=eventFlags w node &&& ~~~termFlags w node := by
  have ha := hc.attached hl
  have hnode : nodeOf w link=node := by
    obtain ⟨l',hl',hback⟩ := live_of_link hc hlink
    rw [nodeOf,linkAt_of_some hl',hback,Option.getD_some]
  have hlw := linkAt_of_some hl
  obtain ⟨hlt,hreg⟩ := hc.registered_fd ha (by rw [hlw]; exact hm)
  rw [hlw,hnode] at hreg
  rw [hlw] at hlt
  have hkeep := kept_registration hc hs hd hlink hl
  have he : (t.events l.fd).mask=eventFlags w node := by rw [hkeep,hreg]
  rw [hu.events,closedEvents,hlink]
  dsimp only [deleteFileEvent]
  rw [hlw,hkeep,if_neg]
  · rw [Function.update_self,hreg]
  · rw [hs.setsize]
    simp [hm,hlt]

/-- Other descriptors have no registration for the link that a turn closes. -/
theorem turn_clients (hc : Coherent shape w) (hu : Standing w (done++[node]) u)
    (hl : w.links link=some l) {fd : Fd} (hne : fd≠l.fd)
    (hclient : (u.events fd).clientData=some link) : (u.events fd).mask=aeNone := by
  by_contra hm
  obtain ⟨hsame,hmask⟩ := hu.clients fd
  obtain ⟨-,p,lp,-,hp,hlp,hfd,-⟩ := hc.registered fd (hmask hm)
  rw [← hsame,hclient,Option.some.injEq] at hp
  rw [← hp,hl,Option.some.injEq] at hlp
  exact hne (hlp ▸ hfd.symm)

end Turns

section Masters

variable {w : World} {shape : Shape}

/-- The turn of a node leaves its descriptor registered if it is a master with a writer. -/
theorem rest_iff (ht : Topology w shape) {node : NodePtr} (hm : shape.Mem node) :
    eventFlags w node &&& ~~~termFlags w node=aeNone ↔
      (nodeIsMaster (nodeAt w node)=true → serialGetVirtualWriterNode node w=.ok none w) := by
  have hrest : (aeReadable ||| aeWritable) &&& ~~~aeReadable≠aeNone := by decide
  obtain ⟨g,hg,rfl|hv⟩ := hm
  · obtain ⟨m,hmn,hf,-⟩ := ht.master g hg
    have hflags : termFlags w g.1=aeReadable := by
      rw [termFlags,nodeAt_of_some hmn,not_nodeIsVirtual_of_flags hf,if_neg Bool.false_ne_true]
    rw [hflags,eventFlags_master ht hg,serialGetVirtualWriterNode_apply ht hg,nodeAt_of_some hmn,
      nodeIsMaster_of_flags hf]
    cases hw : writerOf w g.2 with
    | none => exact iff_of_true (BitVec.and_not_self _) fun _ => rfl
    | some v => exact iff_of_false hrest (by simp)
  · obtain ⟨n,hn,hf,-⟩ := ht.virtual g hg node hv
    rw [termFlags,nodeAt_of_some hn,if_pos (nodeIsVirtual_of_flags hf),
      not_nodeIsMaster_of_flags hf]
    exact iff_of_true (BitVec.and_not_self _) fun h => absurd h Bool.false_ne_true

/-- A registered master with a writer is left registered by its turn of the teardown. -/
theorem writerless_of_closes (hc : Coherent shape w) (hall : ClosesUnregistered w) :
    WriterlessMasters w := by
  intro node link hmaster hlink hm
  obtain ⟨l,hl,-⟩ := live_of_link hc hlink
  obtain ⟨n,hn,-⟩ := node_of_link hlink
  have hmem : shape.Mem node := hc.topology.covered node n hn
  obtain ⟨done,todo,hsplit⟩ := List.append_of_mem (mem_termOrder.mpr hmem)
  obtain ⟨t,u,hrun,hs,hturn,hu⟩ := turn_spec (fun _ => none) hc hsplit
  have hd := (termOrder_split hc.topology hsplit).1
  rw [linkAt_of_some hl] at hm
  have hkeep := kept_registration hc hs hd hlink hl
  obtain ⟨-,hreg⟩ := hc.registered_fd (hc.attached hl) (by rw [linkAt_of_some hl]; exact hm)
  rw [linkAt_of_some hl] at hreg
  have hlive : t.links link=some l := by
    obtain ⟨n,hn⟩ := hc.topology.live_of_mem hmem
    rw [hs.links_kept hc hn hd (nodeAt_of_some hn ▸ hlink),hl]
  have hgone : u.links link=none := by
    rw [hu.standing.links,linksAfter,if_pos ⟨node,by simp,hlink⟩]
  have hstep := ClosingStep.turn hc hsplit hrun
  rw [hturn] at hstep
  have hclosed := (hall t u link l hstep hlive hgone (by rw [hkeep]; exact hm)
    (by rw [hkeep,hreg])).descriptor
  rw [turn_mask hc hs hd hu hlink hl hm] at hclosed
  exact (rest_iff hc.topology hmem).mp hclosed hmaster

/-- A turn of the teardown that closes a link unregisters it when no registered master has
a writer. -/
theorem turn_unregisters (hc : Coherent shape w) (hwriter : WriterlessMasters w)
    {done todo : List NodePtr} {node : NodePtr} {t : World} {env : NodePtr → Option Errno}
    (hsplit : termOrder shape=done++node::todo) (hrun : termTurns w env done w=.ok () t)
    {link : LinkPtr} {l : SerialLink} (hl : t.links link=some l)
    (hgone : (finalState (termTurn w env node t)).links link=none)
    (hm : (t.events l.fd).mask≠aeNone) :
    Unregistered (finalState (termTurn w env node t)) link l.fd := by
  obtain ⟨t',u,hrun',hs,hturn,hu⟩ := turn_spec env hc hsplit
  obtain rfl : t'=t := by
    rw [hrun,EStateM.Result.ok.injEq] at hrun'
    exact hrun'.2.symm
  rw [hturn] at hgone ⊢
  have hd := (termOrder_split hc.topology hsplit).1
  have hmem := mem_termOrder.mp (hsplit ▸ List.mem_append_right _ List.mem_cons_self :
    node∈termOrder shape)
  obtain ⟨hlink,hlw⟩ := link_of_turn hs hu.standing hl hgone
  rw [kept_registration hc hs hd hlink hlw] at hm
  have hnone : (u.events l.fd).mask=aeNone := by
    rw [turn_mask hc hs hd hu hlink hlw hm]
    refine (rest_iff hc.topology hmem).mpr fun hmaster => ?_
    exact hwriter node link hmaster hlink (by rw [linkAt_of_some hlw]; exact hm)
  refine ⟨hnone,fun fd hfd => ?_⟩
  rcases eq_or_ne fd l.fd with rfl|hne
  · exact hnone
  · exact turn_clients hc hu.standing hlw hne hfd

/-- Every close of a registered link unregisters it exactly when no registered master has
a writer: the teardown leaves such a master registered for writing. -/
theorem closes_unregistered_iff (h : Running w) :
    ClosesUnregistered w ↔ WriterlessMasters w := by
  obtain ⟨shape,hc⟩ := running_coherent h
  refine ⟨writerless_of_closes hc,fun hwriter t u link l hstep hl hgone hm hclient => ?_⟩
  cases hstep with
  | callback ha hcall => exact callback_unregisters hc ha hcall rfl hl hgone hclient
  | connect hct hmem =>
    rw [connect_keeps hct hmem hl] at hgone
    exact absurd hgone (by simp)
  | turn hct hsplit hrun => exact turn_unregisters hct hwriter hsplit hrun hl hgone hm

/-- The state in which the loop starts for a device with two virtuals and no writer. -/
def listeningBoot : World :=
  finalState (serialInit (sampleEntries.take 1) (fun _ => workingConnect) World.boot)

theorem listeningBoot_running : Running listeningBoot :=
  ⟨_,[],⟨sampleEntries.take 1,fun _ => workingConnect,eq_ok_of_returns (by decide +kernel)⟩,.nil _⟩

theorem closes_unregistered_iff_listening : ClosesUnregistered listeningBoot := by
  refine (closes_unregistered_iff listeningBoot_running).mpr fun node link hmaster hlink _ => ?_
  obtain ⟨shape,hc⟩ := running_coherent listeningBoot_running
  have hnone : ∀ k<3,nodeIsWriter (nodeAt listeningBoot k)=false := by decide +kernel
  obtain ⟨n,hn,-⟩ := node_of_link hlink
  obtain ⟨g,hg,rfl⟩ := hc.topology.group_of_master (hc.topology.covered node n hn) hmaster
  have hwriter : writerOf listeningBoot g.2=none := by
    refine List.find?_eq_none.mpr fun v hv => ?_
    have hlt : v<3 := (hc.topology.lt_of_mem ⟨g,hg,.inr hv⟩).trans_le (by decide +kernel)
    simp [hnone v hlt]
  rw [serialGetVirtualWriterNode_apply hc.topology hg,hwriter]

/-- The teardown closes the link of a master with a writer and leaves its descriptor
registered for writing. -/
theorem teardown_leaves_registration : ¬ ∀ w,Running w → ClosesUnregistered w := by
  intro h
  obtain ⟨shape,hc⟩ := running_coherent sampleBoot_running
  have hwriter := writerless_of_closes hc (h sampleBoot sampleBoot_running) 0 0
    (by decide +kernel) (by decide +kernel) (by decide +kernel)
  have hfound : valueOf (serialGetVirtualWriterNode 0 sampleBoot)=some (some 1) := by
    decide +kernel
  rw [hwriter,valueOf_ok] at hfound
  exact absurd hfound (by decide)

end Masters

end SerialProxy.Unregistration
