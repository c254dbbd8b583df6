import SerialProxy.TransferOrigins

/-!
# Registrations of a running daemon

While `epoll_ctl` succeeds and every descriptor lies in the table, every open
link is registered for the events of its node. Then nodes, links and
registrations determine each other between two iterations and whenever a
callback is called.
-/

namespace SerialProxy.Registrations

open FaultPrograms SerialState EventTable SerialNodes SerialLinks SerialConfig EventLoop
open NodeTopology LinkEffects LinkCoherence HandlerEffects DispatchPasses Reconnection
open ConfigLoading Iterations TransferOrigins

/-- Every open link has a descriptor inside the table. -/
def InRange (w : World) : Prop := ∀ link l,w.links link=some l → l.fd<w.setsize

/-- The loop starts behind a reconnect whose registrations succeed. -/
def BootedInRange (w : World) : Prop :=
  ∃ entries env,EpollWorks env ∧ serialInit entries env World.boot=.ok () w ∧ InRange w

/-- An iteration whose registrations succeed. -/
def AdmittedInRange (w : World) (it : Iteration) : Prop :=
  Admitted w it ∧ CronWorks it ∧ InRange (finalState (aeMainStep it w))

/-- Nodes, links and registrations determine each other. -/
structure Wired (shape : Shape) (w : World) : Prop where
  /-- The nodes are those of the lists. -/
  topology : Topology w shape
  /-- The link of a node points back, and is registered for the events of the node. -/
  registered : ∀ node n link,w.nodes node=some n → n.link=some link →
    ∃ l,w.links link=some l ∧ l.node=some node ∧ (w.events l.fd).clientData=some link ∧
      serialEventFlags node w=.ok (w.events l.fd).mask w
  /-- No two links share a descriptor. -/
  distinct : ∀ link l link' l' fd,w.links link=some l → w.links link'=some l' →
    Owns l fd → Owns l' fd → link=link'
  /-- The two descriptors of a link are different. -/
  sides : ∀ link l,w.links link=some l → l.sfd≠l.fd
  /-- A registered descriptor is that of one live link, which one node of the lists holds. -/
  owner : ∀ fd,(w.events fd).mask≠aeNone → ∃! link,∃ l,w.links link=some l ∧ l.fd=fd ∧
    ∃! node,shape.Mem node ∧ ∃ n,w.nodes node=some n ∧ n.link=some link

/-- Every open link is registered for something. -/
def AllRegistered (w : World) : Prop :=
  ∀ link l,w.links link=some l → (w.events l.fd).mask≠aeNone

section Wiring

variable {w s t u : World} {shape : Shape} {it : Iteration} {e : AeFiredEvent}
variable {env : CallResults} {works : Prop}

/-- A coherent state in which every open link is registered. -/
theorem wired_of_registered (hc : Coherent shape w) (hr : AllRegistered w) : Wired shape w where
  topology := hc.topology
  registered := by
    intro node n link hn hlink
    obtain ⟨l,hl,hnode⟩ := hc.linked node n link hn hlink
    have hatt := hc.attached hl
    have hof : nodeOf w link=node := by rw [nodeOf,linkAt_of_some hl,hnode,Option.getD_some]
    obtain ⟨-,he⟩ := hc.registered_fd hatt (by rw [linkAt_of_some hl]; exact hr link l hl)
    rw [linkAt_of_some hl,hof] at he
    refine ⟨l,hl,hnode,by rw [he],?_⟩
    rw [he]
    exact serialEventFlags_apply hc.topology (hc.topology.covered node n hn)
  distinct := hc.separate
  sides := hc.sides
  owner := by
    intro fd hm
    obtain ⟨-,link,l,node,-,hl,hf,hnode,-⟩ := hc.registered fd hm
    obtain ⟨node',n,hback,hn,hlink⟩ := hc.node_live hl
    rw [hnode,Option.some.injEq] at hback
    subst hback
    refine ⟨link,⟨l,hl,hf,node,⟨hc.topology.covered node n hn,n,hn,hlink⟩,?_⟩,?_⟩
    · rintro other ⟨-,n',hn',hlink'⟩
      obtain ⟨l',hl',hback⟩ := hc.linked other n' link hn' hlink'
      rw [hl,Option.some.injEq] at hl'
      rw [← hl',hnode,Option.some.injEq] at hback
      exact hback.symm
    · rintro other ⟨l',hl',hf',-⟩
      exact hc.separate other l' link l fd hl' hl ⟨hf' ▸ hc.connected other l' hl',.inl hf'.symm⟩
        ⟨hf ▸ hc.connected link l hl,.inl hf.symm⟩

/-- A reconnect whose registrations succeed registers its new links. -/
theorem AllRegistered.grown (h : AllRegistered t) (hw : works) (hg : Grown works t u)
    (hr : InRange u) : AllRegistered u := by
  intro link l hl
  cases ht : t.links link with
  | none => exact hg.registered hw link l hl ht (hr link l hl)
  | some l' =>
    have hu := hg.links link l' ht
    rw [hl,Option.some.injEq] at hu
    subst hu
    rw [hg.kept link l ht]
    exact h link l ht

/-- The first pass keeps every open link registered. -/
theorem AllRegistered.reading {done : List AeFiredEvent} (h : AllRegistered w)
    (ht : Reading shape w it done t) : AllRegistered t := by
  intro link l hl
  obtain ⟨l₀,hl₀,hf,-,he⟩ := reading_link ht hl
  rw [he,hf]
  exact h link l₀ hl₀

/-- The second pass keeps every open link registered. -/
theorem AllRegistered.writing {r : World} {done : List AeFiredEvent} (h : AllRegistered w)
    (ht : Writing shape w it r done t) : AllRegistered t := by
  intro link l hl
  obtain ⟨l₀,hl₀,hf,-,he⟩ := writing_link ht hl
  rw [he,hf]
  exact h link l₀ hl₀

/-- The loop starts with every open link registered. -/
theorem booted_registered (h : BootedInRange w) : ∃ shape,Coherent shape w ∧ AllRegistered w := by
  obtain ⟨entries,env,hworks,hinit,hr⟩ := h
  obtain ⟨s,shape,tree,-,-,ho,-,hg⟩ := serialInit_spec hinit
  have hnone : AllRegistered s := by
    intro link l hl
    rw [ho.links] at hl
    exact absurd hl (by simp [World.boot])
  exact ⟨shape,hg.coherent,hnone.grown hworks hg.grown hr⟩

/-- An iteration keeps every open link registered. -/
theorem aeMainStep_registered (hc : Coherent shape w) (h : AllRegistered w)
    (ha : AdmittedInRange w it) (hx : aeMainStep it w=.ok () u) : AllRegistered u := by
  have hr : InRange u := by
    have hrange := ha.2.2
    rwa [hx] at hrange
  have hrule := aeMainStep_rule hc ha.1 (fun _ _ => True) (fun _ _ => True)
    (fun v => InRange v → AllRegistered v) (fun _ _ => True) (fun _ _ => trivial)
    (fun _ _ _ _ _ _ _ _ => trivial) (fun _ _ _ _ _ _ _ _ _ _ => by split <;> trivial)
    (fun _ _ _ => trivial) (fun _ _ _ _ _ _ _ _ _ => trivial)
    (fun _ _ _ _ _ _ _ _ _ _ _ => trivial)
    fun r t v ht _ _ hg hv => (h.writing ht).grown ha.2.1 hg hv
  exact hrule.of_ok rfl hx hr

/-- A callback finds nodes, links and registrations wired, and gets a live link. -/
theorem handlerCall_wired (hc : Coherent shape w) (h : AllRegistered w) (ha : Admitted w it)
    (hcall : HandlerCall w it t e env) : Wired shape t ∧
      ∃ link l,(t.events e.fd).clientData=some link ∧ t.links link=some l := by
  obtain ⟨hct,link,hs⟩ := handlerCall_serves hc ha hcall
  refine ⟨wired_of_registered hct ?_,link,_,hs.client,hs.attached.live⟩
  cases hcall with
  | first hcall =>
    obtain ⟨done,todo,-,ht⟩ := reading_of_firstCall hc ha hcall
    exact h.reading ht
  | second hcall _ =>
    obtain ⟨r,done,todo,-,ht⟩ := writing_of_secondTurn hc ha hcall
    exact h.writing ht

/-- While `epoll_ctl` succeeds and every descriptor lies in the table, nodes, links and
registrations determine each other between two iterations and at every call of the callback,
which always gets a live link. -/
theorem registrations_coherent (h : Reachable BootedInRange aeMainStep AdmittedInRange w) :
    ∃ shape,Wired shape w ∧ ∀ it t e env,Admitted w it → HandlerCall w it t e env →
      Wired shape t ∧ ∃ link l,(t.events e.fd).clientData=some link ∧ t.links link=some l := by
  obtain ⟨shape,hc,hr⟩ := Reachable.invariant (I:=fun w => ∃ shape,Coherent shape w ∧
    AllRegistered w) h (fun _ hb => booted_registered hb)
    fun _ _ _ ⟨shape,hc,hr⟩ ha hx =>
      ⟨shape,aeMainStep_coherent hc ha.1 hx,aeMainStep_registered hc hr ha hx⟩
  exact ⟨shape,wired_of_registered hc hr,fun it t e env ha hcall =>
    handlerCall_wired hc hr ha hcall⟩

theorem sampleBoot_inRange : BootedInRange sampleBoot := by
  refine ⟨sampleEntries,fun _ => workingConnect,fun _ => rfl,
    eq_ok_of_returns (by decide +kernel),fun link l hl => ?_⟩
  obtain ⟨shape,hc,-⟩ := booted_coherent sampleBoot_booted
  have hall : ∀ link<sampleBoot.nextLink,
      (sampleBoot.links link).all (fun l => decide (l.fd<(sampleBoot.setsize : ℤ)))=true := by decide +kernel
  have hlink := hall link (hc.numbered link l hl)
  rw [hl] at hlink
  exact of_decide_eq_true hlink

theorem registrations_coherent_exchange : ∃ shape,Wired shape sampleBoot ∧
    ∀ t e env,HandlerCall sampleBoot exchange t e env →
      Wired shape t ∧ ∃ link l,(t.events e.fd).clientData=some link ∧ t.links link=some l :=
  let ⟨shape,hw,hcalls⟩ := registrations_coherent (w:=sampleBoot)
    ⟨_,[],sampleBoot_inRange,.nil _⟩
  ⟨shape,hw,fun t e env => hcalls exchange t e env exchange_admitted⟩

end Wiring

end SerialProxy.Registrations
