import SerialProxy.EventLoop
import SerialProxy.HandlerEffects

/-!
# The two passes over the fired events

In the middle of a pass the state differs from that at its start only at the
descriptors already handled, where a link may have been closed or its buffer
filled. A property of a pass follows from what one callback preserves.
-/

namespace SerialProxy.DispatchPasses

open FaultPrograms LinkedCells CText SerialState EventTable SerialNodes SerialLinks EventLoop
open NodeTopology LinkEffects LinkCoherence HandlerEffects

/-- A state in the middle of a pass that started in `s` and has handled these
descriptors. -/
structure Midpass (shape : Shape) (s : World) (done : List Fd) (t : World) : Prop where
  /-- The state is coherent. -/
  coherent : Coherent shape t
  /-- Devices are those of the start. -/
  devices : SameDevices s t
  /-- Links were only closed, or their buffers changed. -/
  links : ∀ link l',t.links link=some l' → ∃ l,s.links link=some l ∧ l'.fd=l.fd ∧ l'.sfd=l.sfd ∧
    l'.node=l.node
  /-- Links with a later descriptor are as at the start. -/
  later : ∀ link l,s.links link=some l → l.fd∉done → t.links link=some l
  /-- Registrations were only removed. -/
  events : ∀ fd,(t.events fd).mask=aeNone ∨ t.events fd=s.events fd
  /-- Open links keep their registrations. -/
  kept : ∀ link l,t.links link=some l → t.events l.fd=s.events l.fd
  /-- Later registrations are as at the start. -/
  laterEvents : ∀ fd,fd∉done → t.events fd=s.events fd
  /-- The table has its size. -/
  setsize : t.setsize=s.setsize
  /-- No link was allocated. -/
  nextLink : t.nextLink=s.nextLink

namespace Midpass

variable {shape : Shape} {s t u : World} {done : List Fd} {fd : Fd} {link : LinkPtr}

theorem start (hc : Coherent shape s) : Midpass shape s [] s where
  coherent := hc
  devices := .refl s
  links := fun _ l hl => ⟨l,hl,rfl,rfl,rfl⟩
  later := fun _ _ hl _ => hl
  events := fun _ => .inr rfl
  kept := fun _ _ _ => rfl
  laterEvents := fun _ _ => rfl
  setsize := rfl
  nextLink := rfl

/-- A descriptor that is passed over. -/
theorem skip (h : Midpass shape s done t) (fd : Fd) : Midpass shape s (done++[fd]) t where
  coherent := h.coherent
  devices := h.devices
  links := h.links
  later := fun link l hl hf => h.later link l hl fun hd => hf (List.mem_append_left _ hd)
  events := h.events
  kept := h.kept
  laterEvents := fun fd hf => h.laterEvents fd fun hd => hf (List.mem_append_left _ hd)
  setsize := h.setsize
  nextLink := h.nextLink

/-- A descriptor whose callback has run. -/
theorem call (h : Midpass shape s done t) (ha : Attached t link) {calls : List Call}
    {own : Option SerialLink} (he : Effect shape t link calls own u) :
    Midpass shape s (done++[(linkAt t link).fd]) u where
  coherent := he.coherent
  devices := h.devices.trans he.confined.devices
  links := by
    intro other l'' hl''
    rcases eq_or_ne other link with rfl|hne
    · obtain ⟨l',hl',hf',hs',hn'⟩ := he.confined.own l'' hl''
      obtain ⟨l,hl,hf,hs,hn⟩ := h.links other l' hl'
      exact ⟨l,hl,hf'.trans hf,hs'.trans hs,hn'.trans hn⟩
    · rw [he.confined.links other hne] at hl''
      exact h.links other l'' hl''
  later := by
    intro other l hl hf
    have hl' := h.later other l hl fun hd => hf (List.mem_append_left _ hd)
    have hne : other≠link := by
      rintro rfl
      exact hf (List.mem_append_right _ (by simp [linkAt_of_some hl']))
    rw [he.confined.links other hne,hl']
  events := by
    intro fd
    rcases eq_or_ne fd (linkAt t link).fd with rfl|hne
    · rcases he.confined.ownEvents with ⟨hn,-⟩|he'
      · exact .inl hn
      · rw [he']
        exact h.events _
    · rw [he.confined.events fd hne]
      exact h.events fd
  kept := by
    intro other l'' hl''
    rcases eq_or_ne other link with rfl|hne
    · obtain ⟨l',hl',hf',-⟩ := he.confined.own l'' hl''
      have hfd : (linkAt t other).fd=l'.fd := by rw [linkAt_of_some hl']
      rcases he.confined.ownEvents with ⟨-,hn⟩|he'
      · exact absurd (hl''.symm.trans hn) (by simp)
      · rw [hfd] at he'
        rw [hf',he',h.kept other l' hl']
    · rw [he.confined.links other hne] at hl''
      have hfd : l''.fd≠(linkAt t link).fd := fun he =>
        hne (h.coherent.separate other l'' link _ l''.fd hl'' ha.live
          ⟨h.coherent.connected other l'' hl'',.inl rfl⟩
          ⟨h.coherent.connected other l'' hl'',.inl he⟩)
      rw [he.confined.events _ hfd,h.kept other l'' hl'']
  laterEvents := by
    intro fd hf
    have hne : fd≠(linkAt t link).fd := by
      rintro rfl
      exact hf (List.mem_append_right _ (by simp))
    rw [he.confined.events fd hne]
    exact h.laterEvents fd fun hd => hf (List.mem_append_left _ hd)
  setsize := he.confined.setsize.trans h.setsize
  nextLink := he.confined.nextLink.trans h.nextLink

end Midpass

/-- The fired event that a pass starting in `w` leaves for the next one. -/
def settled (w : World) (event : EventMask) (e : AeFiredEvent) : AeFiredEvent :=
  if Fires w event e then {e with mask := e.mask &&& ~~~event} else e

/-- A fired event of a registered descriptor goes to the attached link with that descriptor. -/
theorem client_of_fires {shape : Shape} {w : World} {event : EventMask} {e : AeFiredEvent}
    (hc : Coherent shape w) (h : Fires w event e) :
    ∃ link,(w.events e.fd).clientData=some link ∧ Attached w link ∧ (linkAt w link).fd=e.fd := by
  have hm : (w.events e.fd).mask≠aeNone := by
    intro h0
    apply h
    rw [h0]
    simp [aeNone]
  obtain ⟨-,link,l,node,hd,hl,hf,-⟩ := hc.registered e.fd hm
  exact ⟨link,hd,hc.attached hl,by rw [linkAt_of_some hl,hf]⟩

/-- The callback of a fired event, called in state `t` for its link, and the
state it reaches. -/
structure Calling (shape : Shape) (t : World) (event : EventMask) (e : AeFiredEvent)
    (env : CallResults) (link : LinkPtr) (u : World) : Prop where
  /-- The event of the pass is fired and registered. -/
  fires : Fires t event e
  /-- The callback gets this link. -/
  client : (t.events e.fd).clientData=some link
  /-- The link is attached. -/
  attached : Attached t link
  /-- Its descriptor is the fired one. -/
  fd : (linkAt t link).fd=e.fd
  /-- What the callback does. -/
  effect : Effect shape t link (eventCalls t link e.mask env) (eventLink t link e.mask env) u
  /-- How it ends. -/
  run : serialEventHandler (some link) e.mask env t=
    if UsesFreed t e.mask env then .error (.freedLink link) u else .ok () u

/-- A pass over some fired events that has handled these and returned so far. -/
structure Turn (shape : Shape) (event : EventMask) (results : AeFiredEvent → CallResults)
    (s : World) (done : List AeFiredEvent) (t : World) : Prop where
  /-- The part done has returned. -/
  run : ∃ done',dispatchPass event results done s=.ok done' t
  /-- The state is that of a pass in the middle. -/
  mid : Midpass shape s (done.map AeFiredEvent.fd) t

section Rule

variable {shape : Shape} {s t : World} {event : EventMask} {results : AeFiredEvent → CallResults}
variable {fired done todo : List AeFiredEvent} {e : AeFiredEvent}

theorem calling_of_fires (hc : Coherent shape t) (h : Fires t event e) (env : CallResults) :
    ∃ link u,Calling shape t event e env link u := by
  obtain ⟨link,hd,ha,hf⟩ := client_of_fires hc h
  obtain ⟨u,he,hx⟩ := serialEventHandler_spec hc ha e.mask env
  exact ⟨link,u,h,hd,ha,hf,he,hx⟩

theorem dispatchFired_skip (h : ¬ Fires t event e) : dispatchFired event results e t=.ok e t := by
  have h' : ¬ (t.events e.fd).mask &&& e.mask &&& event≠0 := h
  simp only [dispatchFired,bind_apply,get_apply,if_neg h',pure_apply]

/-- A turn that calls the callback returns or faults as the callback does. -/
theorem dispatchFired_call (results : AeFiredEvent → CallResults) {link : LinkPtr} {u : World}
    (h : Calling shape t event e (results e) link u) :
    dispatchFired event results e t=
      if UsesFreed t e.mask (results e) then .error (.freedLink link) u
      else .ok {e with mask := e.mask &&& ~~~event} u := by
  have h' : (t.events e.fd).mask &&& e.mask &&& event≠0 := h.fires
  simp only [dispatchFired,bind_apply,get_apply,if_pos h',h.client,h.run]
  by_cases hu : UsesFreed t e.mask (results e)
  · simp only [if_pos hu]
  · simp only [if_neg hu,pure_apply]

/-- A pass over more events goes on where it was. -/
theorem dispatchPass_append {done' : List AeFiredEvent}
    (h : dispatchPass event results done s=.ok done' t) (todo : List AeFiredEvent) :
    dispatchPass event results (done++todo) s=
      ((done'++·) <$> dispatchPass event results todo) t := by
  induction done generalizing s done' with
  | nil =>
    obtain ⟨rfl,rfl⟩ := (EStateM.Result.ok.injEq _ _ _ _).mp h
    rw [map_apply]
    cases hx : dispatchPass event results todo s <;> simp [hx]
  | cons a done ih =>
    rw [dispatchPass] at h
    obtain ⟨a',v,ha,h⟩ := bind_ok_iff.mp h
    obtain ⟨d',u,hd,h⟩ := bind_ok_iff.mp h
    obtain ⟨rfl,rfl⟩ := (EStateM.Result.ok.injEq _ _ _ _).mp h
    rw [List.cons_append,dispatchPass,bind_of_ok ha,bind_apply,ih hd,map_apply,map_apply]
    cases dispatchPass event results todo u with
    | ok r x => rfl
    | error f x => rfl

/-- One more turn of a pass. -/
theorem dispatchPass_snoc {done' : List AeFiredEvent} {e' : AeFiredEvent} {u : World}
    (h : dispatchPass event results done s=.ok done' t)
    (he : dispatchFired event results e t=.ok e' u) :
    dispatchPass event results (done++[e]) s=.ok (done'++[e']) u := by
  rw [dispatchPass_append h,map_apply,dispatchPass,bind_of_ok he]
  rfl

/-- A fault of one turn ends the pass. -/
theorem dispatchPass_fault {done' : List AeFiredEvent} {f : Fault} {u : World}
    (h : dispatchPass event results done s=.ok done' t)
    (he : dispatchFired event results e t=.error f u) (todo : List AeFiredEvent) :
    dispatchPass event results (done++e::todo) s=.error f u := by
  rw [dispatchPass_append h,map_apply,dispatchPass,bind_of_error he]

/-- The fired event at hand is not one of those already handled. -/
theorem fd_not_done (hn : (fired.map AeFiredEvent.fd).Nodup) (hsplit : fired=done++e::todo) :
    e.fd∉done.map AeFiredEvent.fd := by
  rw [hsplit,List.map_append,List.map_cons] at hn
  intro hmem
  exact (List.nodup_append.mp hn).2.2 _ hmem e.fd (by simp) rfl

/-- One turn of a pass keeps an invariant that skipping and calling keep. -/
theorem dispatchFired_rule (hn : (fired.map AeFiredEvent.fd).Nodup) (hsplit : fired=done++e::todo)
    {I J : World → Prop} {E : Fault → World → Prop}
    (hskip : ∀ t,Turn shape event results s done t → I t → ¬ Fires t event e → J t)
    (hcall : ∀ t link u,Turn shape event results s done t → I t →
      Calling shape t event e (results e) link u →
      if UsesFreed t e.mask (results e) then E (.freedLink link) u else J u) :
    Ensures (fun t => Turn shape event results s done t ∧ I t)
      (dispatchFired event results e)
      (fun e' t => e'=settled s event e ∧ Turn shape event results s (done++[e]) t ∧ J t) E := by
  rintro t ⟨hm,hi⟩
  have hfires : Fires s event e ↔ Fires t event e := by
    rw [Fires,Fires,hm.mid.laterEvents e.fd (fd_not_done hn hsplit)]
  have hfds : (done++[e]).map AeFiredEvent.fd=done.map AeFiredEvent.fd++[e.fd] := by simp
  obtain ⟨done',hrun⟩ := hm.run
  by_cases hf : Fires t event e
  · obtain ⟨link,u,hcalling⟩ := calling_of_fires hm.mid.coherent hf (results e)
    have hnext := hcall t link u hm hi hcalling
    have hx := dispatchFired_call results hcalling
    rw [hx]
    by_cases hu : UsesFreed t e.mask (results e)
    · rw [if_pos hu] at hnext ⊢
      exact hnext
    · rw [if_neg hu] at hnext hx ⊢
      refine ⟨(if_pos (hfires.mpr hf)).symm,⟨⟨_,dispatchPass_snoc hrun hx⟩,?_⟩,hnext⟩
      rw [hfds]
      exact hcalling.fd ▸ hm.mid.call hcalling.attached hcalling.effect
  · have hx : dispatchFired event results e t=.ok e t := dispatchFired_skip hf
    rw [hx]
    refine ⟨(if_neg fun h => hf (hfires.mp h)).symm,⟨⟨_,dispatchPass_snoc hrun hx⟩,?_⟩,
      hskip t hm hi hf⟩
    rw [hfds]
    exact hm.mid.skip e.fd

/-- Rule for a pass over fired events of distinct descriptors: the invariant
is indexed by the events already handled. -/
theorem dispatchPass_rule (event : EventMask) (results : AeFiredEvent → CallResults)
    (hc : Coherent shape s) (hn : (fired.map AeFiredEvent.fd).Nodup)
    (I : List AeFiredEvent → World → Prop) (E : Fault → World → Prop) (hstart : I [] s)
    (hskip : ∀ done e todo t,fired=done++e::todo → Turn shape event results s done t →
      I done t → ¬ Fires t event e → I (done++[e]) t)
    (hcall : ∀ done e todo t link u,fired=done++e::todo → Turn shape event results s done t →
      I done t → Calling shape t event e (results e) link u →
      if UsesFreed t e.mask (results e) then E (.freedLink link) u else I (done++[e]) u) :
    Ensures (fun w => w=s) (dispatchPass event results fired)
      (fun fired' t => fired'=fired.map (settled s event) ∧
        Turn shape event results s fired t ∧ I fired t) E := by
  suffices hgen : ∀ todo done,fired=done++todo →
      Ensures (fun t => Turn shape event results s done t ∧ I done t)
        (dispatchPass event results todo)
        (fun todo' t => todo'=todo.map (settled s event) ∧
          Turn shape event results s fired t ∧ I fired t) E by
    rintro w rfl
    exact hgen fired [] rfl w ⟨⟨⟨[],rfl⟩,.start hc⟩,hstart⟩
  intro todo
  induction todo with
  | nil =>
    intro done hsplit
    rw [List.append_nil] at hsplit
    subst hsplit
    exact Ensures.pure fun t ht => ⟨rfl,ht⟩
  | cons e todo ih =>
    intro done hsplit
    have hturn := dispatchFired_rule (J:=I (done++[e])) hn hsplit
      (fun t => hskip done e todo t hsplit) (fun t link u => hcall done e todo t link u hsplit)
    refine hturn.bind fun e' => ?_
    rintro t ⟨rfl,ht⟩
    refine ((ih (done++[e]) (by simp [hsplit])).bind fun todo' => Ensures.pure ?_) t ht
    rintro u ⟨rfl,hu⟩
    exact ⟨rfl,hu⟩

end Rule

end SerialProxy.DispatchPasses
