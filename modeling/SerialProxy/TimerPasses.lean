import SerialProxy.TimerRuns
import SerialProxy.ReconnectClock

/-!
# Passes over the timers

What one pass of `processTimeEvents` calls, the timer that the poll waits for, and the timers
of the daemon as a list on the same heap.
-/

namespace SerialProxy.TimerPasses

open FaultPrograms LinkedCells ServerCron ServerRuns ServerStart TimeEvents TimerRuns
open ReconnectClock
open ServerMain (AeTimeEvent aeDeletedEventId aeNomore aeGetTime Daemon Turn aeMainTurn pollTimeout)

/-- The events whose procedures are called, in order. -/
def firedEvents (calls : List TimerCall) : List EventPtr := calls.filterMap fun call =>
  match call with
  | .fire te _ _ _ => some te
  | _ => none

/-- No callback deletes the event with this identifier. -/
def Spared (env : EventPtr → Visit) (id : ℤ) : Prop :=
  ∀ te,.delete id∉(env te).ops ∧ .delete id∉(env te).finalOps

section Passes

variable {s : TimerList} {te other : EventPtr} {t : TimeEvent} {now id : ℤ} {maxId : ℤ}
variable {env : EventPtr → Visit} {ops : List TimerOp} {order : List EventPtr}
variable {steps : List TimerStep}

/-- The events of calls in sequence. -/
theorem firedEvents_append (calls calls' : List TimerCall) :
    firedEvents (calls++calls')=firedEvents calls++firedEvents calls' := List.filterMap_append ..

/-- Creations and releases fire nothing. -/
theorem firedEvents_bookkeeping {calls : List TimerCall} (h : ∀ c∈calls,IsBookkeeping c) :
    firedEvents calls=[] := by
  refine List.filterMap_eq_nil_iff.mpr fun c hc => ?_
  have hbook := h c hc
  cases c with
  | fire | finalize => exact hbook.elim
  | create | free => rfl

/-- As many events fire as procedures are called. -/
theorem firedEvents_length (calls : List TimerCall) :
    (firedEvents calls).length=calls.countP isFire := by
  induction calls with
  | nil => rfl
  | cons c calls ih =>
    rw [List.countP_cons,← ih]
    cases c <;> rfl

/-- An operation that does not delete the event leaves it as it is. -/
theorem spared_performAll (hs : Sound s) (ht : s.event te=some t) (hspared : .delete t.id∉ops) :
    (ops.foldl TimerList.perform s).event te=some t := by
  induction ops generalizing s with
  | nil => exact ht
  | cons op ops ih =>
    have hop : .delete t.id≠op := fun h => hspared (h ▸ List.mem_cons_self)
    refine ih (hs.perform op) ?_ fun h => hspared (List.mem_cons_of_mem _ h)
    cases op with
    | create r =>
      have hne : te≠s.nextCell := Nat.ne_of_lt (hs.numbered te (by rw [ht]; rfl))
      cases hr : r.allocated with
      | false =>
        rw [TimerList.perform,create_of_exhausted hr]
        exact ht
      | true =>
        rw [TimerList.perform,create_of_allocated hr]
        exact (Function.update_of_ne hne _ _).trans ht
    | delete id =>
      rw [TimerList.perform,TimerList.delete]
      split
      · rename_i te' hfind
        have htest := List.find?_some hfind
        have hne : te≠te' := by
          intro he
          rw [← he,ht] at htest
          exact hop (congrArg TimerOp.delete (of_decide_eq_true htest))
        exact (update_event_of_ne hne).trans ht
      · exact ht

/-- The turn of another event leaves one as it is that nobody deletes. -/
theorem turn_spared (hs : Sound s) (ht : s.event te=some t) (hne : te≠other)
    (hspared : Spared env t.id) : (s.turn maxId env other).event te=some t := by
  obtain ⟨hops,hfinal⟩ := hspared other
  unfold TimerList.turn
  split
  · exact ht
  · rename_i t' ht'
    split
    · refine (Function.update_of_ne hne _ _).trans ?_
      unfold TimerList.finalize
      split
      · exact spared_performAll (s:=(s.unlink other).called _) ((hs.unlink other).called _) ht
          hfinal
      · exact ht
    · split
      · exact ht
      · split
        · exact (update_event_of_ne hne).trans
            (spared_performAll (s:=s.called _) (hs.called _) ht hops)
        · exact ht

/-- In its turn an event is called exactly if it is due. -/
theorem turn_fires (hs : Sound s) (ht : s.event te=some t) (hid : t.id≠aeDeletedEventId)
    (hle : t.id ≤ maxId) {new : List TimerCall}
    (hnew : (s.turn maxId env te).calls=s.calls++new) :
    te∈firedEvents new ↔ t.Due (env te).clock := by
  by_cases hdue : t.Due (env te).clock
  · rw [turn_due ht hid hle hdue] at hnew
    obtain ⟨calls,hcalls,hbook⟩ := bookkeeping_served
      (served_performAll (hs.called (.fire te t.id t.timeProc t.clientData)) (env te).ops)
    have hfire : new=.fire te t.id t.timeProc t.clientData::calls := by
      refine List.append_cancel_left (hnew.symm.trans (hcalls.trans ?_))
      simp [TimerList.called]
    simp [hfire,firedEvents,hdue]
  · rw [turn_idle ht hid hdue] at hnew
    have hnone : new=[] := List.self_eq_append_right.mp hnew
    simp [hnone,firedEvents,hdue]

/-- The turns of a pass call procedures in the order of the list, each at most once, and an event
that no callback deletes exactly if it is due. -/
theorem turns_fire (maxId : ℤ) (hs : Sound s) (hr : Reached s)
    (hfin : ∀ te,∀ op∈(env te).finalOps,¬ op.Adds) (hnodup : order.Nodup) : ∃ new,
      (order.foldl (TimerList.turn maxId env) s).calls=s.calls++new ∧
      (firedEvents new).Sublist order ∧ ∀ te∈order,∀ t,s.event te=some t →
        t.id≠aeDeletedEventId → t.id ≤ maxId → Spared env t.id →
          (te∈firedEvents new ↔ t.Due (env te).clock) := by
  induction order generalizing s with
  | nil => exact ⟨[],(List.append_nil _).symm,List.Sublist.refl _,by simp⟩
  | cons other order ih =>
    obtain ⟨hnot,hrest⟩ := List.nodup_cons.mp hnodup
    have hcall : ∃ callback rest,TurnCalls maxId env s other callback rest := turnCalls hs hr other
    obtain ⟨callback,rest,hturn⟩ := hcall
    obtain ⟨new,hnew,hsub,hfired⟩ := ih (hs.turn (hfin other)) (hr.turn other) hrest
      (s:=s.turn maxId env other)
    have hcalls : (s.turn maxId env other).calls=s.calls++(callback.toList++rest) := by
      rw [hturn.calls,List.append_assoc]
    have hhead : (firedEvents (callback.toList++rest)).Sublist [other] := by
      rw [firedEvents_append,firedEvents_bookkeeping hturn.rest,List.append_nil]
      have hown := hturn.own
      cases callback with
      | none => exact List.nil_sublist _
      | some c =>
        have hc := hown c rfl
        cases c with
        | fire te' id timeProc clientData =>
          have heq : te'=other := of_decide_eq_true hc
          exact heq ▸ List.Sublist.refl _
        | create | finalize | free => exact List.nil_sublist _
    refine ⟨callback.toList++rest++new,?_,?_,fun te hte t ht hid hle hspared => ?_⟩
    · rw [List.foldl_cons,hnew,hcalls,List.append_assoc]
    · rw [firedEvents_append]
      exact hhead.append hsub
    · rw [firedEvents_append,List.mem_append]
      by_cases he : te=other
      · subst he
        have hlater : te∉firedEvents new := fun h => hnot (hsub.subset h)
        rw [or_iff_left hlater]
        exact turn_fires hs ht hid hle hcalls
      · have hearlier : te∉firedEvents (callback.toList++rest) := fun h =>
          he (List.mem_singleton.mp (hhead.subset h))
        have hlater := (List.mem_cons.mp hte).resolve_left he
        rw [or_iff_right hearlier]
        exact hfired te hlater t (turn_spared hs ht he hspared) hid hle hspared

/-- An event when the pass reaches it, seen from the state before the pass. -/
def seenAt (now lastTime : ℤ) (t : TimeEvent) : TimeEvent := if now<lastTime then rewound t else t

/-- The pass finds an event as it was, or rewound. -/
theorem begin_event (now : ℤ) (hmem : te∈s.order) (ht : s.event te=some t) :
    (s.begin now).event te=some (seenAt now s.lastTime t) := by
  -- the walk sets the time of every event of the list, of some perhaps again
  have hwalk : ∀ (order : List EventPtr) (s : TimerList) (t : TimeEvent),s.event te=some t →
      (order.foldl (fun s te => s.update te rewound) s).event te=
        some (if te∈order then rewound t else t) := by
    intro order
    induction order with
    | nil => exact fun s t ht => ht
    | cons other order ih =>
      intro s t ht
      rw [List.foldl_cons]
      by_cases he : te=other
      · have hself : (s.update other rewound).event te=some (rewound t) := by
          rw [← he,update_event_self,ht,Option.map_some]
        have hrest := ih (s.update other rewound) (rewound t) hself
        have htwice : rewound (rewound t)=rewound t := rfl
        rw [hrest,htwice,ite_self,if_pos (he ▸ List.mem_cons_self)]
      · rw [ih _ t ((update_event_of_ne he).trans ht)]
        simp only [List.mem_cons,he,false_or]
  unfold TimerList.begin seenAt
  split
  · have hrewind := hwalk s.order s t ht
    rw [if_pos hmem] at hrewind
    exact hrewind
  · exact ht

/-- Rewinding keeps the identifier. -/
theorem seenAt_id (now lastTime : ℤ) (t : TimeEvent) : (seenAt now lastTime t).id=t.id := by
  unfold seenAt
  split <;> rfl

/-- What a pass calls, whatever was called before it, as long as finalizers create no event: the
procedures of its events in the order of the list, each at most once, as many as it returns, and
that of an event which no callback deletes exactly if it is due. When the clock was set back,
events are due from second 0 on. -/
theorem pass_fires (start now : ℤ) (htame : ∀ step∈steps++[.process now env],step.Tame) :
    ∃ l order processed l' passed,steps.forM TimerStep.code (.new start)=.ok () l ∧
      Chain (nextOf l) l.timeEventHead order ∧ processTimeEvents now env l=.ok processed l' ∧
      l'.calls=l.calls++passed ∧ processed=(firedEvents passed).length ∧
      (firedEvents passed).Sublist order ∧ ∀ te c,l.cells te=some c →
        c.event.id≠aeDeletedEventId → Spared env c.event.id →
          (te∈firedEvents passed ↔ (seenAt now l.lastTime c.event).Due (env te).clock) := by
  obtain ⟨l,hl,h,hs,hc⟩ := history_implements start fun step hm =>
    htame step (List.mem_append_left _ hm)
  generalize steps.foldl TimerStep.apply (.new start)=s at h hs hc
  have hfin : TimerStep.Tame (.process now env) := htame _ (by simp)
  obtain ⟨processed,l',hl',h',hcount⟩ := processTimeEvents_implements h hs hfin now
  have hsame := begin_same s now
  obtain ⟨passed,hpassed,hsub,hfired⟩ := turns_fire ((s.begin now).nextId-1) (hs.begin now)
    (hc.begin now).reached hfin (hs.begin now).nodup
  have hcalls : l'.calls=l.calls++passed := by
    rw [h'.calls,h.calls,← hsame.2.2]
    exact hpassed
  refine ⟨l,s.order,processed,l',passed,hl,h.chain,hl',hcalls,?_,hsame.1 ▸ hsub,?_⟩
  · rw [firedEvents_length]
    rw [← h'.calls,hcalls,h.calls,List.countP_append] at hcount
    omega
  · intro te c hcell hid hspared
    have ht := (h.events te).symm.trans (congrArg (Option.map EventCell.event) hcell)
    have hmem := (hc te (by rw [ht]; rfl)).resolve_right (by simp)
    have hbegin := begin_event now hmem ht
    rw [← seenAt_id now s.lastTime] at hid hspared
    have hissued := (hs.begin now).issued te _ hbegin
    rw [h.lastTime]
    exact hfired te (hsame.1 ▸ hmem) _ hbegin hid (by omega) hspared

/-- A pass behind the two creations of the sample. -/
theorem pass_fires_busy : ∃ l order processed l' passed,
    (busySteps.take 2).forM TimerStep.code (.new 0)=.ok () l ∧
      Chain (nextOf l) l.timeEventHead order ∧ processTimeEvents 5 busy l=.ok processed l' ∧
      l'.calls=l.calls++passed ∧ processed=(firedEvents passed).length ∧
      (firedEvents passed).Sublist order ∧ ∀ te c,l.cells te=some c →
        c.event.id≠aeDeletedEventId → Spared busy c.event.id →
          (te∈firedEvents passed ↔ (seenAt 5 l.lastTime c.event).Due (busy te).clock) :=
  pass_fires 0 5 busySteps_tame

end Passes

/-- An event whose time has milliseconds below a second. -/
def InSecond (t : TimeEvent) : Prop := 0≤t.whenMs ∧ t.whenMs<1000

/-- A request for a time that is not past. -/
def Forward : TimerOp → Prop
  | .create r => 0 ≤ r.milliseconds
  | .delete _ => True

/-- Requests are for times to come, and procedures return no negative delay but `AE_NOMORE`. -/
def Timely : TimerStep → Prop
  | .op a => Forward a
  | .process _ env => ∀ te,(∀ a∈(env te).ops,Forward a) ∧ (∀ a∈(env te).finalOps,Forward a) ∧
      -1≤(env te).retval

/-- Every event has milliseconds below a second. -/
def Clocked (s : TimerList) : Prop := ∀ te t,s.event te=some t → InSecond t

/-- `aeProcessEvents` up to `epoll_wait`: the timeout that it is given at this time. -/
def aePollTimeout (clock : ℕ) : TimeEvents.TimerProg ℤ := do
  let shortest ← aeSearchNearestTimer
  pure (pollTimeout clock (shortest.map fun n => n.2.toAeTimeEvent))

/-- A wait for this timeout ends when the first event is due: none is due before, and one is due
from then on. -/
structure Meets (l : TimerLoop) (clock : ℕ) (timeout : ℤ) : Prop where
  /-- It is no wait for ever. -/
  nonneg : 0≤timeout
  /-- It sleeps past no event. -/
  early : ∀ te c,l.cells te=some c → ∀ wake : ℕ,clock≤wake → (wake : ℤ)<clock+timeout →
    ¬ c.event.Due wake
  /-- It is no longer than the nearest one needs. -/
  late : ∃ te c,l.cells te=some c ∧ ∀ wake : ℕ,clock+timeout≤wake → c.event.Due wake

section Polls

variable {s : TimerList} {te : EventPtr} {t : TimeEvent} {env : EventPtr → Visit} {maxId : ℤ}
variable {steps : List TimerStep} {f : TimeEvent → TimeEvent} {best : Option (EventPtr×TimeEvent)}
variable {l : TimerLoop}

/-- Changes of the time that keep the milliseconds below a second. -/
theorem Clocked.update (h : Clocked s) (hf : ∀ t,InSecond t → InSecond (f t)) (te : EventPtr) :
    Clocked (s.update te f) := by
  intro other t ht
  by_cases he : other=te
  · rw [he,update_event_self] at ht
    obtain ⟨t₀,ht₀,rfl⟩ := Option.map_eq_some_iff.mp ht
    exact hf t₀ (h te t₀ ht₀)
  · rw [update_event_of_ne he] at ht
    exact h other t ht

/-- A new event has milliseconds below a second, if its delay is not negative. -/
theorem Clocked.performAll (h : Clocked s) {ops : List TimerOp} (hops : ∀ a∈ops,Forward a) :
    Clocked (ops.foldl TimerList.perform s) := by
  induction ops generalizing s with
  | nil => exact h
  | cons a ops ih =>
    have hforward := hops a List.mem_cons_self
    refine ih ?_ fun a hm => hops a (List.mem_cons_of_mem _ hm)
    cases a with
    | create r =>
      cases hr : r.allocated with
      | false =>
        rw [TimerList.perform,create_of_exhausted hr]
        exact h
      | true =>
        rw [TimerList.perform,create_of_allocated hr]
        intro te t ht
        by_cases he : te=s.nextCell
        · simp only [he,Function.update_self,Option.some.injEq] at ht
          rw [← ht]
          exact (aeAddMillisecondsToNow_spec r.clock hforward).2
        · simp only [Function.update_of_ne he] at ht
          exact h te t ht
    | delete id =>
      rw [TimerList.perform,TimerList.delete]
      split
      · exact h.update (f:=marked) (fun _ h => h) _
      · exact h

/-- So has one behind its procedure. -/
theorem inSecond_settle {v : Visit} (hv : -1≤v.retval) (h : InSecond t) :
    InSecond (settle v t) := by
  unfold settle
  split
  · rename_i hmore
    have hpos : 0≤v.retval := by
      rw [aeNomore] at hmore
      omega
    exact (aeAddMillisecondsToNow_spec v.later hpos).2
  · exact h

/-- A turn keeps the milliseconds below a second. -/
theorem Clocked.turn (h : Clocked s) (hv : Timely (.process 0 env)) (te : EventPtr) :
    Clocked (s.turn maxId env te) := by
  obtain ⟨hops,hfinal,hretval⟩ := hv te
  unfold TimerList.turn
  split
  · exact h
  · rename_i t ht
    split
    · have hfin : Clocked ((s.unlink te).finalize te t (env te)) := by
        unfold TimerList.finalize
        split
        · exact Clocked.performAll (s:=(s.unlink te).called _) h hfinal
        · exact h
      intro other t' ht'
      by_cases he : other=te
      · simp [TimerList.release,TimerList.called,he] at ht'
      · simp only [TimerList.release,TimerList.called,Function.update_of_ne he] at ht'
        exact hfin other t' ht'
    · split
      · exact h
      · split
        · exact (Clocked.performAll (s:=s.called _) h hops).update
            (fun _ => inSecond_settle hretval) te
        · exact h

/-- So do a call and a pass. -/
theorem Clocked.apply (h : Clocked s) {step : TimerStep} (hv : Timely step) :
    Clocked (step.apply s) := by
  cases step with
  | op a =>
    have hforward : ∀ b∈[a],Forward b := fun b hb => List.mem_singleton.mp hb ▸ hv
    exact h.performAll hforward
  | process now env =>
    have hbegin : Clocked (s.begin now) := by
      have hrewind : Clocked s.rewind := by
        unfold TimerList.rewind
        generalize s.order=order
        induction order generalizing s with
        | nil => exact h
        | cons te order ih => exact ih (h.update (f:=rewound) (fun _ h => h) te)
      unfold TimerList.begin
      split
      · exact hrewind
      · exact h
    change Clocked ((s.begin now).order.foldl _ (s.begin now))
    generalize (s.begin now).order=order
    generalize (s.begin now).nextId-1=maxId
    generalize s.begin now=s' at hbegin
    induction order generalizing s' with
    | nil => exact hbegin
    | cons te order ih => exact ih (s'.turn maxId env te) (hbegin.turn hv te)

/-- So do any of them, one after another. -/
theorem clocked_steps (h : Clocked s) (hv : ∀ step∈steps,Timely step) :
    Clocked (steps.foldl TimerStep.apply s) := by
  induction steps generalizing s with
  | nil => exact h
  | cons step steps ih =>
    exact ih (h.apply (hv step List.mem_cons_self)) fun step hm =>
      hv step (List.mem_cons_of_mem _ hm)

/-- The first event is not due later than the second one. -/
def Sooner (n n' : EventPtr×TimeEvent) : Prop :=
  n.2.whenSec<n'.2.whenSec ∨ (n.2.whenSec=n'.2.whenSec ∧ n.2.whenMs≤n'.2.whenMs)

/-- What is sooner is so of everything later. -/
theorem Sooner.trans {a b c : EventPtr×TimeEvent} (h : Sooner a b) (h' : Sooner b c) :
    Sooner a c := by
  unfold Sooner at *
  omega

/-- The nearest event so far is the sooner one of two. -/
theorem keepNearest_sooner (best : Option (EventPtr×TimeEvent)) (n : EventPtr×TimeEvent) :
    ∃ m,keepNearest best n=some m ∧ (some m=best ∨ m=n) ∧ Sooner m n ∧ ∀ b∈best,Sooner m b := by
  have hself : ∀ n,Sooner n n := fun n => .inr ⟨rfl,le_rfl⟩
  cases best with
  | none => exact ⟨n,rfl,.inr rfl,hself n,by simp⟩
  | some b =>
    by_cases h : nearer n.2.toAeTimeEvent b.2.toAeTimeEvent=true
    · have hle : Sooner n b := by
        simp only [nearer,decide_eq_true_eq] at h
        unfold Sooner
        omega
      exact ⟨n,if_pos h,.inr rfl,hself n,by simpa using hle⟩
    · have hle : Sooner b n := by
        simp only [nearer,decide_eq_true_eq] at h
        unfold Sooner
        omega
      exact ⟨b,if_neg h,.inl rfl,hle,by simpa using hself b⟩

/-- The search keeps the nearest event it has seen. -/
theorem nearest_fold (best : Option (EventPtr×TimeEvent)) (order : List EventPtr)
    (hlive : ∀ te∈order,(s.event te).isSome) :
    let found := order.foldl
      (fun best te => ((s.event te).map (te,·)).elim best (keepNearest best)) best
    (found=none ↔ order=[] ∧ best=none) ∧
      (∀ m∈found,m∈best ∨ (m.1∈order ∧ s.event m.1=some m.2)) ∧ ∀ m∈found,
        (∀ b∈best,Sooner m b) ∧ ∀ te∈order,∀ t,s.event te=some t → Sooner m (te,t) := by
  induction order generalizing best with
  | nil =>
    refine ⟨by simp,fun m hm => .inl hm,fun m hm => ⟨fun b hb => ?_,by simp⟩⟩
    have heq : m=b := Option.some.inj (hm.symm.trans hb)
    exact heq ▸ .inr ⟨rfl,le_rfl⟩
  | cons te order ih =>
    obtain ⟨t,ht⟩ := Option.isSome_iff_exists.mp (hlive te List.mem_cons_self)
    obtain ⟨n,hn,hfrom,hte,hbest⟩ := keepNearest_sooner best (te,t)
    obtain ⟨hnone,hmem,hsooner⟩ := ih (some n) fun te hm =>
      hlive te (List.mem_cons_of_mem _ hm)
    simp only [List.foldl_cons,ht,Option.map_some,Option.elim_some,hn]
    refine ⟨?_,fun m hm => ?_,fun m hm => ?_⟩
    · rw [hnone]
      simp
    · rcases hmem m hm with hm|hm
      · have heq : n=m := Option.mem_some_iff.mp hm
        rcases hfrom with hb|hb
        · exact .inl (heq ▸ hb.symm)
        · rw [← heq,hb]
          exact .inr ⟨List.mem_cons_self,ht⟩
      · exact .inr ⟨List.mem_cons_of_mem _ hm.1,hm.2⟩
    · obtain ⟨hnear,hall⟩ := hsooner m hm
      have hmn := hnear n rfl
      refine ⟨fun b hb => hmn.trans (hbest b hb),fun te' hte' t' ht' => ?_⟩
      rcases List.mem_cons.mp hte' with rfl|hte'
      · have heq : t'=t := Option.some.inj (ht'.symm.trans ht)
        exact heq ▸ hmn.trans hte
      · exact hall te' hte' t' ht'

/-- The timeout is the time to the event, as far as an `int` holds it. -/
theorem pollTimeout_eq (clock : ℕ) (te : AeTimeEvent) :
    pollTimeout clock (some te)=(max 0 (dueAt te-clock)).bmod (2^32) := by
  have hclock : ((clock/1000 : ℕ) : ℤ)*1000+(clock%1000 : ℕ)=clock := by omega
  unfold pollTimeout aeGetTime dueAt
  by_cases hpos : (te.whenSec-(clock/1000 : ℕ))*1000+te.whenMs-(clock%1000 : ℕ)>0
  · have hms : max 0 (te.whenSec*1000+te.whenMs-clock)=
        (te.whenSec-(clock/1000 : ℕ))*1000+te.whenMs-(clock%1000 : ℕ) := by omega
    simp only [hpos,if_true]
    rw [Int.mul_tdiv_cancel _ (by decide),Int.tdiv_mul_add_tmod,hms]
  · have hms : max 0 (te.whenSec*1000+te.whenMs-clock)=0 := by omega
    simp only [hpos,if_false,Int.zero_tdiv]
    rw [hms]
    rfl

/-- A timeout of less than 2^31 milliseconds is an `int`. -/
theorem pollTimeout_near {clock : ℕ} {te : AeTimeEvent} (h : dueAt te<clock+2^31) :
    pollTimeout clock (some te)=max 0 (dueAt te-clock) := by
  rw [pollTimeout_eq,Int.bmod_eq_of_le] <;> omega

/-- No event of the heap is due before this one. -/
structure FirstDue (l : TimerLoop) (t : TimeEvent) : Prop where
  /-- It is one of them. -/
  live : ∃ te next,l.cells te=some ⟨t,next⟩
  /-- The milliseconds of their times are below a second. -/
  inSecond : ∀ te c,l.cells te=some c → InSecond c.event
  /-- They are due later, or at the same time. -/
  first : ∀ te c,l.cells te=some c → dueAt t.toAeTimeEvent≤dueAt c.event.toAeTimeEvent

/-- The search finds such an event. -/
theorem nearest_firstDue (h : Implements l s) (hs : Sound s) (hc : Covered none s)
    (hclocked : Clocked s) {n : EventPtr×TimeEvent} (hn : n∈s.nearest) : FirstDue l n.2 := by
  obtain ⟨-,hmem,hsooner⟩ := nearest_fold none s.order hs.live
  have hevent : s.event n.1=some n.2 := ((hmem n hn).resolve_left (by simp)).2
  have hlisted : ∀ te c,l.cells te=some c → s.event te=some c.event := fun te c hcell =>
    (h.events te).symm.trans (congrArg (Option.map EventCell.event) hcell)
  refine ⟨⟨n.1,h.cell hevent⟩,fun te c hcell => hclocked te _ (hlisted te c hcell),
    fun te c hcell => ?_⟩
  have ht := hlisted te c hcell
  have hpending := (hc te (by rw [ht]; rfl)).resolve_right (by simp)
  have hsoon := (hsooner n hn).2 te hpending _ ht
  have hms := hclocked te _ ht
  have hsecond := hclocked n.1 n.2 hevent
  simp only [Sooner] at hsoon
  unfold InSecond at hsecond hms
  unfold dueAt
  omega

/-- Its timeout meets the timers, if an `int` holds it. -/
theorem FirstDue.meets {clock : ℕ} (h : FirstDue l t) (hnear : dueAt t.toAeTimeEvent<clock+2^31) :
    Meets l clock (pollTimeout clock (some t.toAeTimeEvent)) := by
  obtain ⟨te,next,hcell⟩ := h.live
  have hsecond : InSecond t := h.inSecond te _ hcell
  rw [pollTimeout_near hnear]
  refine ⟨by omega,fun te c hc' wake hge hlt hdue => ?_,te,_,hcell,fun wake hwake => ?_⟩
  · have hms := h.inSecond te c hc'
    have hle := h.first te c hc'
    rw [due_iff hms.1 hms.2] at hdue
    omega
  · rw [due_iff hsecond.1 hsecond.2]
    omega

/-- Otherwise it does not: as an `int` it is below 2^31, when no event is due yet. -/
theorem FirstDue.near {clock : ℕ} (h : FirstDue l t)
    (hmeets : Meets l clock (pollTimeout clock (some t.toAeTimeEvent))) :
    dueAt t.toAeTimeEvent<clock+2^31 := by
  by_contra hfar
  obtain ⟨te,c,hc',hlate⟩ := hmeets.late
  have hms := h.inSecond te c hc'
  have hle := h.first te c hc'
  have hnonneg := hmeets.nonneg
  have hint := Int.bmod_lt (x:=max 0 (dueAt t.toAeTimeEvent-clock)) (m:=2^32) (by decide)
  rw [← pollTimeout_eq] at hint
  obtain ⟨wake,hwake⟩ := Int.eq_ofNat_of_zero_le
    (show 0≤clock+pollTimeout clock (some t.toAeTimeEvent) by omega)
  have hdue := (due_iff hms.1 hms.2).mp (hlate wake hwake.le)
  omega

/-- Without events the poll waits for ever. Otherwise, after any calls, its timeout meets the
timers exactly if one of them is due in less than 2^31 milliseconds: a later one does not fit into
the `int` of `epoll_wait`, and the poll ends at another time or never. -/
theorem poll_meets_timers (start : ℤ) (clock : ℕ) (htame : ∀ step∈steps,step.Tame)
    (htimely : ∀ step∈steps,Timely step) : ∃ l timeout,
      steps.forM TimerStep.code (.new start)=.ok () l ∧ aePollTimeout clock l=.ok timeout l ∧
      (l.timeEventHead=none → timeout=-1) ∧ (l.timeEventHead≠none →
        (Meets l clock timeout ↔ ∃ te c,l.cells te=some c ∧
          dueAt c.event.toAeTimeEvent<clock+2^31)) := by
  obtain ⟨l,hl,h,hs,hc⟩ := history_implements start htame
  have hclocked : Clocked (steps.foldl TimerStep.apply (.new start)) :=
    clocked_steps (by simp [Clocked,TimerList.new]) htimely
  generalize steps.foldl TimerStep.apply (.new start)=s at h hs hc hclocked
  have hsearch := nearest_implements h hs
  have hhead : l.timeEventHead=none ↔ s.nearest=none := by
    rw [h.chain.eq_head,List.head?_eq_none_iff]
    exact ((nearest_fold none s.order hs.live).1.trans (and_iff_left rfl)).symm
  refine ⟨l,_,hl,bind_of_ok hsearch _,fun hnone => ?_,fun hsome => ?_⟩
  · rw [hhead.mp hnone]
    rfl
  · obtain ⟨n,hn⟩ := Option.ne_none_iff_exists'.mp (mt hhead.mpr hsome)
    have hfirst : FirstDue l n.2 := nearest_firstDue h hs hc hclocked hn
    rw [hn,Option.map_some]
    constructor
    · intro hmeets
      obtain ⟨te,next,hcell⟩ := hfirst.live
      exact ⟨te,_,hcell,hfirst.near hmeets⟩
    · rintro ⟨te,c,hcell,hlt⟩
      exact hfirst.meets ((hfirst.first te c hcell).trans_lt hlt)

/-- The sample asks for no past time. -/
theorem busySteps_timely : ∀ step∈busySteps,Timely step := by
  have hbusy : Timely (.process 5 busy) := by
    intro te
    refine ⟨fun a ha => ?_,fun a ha => ?_,by simp [busy]⟩
    · by_cases h : te=1
      · have heq : a=.delete 0 ∨ a=.create (request none) := by simpa [busy,h] using ha
        rcases heq with rfl|rfl
        · trivial
        · exact le_rfl
      · simp [busy,h] at ha
    · by_cases h : te=0
      · have heq : a=.delete 2 := by simpa [busy,h] using ha
        exact heq ▸ trivial
      · simp [busy,h] at ha
  simpa [busySteps,Timely,Forward,request] using hbusy

/-- The poll behind the sample. -/
theorem poll_meets_timers_busy : ∃ l timeout,
    busySteps.forM TimerStep.code (.new 0)=.ok () l ∧ aePollTimeout 5050 l=.ok timeout l ∧
    (l.timeEventHead=none → timeout=-1) ∧ (l.timeEventHead≠none →
      (Meets l 5050 timeout ↔ ∃ te c,l.cells te=some c ∧
        dueAt c.event.toAeTimeEvent<(5050 : ℕ)+2^31)) :=
  poll_meets_timers 0 5050 busySteps_tame busySteps_timely

end Polls

/-- The timer of `serverInit`, created at this time. -/
def cronRequest (clock : ℕ) : TimerRequest := ⟨1,0,none,0,clock,true⟩

/-- What `serverCron` does to the timers: nothing, and the time stands still in it. -/
def cronVisit (clock : ℕ) (delay : ℤ) (_ : EventPtr) : Visit := ⟨clock,[],delay,clock,[]⟩

/-- It has no finalizer to create an event. -/
theorem cronVisit_tame (clock : ℕ) (delay : ℤ) :
    ∀ te,∀ op∈(cronVisit clock delay te).finalOps,¬ op.Adds :=
  fun _ _ hop => absurd hop List.not_mem_nil

/-- The heap holds the timers of the daemon. -/
structure SameTimers (l : TimerLoop) (d : Daemon) : Prop where
  /-- The events of its list are those of the daemon, in their order. -/
  events : ∃ order,Chain (nextOf l) l.timeEventHead order ∧
    order.filterMap (fun te => (l.cells te).map fun c => c.event.toAeTimeEvent)=d.timeEvents
  /-- The next identifier is the same. -/
  nextId : l.timeEventNextId=d.timeEventNextId
  /-- The last look was at the same second. -/
  lastTime : l.lastTime=d.lastTime

/-- A turn of the daemon beside the calls of ae.c in it: the search for the poll, and a pass over
the timers. -/
structure TurnPass (d : Daemon) (l : TimerLoop) (d' : Daemon) (l' : TimerLoop) : Prop where
  /-- Behind the sleep of a second the poll has the same timeout. -/
  poll : aePollTimeout (d.clock+1000) l=
    .ok (pollTimeout (d.clock+1000) (ServerMain.aeSearchNearestTimer d.timeEvents)) l
  /-- The pass takes place at the clock of the daemon, where `serverCron` returns this delay. -/
  pass : processTimeEvents (d'.clock/1000 : ℕ) (cronVisit d'.clock (cronDelay d.server)) l=
    .ok 1 l'
  /-- It calls the procedure of the timer, and nothing else. -/
  fired : l'.calls=l.calls++[.fire 0 d.cronEventId 0 0]
  /-- The daemon calls `serverCron` once, at that clock. -/
  cron : cronCalls d'.calls=cronCalls d.calls++[(d'.clock,reconnectsNow d.server)]

/-- Turns of the daemon beside passes over the timers of ae.c, one for each turn, with the same
timers behind all of them. -/
inductive Lockstep : Daemon → TimerLoop → List Turn → Daemon → TimerLoop → Prop
  /-- No turn. -/
  | nil (d : Daemon) (l : TimerLoop) : Lockstep d l [] d l
  /-- A turn and its pass, and what follows. -/
  | cons {d d' d'' : Daemon} {l l' l'' : TimerLoop} {turn : Turn} {turns : List Turn}
    (step : aeMainTurn turn d=.ok () d') (pass : TurnPass d l d' l') (same : SameTimers l' d')
    (rest : Lockstep d' l' turns d'' l'') : Lockstep d l (turn::turns) d'' l''

/-- The list holds the one timer of the daemon. -/
structure OnList (s : TimerList) (d : Daemon) : Prop where
  /-- One event is pending. -/
  order : s.order=[0]
  /-- It is the timer of the daemon. -/
  event : ∃ t,s.event 0=some t ∧ d.timeEvents=[t.toAeTimeEvent] ∧ t.timeProc=0 ∧ t.clientData=0
  /-- The next identifier is the same. -/
  nextId : s.nextId=d.timeEventNextId
  /-- The last look was at the same second. -/
  lastTime : s.lastTime=d.lastTime

section Daemons

variable {l : TimerLoop} {s : TimerList} {d d₀ t : Daemon} {turns : List Turn} {turn : Turn}

/-- A heap that holds the list has the timers of the daemon. -/
theorem OnList.same (h : OnList s d) (himpl : Implements l s) : SameTimers l d := by
  obtain ⟨t,ht,htimers,-⟩ := h.event
  refine ⟨⟨[0],?_,?_⟩,himpl.nextId.trans h.nextId,himpl.lastTime.trans h.lastTime⟩
  · rw [← h.order]
    exact himpl.chain
  · obtain ⟨next,hcell⟩ := himpl.cell ht
    rw [htimers,List.filterMap_cons,hcell]
    rfl

/-- The search finds the same timer as in the daemon. -/
theorem OnList.poll (h : OnList s d) (himpl : Implements l s) (hs : Sound s) (clock : ℕ) :
    aePollTimeout clock l=
      .ok (pollTimeout clock (ServerMain.aeSearchNearestTimer d.timeEvents)) l := by
  obtain ⟨t,ht,htimers,-⟩ := h.event
  have hnearest : s.nearest.map (fun n => n.2.toAeTimeEvent)=
      ServerMain.aeSearchNearestTimer d.timeEvents := by
    rw [TimerList.nearest,h.order,htimers]
    simp only [List.foldl_cons,List.foldl_nil,ht]
    rfl
  rw [← hnearest]
  exact bind_of_ok (nearest_implements himpl hs) _

/-- Behind the sleep of a turn, the pass over the list calls the timer of the daemon. -/
theorem OnList.process (h : OnList s d) (hd : Timed d) : ∃ e,s.event 0=some e ∧
    d.timeEvents=[e.toAeTimeEvent] ∧ e.id=d.cronEventId ∧ e.timeProc=0 ∧ e.clientData=0 ∧
    s.process ((d.clock+1000)/1000 : ℕ) (cronVisit (d.clock+1000) (cronDelay d.server))=
      TimerList.fire {s with lastTime := ((d.clock+1000)/1000 : ℕ)} 0 e
        (cronVisit (d.clock+1000) (cronDelay d.server) 0) := by
  obtain ⟨te,hte,hid,hdue,hms,hlt⟩ := hd.timer
  obtain ⟨e,he,htimers,hproc,hdata⟩ := h.event
  have hee : e.toAeTimeEvent=te := List.singleton_injective (htimers.symm.trans hte)
  have hkept := hd.kept
  have hcreated := hd.created
  have hlook := hd.lastTime
  let env := cronVisit (d.clock+1000) (cronDelay d.server)
  let now : ℤ := ((d.clock+1000)/1000 : ℕ)
  have hbegin : s.begin now={s with lastTime := now} := by
    have hpast : ¬ now<s.lastTime := by
      rw [h.lastTime]
      omega
    rw [TimerList.begin,if_neg hpast]
  have hnotmarked : e.id≠aeDeletedEventId := by
    rw [hee,hid,aeDeletedEventId]
    omega
  have hknown : e.id≤(s.begin now).nextId-1 := by
    rw [hbegin,hee,hid]
    change d.cronEventId≤ s.nextId-1
    rw [h.nextId]
    omega
  have hevent : (s.begin now).event 0=some e := by
    rw [hbegin]
    exact he
  have hready : e.Due (env 0).clock := by
    rw [hee]
    exact (due_iff hms hlt).mpr (by simp only [env,cronVisit]; omega)
  have hturn : s.process now env=(s.begin now).fire 0 e (env 0) := by
    rw [TimerList.process,(begin_same s now).1,h.order]
    exact turn_due hevent hnotmarked hknown hready
  rw [hbegin] at hturn
  exact ⟨e,he,htimers,(congrArg AeTimeEvent.id hee).trans hid,hproc,hdata,hturn⟩

/-- So the list holds the timer of the daemon behind the turn. -/
theorem OnList.done (h : OnList s d) (hd : Timed d) (ht : TurnDone d turn t) :
    OnList (s.process ((d.clock+1000)/1000 : ℕ) (cronVisit (d.clock+1000) (cronDelay d.server)))
      t := by
  obtain ⟨messages,w,w',hm,rfl,-⟩ := ht
  obtain ⟨e,he,htimers,-,hproc,hdata,hpass⟩ := h.process hd
  have hpos := (cronDelay_bounds hd.inRange).1
  let v := cronVisit (d.clock+1000) (cronDelay d.server) 0
  have hmore : v.retval≠aeNomore := by
    simp only [v,cronVisit,aeNomore]
    omega
  have hsettle : settle v e={e with
      whenSec := (ServerMain.aeAddMillisecondsToNow (d.clock+1000) (cronDelay d.server)).1
      whenMs := (ServerMain.aeAddMillisecondsToNow (d.clock+1000) (cronDelay d.server)).2} := by
    rw [settle,if_pos hmore]
    rfl
  rw [hpass]
  refine ⟨h.order,⟨settle v e,?_,?_,?_⟩,h.nextId,rfl⟩
  · refine (update_event_self (s:=TimerList.called _ _) 0).trans ?_
    change (s.event 0).map _=_
    rw [he,Option.map_some]
  · change d.timeEvents.map _=_
    rw [htimers,hsettle]
    rfl
  · rw [hsettle]
    exact ⟨hproc,hdata⟩

/-- A turn of the daemon is a pass over the heap. -/
theorem turn_pass (h : OnList s d) (himpl : Implements l s) (hs : Sound s) (hd : Timed d)
    (hx : aeMainTurn turn d=.ok () t) : ∃ l',TurnPass d l t l' ∧
      Implements l' (s.process ((d.clock+1000)/1000 : ℕ)
        (cronVisit (d.clock+1000) (cronDelay d.server))) := by
  have hdone := (aeMainTurn_ends hd turn).of_ok hx
  obtain ⟨e,-,-,hid,hproc,hdata,hpass⟩ := h.process hd
  obtain ⟨processed,l',hl',himpl',hcount⟩ := processTimeEvents_implements himpl hs
    (cronVisit_tame (d.clock+1000) (cronDelay d.server)) ((d.clock+1000)/1000 : ℕ)
  have hcalls : (s.process ((d.clock+1000)/1000 : ℕ)
      (cronVisit (d.clock+1000) (cronDelay d.server))).calls=
        s.calls++[.fire 0 d.cronEventId 0 0] := by
    have hfire : TimerCall.fire 0 e.id e.timeProc e.clientData=.fire 0 d.cronEventId 0 0 := by
      rw [hid,hproc,hdata]
    rw [hpass,← hfire]
    rfl
  have hone : processed=1 := by
    rw [hcalls,List.countP_append] at hcount
    change processed+_=_+1 at hcount
    omega
  rw [hone] at hl'
  obtain ⟨messages,w,w',hm,rfl,-⟩ := hdone
  refine ⟨l',⟨h.poll himpl hs _,hl',?_,cronCalls_cronState d turn w w' hm⟩,himpl'⟩
  rw [himpl'.calls,himpl.calls,hcalls]

/-- By induction on the turns, each of which is a pass over the heap of the last one. -/
theorem lockstep_run (h : OnList s d₀) (himpl : Implements l s) (hs : Sound s) (hd : Timed d₀)
    (hrun : Run aeMainTurn (fun d _ => d.stop=false) d₀ turns d) :
    ∃ l',Lockstep d₀ l turns d l' := by
  induction hrun generalizing s l with
  | nil d => exact ⟨l,.nil d l⟩
  | @cons d t u turn rest _ hx _ ih =>
    have hdone := (aeMainTurn_ends hd turn).of_ok hx
    have hlist := h.done hd hdone
    obtain ⟨l',hpass,himpl'⟩ := turn_pass h himpl hs hd hx
    have hsound := hs.process (cronVisit_tame (d.clock+1000) (cronDelay d.server))
      ((d.clock+1000)/1000 : ℕ)
    obtain ⟨l'',hrest⟩ := ih hlist himpl' hsound (hdone.timed hd)
    exact ⟨l'',.cons hx hpass (hlist.same himpl') hrest⟩

/-- At the start of the loop the timer of the daemon is the only event of the list. -/
theorem onList_start (h : Started d) :
    OnList ((TimerList.new d.lastTime).perform (.create (cronRequest d.clock))) d := by
  obtain ⟨argv,system,env,clock,entries,hby⟩ := h.by
  obtain ⟨htimers,-,hnext⟩ := hby.timer
  refine ⟨rfl,⟨(cronRequest d.clock).event 0,rfl,?_,rfl,rfl⟩,hnext.symm,rfl⟩
  rw [htimers,← hby.time.1]
  rfl

/-- The timers of the daemon are on the heap of ae.c: for any start and any turns, the creation
of its timer on an empty heap is followed by one pass for each turn, at the clock of the daemon and
with the delay of its `serverCron`, and behind every turn the heap holds the timers it has. -/
theorem daemon_timers_on_heap (h : Started d₀)
    (hrun : Run aeMainTurn (fun d _ => d.stop=false) d₀ turns d) : ∃ l₀ l,
      aeCreateTimeEvent (cronRequest d₀.clock) (.new d₀.lastTime)=.ok d₀.cronEventId l₀ ∧
      SameTimers l₀ d₀ ∧ Lockstep d₀ l₀ turns d l := by
  obtain ⟨argv,system,env,clock,entries,hby⟩ := h.by
  have hlist := onList_start h
  have hsound : Sound ((TimerList.new d₀.lastTime).perform (.create (cronRequest d₀.clock))) :=
    (new_sound d₀.lastTime).perform _
  obtain ⟨id,l₀,hl₀,himpl⟩ := create_implements (new_implements d₀.lastTime)
    (new_sound d₀.lastTime) (cronRequest d₀.clock)
  have hid : id=d₀.cronEventId :=
    (EStateM.Result.ok.inj (hl₀.symm.trans rfl)).1.trans hby.timer.2.1.symm
  obtain ⟨l,hlock⟩ := lockstep_run hlist himpl hsound hby.timed hrun
  exact ⟨l₀,l,hid ▸ hl₀,hlist.same himpl,hlock⟩

/-- A turn of a daemon without devices. -/
theorem daemon_timers_on_heap_idle : ∃ l₀ l,
    aeCreateTimeEvent (cronRequest idleStart.clock) (.new idleStart.lastTime)=
      .ok idleStart.cronEventId l₀ ∧
    SameTimers l₀ idleStart ∧ Lockstep idleStart l₀ (List.replicate 1 idleTurn) (idleAfter 1) l :=
  daemon_timers_on_heap idleStart_started (idleAfter_run (n:=1) (by decide))

end Daemons

end SerialProxy.TimerPasses
