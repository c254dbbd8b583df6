import SerialProxy.TimeEvents
import SerialProxy.ServerRuns

/-!
# Runs of the timers

Sequences of `aeCreateTimeEvent`, `aeDeleteTimeEvent` and `processTimeEvents` on the heap and
on the list. What happens to one event over its life, what a pass fires, when the poll wakes
up for the next event, and the list the daemon keeps of its own timers.
-/

namespace SerialProxy.TimerRuns

open FaultPrograms LinkedCells ServerRuns TimeEvents
open ServerMain (AeTimeEvent aeDeletedEventId aeNomore aeGetTime aeAddMillisecondsToNow Daemon)

/-- A call of the program into the timers. -/
inductive TimerStep
  /-- `aeCreateTimeEvent` or `aeDeleteTimeEvent`. -/
  | op (op : TimerOp)
  /-- `processTimeEvents`. -/
  | process (now : ℤ) (env : EventPtr → Visit)

/-- The code of a call. -/
def TimerStep.code : TimerStep → TimerProg Unit
  | .op a => runOp a
  | .process now env => do
    let _ ← processTimeEvents now env

/-- What a call does to the list. -/
def TimerStep.apply (s : TimerList) : TimerStep → TimerList
  | .op a => s.perform a
  | .process now env => s.process now env

/-- Finalizers of a pass create no event. -/
def TimerStep.Tame : TimerStep → Prop
  | .op _ => True
  | .process _ env => ∀ te,∀ op∈(env te).finalOps,¬ op.Adds

/-- Every event is pending, apart from one that is being removed. -/
def Covered (removed : Option EventPtr) (s : TimerList) : Prop :=
  ∀ te,(s.event te).isSome → te∈s.order ∨ removed=some te

/-- A request for an event that is due at once. -/
def request (finalizerProc : Option ProcPtr) : TimerRequest := ⟨0,0,finalizerProc,0,0,true⟩

/-- Callbacks of which the one of event 1 deletes event 0 and creates a third one, and that of
event 0 has a finalizer deleting the last of them. -/
def busy (te : EventPtr) : Visit where
  clock := 5000
  ops := if te=1 then [.delete 0,.create (request none)] else []
  retval := 100
  later := 5001
  finalOps := if te=0 then [.delete 2] else []

/-- Two events are created and processed. -/
def busySteps : List TimerStep :=
  [.op (.create (request (some 7))),.op (.create (request none)),.process 5 busy]

/-- No finalizer of the sample creates an event. -/
theorem busySteps_tame : ∀ step∈busySteps,step.Tame := by
  have hbusy : TimerStep.Tame (.process 5 busy) := by
    intro te op hop
    by_cases h : te=0
    · have heq : op=.delete 2 := by simpa [busy,h] using hop
      exact heq ▸ id
    · simp [busy,h] at hop
  simpa [busySteps,TimerStep.Tame] using hbusy

section Refinement

variable {l : TimerLoop} {s : TimerList} {te : EventPtr} {t : TimeEvent} {now : ℤ}
variable {maxId : ℤ} {env : EventPtr → Visit} {steps : List TimerStep}

/-- A new event loop holds the empty list. -/
theorem new_implements (now : ℤ) : Implements (.new now) (.new now) where
  chain := .nil
  events := fun _ => rfl
  nextCell := rfl
  nextId := rfl
  lastTime := rfl
  calls := rfl

/-- The empty list is sound. -/
theorem new_sound (now : ℤ) : Sound (.new now) where
  live := by simp [TimerList.new]
  numbered := by simp [TimerList.new]
  issued := by simp [TimerList.new]
  nonneg := le_rfl
  distinct := by simp [TimerList.new]
  nodup := List.nodup_nil

section Covered

variable {removed : Option EventPtr}

/-- Changing an event leaves none out. -/
theorem Covered.update (h : Covered removed s) (te : EventPtr) (f : TimeEvent → TimeEvent) :
    Covered removed (s.update te f) := by
  intro other ho
  rw [update_event_isSome] at ho
  exact h other ho

/-- What a callback creates is pending. -/
theorem Covered.performAll (h : Covered removed s) (ops : List TimerOp) :
    Covered removed (ops.foldl TimerList.perform s) := by
  induction ops generalizing s with
  | nil => exact h
  | cons op ops ih =>
    refine ih ?_
    cases op with
    | create r =>
      cases hr : r.allocated with
      | false =>
        rw [TimerList.perform,create_of_exhausted hr]
        exact h
      | true =>
        rw [TimerList.perform,create_of_allocated hr]
        intro other ho
        by_cases he : other=s.nextCell
        · exact .inl (he ▸ List.mem_cons_self)
        · simp only [Function.update_of_ne he] at ho
          exact (h other ho).imp_left (List.mem_cons_of_mem _)
    | delete id =>
      rw [TimerList.perform,TimerList.delete]
      split
      · exact h.update _ _
      · exact h

/-- So is what a finalizer creates. -/
theorem Covered.finalize (h : Covered removed s) (te : EventPtr) (t : TimeEvent) (v : Visit) :
    Covered removed (s.finalize te t v) := by
  unfold TimerList.finalize
  split
  · exact Covered.performAll (s:=s.called _) h _
  · exact h

/-- The event at hand is the only one that is live and not pending. -/
theorem Covered.unlink (h : Covered none s) (te : EventPtr) : Covered (some te) (s.unlink te) := by
  intro other ho
  by_cases he : other=te
  · exact .inr (congrArg some he.symm)
  · have hmem := (h other ho).resolve_right (by simp)
    exact .inl ((List.mem_erase_of_ne he).mpr hmem)

/-- Once it is freed there is none. -/
theorem Covered.release (h : Covered (some te) s) : Covered none (s.release te) := by
  intro other ho
  by_cases he : other=te
  · simp [TimerList.release,TimerList.called,he] at ho
  · simp only [TimerList.release,TimerList.called,Function.update_of_ne he] at ho
    exact .inl ((h other ho).resolve_right (by simpa using Ne.symm he))

/-- So every event is pending behind a turn. -/
theorem Covered.turn (h : Covered none s) (te : EventPtr) : Covered none (s.turn maxId env te) := by
  unfold TimerList.turn
  split
  · exact h
  · split
    · exact ((h.unlink te).finalize _ _ _).release
    · split
      · exact h
      · split
        · exact (Covered.performAll (s:=s.called _) h _).update _ _
        · exact h

/-- The look at the time takes no event out. -/
theorem Covered.begin (h : Covered none s) (now : ℤ) : Covered none (s.begin now) := by
  have hrewind : Covered none s.rewind := by
    unfold TimerList.rewind
    generalize s.order=order
    induction order generalizing s with
    | nil => exact h
    | cons te order ih => exact ih (h.update te rewound)
  unfold TimerList.begin
  split
  · exact hrewind
  · exact h

/-- Every event is pending behind a pass. -/
theorem Covered.process (h : Covered none s) (now : ℤ) (env : EventPtr → Visit) :
    Covered none (s.process now env) := by
  unfold TimerList.process
  have hbegin := h.begin now
  generalize (s.begin now).order=order
  generalize (s.begin now).nextId-1=maxId
  generalize s.begin now=s' at hbegin
  induction order generalizing s' with
  | nil => exact hbegin
  | cons te order ih => exact ih (s'.turn maxId env te) (hbegin.turn te)

end Covered

/-- One call keeps the heap and the list together. -/
theorem step_implements (h : Implements l s) (hs : Sound s) (hc : Covered none s)
    {step : TimerStep} (htame : step.Tame) : ∃ l',step.code l=.ok () l' ∧
      Implements l' (step.apply s) ∧ Sound (step.apply s) ∧ Covered none (step.apply s) := by
  cases step with
  | op op =>
    obtain ⟨l',hl',h'⟩ := runOp_implements h hs op
    exact ⟨l',hl',h',hs.perform op,hc.performAll [op]⟩
  | process now env =>
    obtain ⟨processed,l',hl',h',-⟩ := processTimeEvents_implements h hs htame now
    exact ⟨l',bind_of_ok hl' _,h',hs.process htame now,hc.process now env⟩

/-- Any calls on the heap, one after another, are those on the list. -/
theorem steps_implement (h : Implements l s) (hs : Sound s) (hc : Covered none s)
    (htame : ∀ step∈steps,step.Tame) : ∃ l',steps.forM TimerStep.code l=.ok () l' ∧
      Implements l' (steps.foldl TimerStep.apply s) ∧ Sound (steps.foldl TimerStep.apply s) ∧
      Covered none (steps.foldl TimerStep.apply s) := by
  induction steps generalizing l s with
  | nil => exact ⟨l,rfl,h,hs,hc⟩
  | cons step steps ih =>
    obtain ⟨l₁,hl₁,h₁,hs₁,hc₁⟩ := step_implements h hs hc (htame step List.mem_cons_self)
    obtain ⟨l₂,hl₂,hrest⟩ := ih h₁ hs₁ hc₁ fun step hm => htame step (List.mem_cons_of_mem _ hm)
    exact ⟨l₂,(bind_of_ok hl₁ _).trans hl₂,hrest⟩

/-- So are those behind the creation of the event loop. -/
theorem history_implements (now : ℤ) (htame : ∀ step∈steps,step.Tame) :
    ∃ l,steps.forM TimerStep.code (.new now)=.ok () l ∧
      Implements l (steps.foldl TimerStep.apply (.new now)) ∧
      Sound (steps.foldl TimerStep.apply (.new now)) ∧
      Covered none (steps.foldl TimerStep.apply (.new now)) := by
  have hcovered : Covered none (.new now) := by simp [Covered,TimerList.new]
  exact steps_implement (new_implements now) (new_sound now) hcovered htame

/-- The timers on the heap are the list: whatever is created, deleted and processed in
whatever order, with callbacks that create and delete events in the middle of a pass, every
call returns, the chain from the head is the list, and no other event is live. -/
theorem timers_refine_list (now : ℤ) (htame : ∀ step∈steps,step.Tame) :
    ∃ l,steps.forM TimerStep.code (.new now)=.ok () l ∧
      Implements l (steps.foldl TimerStep.apply (.new now)) ∧
      ∀ te,(l.cells te).isSome ↔ te∈(steps.foldl TimerStep.apply (.new now)).order := by
  obtain ⟨l,hl,h,hs,hc⟩ := history_implements now htame
  refine ⟨l,hl,h,fun te => ?_⟩
  have hlive : (l.cells te).isSome=((steps.foldl TimerStep.apply (.new now)).event te).isSome := by
    rw [← h.events te,Option.isSome_map]
  rw [hlive]
  exact ⟨fun ho => (hc te ho).resolve_right (by simp),hs.live te⟩

/-- Two events, of which the second deletes the first in the pass and creates a third. -/
theorem timers_refine_list_busy : ∃ l,busySteps.forM TimerStep.code (.new 0)=.ok () l ∧
    Implements l (busySteps.foldl TimerStep.apply (.new 0)) ∧
      ∀ te,(l.cells te).isSome ↔ te∈(busySteps.foldl TimerStep.apply (.new 0)).order :=
  timers_refine_list 0 busySteps_tame

/-- Callbacks whose finalizers create an event. -/
def creating (_ : EventPtr) : Visit := ⟨5000,[],100,5001,[.create (request none)]⟩

/-- A finalizer that creates an event loses it: when the first two events of the list are both
deleted, unlinking the second one through `prev==NULL` drops the event that the finalizer of the
first one has put at the head. -/
theorem finalizer_loses_event :
    let steps := [.op (.create (request none)),.op (.create (request (some 7))),
      .op (.delete 0),.op (.delete 1),.process 5 creating]
    let l := finalState (steps.forM TimerStep.code (.new 0))
    l.timeEventHead=none ∧ (l.cells 2).isSome=true := by
  decide

end Refinement

/-- The call is about this event. -/
def concerns (te : EventPtr) : TimerCall → Bool
  | .create te' _ _ => te'=te
  | .fire te' _ _ _ => te'=te
  | .finalize te' _ _ => te'=te
  | .free te' => te'=te

/-- The calls about an event, in order. -/
def history (te : EventPtr) (calls : List TimerCall) : List TimerCall := calls.filter (concerns te)

/-- The calls for an event until it is removed: its creation for a request, and the procedure of
the request any number of times, always with one identifier and the data of the request. -/
def livingCalls (te : EventPtr) (id : ℤ) (r : TimerRequest) (n : ℕ) : List TimerCall :=
  .create te id r::List.replicate n (.fire te id r.timeProc r.clientData)

/-- The calls for its removal: the finalizer of the request once with its data, if the request
has one, and then its release. -/
def endingCalls (te : EventPtr) (r : TimerRequest) : List TimerCall :=
  (r.finalizerProc.map fun finalizerProc => .finalize te finalizerProc r.clientData).toList++
    [.free te]

/-- The event has the procedures and the data of this request. -/
structure Serves (t : TimeEvent) (r : TimerRequest) : Prop where
  /-- It has its procedure. -/
  timeProc : t.timeProc=r.timeProc
  /-- It has its finalizer, or none. -/
  finalizerProc : t.finalizerProc=r.finalizerProc
  /-- It has its data. -/
  clientData : t.clientData=r.clientData

/-- What has been called about an event: nothing before it exists, no removal while it is
pending, and exactly one afterwards; as long as it is pending, it is as it was requested. -/
def Life (s : TimerList) (te : EventPtr) : Prop :=
  match s.event te with
  | some t => ∃ id r n,history te s.calls=livingCalls te id r n ∧ Serves t r ∧
      (t.id=id ∨ t.id=aeDeletedEventId)
  | none => if te<s.nextCell then
        ∃ id r n,history te s.calls=livingCalls te id r n++endingCalls te r
      else history te s.calls=[]

section Lives

variable {s s' : TimerList} {te other : EventPtr} {t : TimeEvent} {now : ℤ} {maxId : ℤ}
variable {env : EventPtr → Visit} {steps : List TimerStep} {f : TimeEvent → TimeEvent}

/-- A call for another event is no part of the history of this one. -/
theorem history_called_of_ne {call : TimerCall} (h : concerns te call=false) :
    history te (s.called call).calls=history te s.calls := by
  rw [TimerList.called,history,List.filter_append,List.filter_singleton,h]
  exact List.append_nil _

/-- A call for the event is the next one of its history. -/
theorem history_called {call : TimerCall} (h : concerns te call=true) :
    history te (s.called call).calls=history te s.calls++[call] := by
  rw [TimerList.called,history,List.filter_append,List.filter_singleton,h]
  rfl

/-- A callback creates events of its own only. -/
theorem history_served (h : Served s s') (hlt : te<s.nextCell) :
    history te s'.calls=history te s.calls := by
  obtain ⟨calls,hcalls,hnew⟩ := h.calls
  have hnone : history te calls=[] := by
    refine List.filter_eq_nil_iff.mpr fun c hc hte => ?_
    obtain ⟨te',id,r,rfl,hle,-⟩ := hnew c hc
    have heq : te'=te := of_decide_eq_true hte
    exact absurd (heq ▸ hle) (Nat.not_le_of_lt hlt)
  rw [history,hcalls,List.filter_append]
  exact (congrArg (history te s.calls++·) hnone).trans (List.append_nil _)

/-- The life of a live event, written out. -/
theorem life_some (ht : s.event te=some t) : Life s te ↔ ∃ id r n,
    history te s.calls=livingCalls te id r n ∧ Serves t r ∧
      (t.id=id ∨ t.id=aeDeletedEventId) := by
  rw [Life,ht]

/-- A change of an event that keeps its procedures and data. -/
structure KeepsCall (f : TimeEvent → TimeEvent) : Prop where
  /-- Its identifier stays, or it is marked. -/
  id : KeepsId f
  /-- Its procedure stays. -/
  timeProc : ∀ t,(f t).timeProc=t.timeProc
  /-- So does its finalizer. -/
  finalizerProc : ∀ t,(f t).finalizerProc=t.finalizerProc
  /-- So does its data. -/
  clientData : ∀ t,(f t).clientData=t.clientData

/-- A mark changes nothing but the identifier. -/
theorem keepsCall_marked : KeepsCall marked :=
  ⟨keepsId_marked,fun _ => rfl,fun _ => rfl,fun _ => rfl⟩

/-- Rewinding changes nothing but the time. -/
theorem keepsCall_rewound : KeepsCall rewound :=
  ⟨keepsId_rewound,fun _ => rfl,fun _ => rfl,fun _ => rfl⟩

/-- So does a new date, and `AE_NOMORE` only marks. -/
theorem keepsCall_settle (v : Visit) : KeepsCall (settle v) := by
  refine ⟨keepsId_settle v,fun t => ?_,fun t => ?_,fun t => ?_⟩ <;> unfold settle <;>
    split <;> rfl

/-- A changed event still serves its request. -/
theorem Serves.changed {r : TimerRequest} (h : Serves t r) (hf : KeepsCall f) :
    Serves (f t) r where
  timeProc := (hf.timeProc t).trans h.timeProc
  finalizerProc := (hf.finalizerProc t).trans h.finalizerProc
  clientData := (hf.clientData t).trans h.clientData

/-- An event that changes like this still serves its request. -/
theorem Life.update (h : Life s other) (hf : KeepsCall f) (te : EventPtr) :
    Life (s.update te f) other := by
  by_cases he : other=te
  · subst he
    cases ht : s.event other with
    | none =>
      have hnone : (s.update other f).event other=none := by
        rw [update_event_self,ht,Option.map_none]
      rw [Life,ht] at h
      rw [Life,hnone]
      exact h
    | some t =>
      have hsome : (s.update other f).event other=some (f t) := by
        rw [update_event_self,ht,Option.map_some]
      obtain ⟨id,r,n,hcalls,hserves,hid⟩ := (life_some ht).mp h
      refine (life_some hsome).mpr ⟨id,r,n,hcalls,hserves.changed hf,?_⟩
      rcases hf.id t with hkept|hmark
      · rw [hkept]
        exact hid
      · exact .inr hmark
  · rw [Life,update_event_of_ne he]
    exact h

/-- A call for another event is no part of its life. -/
theorem Life.called (h : Life s te) {call : TimerCall} (hc : concerns te call=false) :
    Life (s.called call) te := by
  have hsame := history_called_of_ne (s:=s) hc
  unfold Life
  rw [hsame]
  exact h

/-- A creation begins the life of the new event, and a deletion ends none. -/
theorem Life.perform (h : Life s te) (hs : Sound s) (op : TimerOp) : Life (s.perform op) te := by
  cases op with
  | create r =>
    cases hr : r.allocated with
    | false =>
      rw [TimerList.perform,create_of_exhausted hr]
      exact h
    | true =>
      rw [TimerList.perform,create_of_allocated hr]
      by_cases he : te=s.nextCell
      · subst he
        have hunborn : history s.nextCell s.calls=[] := by
          rw [Life,hs.fresh] at h
          simpa only [Nat.lt_irrefl,if_false] using h
        refine (life_some (t:=r.event s.nextId) (Function.update_self _ _ _)).mpr
          ⟨s.nextId,r,0,?_,⟨rfl,rfl,rfl⟩,.inl rfl⟩
        have hown : concerns s.nextCell (.create s.nextCell s.nextId r)=true :=
          decide_eq_true rfl
        have hcreate := history_called (s:=s) hown
        rw [hunborn] at hcreate
        exact hcreate
      · have hother : concerns te (.create s.nextCell s.nextId r)=false :=
          decide_eq_false (Ne.symm he)
        have hsame := history_called_of_ne (s:=s) hother
        have hiff : te<s.nextCell+1 ↔ te<s.nextCell :=
          ⟨fun hlt => Nat.lt_of_le_of_ne (Nat.le_of_lt_succ hlt) he,Nat.lt_succ_of_lt⟩
        unfold Life at h ⊢
        simp only [Function.update_of_ne he,hiff]
        rw [← hsame] at h
        exact h
  | delete id =>
    rw [TimerList.perform,TimerList.delete]
    split
    · exact h.update keepsCall_marked _
    · exact h

/-- So it is with all that a callback does. -/
theorem Life.performAll (h : Life s te) (hs : Sound s) (ops : List TimerOp) :
    Life (ops.foldl TimerList.perform s) te := by
  induction ops generalizing s with
  | nil => exact h
  | cons op ops ih => exact ih (h.perform hs op) (hs.perform op)

/-- A finalizer is no part of the life of another event. -/
theorem Life.finalize (h : Life s other) (hs : Sound s) (hne : te≠other) (t : TimeEvent)
    (v : Visit) : Life (s.finalize te t v) other := by
  unfold TimerList.finalize
  split
  · rename_i finalizerProc _
    have hother : concerns other (.finalize te finalizerProc t.clientData)=false :=
      decide_eq_false hne
    have hcalled := h.called hother
    exact hcalled.performAll (hs.called _) _
  · exact h

/-- The finalizer of an event is called once, if it has one. -/
theorem history_finalize (hs : Sound s) (hlt : te<s.nextCell) {r : TimerRequest}
    (hserves : Serves t r) (v : Visit) :
    history te ((s.finalize te t v).release te).calls=history te s.calls++endingCalls te r := by
  have hfree : ∀ s' : TimerList,history te (s'.release te).calls=history te s'.calls++[.free te] :=
    fun s' => history_called (s:={s' with event := Function.update s'.event te none})
      (decide_eq_true rfl)
  rw [hfree]
  unfold TimerList.finalize
  split
  · rename_i finalizerProc hfin
    have hserved := served_performAll (hs.called (.finalize te finalizerProc t.clientData))
      v.finalOps
    have hown : concerns te (.finalize te finalizerProc t.clientData)=true := decide_eq_true rfl
    have hcalled := history_called (s:=s) hown
    rw [history_served hserved hlt,hcalled,endingCalls,← hserves.finalizerProc,hfin,
      ← hserves.clientData,List.append_assoc]
    rfl
  · rename_i hfin
    rw [endingCalls,← hserves.finalizerProc,hfin]
    rfl

/-- A finalizer gives no address back. -/
theorem finalize_nextCell (hs : Sound s) (t : TimeEvent) (v : Visit) :
    s.nextCell≤(s.finalize te t v).nextCell := by
  unfold TimerList.finalize
  split
  · exact (served_performAll (hs.called _) v.finalOps).nextCell
  · exact Nat.le_refl _

/-- A marked event ends its life, and that of no other one. -/
theorem Life.removed (h : ∀ te,Life s te) (hs : Sound s) (ht : s.event te=some t) (v : Visit)
    (other : EventPtr) : Life (((s.unlink te).finalize te t v).release te) other := by
  by_cases he : other=te
  · subst he
    have hlt : other<s.nextCell := hs.numbered other (by rw [ht]; rfl)
    obtain ⟨id,r,n,hcalls,hserves,-⟩ := (life_some ht).mp (h other)
    have hnone : (((s.unlink other).finalize other t v).release other).event other=none :=
      Function.update_self _ _ _
    have hlt' : other<(((s.unlink other).finalize other t v).release other).nextCell :=
      Nat.lt_of_lt_of_le hlt (finalize_nextCell (hs.unlink other) t v)
    have hhist := history_finalize (hs.unlink other) hlt hserves v
    rw [Life,hnone]
    refine (if_pos hlt').mpr ⟨id,r,n,hhist.trans ?_⟩
    exact congrArg (·++_) hcalls
  · have hlife := Life.finalize (s:=s.unlink te) (h other) (hs.unlink te) (Ne.symm he) t v
    have hother : concerns other (.free te)=false := decide_eq_false (Ne.symm he)
    have hsame := history_called_of_ne (s:={(s.unlink te).finalize te t v with
      event := Function.update ((s.unlink te).finalize te t v).event te none}) hother
    unfold Life at hlife ⊢
    simp only [TimerList.release,hsame]
    simp only [TimerList.called,Function.update_of_ne he]
    exact hlife

/-- A due event is called once more, and no other one. -/
theorem Life.fired (h : ∀ te,Life s te) (hs : Sound s) (ht : s.event te=some t)
    (hid : t.id≠aeDeletedEventId) (v : Visit) (other : EventPtr) :
    Life (s.fire te t v) other := by
  refine Life.update ?_ (keepsCall_settle _) _
  refine Life.performAll ?_ (hs.called _) _
  by_cases he : other=te
  · subst he
    obtain ⟨id,r,n,hcalls,hserves,hmark⟩ := (life_some ht).mp (h other)
    have htid : t.id=id := hmark.resolve_right hid
    have hown : concerns other (.fire other t.id t.timeProc t.clientData)=true :=
      decide_eq_true rfl
    have hfire := history_called (s:=s) hown
    refine (life_some (s:=s.called _) (t:=t) ht).mpr ⟨id,r,n+1,?_,hserves,.inl htid⟩
    rw [hfire,hcalls,livingCalls,livingCalls,htid,hserves.timeProc,hserves.clientData,
      List.cons_append,List.replicate_succ']
  · exact (h other).called (decide_eq_false (Ne.symm he))

/-- The turn of an event keeps what is said of all of them: it adds one firing to its calls,
or ends them. -/
theorem Life.turn (h : ∀ te,Life s te) (hs : Sound s) (te other : EventPtr) :
    Life (s.turn maxId env te) other := by
  unfold TimerList.turn
  split
  · exact h other
  · rename_i t ht
    split
    · exact Life.removed h hs ht (env te) other
    · rename_i hid
      split
      · exact h other
      · split
        · exact Life.fired h hs ht hid (env te) other
        · exact h other

/-- The look at the time calls nothing. -/
theorem Life.begin (h : Life s te) (now : ℤ) : Life (s.begin now) te := by
  have hrewind : Life s.rewind te := by
    unfold TimerList.rewind
    generalize s.order=order
    induction order generalizing s with
    | nil => exact h
    | cons other order ih => exact ih (h.update keepsCall_rewound other)
  unfold TimerList.begin
  split
  · exact hrewind
  · exact h

/-- A pass keeps the lives of all events. -/
theorem Life.process (h : ∀ te,Life s te) (hs : Sound s)
    (hfin : ∀ te,∀ op∈(env te).finalOps,¬ op.Adds) (now : ℤ) (te : EventPtr) :
    Life (s.process now env) te := by
  have hbegin := hs.begin now
  have hlife : ∀ te,Life (s.begin now) te := fun te => (h te).begin now
  unfold TimerList.process
  generalize (s.begin now).order=order
  generalize (s.begin now).nextId-1=maxId
  generalize s.begin now=s' at hbegin hlife
  induction order generalizing s' with
  | nil => exact hlife te
  | cons other order ih =>
    exact ih (s'.turn maxId env other) (hbegin.turn (hfin other)) (Life.turn hlife hbegin other)

/-- So do any calls. -/
theorem steps_live (hs : Sound s) (h : ∀ te,Life s te) (htame : ∀ step∈steps,step.Tame)
    (te : EventPtr) : Life (steps.foldl TimerStep.apply s) te := by
  induction steps generalizing s with
  | nil => exact h te
  | cons step steps ih =>
    have hrest := fun step hm => htame step (List.mem_cons_of_mem _ hm)
    have hhead := htame step List.mem_cons_self
    cases step with
    | op op => exact ih (hs.perform op) (fun te => (h te).perform hs op) hrest
    | process now env =>
      exact ih (hs.process hhead now) (Life.process h hs hhead now) hrest

/-- Over any sequence of calls, as long as finalizers create no event, what was called about an
event is its creation for a request and the procedure of the request any number of times, with
one identifier and the data of the request; a live event is still as requested, with that
identifier or the mark, and one that is gone was finalized once, if the request has a finalizer,
by that finalizer with the data of the request, and then released once. -/
theorem event_lives (now : ℤ) (htame : ∀ step∈steps,step.Tame) :
    ∃ l,steps.forM TimerStep.code (.new now)=.ok () l ∧
      (∀ te c,l.cells te=some c → ∃ id r n,history te l.calls=livingCalls te id r n ∧
        Serves c.event r ∧ (c.event.id=id ∨ c.event.id=aeDeletedEventId)) ∧
      (∀ te,te<l.nextCell → l.cells te=none → ∃ id r n,
        history te l.calls=livingCalls te id r n++endingCalls te r) ∧
      ∀ te,l.nextCell≤te → history te l.calls=[] := by
  obtain ⟨l,hl,h,-⟩ := timers_refine_list now htame
  have hs : Sound (steps.foldl TimerStep.apply (.new now)) := by
    obtain ⟨-,-,-,hs,-⟩ := history_implements now htame
    exact hs
  have hlife := steps_live (new_sound now) (fun te => rfl) htame
  refine ⟨l,hl,fun te c hc => ?_,fun te hlt hnone => ?_,fun te hle => ?_⟩
  · have hevent := (h.events te).symm.trans (congrArg (Option.map EventCell.event) hc)
    obtain ⟨id,r,n,hcalls,hserves,hid⟩ := (life_some hevent).mp (hlife te)
    exact ⟨id,r,n,h.calls ▸ hcalls,hserves,hid⟩
  · have hevent := (h.events te).symm.trans (congrArg (Option.map EventCell.event) hnone)
    have hte := hlife te
    rw [Life,hevent] at hte
    rw [h.calls]
    simpa only [Option.map_none,if_pos (h.nextCell ▸ hlt)] using hte
  · have hte := hlife te
    have hfresh : (steps.foldl TimerStep.apply (.new now)).event te=none := by
      by_contra hne
      have hlt := hs.numbered te (Option.isSome_iff_ne_none.mpr hne)
      exact absurd (h.nextCell ▸ hle) (Nat.not_le_of_lt hlt)
    rw [Life,hfresh] at hte
    rw [h.calls]
    simpa only [if_neg (Nat.not_lt_of_le (h.nextCell ▸ hle))] using hte

/-- The sample calls, creates, finalizes and frees. -/
theorem event_lives_busy : ∃ l,busySteps.forM TimerStep.code (.new 0)=.ok () l ∧
    (∀ te c,l.cells te=some c → ∃ id r n,history te l.calls=livingCalls te id r n ∧
      Serves c.event r ∧ (c.event.id=id ∨ c.event.id=aeDeletedEventId)) ∧
    (∀ te,te<l.nextCell → l.cells te=none → ∃ id r n,
      history te l.calls=livingCalls te id r n++endingCalls te r) ∧
    ∀ te,l.nextCell≤te → history te l.calls=[] :=
  event_lives 0 busySteps_tame

end Lives

/-- The call is of the procedure of the event with this identifier. -/
def firesId (id : ℤ) : TimerCall → Bool
  | .fire _ id' _ _ => id'=id
  | _ => false

/-- The identifier was handed out, and only these events may have it. -/
structure Held (holder : EventPtr → Prop) (s : TimerList) (id : ℤ) : Prop where
  /-- It will not be handed out again. -/
  issued : id<s.nextId
  /-- It is no mark. -/
  proper : id≠aeDeletedEventId
  /-- No other event has it. -/
  only : ∀ te t,s.event te=some t → t.id=id → holder te

/-- No event has the identifier any more. -/
abbrev Retired (s : TimerList) (id : ℤ) : Prop := Held (fun _ => False) s id

/-- Every event that is not marked is pending. -/
def Reached (s : TimerList) : Prop :=
  ∀ te t,s.event te=some t → te∈s.order ∨ t.id=aeDeletedEventId

/-- These operations delete the event with this identifier, handed out by then when the next
one was this at their start. -/
def Deletes (id : ℤ) : ℤ → List TimerOp → Prop
  | _,[] => False
  | nextId,.create _::ops => Deletes id (nextId+1) ops
  | nextId,.delete id'::ops => (id'=id ∧ id<nextId) ∨ Deletes id nextId ops

/-- The call is of a callback that ends the event with this identifier: it deletes it once it has
been handed out, or it is the procedure of the event and returns `AE_NOMORE`. -/
def Ends (env : EventPtr → Visit) (nextId id : ℤ) : TimerCall → Prop
  | .fire te id' _ _ => Deletes id nextId (env te).ops ∨ (id'=id ∧ (env te).retval=aeNomore)
  | .finalize te _ _ => Deletes id nextId (env te).finalOps
  | _ => False

/-- Identifiers that a callback uses up. -/
def idsUsed (env : EventPtr → Visit) : TimerCall → ℕ
  | .fire te _ _ _ => (env te).ops.countP (·.Adds)
  | .finalize te _ _ => (env te).finalOps.countP (·.Adds)
  | _ => 0

/-- The next identifier behind these calls of a pass. -/
def handedOut (env : EventPtr → Visit) (nextId : ℤ) (calls : List TimerCall) : ℤ :=
  nextId+(calls.map (idsUsed env)).sum

/-- A callback of these calls ends the event with this identifier, with the calls around it. -/
def EndedBy (env : EventPtr → Visit) (nextId id : ℤ) (calls before : List TimerCall)
    (c : TimerCall) (after : List TimerCall) : Prop :=
  calls=before++c::after ∧ Ends env (handedOut env nextId before) id c

section Retirement

variable {s s' : TimerList} {te other : EventPtr} {t : TimeEvent} {now id : ℤ} {maxId : ℤ}
variable {env : EventPtr → Visit} {steps steps' : List TimerStep} {f : TimeEvent → TimeEvent}
variable {holder : EventPtr → Prop} {ops : List TimerOp}

/-- The procedure of this event is not called between the two states. -/
def SilentId (id : ℤ) (s s' : TimerList) : Prop :=
  s'.calls.filter (firesId id)=s.calls.filter (firesId id)

/-- A change that gives no event a new identifier keeps who has this one. -/
theorem Held.update (h : Held holder s id) (hf : KeepsId f) (te : EventPtr) :
    Held holder (s.update te f) id where
  issued := h.issued
  proper := h.proper
  only := by
    intro other t ht heq
    obtain ⟨t₀,ht₀,hid⟩ := id_of_update hf ht
    have hkept := hid.resolve_right fun hmark => h.proper (heq.symm.trans hmark)
    exact h.only other t₀ ht₀ (hkept.symm.trans heq)

/-- A creation hands out another identifier, and a deletion takes it away at most. -/
theorem Held.perform (h : Held holder s id) (op : TimerOp) : Held holder (s.perform op) id := by
  cases op with
  | create r =>
    have hissued := h.issued
    cases hr : r.allocated with
    | false =>
      rw [TimerList.perform,create_of_exhausted hr]
      exact ⟨by simp only; omega,h.proper,h.only⟩
    | true =>
      rw [TimerList.perform,create_of_allocated hr]
      refine ⟨by simp only; omega,h.proper,fun te t ht heq => ?_⟩
      by_cases he : te=s.nextCell
      · simp only [he,Function.update_self,Option.some.injEq] at ht
        rw [← ht] at heq
        exact absurd heq h.issued.ne'
      · simp only [Function.update_of_ne he] at ht
        exact h.only te t ht heq
  | delete id' =>
    rw [TimerList.perform,TimerList.delete]
    split
    · exact h.update keepsId_marked _
    · exact h

/-- So it is with all that a callback does. -/
theorem Held.performAll (h : Held holder s id) (ops : List TimerOp) :
    Held holder (ops.foldl TimerList.perform s) id := by
  induction ops generalizing s with
  | nil => exact h
  | cons op ops ih => exact ih (h.perform op)

/-- A finalizer gives nobody an identifier that is retired. -/
theorem Retired.finalize (h : Retired s id) (te : EventPtr) (t : TimeEvent) (v : Visit) :
    Retired (s.finalize te t v) id := by
  unfold TimerList.finalize
  split
  · exact Held.performAll (s:=s.called _) ⟨h.issued,h.proper,h.only⟩ _
  · exact h

/-- Neither does a freed event. -/
theorem Retired.release (h : Retired s id) (te : EventPtr) : Retired (s.release te) id where
  issued := h.issued
  proper := h.proper
  only := by
    intro other t ht
    by_cases he : other=te
    · simp [TimerList.release,TimerList.called,he] at ht
    · simp only [TimerList.release,TimerList.called,Function.update_of_ne he] at ht
      exact h.only other t ht

/-- What a callback does with the timers does not call the procedure by itself. -/
theorem silent_of_served (h : Served s s') : SilentId id s s' := by
  obtain ⟨calls,hcalls,hnew⟩ := h.calls
  have hnone : calls.filter (firesId id)=[] := by
    refine List.filter_eq_nil_iff.mpr fun c hc hfire => ?_
    obtain ⟨te,id',r,rfl,-⟩ := hnew c hc
    exact Bool.false_ne_true hfire
  rw [SilentId,hcalls,List.filter_append,hnone,List.append_nil]

/-- A call of something else is none of the procedure. -/
theorem silent_called {call : TimerCall} (h : firesId id call=false) :
    SilentId id s (s.called call) := by
  rw [SilentId,TimerList.called,List.filter_append,List.filter_singleton,h]
  exact List.append_nil _

/-- A finalizer is none either. -/
theorem silent_finalize (hs : Sound s) (te : EventPtr) (t : TimeEvent) (v : Visit) :
    SilentId id s (s.finalize te t v) := by
  unfold TimerList.finalize
  split
  · exact (silent_of_served (served_performAll (hs.called _) v.finalOps)).trans (silent_called rfl)
  · rfl

/-- A retired identifier stays so in a turn, which does not call its procedure. -/
theorem Retired.turn (h : Retired s id) (hs : Sound s) (te : EventPtr) :
    Retired (s.turn maxId env te) id ∧ SilentId id s (s.turn maxId env te) := by
  unfold TimerList.turn
  split
  · exact ⟨h,rfl⟩
  · rename_i t ht
    split
    · have hunlink : Retired (s.unlink te) id := ⟨h.issued,h.proper,h.only⟩
      have hsilent : SilentId id (s.unlink te) ((s.unlink te).finalize te t (env te)) :=
        silent_finalize (hs.unlink te) te t (env te)
      exact ⟨(Retired.finalize hunlink te t (env te)).release te,(silent_called rfl).trans hsilent⟩
    · split
      · exact ⟨h,rfl⟩
      · split
        · have hcalled : Retired (s.called (.fire te t.id t.timeProc t.clientData)) id :=
            ⟨h.issued,h.proper,h.only⟩
          have hfire : firesId id (.fire te t.id t.timeProc t.clientData)=false :=
            decide_eq_false (h.only te t ht)
          have hserved := served_performAll (hs.called (.fire te t.id t.timeProc t.clientData))
            (env te).ops
          have hsilent : SilentId id _ _ := silent_of_served hserved
          exact ⟨(hcalled.performAll _).update (keepsId_settle _) te,
            hsilent.trans (silent_called hfire)⟩
        · exact ⟨h,rfl⟩

/-- So it does in all turns of a pass, by induction on the events that are left. -/
theorem Retired.turns (maxId : ℤ) (h : Retired s id) (hs : Sound s)
    (hfin : ∀ te,∀ op∈(env te).finalOps,¬ op.Adds) (order : List EventPtr) :
    Retired (order.foldl (TimerList.turn maxId env) s) id ∧
      SilentId id s (order.foldl (TimerList.turn maxId env) s) := by
  induction order generalizing s with
  | nil => exact ⟨h,rfl⟩
  | cons te order ih =>
    have hone : Retired (s.turn maxId env te) id ∧ SilentId id s (s.turn maxId env te) :=
      h.turn hs te
    obtain ⟨hturn,hsilent⟩ := hone
    obtain ⟨hrest,hsilent'⟩ := ih hturn (hs.turn (hfin te))
    exact ⟨hrest,hsilent'.trans hsilent⟩

/-- The look at the time calls nothing. -/
theorem Retired.begin (h : Retired s id) (now : ℤ) :
    Retired (s.begin now) id ∧ SilentId id s (s.begin now) := by
  have hrewind : Retired s.rewind id := by
    unfold TimerList.rewind
    generalize s.order=order
    induction order generalizing s with
    | nil => exact h
    | cons te order ih => exact ih (h.update keepsId_rewound te)
  refine ⟨?_,congrArg (List.filter _) (begin_same s now).2.2⟩
  unfold TimerList.begin
  split
  · exact ⟨hrewind.issued,hrewind.proper,hrewind.only⟩
  · exact ⟨h.issued,h.proper,h.only⟩

/-- The procedure of a retired identifier is not called by any calls. -/
theorem Retired.silent (h : Retired s id) (hs : Sound s) (htame : ∀ step∈steps,step.Tame) :
    SilentId id s (steps.foldl TimerStep.apply s) := by
  induction steps generalizing s with
  | nil => rfl
  | cons step steps ih =>
    have hrest := fun step hm => htame step (List.mem_cons_of_mem _ hm)
    have hhead := htame step List.mem_cons_self
    cases step with
    | op op =>
      have hsilent : SilentId id s (s.perform op) := silent_of_served (served_performAll hs [op])
      exact (ih (h.perform op) (hs.perform op) hrest).trans hsilent
    | process now env =>
      obtain ⟨hbegin,hsilent⟩ := Retired.begin h now
      obtain ⟨hturns,hsilent'⟩ := hbegin.turns ((s.begin now).nextId-1) (hs.begin now) hhead
        (s.begin now).order
      exact (ih hturns (hs.process hhead now) hrest).trans (hsilent'.trans hsilent)

/-- An event that is pending is reached by a search. -/
theorem Covered.reached (h : Covered none s) : Reached s := by
  intro te t ht
  exact .inl ((h te (by rw [ht]; rfl)).resolve_right (by simp))

/-- A change that gives no event a new identifier leaves it in reach. -/
theorem Reached.update (h : Reached s) (hf : KeepsId f) (te : EventPtr) :
    Reached (s.update te f) := by
  intro other t ht
  obtain ⟨t₀,ht₀,hid⟩ := id_of_update hf ht
  rcases h other t₀ ht₀ with hmem|hmark
  · exact .inl hmem
  · exact .inr (hid.elim (·.trans hmark) fun hm => hm)

/-- A new event is pending, hence in reach. -/
theorem Reached.perform (h : Reached s) (op : TimerOp) : Reached (s.perform op) := by
  cases op with
  | create r =>
    cases hr : r.allocated with
    | false =>
      rw [TimerList.perform,create_of_exhausted hr]
      exact h
    | true =>
      rw [TimerList.perform,create_of_allocated hr]
      intro te t ht
      by_cases he : te=s.nextCell
      · exact .inl (he ▸ List.mem_cons_self)
      · simp only [Function.update_of_ne he] at ht
        exact (h te t ht).imp_left (List.mem_cons_of_mem _)
  | delete id =>
    rw [TimerList.perform,TimerList.delete]
    split
    · exact h.update keepsId_marked _
    · exact h

/-- So it is with all that a callback does. -/
theorem Reached.performAll (h : Reached s) (ops : List TimerOp) :
    Reached (ops.foldl TimerList.perform s) := by
  induction ops generalizing s with
  | nil => exact h
  | cons op ops ih => exact ih (h.perform op)

/-- A finalizer takes no event out of reach. -/
theorem Reached.finalize (h : Reached s) (te : EventPtr) (t : TimeEvent) (v : Visit) :
    Reached (s.finalize te t v) := by
  unfold TimerList.finalize
  split
  · exact Reached.performAll (s:=s.called _) h _
  · exact h

/-- The event that is taken out is marked. -/
theorem Reached.unlink (h : Reached s) (ht : s.event te=some t) (hid : t.id=aeDeletedEventId) :
    Reached (s.unlink te) := by
  intro other t' ht'
  by_cases he : other=te
  · rw [he] at ht'
    have heq : t'=t := Option.some.inj (ht'.symm.trans ht)
    exact .inr (heq ▸ hid)
  · exact (h other t' ht').imp_left (List.mem_erase_of_ne he).mpr

/-- Every event that is not marked is in reach behind a turn. -/
theorem Reached.turn (h : Reached s) (te : EventPtr) : Reached (s.turn maxId env te) := by
  unfold TimerList.turn
  split
  · exact h
  · rename_i t ht
    split
    · rename_i hid
      have hfin := (h.unlink ht hid).finalize te t (env te)
      intro other t' ht'
      by_cases he : other=te
      · simp [TimerList.release,TimerList.called,he] at ht'
      · simp only [TimerList.release,TimerList.called,Function.update_of_ne he] at ht'
        exact hfin other t' ht'
    · split
      · exact h
      · split
        · exact (Reached.performAll (s:=s.called _) h _).update (keepsId_settle _) _
        · exact h

/-- A deleted identifier is retired. -/
theorem retired_delete (hs : Sound s) (hr : Reached s) (hid : id≠aeDeletedEventId)
    (hissued : id<s.nextId) : Retired (s.delete id) id := by
  unfold TimerList.delete
  split
  · rename_i te hfind
    refine ⟨hissued,hid,fun other t ht heq => ?_⟩
    have htest := List.find?_some hfind
    obtain ⟨t₁,ht₁,hid₁⟩ : ∃ t₁,s.event te=some t₁ ∧ t₁.id=id := by
      simpa [Option.any_eq_true] using htest
    by_cases he : other=te
    · rw [he,update_event_self,ht₁,Option.map_some,Option.some.injEq] at ht
      rw [← ht] at heq
      exact hid heq.symm
    · rw [update_event_of_ne he] at ht
      exact he (hs.distinct other te t t₁ ht ht₁ (by omega) (heq ▸ hid))
  · rename_i hfind
    refine ⟨hissued,hid,fun te t ht heq => ?_⟩
    have hmem := (hr te t ht).resolve_right fun hmark => hid (heq.symm.trans hmark)
    have hnone := List.find?_eq_none.mp hfind te hmem
    simp [ht,heq] at hnone

/-- So is one that a callback deletes, even if the callback has created the event itself. -/
theorem retired_of_deletes (hs : Sound s) (hr : Reached s) (hid : id≠aeDeletedEventId)
    (h : Deletes id s.nextId ops) : Retired (ops.foldl TimerList.perform s) id := by
  induction ops generalizing s with
  | nil => exact h.elim
  | cons op ops ih =>
    have hsound := hs.perform op
    have hreached := hr.perform op
    cases op with
    | create r => exact ih hsound hreached ((create_nextId s r).symm ▸ h)
    | delete id' =>
      rcases h with ⟨rfl,hissued⟩|h
      · exact Held.performAll (retired_delete hs hr hid hissued) ops
      · exact ih hsound hreached ((delete_nextId s id').symm ▸ h)

/-- So is that of an event whose procedure returns `AE_NOMORE`. -/
theorem retired_of_nomore (hs : Sound s) (ht : s.event te=some t) (hid : t.id≠aeDeletedEventId)
    {v : Visit} (hv : v.retval=aeNomore) : Retired (s.fire te t v) t.id := by
  have hheld : Held (·=te) (s.called (.fire te t.id t.timeProc t.clientData)) t.id := by
    refine ⟨hs.issued te t ht,hid,fun other t' ht' heq => ?_⟩
    exact hs.distinct other te t' t ht' ht heq (heq ▸ hid)
  have hops := hheld.performAll v.ops
  refine ⟨hops.issued,hid,fun other t' ht' heq => ?_⟩
  have hsettle : settle v=marked := by
    funext t
    rw [settle,if_neg (not_not.mpr hv)]
  by_cases he : other=te
  · rw [TimerList.fire,hsettle,he,update_event_self] at ht'
    obtain ⟨t₀,-,rfl⟩ := Option.map_eq_some_iff.mp ht'
    exact hid heq.symm
  · rw [TimerList.fire,update_event_of_ne he] at ht'
    exact he (hops.only other t' ht' heq)

/-- Neither the procedure nor the finalizer of an event is called. -/
def IsBookkeeping : TimerCall → Prop
  | .create _ _ _ => True
  | .free _ => True
  | _ => False

/-- A callback is followed by creations only. -/
theorem bookkeeping_served (h : Served s s') :
    ∃ calls,s'.calls=s.calls++calls ∧ ∀ c∈calls,IsBookkeeping c := by
  obtain ⟨calls,hcalls,hnew⟩ := h.calls
  refine ⟨calls,hcalls,fun c hc => ?_⟩
  obtain ⟨te,id,r,rfl,-⟩ := hnew c hc
  trivial

/-- Identifiers are used up in sequence. -/
theorem handedOut_append (env : EventPtr → Visit) (nextId : ℤ) (calls calls' : List TimerCall) :
    handedOut env nextId (calls++calls')=handedOut env (handedOut env nextId calls) calls' := by
  simp only [handedOut,List.map_append,List.sum_append,Nat.cast_add,add_assoc]

/-- Creations and releases are no callbacks, which alone use up identifiers. -/
theorem handedOut_bookkeeping {calls : List TimerCall} (h : ∀ c∈calls,IsBookkeeping c)
    (nextId : ℤ) : handedOut env nextId calls=nextId := by
  have hnone : calls.map (idsUsed env)=calls.map fun _ => 0 := by
    refine List.map_congr_left fun c hc => ?_
    have hbook := h c hc
    cases c with
    | fire | finalize => exact hbook.elim
    | create | free => rfl
  rw [handedOut,hnone,List.map_const']
  simp

/-- What a turn adds to the calls: at most one callback, and it ends what it ends. -/
structure TurnCalls (maxId : ℤ) (env : EventPtr → Visit) (s : TimerList) (te : EventPtr)
    (callback : Option TimerCall) (rest : List TimerCall) : Prop where
  /-- These are the calls. -/
  calls : (s.turn maxId env te).calls=s.calls++callback.toList++rest
  /-- The callback is that of the event. -/
  own : ∀ c∈callback,concerns te c=true
  /-- No callback follows. -/
  rest : ∀ c∈rest,IsBookkeeping c
  /-- The callback uses up its identifiers. -/
  nextId : (s.turn maxId env te).nextId=handedOut env s.nextId callback.toList
  /-- An event that the callback ends is gone. -/
  ends : ∀ c∈callback,∀ id,id≠aeDeletedEventId → Ends env s.nextId id c →
    Retired (s.turn maxId env te) id

/-- A turn that does nothing calls nothing. -/
theorem turnCalls_idle (h : s.turn maxId env te=s) : TurnCalls maxId env s te none [] where
  calls := by rw [h]; simp
  own := by simp
  rest := by simp
  nextId := by rw [h]; simp [handedOut]
  ends := by simp

/-- A marked event without a finalizer is only freed. -/
theorem turnCalls_freed {t : TimeEvent} (ht : s.event te=some t) (hid : t.id=aeDeletedEventId)
    (hfin : t.finalizerProc=none) : TurnCalls maxId env s te none [.free te] := by
  have hturn : s.turn maxId env te=((s.unlink te).finalize te t (env te)).release te :=
    turn_marked ht hid
  rw [TimerList.finalize,hfin] at hturn
  refine ⟨?_,by simp,by simp [IsBookkeeping],?_,by simp⟩
  · rw [hturn]
    simp [TimerList.release,TimerList.called,TimerList.unlink]
  · rw [hturn]
    simp [handedOut,TimerList.release,TimerList.called,TimerList.unlink]

/-- Otherwise its finalizer is called before. -/
theorem turnCalls_finalized {t : TimeEvent} {finalizerProc : ProcPtr} (hs : Sound s)
    (hr : Reached s) (ht : s.event te=some t) (hid : t.id=aeDeletedEventId)
    (hfin : t.finalizerProc=some finalizerProc) : ∃ calls,
      TurnCalls maxId env s te (some (.finalize te finalizerProc t.clientData)) calls := by
  let called := (s.unlink te).called (.finalize te finalizerProc t.clientData)
  have hsound : Sound called := (hs.unlink te).called _
  have hturn : s.turn maxId env te=
      ((env te).finalOps.foldl TimerList.perform called).release te := by
    rw [turn_marked ht hid,TimerList.finalize,hfin]
  obtain ⟨calls,hcalls,hbook⟩ := bookkeeping_served (served_performAll hsound (env te).finalOps)
  refine ⟨calls++[.free te],?_,by simp [concerns],fun c hc => ?_,?_,fun c hc id hproper hends => ?_⟩
  · rw [hturn]
    simp only [TimerList.release,TimerList.called,hcalls]
    simp [called,TimerList.called,TimerList.unlink]
  · rcases List.mem_append.mp hc with hc|hc
    · exact hbook c hc
    · exact List.mem_singleton.mp hc ▸ trivial
  · rw [hturn]
    refine (performAll_nextId called (env te).finalOps).trans ?_
    simp [called,handedOut,idsUsed,TimerList.called,TimerList.unlink]
  · rw [← Option.mem_some_iff.mp hc] at hends
    rw [hturn]
    exact (retired_of_deletes hsound (hr.unlink ht hid) hproper hends).release te

/-- The procedure of a due event is called. -/
theorem turnCalls_fired {t : TimeEvent} (hs : Sound s) (hr : Reached s) (ht : s.event te=some t)
    (hid : t.id≠aeDeletedEventId) (hle : t.id ≤ maxId) (hdue : t.Due (env te).clock) : ∃ calls,
      TurnCalls maxId env s te (some (.fire te t.id t.timeProc t.clientData)) calls := by
  let called := s.called (.fire te t.id t.timeProc t.clientData)
  have hsound : Sound called := hs.called _
  have hturn : s.turn maxId env te=s.fire te t (env te) := turn_due ht hid hle hdue
  obtain ⟨calls,hcalls,hbook⟩ := bookkeeping_served (served_performAll hsound (env te).ops)
  refine ⟨calls,?_,by simp [concerns],hbook,?_,fun c hc id hproper hends => ?_⟩
  · rw [hturn]
    exact hcalls
  · rw [hturn]
    refine (performAll_nextId called (env te).ops).trans ?_
    simp [called,handedOut,idsUsed,TimerList.called]
  · rw [← Option.mem_some_iff.mp hc] at hends
    rw [hturn]
    rcases hends with hdelete|⟨rfl,hv⟩
    · exact (retired_of_deletes hsound hr hproper hdelete).update (keepsId_settle _) te
    · exact retired_of_nomore hs ht hid hv

/-- The calls of one turn: a marked event is finalized, a due one is called, and nothing happens
to any other one. -/
theorem turnCalls (hs : Sound s) (hr : Reached s) (te : EventPtr) :
    ∃ callback rest,TurnCalls maxId env s te callback rest := by
  cases ht : s.event te with
  | none => exact ⟨none,[],turnCalls_idle (by rw [TimerList.turn,ht])⟩
  | some t =>
    by_cases hid : t.id=aeDeletedEventId
    · cases hfin : t.finalizerProc with
      | none => exact ⟨none,_,turnCalls_freed ht hid hfin⟩
      | some finalizerProc => exact ⟨_,turnCalls_finalized hs hr ht hid hfin⟩
    · by_cases hle : t.id>maxId
      · exact ⟨none,[],turnCalls_idle (by rw [TimerList.turn,ht]; simp [hid,hle])⟩
      · by_cases hdue : t.Due (env te).clock
        · exact ⟨_,turnCalls_fired hs hr ht hid (not_lt.mp hle) hdue⟩
        · exact ⟨none,[],turnCalls_idle (by rw [TimerList.turn,ht]; simp [hid,hle,hdue])⟩

/-- Behind a callback of these calls that ends an event, its procedure is not called. -/
def EndsStay (env : EventPtr → Visit) (nextId id : ℤ) (calls : List TimerCall) : Prop :=
  ∀ before c after,EndedBy env nextId id calls before c after → after.filter (firesId id)=[]

/-- Creations and releases call no procedure. -/
theorem filter_bookkeeping {calls : List TimerCall} (h : ∀ c∈calls,IsBookkeeping c) (id : ℤ) :
    calls.filter (firesId id)=[] := by
  refine List.filter_eq_nil_iff.mpr fun c hc hfire => ?_
  have hbook := h c hc
  cases c with
  | fire => exact hbook
  | create | finalize | free => exact Bool.false_ne_true hfire

/-- A callback that ends an event stands in the first turn of a pass, or in a later one. -/
theorem endedBy_turn {callback : Option TimerCall} {rest new before after : List TimerCall}
    {c : TimerCall} (hturn : TurnCalls maxId env s te callback rest)
    (h : EndedBy env s.nextId id (callback.toList++rest++new) before c after) :
    (c∈callback ∧ Ends env s.nextId id c ∧ after=rest++new) ∨
      ∃ mid,EndedBy env (s.turn maxId env te).nextId id new mid c after := by
  obtain ⟨hsplit,hends⟩ := h
  have hbook : ∀ c∈rest,∀ n,¬ Ends env n id c := fun c hc n hends => by
    have := hturn.rest c hc
    cases c <;> simp_all [IsBookkeeping,Ends]
  have hnextId : handedOut env s.nextId (callback.toList++rest)=(s.turn maxId env te).nextId := by
    rw [handedOut_append,handedOut_bookkeeping hturn.rest,hturn.nextId]
  rcases List.append_eq_append_iff.mp hsplit with ⟨mid,hbefore,hmid⟩|⟨mid,hmid,hafter⟩
  · rw [hbefore,handedOut_append,hnextId] at hends
    exact .inr ⟨mid,hmid,hends⟩
  · cases mid with
    | nil =>
      rw [List.append_nil] at hmid
      rw [← hmid,hnextId] at hends
      exact .inr ⟨[],hafter.symm,by simpa [handedOut] using hends⟩
    | cons c' mid =>
      obtain ⟨rfl,htail⟩ : c=c' ∧ after=mid++new := by simpa using hafter
      left
      cases before with
      | nil =>
        cases callback with
        | none =>
          have hrest : rest=c::mid := hmid
          exact absurd hends (hbook c (by simp [hrest]) _)
        | some c' =>
          obtain ⟨rfl,hrest⟩ : c'=c ∧ rest=mid := List.cons.inj hmid
          exact ⟨rfl,by simpa [handedOut] using hends,hrest ▸ htail⟩
      | cons b before =>
        have hmem : c∈rest := by
          cases callback with
          | none =>
            have hrest : rest=b::(before++c::mid) := hmid
            simp [hrest]
          | some c' =>
            have hrest : rest=before++c::mid := (List.cons.inj hmid).2
            simp [hrest]
        exact absurd hends (hbook c hmem _)

/-- Once a callback of a turn ends an event, the turns that follow do not call it. -/
theorem TurnCalls.silent {callback : Option TimerCall} {rest new : List TimerCall} {c : TimerCall}
    (hturn : TurnCalls maxId env s te callback rest) (hs : Sound (s.turn maxId env te))
    (hfin : ∀ te,∀ op∈(env te).finalOps,¬ op.Adds) {order : List EventPtr}
    (hnew : (order.foldl (TimerList.turn maxId env) (s.turn maxId env te)).calls=
      (s.turn maxId env te).calls++new) (hc : c∈callback) (hproper : id≠aeDeletedEventId)
    (hends : Ends env s.nextId id c) : (rest++new).filter (firesId id)=[] ∧
      Retired (order.foldl (TimerList.turn maxId env) (s.turn maxId env te)) id := by
  have hretired := hturn.ends c hc id hproper hends
  obtain ⟨hfinal,hquiet⟩ := hretired.turns maxId hs hfin order
  rw [SilentId,hnew,List.filter_append] at hquiet
  refine ⟨?_,hfinal⟩
  rw [List.filter_append,filter_bookkeeping hturn.rest,List.nil_append]
  exact List.append_right_eq_self.mp hquiet

/-- The turns of a pass, for any identifier: a callback may end an event that was pending before
the pass, that an earlier callback of the pass has created, or that it has created itself. -/
theorem turns_end (maxId : ℤ) (hs : Sound s) (hr : Reached s) (hproper : id≠aeDeletedEventId)
    (hfin : ∀ te,∀ op∈(env te).finalOps,¬ op.Adds) (order : List EventPtr) : ∃ new,
      (order.foldl (TimerList.turn maxId env) s).calls=s.calls++new ∧
      EndsStay env s.nextId id new ∧ ∀ before c after,EndedBy env s.nextId id new before c after →
        Retired (order.foldl (TimerList.turn maxId env) s) id := by
  induction order generalizing s with
  | nil => exact ⟨[],(List.append_nil _).symm,by simp [EndsStay,EndedBy],by simp [EndedBy]⟩
  | cons te order ih =>
    have hcalls : ∃ callback rest,TurnCalls maxId env s te callback rest := turnCalls hs hr te
    obtain ⟨callback,rest,hturn⟩ := hcalls
    have hsturn : Sound (s.turn maxId env te) := hs.turn (hfin te)
    obtain ⟨new,hnew,hstay,hgone⟩ := ih hsturn (hr.turn te)
    refine ⟨callback.toList++rest++new,?_,fun before c after h => ?_,fun before c after h => ?_⟩
    · rw [List.foldl_cons,hnew,hturn.calls]
      simp only [List.append_assoc]
    · rcases endedBy_turn hturn h with ⟨hc,hends,rfl⟩|⟨mid,hlater⟩
      · exact (hturn.silent hsturn hfin hnew hc hproper hends).1
      · exact hstay mid c after hlater
    · rcases endedBy_turn hturn h with ⟨hc,hends,-⟩|⟨mid,hlater⟩
      · exact (hturn.silent hsturn hfin hnew hc hproper hends).2
      · exact hgone mid c after hlater

/-- Once a callback has begun that deletes an event, or that ends its own event with `AE_NOMORE`,
the procedure of the event is not called again, in the pass and behind it: whatever was called
before, and whether the event is older than the pass or was created in it, as long as finalizers
create no event. -/
theorem ended_never_fires (now second : ℤ) (hproper : id≠aeDeletedEventId)
    (htame : ∀ step∈steps++.process second env::steps',step.Tame) : ∃ l l₁ l₂ passed,
      steps.forM TimerStep.code (.new now)=.ok () l ∧
      (TimerStep.process second env).code l=.ok () l₁ ∧ steps'.forM TimerStep.code l₁=.ok () l₂ ∧
      l₁.calls=l.calls++passed ∧ EndsStay env l.timeEventNextId id passed ∧
      ∀ before c after,EndedBy env l.timeEventNextId id passed before c after →
        l₂.calls.filter (firesId id)=l₁.calls.filter (firesId id) := by
  have hmid : TimerStep.Tame (.process second env) := htame _ (by simp)
  obtain ⟨l,hl,h,hs,hc⟩ := history_implements now fun step hm =>
    htame step (List.mem_append_left _ hm)
  obtain ⟨l₁,hl₁,h₁,hs₁,hc₁⟩ := step_implements h hs hc hmid
  have htame' : ∀ step∈steps',step.Tame := fun step hm =>
    htame step (List.mem_append_right _ (List.mem_cons_of_mem _ hm))
  obtain ⟨l₂,hl₂,h₂,-,-⟩ := steps_implement h₁ hs₁ hc₁ htame'
  generalize hstart : steps.foldl TimerStep.apply (.new now)=s at h hs hc h₁ hs₁ h₂
  obtain ⟨-,hids,hcalls⟩ := begin_same s second
  obtain ⟨passed,hpassed,hstay,hgone⟩ := turns_end ((s.begin second).nextId-1) (hs.begin second)
    (hc.begin second).reached hproper hmid (s.begin second).order
  rw [hids] at hstay
  refine ⟨l,l₁,l₂,passed,hl,hl₁,hl₂,?_,h.nextId ▸ hstay,fun before c after hended => ?_⟩
  · rw [h₁.calls,h.calls,← hcalls]
    exact hpassed
  · rw [h₂.calls,h₁.calls]
    rw [h.nextId,← hids] at hended
    exact Retired.silent (hgone before c after hended) hs₁ htame'

/-- The event that the sample creates in the pass has identifier 2, and the finalizer of the first
one deletes it there. -/
theorem ended_never_fires_busy : ∃ l l₁ l₂ passed,
    (busySteps.take 2).forM TimerStep.code (.new 0)=.ok () l ∧
    (TimerStep.process 5 busy).code l=.ok () l₁ ∧ busySteps.forM TimerStep.code l₁=.ok () l₂ ∧
    l₁.calls=l.calls++passed ∧ EndsStay busy l.timeEventNextId 2 passed ∧
    ∀ before c after,EndedBy busy l.timeEventNextId 2 passed before c after →
      l₂.calls.filter (firesId 2)=l₁.calls.filter (firesId 2) := by
  refine ended_never_fires 0 5 (by decide) fun step hm => busySteps_tame step ?_
  rcases List.mem_append.mp hm with hm|hm
  · exact List.mem_of_mem_take hm
  · rcases List.mem_cons.mp hm with rfl|hm
    · simp [busySteps]
    · exact hm

/-- `aeDeleteTimeEvent` finds an event exactly if one has the identifier, calls nothing, and the
procedure of the event is never called afterwards. -/
theorem deleted_never_fires (now : ℤ) (hproper : id≠aeDeletedEventId)
    (htame : ∀ step∈steps++steps',step.Tame) : ∃ l found l₁ l₂,
      steps.forM TimerStep.code (.new now)=.ok () l ∧ aeDeleteTimeEvent id l=.ok found l₁ ∧
      steps'.forM TimerStep.code l₁=.ok () l₂ ∧
      (found=true ↔ ∃ te c,l.cells te=some c ∧ c.event.id=id) ∧ l₁.calls=l.calls ∧
      (id<l.timeEventNextId → l₂.calls.filter (firesId id)=l.calls.filter (firesId id)) := by
  obtain ⟨l,hl,h,hs,hc⟩ := history_implements now fun step hm =>
    htame step (List.mem_append_left _ hm)
  generalize steps.foldl TimerStep.apply (.new now)=s at h hs hc
  obtain ⟨l₁,hl₁,h₁⟩ := delete_implements h hs id
  have hcalls : (s.delete id).calls=s.calls := by
    unfold TimerList.delete
    split <;> rfl
  have htame' : ∀ step∈steps',step.Tame := fun step hm =>
    htame step (List.mem_append_right _ hm)
  obtain ⟨l₂,hl₂,h₂,-,-⟩ := steps_implement h₁ (hs.delete id) (hc.performAll [.delete id]) htame'
  refine ⟨l,_,l₁,l₂,hl,hl₁,hl₂,?_,by rw [h₁.calls,h.calls,hcalls],fun hissued => ?_⟩
  · have hfound : (s.find id).isSome ↔ ∃ te∈s.order,∃ t,s.event te=some t ∧ t.id=id := by
      rw [TimerList.find,List.find?_isSome]
      simp only [Option.any_eq_true,decide_eq_true_eq]
    rw [hfound]
    constructor
    · rintro ⟨te,-,t,ht,hid⟩
      obtain ⟨next,hcell⟩ := h.cell ht
      exact ⟨te,⟨t,next⟩,hcell,hid⟩
    · rintro ⟨te,c,hcell,hid⟩
      have ht := (h.events te).symm.trans (congrArg (Option.map EventCell.event) hcell)
      have hmem := (hc te (by rw [ht]; rfl)).resolve_right (by simp)
      exact ⟨te,hmem,c.event,ht,hid⟩
  · rw [h₂.calls,h.calls,← hcalls]
    rw [h.nextId] at hissued
    exact Retired.silent (retired_delete hs hc.reached hproper hissued) (hs.delete id) htame'

/-- The second event of the sample is deleted behind it. -/
theorem deleted_never_fires_busy : ∃ l found l₁ l₂,
    busySteps.forM TimerStep.code (.new 0)=.ok () l ∧ aeDeleteTimeEvent 1 l=.ok found l₁ ∧
    busySteps.forM TimerStep.code l₁=.ok () l₂ ∧
    (found=true ↔ ∃ te c,l.cells te=some c ∧ c.event.id=1) ∧ l₁.calls=l.calls ∧
    (1<l.timeEventNextId → l₂.calls.filter (firesId 1)=l.calls.filter (firesId 1)) := by
  refine deleted_never_fires 0 (by decide) fun step hm => busySteps_tame step ?_
  exact (List.mem_append.mp hm).elim id id

end Retirement

end SerialProxy.TimerRuns
