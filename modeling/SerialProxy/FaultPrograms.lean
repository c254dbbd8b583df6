import Mathlib.Data.List.Basic

/-!
# Programs that stop at a fault, and their runs

A program is a state transformer that ends either with a result or with a
fault, and keeps the state it had reached in both cases. The rules below are
about arbitrary states, faults and results: sequencing, what a program keeps,
steps taken in any order, and runs of one step after another under a side
condition on each step.
-/

namespace SerialProxy.FaultPrograms

variable {ε σ α β ι : Type}

/-- State a program had reached when it stopped, by result or by fault. -/
def finalState : EStateM.Result ε σ α → σ
  | .ok _ s => s
  | .error _ s => s

/-- The last state of a program that returns. -/
@[simp] theorem finalState_ok (a : α) (s : σ) :
    finalState (.ok a s : EStateM.Result ε σ α)=s := rfl

/-- The last state of one that stops. -/
@[simp] theorem finalState_error (e : ε) (s : σ) :
    finalState (.error e s : EStateM.Result ε σ α)=s := rfl

/-- Value with which a program returned. -/
def valueOf : EStateM.Result ε σ α → Option α
  | .ok a _ => some a
  | .error _ _ => none

/-- Fault at which a program stopped. -/
def faultOf : EStateM.Result ε σ α → Option ε
  | .ok _ _ => none
  | .error e _ => some e

/-- The value of a program that returns. -/
@[simp] theorem valueOf_ok (a : α) (s : σ) :
    valueOf (.ok a s : EStateM.Result ε σ α)=some a := rfl

/-- A program that stopped at a fault did so in its final state. -/
theorem error_of_faultOf {r : EStateM.Result ε σ α} {e : ε} (h : faultOf r=some e) :
    r=.error e (finalState r) := by
  cases r with
  | ok a s => cases h
  | error e' s =>
    cases h
    rfl

/-- Whether a program stopped by returning. -/
def returns : EStateM.Result ε σ α → Bool
  | .ok _ _ => true
  | .error _ _ => false

/-- A program without a value that returned did so in its final state. -/
theorem eq_ok_of_returns {r : EStateM.Result ε σ PUnit} (h : returns r=true) :
    r=.ok ⟨⟩ (finalState r) := by
  cases r with
  | ok a s => rfl
  | error e s => exact Bool.noConfusion h

/-- A program that returns has a value. -/
theorem exists_ok_of_returns {r : EStateM.Result ε σ α} (h : returns r=true) :
    ∃ a,r=.ok a (finalState r) := by
  cases r with
  | ok a s => exact ⟨a,rfl⟩
  | error e s => exact Bool.noConfusion h

/-- Returning a value leaves the state alone. -/
@[simp] theorem pure_apply (a : α) (s : σ) : (pure a : EStateM ε σ α) s=.ok a s := rfl

/-- Sequencing runs the continuation from the state the first part reached. -/
@[simp] theorem bind_apply (x : EStateM ε σ α) (f : α → EStateM ε σ β) (s : σ) :
    (x >>= f) s=match x s with
      | .ok a t => f a t
      | .error e t => .error e t := by
  change EStateM.bind x f s=_
  unfold EStateM.bind
  cases x s <;> rfl

/-- A function of the result changes the result only. -/
@[simp] theorem map_apply (g : α → β) (x : EStateM ε σ α) (s : σ) :
    (g <$> x) s=match x s with
      | .ok a t => .ok (g a) t
      | .error e t => .error e t := by
  change EStateM.map g x s=_
  unfold EStateM.map
  cases x s <;> rfl

/-- The state is read without a change. -/
@[simp] theorem get_apply (s : σ) : (get : EStateM ε σ σ) s=.ok s s := rfl

/-- The state is changed by this function. -/
@[simp] theorem modify_apply (g : σ → σ) (s : σ) :
    (modify g : EStateM ε σ PUnit) s=.ok ⟨⟩ (g s) := rfl

/-- A fault leaves the state it is raised in. -/
@[simp] theorem throw_apply (e : ε) (s : σ) :
    (throw e : EStateM ε σ α) s=.error e s := rfl

/-- Behind a part that returns, the program goes on with its value. -/
theorem bind_of_ok {x : EStateM ε σ α} {s t : σ} {a : α} (h : x s=.ok a t)
    (f : α → EStateM ε σ β) : (x >>= f) s=f a t := by
  rw [bind_apply,h]

/-- Behind a part that stops it has stopped. -/
theorem bind_of_error {x : EStateM ε σ α} {s t : σ} {e : ε} (h : x s=.error e t)
    (f : α → EStateM ε σ β) : (x >>= f) s=.error e t := by
  rw [bind_apply,h]

/-- A sequence returns exactly when both of its parts do. -/
theorem bind_ok_iff {x : EStateM ε σ α} {f : α → EStateM ε σ β} {s u : σ} {b : β} :
    (x >>= f) s=.ok b u ↔ ∃ a t, x s=.ok a t ∧ f a t=.ok b u := by
  rw [bind_apply]
  cases hx : x s with
  | ok a t => simp
  | error e t => simp

/-- A run has returned into `Q` or faulted into `E`. -/
def EndsIn (r : EStateM.Result ε σ α) (Q : α → σ → Prop) (E : ε → σ → Prop) : Prop :=
  match r with
  | .ok a s => Q a s
  | .error e s => E e s

section Ends

variable {Q Q' : α → σ → Prop} {R : β → σ → Prop} {E E' : ε → σ → Prop}
variable {r : EStateM.Result ε σ α}

/-- What a run ends in may be weakened on both sides. -/
theorem EndsIn.mono (h : EndsIn r Q E) (hq : ∀ a s,Q a s → Q' a s) (he : ∀ e s,E e s → E' e s) :
    EndsIn r Q' E' := by
  cases r with
  | ok a s => exact hq a s h
  | error e s => exact he e s h

/-- For the runs that return. -/
theorem EndsIn.mono_ok (h : EndsIn r Q E) (hq : ∀ a s,Q a s → Q' a s) : EndsIn r Q' E :=
  h.mono hq fun _ _ he => he

/-- For those that stop. -/
theorem EndsIn.mono_error (h : EndsIn r Q E) (he : ∀ e s,E e s → E' e s) : EndsIn r Q E' :=
  h.mono (fun _ _ hq => hq) he

/-- A run that returns ends in what is promised for it. -/
theorem EndsIn.of_ok (h : EndsIn r Q E) {a : α} {s : σ} (hr : r=.ok a s) : Q a s := by
  subst hr
  exact h

/-- So does one that stops. -/
theorem EndsIn.of_error (h : EndsIn r Q E) {e : ε} {s : σ} (hr : r=.error e s) : E e s := by
  subst hr
  exact h

/-- A promise for both kinds holds in the last state. -/
theorem EndsIn.at_finalState {I : σ → Prop} (h : EndsIn r (fun _ => I) (fun _ => I)) :
    I (finalState r) := by
  cases r with
  | ok a s => exact h
  | error e s => exact h

/-- A run that does not return faults. -/
theorem EndsIn.exists_error (h : EndsIn r (fun _ _ => False) E) : ∃ e s,r=.error e s ∧ E e s := by
  cases r with
  | ok a s => exact h.elim
  | error e s => exact ⟨e,s,rfl,h⟩

/-- The continuation starts where the first part has returned. -/
theorem EndsIn.bind {x : EStateM ε σ α} {f : α → EStateM ε σ β} {s : σ} (hx : EndsIn (x s) Q E)
    (hf : ∀ a t,Q a t → EndsIn (f a t) R E) : EndsIn ((x >>= f) s) R E := by
  rw [bind_apply]
  cases hr : x s with
  | ok a t =>
    rw [hr] at hx
    exact hf a t hx
  | error e t =>
    rw [hr] at hx
    exact hx

/-- What is said of a fault may depend on whether the first part or the continuation stops. -/
theorem EndsIn.seq {x : EStateM ε σ α} {f : α → EStateM ε σ β} {s : σ} (hx : EndsIn (x s) Q E)
    (he : ∀ e t,E e t → E' e t) (hf : ∀ a t,Q a t → EndsIn (f a t) R E') :
    EndsIn ((x >>= f) s) R E' :=
  (hx.mono_error he).bind hf

end Ends

/-- From every state in `P` the program returns into `Q` or faults into `E`. -/
def Ensures (P : σ → Prop) (x : EStateM ε σ α) (Q : α → σ → Prop) (E : ε → σ → Prop) : Prop :=
  ∀ s, P s → match x s with
    | .ok a t => Q a t
    | .error e t => E e t

section Rules

variable {P P' : σ → Prop} {Q Q' : α → σ → Prop} {R : β → σ → Prop} {E E' : ε → σ → Prop}
variable {x : EStateM ε σ α}

/-- A triple is about every run from a state of its precondition. -/
theorem ensures_iff : Ensures P x Q E ↔ ∀ s,P s → EndsIn (x s) Q E := Iff.rfl

/-- One of these runs. -/
theorem Ensures.endsIn (h : Ensures P x Q E) {s : σ} (hs : P s) : EndsIn (x s) Q E :=
  ensures_iff.mp h s hs

/-- The postcondition of a run that returns. -/
theorem Ensures.of_ok (h : Ensures P x Q E) {s t : σ} {a : α} (hs : P s) (hx : x s=.ok a t) :
    Q a t :=
  (h.endsIn hs).of_ok hx

/-- That of a run that stops. -/
theorem Ensures.of_error (h : Ensures P x Q E) {s t : σ} {e : ε} (hs : P s)
    (hx : x s=.error e t) : E e t :=
  (h.endsIn hs).of_error hx

/-- A property of the reached state alone, whatever the way the program stopped. -/
theorem Ensures.at_finalState {I : σ → Prop} (h : Ensures P x (fun _ => I) (fun _ => I)) {s : σ}
    (hs : P s) : I (finalState (x s)) :=
  (h.endsIn hs).at_finalState

/-- The rule of consequence. -/
theorem Ensures.mono (h : Ensures P x Q E) (hp : ∀ s, P' s → P s)
    (hq : ∀ a s, Q a s → Q' a s) (he : ∀ e s, E e s → E' e s) : Ensures P' x Q' E' :=
  ensures_iff.mpr fun s hs => (h.endsIn (hp s hs)).mono hq he

/-- The rule of a value. -/
theorem Ensures.pure {a : α} (h : ∀ s, P s → Q a s) : Ensures P (pure a : EStateM ε σ α) Q E :=
  fun s hs => h s hs

/-- The rule of sequence; the faults of both parts are those of the whole. -/
theorem Ensures.bind {f : α → EStateM ε σ β} (hx : Ensures P x Q E)
    (hf : ∀ a, Ensures (Q a) (f a) R E) : Ensures P (x >>= f) R E :=
  ensures_iff.mpr fun _ hs => (hx.endsIn hs).bind fun a _ ht => (hf a).endsIn ht

end Rules

/-- The program keeps a part of the state, however it stops. -/
def Keeps {γ : Type} (part : σ → γ) (x : EStateM ε σ α) : Prop :=
  ∀ s,part (finalState (x s))=part s

section Frames

variable {γ : Type} {part : σ → γ} {x : EStateM ε σ α} {f : α → EStateM ε σ β}

/-- A run that returns keeps the part. -/
theorem Keeps.ok (h : Keeps part x) {s t : σ} {a : α} (hx : x s=.ok a t) : part t=part s := by
  have hp := h s
  rwa [hx] at hp

/-- A value keeps every part. -/
theorem keeps_pure (a : α) : Keeps part (pure a : EStateM ε σ α) := fun _ => rfl

/-- So does a fault. -/
theorem keeps_throw (e : ε) : Keeps part (throw e : EStateM ε σ α) := fun _ => rfl

/-- So does reading. -/
theorem keeps_get : Keeps part (get : EStateM ε σ σ) := fun _ => rfl

/-- So does a change to something else. -/
theorem keeps_modify {g : σ → σ} (h : ∀ s,part (g s)=part s) :
    Keeps part (modify g : EStateM ε σ PUnit) := h

/-- A sequence that starts from this state keeps the part when its first part does there. -/
theorem kept_bind {s : σ} (hx : part (finalState (x s))=part s) (hf : ∀ a,Keeps part (f a)) :
    part (finalState ((x >>= f) s))=part s := by
  rw [bind_apply]
  cases h : x s with
  | ok a t =>
    rw [h,finalState_ok] at hx
    exact (hf a t).trans hx
  | error e t =>
    rw [h] at hx
    exact hx

/-- Two programs that keep a part keep it one after the other. -/
theorem Keeps.bind (hx : Keeps part x) (hf : ∀ a,Keeps part (f a)) : Keeps part (x >>= f) :=
  fun s => kept_bind (hx s) hf

/-- They keep it as the branches of a test. -/
theorem Keeps.ite {p : Prop} [Decidable p] {y : EStateM ε σ α} (hx : Keeps part x)
    (hy : Keeps part y) : Keeps part (if p then x else y) := by
  split
  · exact hx
  · exact hy

/-- A loop keeps what its body keeps. -/
theorem keeps_forM {body : α → EStateM ε σ PUnit} (hbody : ∀ a,Keeps part (body a)) (xs : List α) :
    Keeps part (xs.forM body) := by
  induction xs with
  | nil => exact keeps_pure _
  | cons a xs ih => exact (hbody a).bind fun _ => ih

end Frames

section Folds

variable {f : σ → α → Option σ} {R : σ → α → α → Prop} {xs ys : List α}

/-- Steps that commute pairwise, now and after any of them, may be taken in any order. -/
theorem foldlM_perm (hsymm : ∀ s a b,R s a b → R s b a)
    (hstep : ∀ s a b c s',f s c=some s' → R s a b → R s' a b)
    (hcomm : ∀ s a b,R s a b → (f s a).bind (f · b)=(f s b).bind (f · a)) (h : xs.Perm ys)
    (s : σ) (hr : xs.Pairwise (R s)) : xs.foldlM f s=ys.foldlM f s := by
  induction h generalizing s with
  | nil => rfl
  | cons a _ ih =>
    simp only [List.foldlM_cons,Option.bind_eq_bind]
    cases hx : f s a with
    | none => rfl
    | some s' => exact ih s' ((List.pairwise_cons.mp hr).2.imp (hstep s _ _ a s' hx))
  | swap a b l =>
    have hab := hcomm s b a ((List.pairwise_cons.mp hr).1 a List.mem_cons_self)
    simp only [List.foldlM_cons,Option.bind_eq_bind,← Option.bind_assoc,hab]
  | trans hxy _ ih ih' => exact (ih s hr).trans (ih' s ((hxy.pairwise_iff (hsymm s _ _)).mp hr))

/-- A property that one element has at most is never shared by two. -/
theorem pairwise_of_countP {p : α → Bool} (h : xs.countP p≤1) :
    xs.Pairwise fun a b => ¬ (p a=true ∧ p b=true) := by
  induction xs with
  | nil => exact .nil
  | cons a xs ih =>
    rw [List.countP_cons] at h
    refine .cons (fun b hb hab => ?_) (ih (by omega))
    have hone := List.countP_pos_iff.mpr ⟨b,hb,hab.2⟩
    rw [if_pos hab.1] at h
    omega

end Folds

/-- Run a program on a part of a larger state, with its faults among others. -/
def onPart {τ ε' : Type} (part : τ → σ) (put : σ → τ → τ) (fault : ε → ε') (x : EStateM ε σ α) :
    EStateM ε' τ α := fun t => match x (part t) with
  | .ok a s => .ok a (put s t)
  | .error e s => .error (fault e) (put s t)

section Parts

variable {τ ε' : Type} {part : τ → σ} {put : σ → τ → τ} {fault : ε → ε'} {x : EStateM ε σ α}

/-- A program on a part of the state returns there as it does alone. -/
theorem onPart_of_ok {t : τ} {s : σ} {a : α} (h : x (part t)=.ok a s) :
    onPart part put fault x t=.ok a (put s t) := by
  rw [onPart,h]

/-- It stops there as it does alone. -/
theorem onPart_of_error {t : τ} {s : σ} {e : ε} (h : x (part t)=.error e s) :
    onPart part put fault x t=.error (fault e) (put s t) := by
  rw [onPart,h]

end Parts

/-- Steps taken one after another, each admitted in the state before it. -/
inductive Run (step : ι → EStateM ε σ PUnit) (admits : σ → ι → Prop) : σ → List ι → σ → Prop
  /-- No step taken yet. -/
  | nil (s : σ) : Run step admits s [] s
  /-- One admitted step that returned, then the rest of the run. -/
  | cons {s t u : σ} {i : ι} {is : List ι} : admits s i → step i s=.ok ⟨⟩ t →
      Run step admits t is u → Run step admits s (i::is) u

namespace Run

variable {step : ι → EStateM ε σ PUnit} {admits admits' : σ → ι → Prop} {s t u : σ}
variable {is js : List ι} {i : ι}

/-- What every admitted step preserves holds at the end of a run. -/
theorem invariant {I : σ → Prop} (h : Run step admits s is t)
    (hstep : ∀ s i t,I s → admits s i → step i s=.ok ⟨⟩ t → I t) (hs : I s) : I t := by
  induction h with
  | nil s => exact hs
  | cons ha hx _ ih => exact ih (hstep _ _ _ hs ha hx)

/-- A run stays one under a weaker side condition. -/
theorem mono (h : Run step admits s is t) (hadmits : ∀ s i,admits s i → admits' s i) :
    Run step admits' s is t := by
  induction h with
  | nil s => exact .nil s
  | cons ha hx _ ih => exact .cons (hadmits _ _ ha) hx ih

/-- Runs compose, keeping the steps in order. -/
theorem append (h : Run step admits s is t) (h' : Run step admits t js u) :
    Run step admits s (is++js) u := by
  induction h with
  | nil s => exact h'
  | cons ha hx _ ih => exact .cons ha hx (ih h')

/-- One more step at the end of a run. -/
theorem snoc (h : Run step admits s is t) (ha : admits t i) (hx : step i t=.ok ⟨⟩ u) :
    Run step admits s (is++[i]) u :=
  h.append (.cons ha hx (.nil u))

/-- A run passes through the states between its steps. -/
theorem split (h : Run step admits s (is++js) u) :
    ∃ t,Run step admits s is t ∧ Run step admits t js u := by
  induction is generalizing s with
  | nil => exact ⟨s,.nil s,h⟩
  | cons i is ih =>
    cases h with
    | cons ha hx hrun =>
      obtain ⟨t,hbefore,hafter⟩ := ih hrun
      exact ⟨t,.cons ha hx hbefore,hafter⟩

/-- A property that each step keeps exactly under a condition holds all along a run
exactly when every step of the run meets the condition. -/
theorem kept_iff {I J : σ → Prop} {good : σ → ι → Prop} (h : Run step admits s is t)
    (hstep : ∀ s i t,I s → J s → admits s i → step i s=.ok ⟨⟩ t → J t ∧ (I t ↔ good s i))
    (hi : I s) (hj : J s) :
    (∀ done todo u,is=done++todo → Run step admits s done u → I u) ↔
      Run step (fun s i => admits s i ∧ good s i) s is t := by
  induction h with
  | nil s =>
    refine ⟨fun _ => .nil s,fun _ done todo u hd hu => ?_⟩
    obtain ⟨rfl,-⟩ := List.append_eq_nil_iff.mp hd.symm
    cases hu
    exact hi
  | @cons s t u i is ha hx hrun ih =>
    obtain ⟨hjt,hgood⟩ := hstep s i t hi hj ha hx
    constructor
    · intro hall
      have hit : I t := hall [i] is t rfl (.cons ha hx (.nil t))
      refine .cons ⟨ha,hgood.mp hit⟩ hx ((ih hit hjt).mp fun done todo v hd hv => ?_)
      exact hall (i::done) todo v (by rw [hd,List.cons_append]) (.cons ha hx hv)
    · intro hmeets done todo v hd hv
      cases hmeets with
      | cons hag hx' hrest =>
        rw [hx,EStateM.Result.ok.injEq] at hx'
        obtain ⟨-,rfl⟩ := hx'
        cases hv with
        | nil => exact hi
        | cons ha' hx'' hv' =>
          rw [List.cons_append,List.cons.injEq] at hd
          obtain ⟨rfl,hd⟩ := hd
          rw [hx,EStateM.Result.ok.injEq] at hx''
          obtain ⟨-,rfl⟩ := hx''
          exact (ih (hgood.mpr hag.2) hjt).mpr hrest _ todo v hd hv'

end Run

/-- States reached from an initial one by admitted steps. -/
def Reachable (init : σ → Prop) (step : ι → EStateM ε σ PUnit) (admits : σ → ι → Prop)
    (s : σ) : Prop := ∃ s₀ is,init s₀ ∧ Run step admits s₀ is s

/-- What holds initially and is preserved by every admitted step holds of
every reachable state. -/
theorem Reachable.invariant {init : σ → Prop} {step : ι → EStateM ε σ PUnit}
    {admits : σ → ι → Prop} {s : σ} {I : σ → Prop} (h : Reachable init step admits s)
    (hinit : ∀ s,init s → I s)
    (hstep : ∀ s i t,I s → admits s i → step i s=.ok ⟨⟩ t → I t) : I s := by
  obtain ⟨s₀,is,hs₀,hrun⟩ := h
  exact hrun.invariant hstep (hinit s₀ hs₀)

/-- A step from a reachable state leads to one. -/
theorem Reachable.step {init : σ → Prop} {step : ι → EStateM ε σ PUnit}
    {admits : σ → ι → Prop} {s t : σ} {i : ι} (h : Reachable init step admits s)
    (ha : admits s i) (hx : step i s=.ok ⟨⟩ t) : Reachable init step admits t := by
  obtain ⟨s₀,is,hs₀,hrun⟩ := h
  exact ⟨s₀,is++[i],hs₀,hrun.snoc ha hx⟩

end SerialProxy.FaultPrograms
