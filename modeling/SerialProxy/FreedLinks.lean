import SerialProxy.Iterations

/-!
# Callbacks that use a freed link

One callback serves both events of a descriptor. When the first pass calls it
for a readable and writable event and its read side closes the link, its write
side dereferences the freed link. No other part of an iteration dereferences a
freed link, whatever is fired and however the system calls end.
-/

namespace SerialProxy.FreedLinks

open FaultPrograms SerialState EventTable SerialLinks EventLoop NodeTopology LinkEffects
open LinkCoherence HandlerEffects DispatchPasses Iterations

variable {w t u : World} {shape : Shape} {it : Iteration} {e : AeFiredEvent}
variable {done todo : List AeFiredEvent} {link : LinkPtr}

/-- An iteration returns, or faults in a callback of the first pass that uses the link it
has freed. -/
theorem aeMainStep_outcome (hc : Coherent shape w) (ha : Admitted w it) :
    Ensures (fun v => v=w) (aeMainStep it) (fun _ _ => True)
      (fun f _ => ∃ t e,FirstCall w it t e ∧ UsesFreed t e.mask e.first ∧
        ∃ link,f=.freedLink link) := by
  refine aeMainStep_rule hc ha (fun _ _ => True) (fun _ _ => True) (fun _ => True) _
    (fun _ _ => trivial) (fun _ _ _ _ _ _ _ _ => trivial) ?_ (fun _ _ _ => trivial)
    (fun _ _ _ _ _ _ _ _ _ => trivial) (fun _ _ _ _ _ _ _ _ _ _ _ => trivial)
    fun _ _ _ _ _ _ _ => trivial
  intro done e todo t link u hd ht _ hcall
  split
  · rename_i hu
    exact ⟨t,e,ht.firstCall hd hcall.fires,hu,link,rfl⟩
  · trivial

/-- A callback that uses the link it has freed ends the first pass. -/
theorem readPass_freed (hc : Coherent shape w) (ha : Admitted w it) (h : FirstCall w it t e)
    (hu : UsesFreed t e.mask e.first) : ∃ s link u,Polls w it (fired it) s ∧
      readPass (fired it) s=.error (.freedLink link) u := by
  obtain ⟨done,todo,hd,s,hs,ht⟩ := reading_of_firstCall hc ha h
  obtain ⟨done',hrun⟩ := ht.run
  obtain ⟨s',_,_,_,-,-,hf⟩ := h
  obtain ⟨link,u,hcall⟩ := calling_of_fires ht.mid.coherent hf e.first
  have hx := dispatchFired_call AeFiredEvent.first hcall
  rw [if_pos hu] at hx
  refine ⟨s,link,u,hs.polls,?_⟩
  rw [hd]
  exact dispatchPass_fault hrun hx todo

/-- It ends the iteration. -/
theorem aeMainStep_freed (hc : Coherent shape w) (ha : Admitted w it) (h : FirstCall w it t e)
    (hu : UsesFreed t e.mask e.first) : ∃ link u,aeMainStep it w=.error (.freedLink link) u := by
  obtain ⟨s,link,u,hp,hpass⟩ := readPass_freed hc ha h hu
  rw [aeMainStep_apply hp]
  exact ⟨link,u,bind_of_error hpass _⟩

/-- An iteration that reaches its second pass has used no freed link in the first. -/
theorem not_usesFreed_of_secondTurn {d : AeFiredEvent} (hc : Coherent shape w)
    (ha : Admitted w it) (hd : SecondTurn w it u d) (h : FirstCall w it t e) :
    ¬ UsesFreed t e.mask e.first := by
  intro hu
  obtain ⟨s,link,v,hp,hpass⟩ := readPass_freed hc ha h hu
  obtain ⟨fired',s',r,done,todo,done',hp',hread,-⟩ := hd
  obtain ⟨rfl,rfl⟩ := polls_unique hp' hp
  rw [hread] at hpass
  exact absurd hpass (by simp)

/-- An iteration dereferences no freed link exactly when no callback of the first pass
is asked for both sides and closes its link in the read side. -/
theorem no_freedLink_iff (h : Running w) (ha : Admitted w it) :
    (∀ link u,aeMainStep it w≠.error (.freedLink link) u) ↔
      ∀ t e,FirstCall w it t e → ¬ (e.mask &&& aeReadable≠0 ∧ e.mask &&& aeWritable≠0 ∧
        readCloses t.errno e.first.read=true) := by
  obtain ⟨shape,hc⟩ := running_coherent h
  constructor
  · intro hsafe t e hcall hu
    obtain ⟨link,u,hx⟩ := aeMainStep_freed hc ha hcall hu
    exact hsafe link u hx
  · intro hcond link u hx
    obtain ⟨t,e,hcall,hu,-⟩ := (aeMainStep_outcome hc ha).of_error rfl hx
    exact hcond t e hcall hu

/-- The device hangs up: its descriptor is readable, and the hang-up counts as writable. -/
def hangup : Iteration :=
  ⟨.ok [⟨4,true,false,false,true,⟨.fail 5,.zero⟩,⟨.fail 5,.zero⟩⟩],none⟩

theorem hangup_admitted : Admitted sampleBoot hangup :=
  ⟨by decide +kernel,by decide +kernel,by decide +kernel,by decide +kernel⟩

theorem no_freedLink_iff_hangup :
    (∀ link u,aeMainStep hangup sampleBoot≠.error (.freedLink link) u) ↔
      ∀ t e,FirstCall sampleBoot hangup t e → ¬ (e.mask &&& aeReadable≠0 ∧
        e.mask &&& aeWritable≠0 ∧ readCloses t.errno e.first.read=true) :=
  no_freedLink_iff sampleBoot_running hangup_admitted

/-- When the device hangs up, the callback writes to the link its read side has freed. -/
theorem hangup_uses_freed_link : ¬ ∀ w it,Running w → Admitted w it →
    ∀ link u,aeMainStep it w≠.error (.freedLink link) u := by
  intro h
  have hfault : faultOf (aeMainStep hangup sampleBoot)=some (.freedLink 0) := by decide +kernel
  exact h sampleBoot hangup sampleBoot_running hangup_admitted 0 _ (error_of_faultOf hfault)

end SerialProxy.FreedLinks
