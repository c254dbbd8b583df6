import SerialProxy.ConnectContract
import SerialProxy.StateFrames

/-!
# The speed a connect attempt leaves on a device

The `switch` of `_serialCreateLink` gives a master the standard speed of its
baudrate, or a custom divisor, the quotient of the base rate of the device by the
baudrate. Nothing looks at the quotient: it is zero for a baudrate above the base
rate and negative for a negative one, and the attempt succeeds all the same.
-/

namespace SerialProxy.SpeedContract

open FaultPrograms SerialState EventTable SerialNodes SerialLinks SerialConfig EventLoop
open NodeTopology LinkEffects LinkCoherence ConnectEffects ConnectOutcomes ConfigLoading Iterations
open Reconnection ConnectContract StateFrames

/-- The call changes the speed of a descriptor. -/
def setsSpeed : Call → Bool
  | .setSpeed _ _ => true
  | .setDivisor _ _ => true
  | _ => false

/-- The calls so far that changed a speed. -/
def speeds (w : World) : List Call := w.trace.filter setsSpeed

/-- The call gives this descriptor a speed that serves the baudrate. -/
inductive Usable (baudrate : ℤ) (fd : Fd) : Call → Prop
  /-- The standard speed of exactly this number. -/
  | standard {speed : ℕ} : (speed : ℤ)=baudrate → Usable baudrate fd (.setSpeed fd speed)
  /-- A custom divisor that is not zero or negative. -/
  | custom {divisor : ℤ} : 1≤divisor → Usable baudrate fd (.setDivisor fd divisor)

/-- The baudrate of the node is a standard speed, or the base rate of its device has a divisor
for it. -/
def Programmable (n : SerialNode) (env : ConnectResults) : Prop :=
  (∃ speed∈standardSpeeds,(speed : ℤ)=n.baudrate) ∨
    ∃ base,env.tiocgserial=.ok base ∧ 1≤base.tdiv n.baudrate

/-- The attempt returns. A link it returns has a usable speed unless the baudrate is zero, and
without a usable speed it fails and leaves the node without a link. -/
def SpeedOrFailure (w : World) (node : NodePtr) (n : SerialNode) (env : ConnectResults) : Prop :=
  ∃ result t,serialCreateLink node env w=.ok result t ∧
    (∀ link,result=some link → n.baudrate≠0 → ∃ l call,t.links link=some l ∧
      speeds t=speeds w++[call] ∧ Usable n.baudrate l.fd call) ∧
    (¬ Programmable n env → result=none ∧ ∃ n',t.nodes node=some n' ∧ n'.link=none)

/-- The call that sets the speed of a master. -/
def speedCall (n : SerialNode) (env : ConnectResults) (fd : Fd) : Call :=
  match standardSpeeds.find? (fun speed : ℕ => (speed : ℤ)=n.baudrate) with
  | some speed => .setSpeed fd speed
  | none => .setDivisor fd ((env.tiocgserial.toOption.getD 0).tdiv n.baudrate)

section Frames

/-- A call that sets no speed is not counted among the speeds. -/
theorem keeps_speeds_emit {call : Call} (h : setsSpeed call=false) : Keeps speeds (emit call) := by
  intro w
  change (w.trace++[call]).filter setsSpeed=_
  rw [List.filter_append,List.filter_cons_of_neg (by rw [h]; exact Bool.false_ne_true)]
  exact List.append_nil _

/-- Nor does a change that records no call. -/
theorem keeps_speeds_modify {f : World → World} (h : ∀ w,(f w).trace=w.trace) :
    Keeps speeds (modify f : Prog PUnit) :=
  keeps_modify fun w => congrArg (List.filter setsSpeed) (h w)

/-- `errno` is no speed. -/
theorem keeps_speeds_setErrno (errno : Errno) : Keeps speeds (setErrno errno) :=
  keeps_speeds_modify (by exact fun _ => rfl)

/-- A failing call logs its name, and sets no speed. -/
theorem keeps_speeds_sysCheck (result : Option Errno) (text : CText.CString) :
    Keeps speeds (sysCheck result text) := by
  cases result with
  | none => exact keeps_pure true
  | some errno =>
    exact (keeps_speeds_setErrno errno).bind fun _ =>
      (keeps_get.bind fun _ => keeps_speeds_emit rfl).bind fun _ => keeps_pure false

/-- Neither does a new descriptor. -/
theorem keeps_speeds_sysOpenFd (alloc : FreshFd) : Keeps speeds (sysOpenFd alloc) :=
  keeps_get.bind fun _ => (keeps_speeds_modify (by exact fun _ => rfl)).bind fun _ => keeps_pure _

/-- Neither do the fields of a link. -/
theorem keeps_speeds_modifyLink (link : LinkPtr) (f : SerialLink → SerialLink) :
    Keeps speeds (modifyLink link f) :=
  (keeps_derefLink link).bind fun _ => keeps_speeds_modify (by exact fun _ => rfl)

/-- Neither do those of a node. -/
theorem keeps_speeds_modifyNode (node : NodePtr) (f : SerialNode → SerialNode) :
    Keeps speeds (modifyNode node f) :=
  (keeps_derefNode node).bind fun _ => keeps_speeds_modify (by exact fun _ => rfl)

/-- Neither does a removed path. -/
theorem keeps_speeds_sysRemove (path : CText.CString) (result : Option Errno) :
    Keeps speeds (sysRemove path result) := by
  refine (keeps_speeds_emit rfl).bind fun _ => ?_
  cases result with
  | none => exact keeps_speeds_modify (by exact fun _ => rfl)
  | some errno => exact keeps_speeds_setErrno errno

/-- Neither does a new symbolic link. -/
theorem keeps_speeds_sysSymlink (target path : CText.CString) (result : Option Errno) :
    Keeps speeds (sysSymlink target path result) :=
  (keeps_speeds_emit rfl).bind fun _ =>
    ((keeps_speeds_modify (by exact fun _ => rfl)).bind fun _ =>
      keeps_speeds_sysCheck result _).ite (keeps_speeds_sysCheck result _)

/-- Opening a device or a pty sets no speed. -/
theorem keeps_speeds_serialOpenLink (node : NodePtr) (link : LinkPtr) (env : ConnectResults) :
    Keeps speeds (serialOpenLink node link env) := by
  refine (keeps_derefNode node).bind fun n => Keeps.ite ?_ (Keeps.ite ?_ (keeps_pure true))
  · refine (keeps_speeds_emit rfl).bind fun _ => ?_
    cases env.openPath with
    | error errno => exact keeps_speeds_sysCheck (some errno) _
    | ok alloc =>
      refine (keeps_speeds_sysOpenFd alloc).bind fun fd =>
        (keeps_speeds_modifyLink link _).bind fun _ => ?_
      cases env.isatty with
      | none => exact keeps_pure true
      | some errno => exact (keeps_speeds_setErrno errno).bind fun _ => keeps_pure true
  · refine (keeps_speeds_emit rfl).bind fun _ => ?_
    cases env.openpty with
    | error errno => exact keeps_speeds_sysCheck (some errno) _
    | ok pty =>
      exact (keeps_speeds_sysOpenFd pty.master).bind fun _ =>
        (keeps_speeds_sysOpenFd pty.slave).bind fun _ =>
          (keeps_speeds_modify (by exact fun _ => rfl)).bind fun _ =>
            (keeps_speeds_modifyLink link _).bind fun _ =>
              (keeps_speeds_sysRemove n.name _).bind fun _ => keeps_get.bind fun _ =>
                keeps_speeds_sysSymlink _ _ _

/-- Neither does a registration. -/
theorem keeps_speeds_aeCreateFileEvent (fd : Fd) (mask : EventMask) (clientData : LinkPtr)
    (epollCtl : Option Errno) :
    Keeps speeds (aeCreateFileEvent fd mask clientData epollCtl) := by
  refine Keeps.bind (keeps_speeds_modify (by exact fun _ => rfl)) fun _ => keeps_get.bind fun w =>
    ((keeps_speeds_setErrno erange).bind fun _ => keeps_pure false).ite ?_
  cases epollCtl with
  | some errno => exact (keeps_speeds_setErrno errno).bind fun _ => keeps_pure false
  | none => exact (keeps_speeds_modify (by exact fun _ => rfl)).bind fun _ => keeps_pure true

end Frames

section Contract

variable {w t u : World} {shape : Shape} {node : NodePtr} {n : SerialNode} {env : ConnectResults}
variable {link : LinkPtr} {l : SerialLink}

/-- The `switch` sets the speed of a master once, if the attempt goes on behind it. -/
theorem serialSetSpeed_speeds (hn : t.nodes node=some n) (hm : nodeIsMaster n=true)
    (hl : t.links link=some l) (hx : serialSetSpeed node link env t=.ok true u) :
    speeds u=speeds t++[speedCall n env l.fd] := by
  rw [serialSetSpeed,bind_of_ok (derefNode_of_some hn),if_pos hm,
    bind_of_ok (derefLink_of_some hl)] at hx
  cases hs : standardSpeeds.find? (fun speed : ℕ => (speed : ℤ)=n.baudrate) with
  | some speed =>
    rw [hs] at hx
    cases hx
    rw [speedCall,hs]
    exact List.filter_append _ _
  | none =>
    rw [hs] at hx
    cases hbase : env.tiocgserial with
    | error errno =>
      rw [hbase] at hx
      cases hx
    | ok base =>
      rw [hbase] at hx
      dsimp only at hx
      rw [if_neg (standardSpeeds_none hs)] at hx
      obtain ⟨_,s,hemit,hcheck⟩ := bind_ok_iff.mp hx
      have hcall : speeds s=speeds t++[.setDivisor l.fd (base.tdiv n.baudrate)] := by
        cases hemit
        exact List.filter_append _ _
      rw [(keeps_speeds_sysCheck _ _).ok hcheck,hcall,speedCall,hs,hbase]
      rfl

/-- An attempt on a master up to the registration sets the speed of its descriptor once. -/
theorem serialConfigureLink_speeds (hn : t.nodes node=some n) (hm : nodeIsMaster n=true)
    (hl : t.links link=some l) (hsfd : l.sfd=-1)
    (hx : serialConfigureLink node link env t=.ok true u) :
    speeds u=speeds t++[speedCall n env (openedFd t.openFds n env)] := by
  obtain ⟨s,hopen,hopened⟩ : ∃ s,serialOpenLink node link env t=.ok (openWorks n env) s ∧
      Opened t node n env link (openWorks n env) s :=
    serialOpenLink_opens_master hn hl hsfd hm
  rw [serialConfigureLink,bind_of_ok hopen] at hx
  cases hworks : openWorks n env with
  | false =>
    rw [hworks] at hx
    cases hx
  | true =>
    rw [hworks] at hx hopen hopened
    obtain ⟨v,hcheck,hkept⟩ := yields_sysCheck env.tcgetattr "tcgetattr".toList s
    rw [if_pos rfl,bind_of_ok hcheck] at hx
    cases hattr : env.tcgetattr with
    | some errno =>
      rw [hattr] at hx
      cases hx
    | none =>
      rw [hattr,Option.isNone_none,if_pos rfl] at hx
      obtain ⟨ok,v',hset,hraw⟩ := bind_ok_iff.mp hx
      cases ok with
      | false => cases hraw
      | true =>
        obtain ⟨l',hl',hfd⟩ := (hopened.kept hkept).link
        have hnode : v.nodes node=some n := by rw [hkept.nodes,hopened.nodes,hn]
        rw [if_pos rfl] at hraw
        rw [(keeps_speeds_sysCheck _ _).ok hraw,serialSetSpeed_speeds hnode hm hl' hset,
          (hfd rfl).1,(keeps_speeds_sysCheck _ _).ok hcheck,
          (keeps_speeds_serialOpenLink _ _ _).ok hopen]

/-- An attempt on a master that returns a link has set the speed of its descriptor once. -/
theorem serialCreateLink_speeds (hn : w.nodes node=some n) (hm : nodeIsMaster n=true)
    (hx : serialCreateLink node env w=.ok (some link) u) :
    speeds u=speeds w++[speedCall n env (openedFd w.openFds n env)] := by
  rw [serialCreateLink] at hx
  obtain ⟨new,s,hcalloc,hx⟩ := bind_ok_iff.mp hx
  have hkeep : speeds s=speeds w := by
    cases hcalloc
    rfl
  have hnew : s.links new=some ⟨-1,-1,List.replicate bufsiz 0,0,none⟩ := by
    cases hcalloc
    exact Function.update_self _ _ _
  have hnode : s.nodes node=some n := by
    cases hcalloc
    exact hn
  have hfds : s.openFds=w.openFds := by
    cases hcalloc
    rfl
  obtain ⟨ok,t,hconfigure,hx⟩ := bind_ok_iff.mp hx
  cases ok with
  | false =>
    obtain ⟨_,_,_,hnone⟩ := bind_ok_iff.mp hx
    cases hnone
  | true =>
    have hrest : Keeps speeds (do
        let l ← derefLink new
        let flags ← serialEventFlags node
        let _ ← aeCreateFileEvent l.fd flags new env.epollCtl
        modifyNode node fun n => {n with link := some new}
        modifyLink new fun l => {l with node := some node}
        pure (some new)) :=
      (keeps_derefLink new).bind fun l => (keeps_serialEventFlags node).bind fun flags =>
        (keeps_speeds_aeCreateFileEvent l.fd flags new _).bind fun _ =>
          (keeps_speeds_modifyNode node _).bind fun _ =>
            (keeps_speeds_modifyLink new _).bind fun _ => keeps_pure _
    rw [if_pos rfl] at hx
    rw [hrest.ok hx,serialConfigureLink_speeds hnode hm hnew rfl hconfigure,hkeep,hfds]

/-- The quotient of a positive base rate is positive for the baudrates up to it. -/
theorem one_le_tdiv_iff {base baudrate : ℤ} (hbase : 0<base) :
    1≤base.tdiv baudrate ↔ 1≤baudrate ∧ baudrate≤base := by
  rcases lt_trichotomy baudrate 0 with hneg|rfl|hpos
  · have hsign : base.tdiv baudrate=-(base/(-baudrate)) := by
      rw [← Int.tdiv_eq_ediv_of_nonneg hbase.le,Int.tdiv_neg,Int.neg_neg]
    have hquot : 0≤base/(-baudrate) := Int.ediv_nonneg hbase.le (by omega)
    omega
  · rw [Int.tdiv_zero]
    omega
  · rw [Int.tdiv_eq_ediv_of_nonneg hbase.le]
    constructor
    · intro hquot
      have hmul := (Int.le_ediv_iff_mul_le hpos).mp hquot
      omega
    · rintro ⟨-,hle⟩
      exact (Int.le_ediv_iff_mul_le hpos).mpr (by omega)

/-- For a device with a positive base rate a speed can be programmed exactly if it is standard, or
positive and not above the base rate. -/
theorem programmable_iff (hbase : ∀ base,env.tiocgserial=.ok base → 0<base) :
    Programmable n env ↔ (∃ speed∈standardSpeeds,(speed : ℤ)=n.baudrate) ∨
      ∃ base,env.tiocgserial=.ok base ∧ 1≤n.baudrate ∧ n.baudrate≤base := by
  refine or_congr Iff.rfl (exists_congr fun base => and_congr_right fun hok => ?_)
  exact one_le_tdiv_iff (hbase base hok)

/-- The speed of a programmable node is usable. -/
theorem usable_speedCall (h : Programmable n env) (fd : Fd) :
    Usable n.baudrate fd (speedCall n env fd) := by
  rw [speedCall]
  cases hs : standardSpeeds.find? (fun speed : ℕ => (speed : ℤ)=n.baudrate) with
  | some speed =>
    have hspeed := List.find?_some hs
    exact .standard (of_decide_eq_true hspeed)
  | none =>
    rcases h with ⟨speed,hmem,hspeed⟩|⟨base,hbase,hdivisor⟩
    · exact absurd (decide_eq_true hspeed) (List.find?_eq_none.mp hs speed hmem)
    · rw [hbase]
      exact .custom hdivisor

/-- An attempt that works although nothing can serve its baudrate. -/
theorem not_speedOrFailure (hc : Coherent shape w) (hn : w.nodes node=some n)
    (hw : attemptWorks n env=true) (hp : ¬ Programmable n env) :
    ¬ SpeedOrFailure w node n env := by
  rintro ⟨result,t,hx,-,hfail⟩
  obtain ⟨u,-,hout⟩ := createLink_outcome env hc hn
  rw [hw,if_pos rfl,hx,EStateM.Result.ok.injEq] at hout
  have hnone := hout.1.1
  rw [(hfail hp).1] at hnone
  cases hnone

/-- An attempt on a master keeps to its baudrate exactly when one that works is for a standard
speed or for a rate between one and the base rate of the device. -/
theorem speedOrFailure_iff (hc : Coherent shape w) (hn : w.nodes node=some n)
    (hm : nodeIsMaster n=true) (hfree : n.link=none)
    (hbase : ∀ base,env.tiocgserial=.ok base → 0<base) :
    SpeedOrFailure w node n env ↔ (attemptWorks n env=true →
      (∃ speed∈standardSpeeds,(speed : ℤ)=n.baudrate) ∨
        ∃ base,env.tiocgserial=.ok base ∧ 1≤n.baudrate ∧ n.baudrate≤base) := by
  rw [← programmable_iff hbase]
  constructor
  · intro h hw
    by_contra hp
    exact not_speedOrFailure hc hn hw hp h
  · intro hprogrammable
    obtain ⟨u,ho,hout⟩ := createLink_outcome env hc hn
    cases hw : attemptWorks n env with
    | false =>
      rw [hw,if_neg Bool.false_ne_true] at hout
      obtain ⟨hx,habandoned⟩ := hout
      refine ⟨none,u,hx,fun link hlink => ?_,fun _ => ⟨rfl,n,?_,hfree⟩⟩
      · cases hlink
      · rw [habandoned.nodes,hn]
    | true =>
      rw [hw,if_pos rfl] at hout
      obtain ⟨hx,-⟩ := hout
      obtain ⟨l,hl,hfd,-⟩ := ho.link hw
      refine ⟨some w.nextLink,u,hx,?_,fun hp => absurd (hprogrammable hw) hp⟩
      rintro link hlink -
      cases hlink
      refine ⟨l,_,hl,serialCreateLink_speeds hn hm hx,?_⟩
      rw [← hfd]
      exact usable_speedCall (hprogrammable hw) l.fd

end Contract

section Sample

/-- A device with a baudrate above the base rate of its driver. -/
def fastEntries : List ConfigEntry :=
  [⟨"/dev/ttyS5".toList,"baudrate".toList,"250000".toList⟩]

/-- The state in which the loop starts when the device could not be opened. -/
def fastBoot : World :=
  finalState (serialInit fastEntries (fun _ => failingConnect) World.boot)

/-- The sample is a state in which the loop runs. -/
theorem fastBoot_running : Running fastBoot :=
  ⟨_,[],⟨fastEntries,fun _ => failingConnect,eq_ok_of_returns (by decide +kernel)⟩,.nil _⟩

/-- Its master is live. -/
theorem fastBoot_live : fastBoot.nodes 0=some (nodeAt fastBoot 0) := by decide +kernel

/-- The sample attempt finds a positive base rate. -/
theorem workingConnect_base {base : ℤ} (h : workingConnect.tiocgserial=.ok base) : 0<base := by
  cases h
  decide

/-- The sample has a standard speed. -/
theorem speedOrFailure_iff_standard : ∃ shape,Coherent shape unconnectedBoot ∧
    (SpeedOrFailure unconnectedBoot 0 unconnectedNode workingConnect ↔
      (attemptWorks unconnectedNode workingConnect=true →
        (∃ speed∈standardSpeeds,(speed : ℤ)=unconnectedNode.baudrate) ∨
          ∃ base,workingConnect.tiocgserial=.ok base ∧ 1≤unconnectedNode.baudrate ∧
            unconnectedNode.baudrate≤base)) := by
  obtain ⟨shape,hc⟩ := running_coherent unconnectedBoot_running
  exact ⟨shape,hc,speedOrFailure_iff hc unconnectedNode_live (by decide +kernel)
    (by decide +kernel) fun _ => workingConnect_base⟩

/-- The device connects with a custom divisor of zero. -/
theorem fast_device_connects : ¬ ∀ w node n env,Running w → w.nodes node=some n →
    nodeIsMaster n=true → n.link=none → (∀ base,env.tiocgserial=.ok base → 0<base) →
    SpeedOrFailure w node n env := by
  intro h
  obtain ⟨shape,hc⟩ := running_coherent fastBoot_running
  have hp : ¬ Programmable (nodeAt fastBoot 0) workingConnect := by
    rw [programmable_iff fun _ => workingConnect_base]
    have hrate : (nodeAt fastBoot 0).baudrate=250000 := by decide +kernel
    rw [hrate]
    rintro (hstandard|⟨base,hbase,-,hle⟩)
    · exact absurd hstandard (by decide)
    · cases hbase
      exact absurd hle (by decide)
  exact not_speedOrFailure hc fastBoot_live (by decide +kernel) hp
    (h _ _ _ _ fastBoot_running fastBoot_live (by decide +kernel) (by decide +kernel)
      fun _ => workingConnect_base)

end Sample

end SerialProxy.SpeedContract
