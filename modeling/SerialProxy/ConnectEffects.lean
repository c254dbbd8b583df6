import SerialProxy.HandlerEffects

/-!
# What one connect attempt does

An attempt works on a new link that no node holds yet. It ends with that link
registered and attached, or with everything it opened closed again.
-/

namespace SerialProxy.ConnectEffects

open FaultPrograms LinkedCells CText SerialState EventTable SerialNodes SerialLinks NodeTopology
open LinkEffects LinkCoherence HandlerEffects

/-- No data moved, and heap, registrations and descriptors are as before. -/
structure Quiet (w t : World) : Prop where
  /-- The nodes are the same. -/
  nodes : t.nodes=w.nodes
  /-- The head of the list is the same. -/
  masterHead : t.masterHead=w.masterHead
  /-- No node was allocated. -/
  nextNode : t.nextNode=w.nextNode
  /-- The links are the same. -/
  links : t.links=w.links
  /-- No link was allocated. -/
  nextLink : t.nextLink=w.nextLink
  /-- Registrations agree. -/
  events : t.events=w.events
  /-- So does the highest descriptor. -/
  maxfd : t.maxfd=w.maxfd
  /-- The table has its size. -/
  setsize : t.setsize=w.setsize
  /-- The same descriptors are open. -/
  openFds : t.openFds=w.openFds
  /-- No call was made on a descriptor. -/
  fdCalls : t.fdCalls=w.fdCalls
  /-- No data moved. -/
  transfers : transfers t.trace=transfers w.trace

/-- Nothing has changed at the start. -/
theorem Quiet.refl (w : World) : Quiet w w := ⟨rfl,rfl,rfl,rfl,rfl,rfl,rfl,rfl,rfl,rfl,rfl⟩

/-- Two quiet parts are quiet one after the other. -/
theorem Quiet.trans {w t u : World} (h : Quiet w t) (h' : Quiet t u) : Quiet w u :=
  ⟨h'.nodes.trans h.nodes,h'.masterHead.trans h.masterHead,h'.nextNode.trans h.nextNode,
    h'.links.trans h.links,h'.nextLink.trans h.nextLink,h'.events.trans h.events,
    h'.maxfd.trans h.maxfd,h'.setsize.trans h.setsize,h'.openFds.trans h.openFds,h'.fdCalls.trans h.fdCalls,
    h'.transfers.trans h.transfers⟩

/-- `errno` may change. -/
theorem Quiet.setErrno (w : World) (errno : Errno) : Quiet w {w with errno := errno} :=
  ⟨rfl,rfl,rfl,rfl,rfl,rfl,rfl,rfl,rfl,rfl,rfl⟩

/-- The node a call attempts to connect, if it does. -/
def attemptOf : Call → Option NodePtr
  | .openPath node _ => some node
  | .openpty node => some node
  | _ => none

/-- The nodes attempted in a trace, in order. -/
def attempts (calls : List Call) : List NodePtr := calls.filterMap attemptOf

/-- The attempts of two parts come one after another. -/
theorem attempts_append (calls calls' : List Call) :
    attempts (calls++calls')=attempts calls++attempts calls' := List.filterMap_append

/-- No attempt was made, and the files outside are the same. -/
structure SameFiles (w t : World) : Prop where
  /-- The same terminals are known. -/
  ttys : t.ttys=w.ttys
  /-- The symbolic links are the same. -/
  symlinks : t.symlinks=w.symlinks
  /-- No node was attempted. -/
  attempts : attempts t.trace=attempts w.trace

/-- A program that always returns and changes nothing the loop depends on. -/
def Silent {α : Type} (x : Prog α) : Prop := ∀ w,∃ a t,x w=.ok a t ∧ Quiet w t

section Silent

variable {α β : Type} {x : Prog α}

/-- Two silent parts are silent one after the other. -/
theorem Silent.bind {f : α → Prog β} (hx : Silent x) (hf : ∀ a,Silent (f a)) :
    Silent (x >>= f) := by
  intro w
  obtain ⟨a,t,hr,hq⟩ := hx w
  obtain ⟨b,u,hr',hq'⟩ := hf a t
  exact ⟨b,u,by rw [bind_of_ok hr,hr'],hq.trans hq'⟩

/-- A property that only depends on what silent programs keep is kept by them. -/
theorem Silent.ensures (hx : Silent x) {P : World → Prop} {E : Fault → World → Prop}
    (hP : ∀ s t,P s → Quiet s t → P t) : Ensures P x (fun _ => P) E := by
  intro s hs
  obtain ⟨a,t,hr,hq⟩ := hx s
  rw [hr]
  exact hP s t hs hq

/-- A recorded call that transfers nothing is silent. -/
theorem silent_emit (call : Call) (h : isTransfer call=false) : Silent (emit call) := by
  refine fun w =>
    ⟨(),{w with trace := w.trace++[call]},rfl,rfl,rfl,rfl,rfl,rfl,rfl,rfl,rfl,rfl,rfl,?_⟩
  rw [transfers_append]
  simp [transfers,h]

/-- So is a write to `errno`. -/
theorem silent_setErrno (errno : Errno) : Silent (setErrno errno) :=
  fun w => ⟨(),_,rfl,.setErrno w errno⟩

/-- So is a message. -/
theorem silent_serverLogErrno (level : ℕ) (text : CString) :
    Silent (serverLogErrno level text) :=
  fun w => silent_emit (.logErrno level text w.errno) rfl w

/-- So is `remove`. -/
theorem silent_sysRemove (path : CString) (result : Option Errno) :
    Silent (sysRemove path result) := by
  refine (silent_emit _ rfl).bind fun _ => ?_
  cases result with
  | none => exact fun w =>
      ⟨(),{w with symlinks := Function.update w.symlinks path none},rfl,rfl,rfl,rfl,rfl,rfl,rfl,
        rfl,rfl,rfl,rfl,rfl⟩
  | some errno => exact silent_setErrno errno

end Silent

/-- The state in the middle of a connect attempt that started in `w`, with the
new link as it is now. -/
structure Pending (w : World) (l : SerialLink) (t : World) : Prop where
  /-- The nodes are the same. -/
  nodes : t.nodes=w.nodes
  /-- The head of the list is the same. -/
  masterHead : t.masterHead=w.masterHead
  /-- No node was allocated. -/
  nextNode : t.nextNode=w.nextNode
  /-- The new link is the only change of the links. -/
  links : t.links=Function.update w.links w.nextLink (some l)
  /-- It has taken the next number. -/
  nextLink : t.nextLink=w.nextLink+1
  /-- Registrations agree. -/
  events : t.events=w.events
  /-- So does the highest descriptor. -/
  maxfd : t.maxfd=w.maxfd
  /-- The table has its size. -/
  setsize : t.setsize=w.setsize
  /-- It has no node. -/
  node : l.node=none
  /-- It has received nothing. -/
  empty : l.recvbuflen=0
  /-- Its descriptors were not open. -/
  fresh : ∀ fd,Owns l fd → fd∉w.openFds
  /-- Its descriptors are no errors. -/
  valid : ∀ fd,Owns l fd → 0≤fd
  /-- Its descriptors are different. -/
  sides : l.fd≠-1 → l.sfd≠l.fd
  /-- They are the only newly open ones. -/
  openFds : ∀ fd,fd∈t.openFds ↔ fd∈w.openFds ∨ Owns l fd
  /-- They were opened. -/
  fdCalls : t.fdCalls=w.fdCalls++eachFd .opened l
  /-- No data moved. -/
  transfers : transfers t.trace=transfers w.trace

namespace Pending

variable {w t u : World} {l : SerialLink}

/-- The link stays pending behind a quiet part. -/
theorem quiet (h : Pending w l t) (hq : Quiet t u) : Pending w l u where
  nodes := hq.nodes.trans h.nodes
  masterHead := hq.masterHead.trans h.masterHead
  nextNode := hq.nextNode.trans h.nextNode
  links := hq.links.trans h.links
  nextLink := hq.nextLink.trans h.nextLink
  events := hq.events.trans h.events
  maxfd := hq.maxfd.trans h.maxfd
  setsize := hq.setsize.trans h.setsize
  node := h.node
  empty := h.empty
  fresh := h.fresh
  valid := h.valid
  sides := h.sides
  openFds := by rw [hq.openFds]; exact h.openFds
  fdCalls := hq.fdCalls.trans h.fdCalls
  transfers := hq.transfers.trans h.transfers

/-- A pending link has changed no device. -/
theorem devices (h : Pending w l t) : SameDevices w t :=
  ⟨fun node => by rw [h.nodes],h.masterHead,h.nextNode⟩

/-- It is live. -/
theorem live (h : Pending w l t) : t.links w.nextLink=some l := by
  rw [h.links,Function.update_self]

/-- `calloc` starts an attempt. -/
theorem start (w : World) : ∃ t,callocLink w=.ok w.nextLink t ∧
    Pending w ⟨-1,-1,List.replicate bufsiz 0,0,none⟩ t := by
  refine ⟨_,rfl,rfl,rfl,rfl,rfl,rfl,rfl,rfl,rfl,rfl,rfl,?_,?_,fun h => absurd rfl h,?_,
    (List.append_nil _).symm,rfl⟩
  · rintro fd ⟨hne,rfl|rfl⟩ <;> exact absurd rfl hne
  · rintro fd ⟨hne,rfl|rfl⟩ <;> exact absurd rfl hne
  · intro fd
    constructor
    · exact .inl
    · rintro (h|⟨hne,rfl|rfl⟩)
      · exact h
      · exact absurd rfl hne
      · exact absurd rfl hne

/-- A link without descriptors has opened nothing. -/
theorem openFds_of_closed (h : Pending w l t) (hfd : l.fd=-1) (hsfd : l.sfd=-1) :
    t.openFds=w.openFds := by
  ext fd
  rw [h.openFds]
  constructor
  · rintro (hm|⟨hne,rfl|rfl⟩)
    · exact hm
    · exact absurd hfd hne
    · exact absurd hsfd hne
  · exact .inl

/-- `open` gives the new link a descriptor. -/
theorem openFd (h : Pending w l t) (hfd : l.fd=-1) (hsfd : l.sfd=-1) {fd : Fd}
    (hnew : fd∉w.openFds) (hpos : 0≤fd) : Pending w {l with fd := fd} {t with
      openFds := insert fd t.openFds
      links := Function.update t.links w.nextLink (some {l with fd := fd})
      fdCalls := t.fdCalls++[.opened fd]} := by
  have hne : fd≠-1 := by lia
  refine {h with links := ?_, fresh := ?_, valid := ?_, sides := ?_, openFds := ?_, fdCalls := ?_}
  · rw [h.links,Function.update_idem]
  · rintro fd' ⟨hne',rfl|rfl⟩
    · exact hnew
    · exact absurd hsfd hne'
  · rintro fd' ⟨hne',rfl|rfl⟩
    · exact hpos
    · exact absurd hsfd hne'
  · exact fun hne he => hne (he.symm.trans hsfd)
  · intro fd'
    simp only [Finset.mem_insert,h.openFds_of_closed hfd hsfd,Owns,hsfd]
    constructor
    · rintro (rfl|hm)
      · exact .inr ⟨hne,.inl rfl⟩
      · exact .inl hm
    · rintro (hm|⟨hne',rfl|rfl⟩)
      · exact .inr hm
      · exact .inl rfl
      · exact absurd rfl hne'
  · rw [h.fdCalls]
    simp [eachFd,hfd,hsfd,hne]

/-- `openpty` gives it two. -/
theorem openPty (h : Pending w l t) (hfd : l.fd=-1) (hsfd : l.sfd=-1) {fd sfd : Fd}
    (hnew : fd∉w.openFds) (hpos : 0≤fd) (hsnew : sfd∉w.openFds) (hspos : 0 ≤ sfd)
    (hsides : sfd≠fd) : Pending w {l with fd := fd, sfd := sfd} {t with
      openFds := insert sfd (insert fd t.openFds)
      links := Function.update t.links w.nextLink (some {l with fd := fd, sfd := sfd})
      fdCalls := t.fdCalls++[.opened fd]++[.opened sfd]} := by
  have hne : fd≠-1 := by lia
  have hsne : sfd≠-1 := by lia
  refine {h with
    links := ?_, fresh := ?_, valid := ?_, sides := fun _ => hsides, openFds := ?_, fdCalls := ?_}
  · rw [h.links,Function.update_idem]
  · rintro fd' ⟨-,rfl|rfl⟩
    · exact hnew
    · exact hsnew
  · rintro fd' ⟨-,rfl|rfl⟩
    · exact hpos
    · exact hspos
  · intro fd'
    simp only [Finset.mem_insert,h.openFds_of_closed hfd hsfd,Owns]
    constructor
    · rintro (rfl|rfl|hm)
      · exact .inr ⟨hsne,.inr rfl⟩
      · exact .inr ⟨hne,.inl rfl⟩
      · exact .inl hm
    · rintro (hm|⟨-,rfl|rfl⟩)
      · exact .inr (.inr hm)
      · exact .inr (.inl rfl)
      · exact .inl rfl
  · rw [h.fdCalls]
    simp [eachFd,hfd,hsfd,hne,hsne]

end Pending

/-- A new descriptor is opened and recorded. -/
theorem sysOpenFd_apply (alloc : FreshFd) (w : World) : sysOpenFd alloc w=
    .ok (alloc.choose w.openFds) {w with
      openFds := insert (alloc.choose w.openFds) w.openFds
      fdCalls := w.fdCalls++[.opened (alloc.choose w.openFds)]} := rfl

/-- A descriptor the kernel hands out is not the error value. -/
theorem FreshFd.ne_error (alloc : FreshFd) (fds : Finset Fd) : alloc.choose fds≠-1 := by
  intro h
  have hpos := alloc.nonneg fds
  rw [h] at hpos
  exact absurd hpos (by decide)

section Attempt

variable {w : World} {shape : Shape} {node : NodePtr} {env : ConnectResults}

/-- The new link is still being set up; `open` tells whether it has a descriptor. -/
def Opening (w : World) (isOpen : Bool) (t : World) : Prop :=
  ∃ l,Pending w l t ∧ (isOpen=true → l.fd≠-1)

/-- A quiet part keeps what is open. -/
theorem Opening.quiet {isOpen : Bool} {t u : World} (h : Opening w isOpen t) (hq : Quiet t u) :
    Opening w isOpen u := by
  obtain ⟨l,hp,ho⟩ := h
  exact ⟨l,hp.quiet hq,ho⟩

/-- An open link may be given up. -/
theorem Opening.weaken {isOpen : Bool} {t : World} (h : Opening w isOpen t) :
    Opening w false t := by
  obtain ⟨l,hp,-⟩ := h
  exact ⟨l,hp,fun h => absurd h (by simp)⟩

/-- Silent programs do not touch the new link. -/
theorem Silent.opening {α : Type} {x : Prog α} (hx : Silent x) (isOpen : Bool) :
    Ensures (Opening w isOpen) x (fun _ => Opening w isOpen) fun _ _ => False :=
  hx.ensures fun _ _ => Opening.quiet

/-- A check passes on what is open, and its failure ends the attempt. -/
theorem sysCheck_rule (result : Option Errno) (text : CString) :
    Ensures (Opening w true) (sysCheck result text) (Opening w) fun _ _ => False := by
  cases result with
  | none => exact Ensures.pure fun _ h => h
  | some errno =>
    exact ((silent_setErrno errno).opening true).bind fun _ =>
      ((silent_serverLogErrno _ _).opening true).bind fun _ =>
        Ensures.pure fun _ h => h.weaken

/-- A failed call before anything is open. -/
theorem sysCheck_failed_rule (errno : Errno) (text : CString) :
    Ensures (Opening w false) (sysCheck (some errno) text) (Opening w) fun _ _ => False :=
  ((silent_setErrno errno).opening false).bind fun _ =>
    ((silent_serverLogErrno _ _).opening false).bind fun _ =>
      Ensures.pure fun _ h => h

/-- The symbolic link of a virtual. -/
theorem sysSymlink_rule (target path : CString) (result : Option Errno) :
    Ensures (Opening w true) (sysSymlink target path result) (Opening w) fun _ _ => False := by
  refine ((silent_emit _ rfl).opening true).bind fun _ => ?_
  cases result with
  | none =>
    refine Ensures.bind (Q:=fun _ => Opening w true) ?_ fun _ =>
      sysCheck_rule none "symlink".toList
    exact fun s hs => hs.quiet ⟨rfl,rfl,rfl,rfl,rfl,rfl,rfl,rfl,rfl,rfl,rfl⟩
  | some errno => exact sysCheck_rule (some errno) "symlink".toList

/-- A master opens its device. -/
theorem serialOpenLink_master (ht : Topology w shape) {g : NodePtr×List NodePtr} (hg : g∈shape)
    {l : SerialLink} (hfd : l.fd=-1) (hsfd : l.sfd=-1) :
    Ensures (Pending w l) (serialOpenLink g.1 w.nextLink env) (Opening w) fun _ _ => False := by
  intro t hp
  obtain ⟨m,hm,hf,-⟩ := (hp.devices.topology ht).master g hg
  rw [serialOpenLink,bind_of_ok (derefNode_of_some hm),if_pos (nodeIsMaster_of_flags hf)]
  obtain ⟨_,t',hr,hq⟩ := silent_emit (.openPath g.1 m.name) rfl t
  rw [bind_of_ok hr]
  have hp' := hp.quiet hq
  cases env.openPath with
  | error errno => exact sysCheck_failed_rule errno _ t' ⟨l,hp',fun h => absurd h (by simp)⟩
  | ok alloc =>
    have hnew : alloc.choose t'.openFds∉w.openFds := by
      rw [← hp'.openFds_of_closed hfd hsfd]
      exact alloc.fresh t'.openFds
    have ho := hp'.openFd hfd hsfd hnew (alloc.nonneg t'.openFds)
    have hend : Opening w true _ := ⟨_,ho,fun _ => FreshFd.ne_error alloc t'.openFds⟩
    dsimp only
    rw [bind_of_ok (sysOpenFd_apply _ _),bind_of_ok (modifyLink_of_some (l:=l) ?_ _)]
    · cases env.isatty with
      | none => exact hend
      | some errno => exact hend.quiet (.setErrno _ errno)
    · exact hp'.live

/-- A virtual opens a pty and puts a link to its slave side at its path. -/
theorem serialOpenLink_virtual (ht : Topology w shape) {g : NodePtr×List NodePtr} (hg : g∈shape)
    (hv : node∈g.2) {l : SerialLink} (hfd : l.fd=-1) (hsfd : l.sfd=-1) :
    Ensures (Pending w l) (serialOpenLink node w.nextLink env) (Opening w) fun _ _ => False := by
  intro t hp
  obtain ⟨n,hn,hf,-⟩ := (hp.devices.topology ht).virtual g hg node hv
  rw [serialOpenLink,bind_of_ok (derefNode_of_some hn),not_nodeIsMaster_of_flags hf,
    if_neg Bool.false_ne_true,if_pos (nodeIsVirtual_of_flags hf)]
  obtain ⟨_,t',hr,hq⟩ := silent_emit (.openpty node) rfl t
  rw [bind_of_ok hr]
  have hp' := hp.quiet hq
  cases env.openpty with
  | error errno => exact sysCheck_failed_rule errno _ t' ⟨l,hp',fun h => absurd h (by simp)⟩
  | ok pty =>
    have hsame := hp'.openFds_of_closed hfd hsfd
    have hnew := pty.master.fresh t'.openFds
    have hsnew := pty.slave.fresh (insert (pty.master.choose t'.openFds) t'.openFds)
    rw [Finset.mem_insert,not_or] at hsnew
    have ho := hp'.openPty hfd hsfd (hsame ▸ hnew) (pty.master.nonneg t'.openFds)
      (hsame ▸ hsnew.2) (pty.slave.nonneg _) hsnew.1
    dsimp only
    rw [bind_of_ok (sysOpenFd_apply _ _),bind_of_ok (sysOpenFd_apply _ _),
      bind_of_ok (modify_apply _ _),bind_of_ok (modifyLink_of_some (l:=l) ?_ _)]
    · refine Ensures.bind (P:=Opening w true) (Q:=fun _ => Opening w true)
        ((silent_sysRemove n.name env.remove).opening true) (fun _ u hu => ?_) _
        ⟨_,ho.quiet ?_,fun _ => FreshFd.ne_error pty.master t'.openFds⟩
      · rw [bind_of_ok (get_apply u)]
        exact sysSymlink_rule _ n.name env.symlink u hu
      · exact ⟨rfl,rfl,rfl,rfl,rfl,rfl,rfl,rfl,rfl,rfl,rfl⟩
    · exact hp'.live

/-- Any node of the tree is opened. -/
theorem serialOpenLink_rule (ht : Topology w shape) (hm : shape.Mem node)
    {l : SerialLink} (hfd : l.fd=-1) (hsfd : l.sfd=-1) :
    Ensures (Pending w l) (serialOpenLink node w.nextLink env) (Opening w) fun _ _ => False := by
  obtain ⟨g,hg,rfl|hv⟩ := hm
  · exact serialOpenLink_master ht hg hfd hsfd
  · exact serialOpenLink_virtual ht hg hv hfd hsfd

/-- A baudrate of zero is a standard speed, so that nothing is divided by it. -/
theorem standardSpeeds_none {baudrate : ℤ}
    (h : standardSpeeds.find? (fun speed : ℕ => (speed : ℤ)=baudrate)=none) : baudrate≠0 := by
  rintro rfl
  have h0 := List.find?_eq_none.mp h 0 (by decide)
  simp at h0

/-- Setting the speed of a device. -/
theorem serialSetSpeed_rule (ht : Topology w shape) (hm : shape.Mem node) :
    Ensures (Opening w true) (serialSetSpeed node w.nextLink env) (Opening w)
      fun _ _ => False := by
  intro t hp
  obtain ⟨l,hpend,-⟩ := id hp
  obtain ⟨n,hn⟩ := (hpend.devices.topology ht).live_of_mem hm
  rw [serialSetSpeed,bind_of_ok (derefNode_of_some hn)]
  by_cases hmaster : nodeIsMaster n
  · rw [if_pos hmaster,bind_of_ok (derefLink_of_some hpend.live)]
    cases hs : standardSpeeds.find? (fun speed : ℕ => (speed : ℤ)=n.baudrate) with
    | some speed =>
      exact (((silent_emit (.setSpeed l.fd speed) rfl).opening true).bind fun _ =>
        Ensures.pure fun _ h => h) t hp
    | none =>
      cases env.tiocgserial with
      | error errno =>
        exact (((silent_setErrno errno).opening true).bind fun _ =>
          Ensures.pure fun _ h => h.weaken) t hp
      | ok baudBase =>
        dsimp only
        rw [if_neg (standardSpeeds_none hs)]
        exact (((silent_emit (.setDivisor l.fd (baudBase.tdiv n.baudrate)) rfl).opening true).bind
          fun _ => sysCheck_rule _ _) t hp
  · rw [if_neg hmaster]
    exact hp

/-- An attempt up to the registration. -/
theorem serialConfigureLink_rule (env : ConnectResults) (ht : Topology w shape) (hm : shape.Mem node)
    {l : SerialLink} (hfd : l.fd=-1) (hsfd : l.sfd=-1) :
    Ensures (Pending w l) (serialConfigureLink node w.nextLink env) (Opening w)
      fun _ _ => False := by
  refine (serialOpenLink_rule ht hm hfd hsfd).bind fun isOpen => ?_
  cases isOpen with
  | false => exact Ensures.pure fun _ h => h
  | true =>
    refine (sysCheck_rule env.tcgetattr _).bind fun ok => ?_
    cases ok with
    | false => exact Ensures.pure fun _ h => h
    | true =>
      refine (serialSetSpeed_rule ht hm).bind fun ok => ?_
      cases ok with
      | false => exact Ensures.pure fun _ h => h
      | true => exact sysCheck_rule env.tcsetattr _

/-- The registration of a descriptor with the events of its node. -/
def register (w : World) (node : NodePtr) (fd : Fd) : Fd → AeFileEvent :=
  Function.update w.events fd ⟨(w.events fd).mask ||| eventFlags w node,some w.nextLink⟩

/-- A failed attempt leaves nothing behind but a number that is never used again. -/
structure Abandoned (w t : World) : Prop where
  /-- The nodes are the same. -/
  nodes : t.nodes=w.nodes
  /-- The head of the list is the same. -/
  masterHead : t.masterHead=w.masterHead
  /-- No node was allocated. -/
  nextNode : t.nextNode=w.nextNode
  /-- The links are the same. -/
  links : t.links=w.links
  /-- The number of the abandoned link is used up. -/
  nextLink : t.nextLink=w.nextLink+1
  /-- Registrations agree. -/
  events : t.events=w.events
  /-- So does the highest descriptor. -/
  maxfd : t.maxfd=w.maxfd
  /-- The table has its size. -/
  setsize : t.setsize=w.setsize
  /-- Everything it opened is closed. -/
  openFds : t.openFds=w.openFds
  /-- That was what belonged to the link. -/
  fdCalls : ∃ l : SerialLink,(∀ fd,Owns l fd → 0≤fd ∧ fd∉w.openFds) ∧ (l.fd≠-1 → l.sfd≠l.fd) ∧
    t.fdCalls=w.fdCalls++eachFd .opened l++eachFd .close l
  /-- No data moved. -/
  transfers : transfers t.trace=transfers w.trace

/-- A successful attempt attaches the new link to its node. -/
structure Connected (w : World) (node : NodePtr) (env : ConnectResults) (l : SerialLink)
    (t : World) : Prop where
  /-- The node now has the new link. -/
  nodes : t.nodes=Function.update w.nodes node (some {nodeAt w node with link := some w.nextLink})
  /-- The head of the list is the same. -/
  masterHead : t.masterHead=w.masterHead
  /-- No node was allocated. -/
  nextNode : t.nextNode=w.nextNode
  /-- The new link is the only change of the links. -/
  links : t.links=Function.update w.links w.nextLink (some l)
  /-- It has taken the next number. -/
  nextLink : t.nextLink=w.nextLink+1
  /-- The table has its size. -/
  setsize : t.setsize=w.setsize
  /-- It points back to the node. -/
  back : l.node=some node
  /-- It has received nothing. -/
  empty : l.recvbuflen=0
  /-- It has a descriptor. -/
  isOpen : l.fd≠-1
  /-- Its descriptors are different. -/
  sides : l.sfd≠l.fd
  /-- Its descriptors were not open. -/
  fresh : ∀ fd,Owns l fd → fd∉w.openFds
  /-- They are no errors. -/
  valid : ∀ fd,Owns l fd → 0≤fd
  /-- They are the only newly open ones. -/
  openFds : ∀ fd,fd∈t.openFds ↔ fd∈w.openFds ∨ Owns l fd
  /-- They were opened, and the first one was registered, or tried to be. -/
  fdCalls : t.fdCalls=w.fdCalls++eachFd .opened l++
    [.create l.fd (eventFlags w node) w.nextLink env.epollCtl]
  /-- Its descriptor is registered, if there is room for it in the table. -/
  events : t.events=w.events ∨ l.fd<w.setsize ∧ t.events=register w node l.fd
  /-- It is registered when there is room and `epoll_ctl` succeeds. -/
  registered : l.fd<w.setsize → env.epollCtl=none → t.events=register w node l.fd
  /-- Then it may be the highest one. -/
  maxfd : t.maxfd=if l.fd<w.setsize ∧ env.epollCtl=none then max w.maxfd l.fd else w.maxfd
  /-- No data moved. -/
  transfers : transfers t.trace=transfers w.trace

/-- Freeing a link that has no node closes its descriptors. -/
theorem serialFreeLink_detached {t : World} {link : LinkPtr} {l : SerialLink}
    (hl : t.links link=some l) (hn : l.node=none) : ∃ fds calls,
    serialFreeLink link t=.ok () {t with
      links := Function.update t.links link none
      openFds := fds
      trace := t.trace++calls
      fdCalls := t.fdCalls++eachFd .close l} ∧
    (∀ fd,fd∈fds ↔ fd∈t.openFds ∧ ¬ Owns l fd) ∧ transfers calls=[] ∧ attempts calls=[] := by
  by_cases hfd : l.fd=-1
  · by_cases hsfd : l.sfd=-1
    · refine ⟨t.openFds,[.freeLink link],?_,fun fd => ?_,rfl,rfl⟩
      · simp [serialFreeLink,derefLink,hl,hn,hfd,hsfd,releaseLink,emit,eachFd]
      · simp [Owns,hfd,hsfd]
    · refine ⟨t.openFds.erase l.sfd,[.close l.sfd,.freeLink link],?_,fun fd => ?_,rfl,rfl⟩
      · simp [serialFreeLink,derefLink,hl,hn,hfd,hsfd,releaseLink,emit,sysClose,modifyLink,eachFd]
      · grind [Owns]
  · by_cases hsfd : l.sfd=-1
    · refine ⟨t.openFds.erase l.fd,[.close l.fd,.freeLink link],?_,fun fd => ?_,rfl,rfl⟩
      · simp [serialFreeLink,derefLink,hl,hn,hfd,hsfd,releaseLink,emit,sysClose,modifyLink,eachFd]
      · grind [Owns]
    · refine ⟨(t.openFds.erase l.fd).erase l.sfd,[.close l.fd,.close l.sfd,.freeLink link],?_,
        fun fd => ?_,rfl,rfl⟩
      · simp [serialFreeLink,derefLink,hl,hn,hfd,hsfd,releaseLink,emit,sysClose,modifyLink,eachFd]
      · grind [Owns]

/-- The single cleanup of a failed attempt closes and frees what it had opened. -/
theorem Pending.abandon {l : SerialLink} {t : World} (h : Pending w l t)
    (hnew : w.links w.nextLink=none) :
    ∃ u,serialLinkIOError w.nextLink t=.ok () u ∧ Abandoned w u ∧ SameFiles t u := by
  obtain ⟨fds,calls,hx,hfds,hcalls,hattempts⟩ := serialFreeLink_detached h.live h.node
  have hmade : t.fdCalls++eachFd .close l=w.fdCalls++eachFd .opened l++eachFd .close l := by
    rw [h.fdCalls]
  refine ⟨_,hx,⟨h.nodes,h.masterHead,h.nextNode,?_,h.nextLink,h.events,h.maxfd,h.setsize,?_,
    ⟨l,fun fd ho => ⟨h.valid fd ho,h.fresh fd ho⟩,h.sides,hmade⟩,?_⟩,rfl,rfl,?_⟩
  · change Function.update t.links w.nextLink none=w.links
    rw [h.links,Function.update_idem,← hnew,Function.update_eq_self]
  · ext fd
    rw [hfds,h.openFds]
    constructor
    · rintro ⟨hm|ho,hn⟩
      · exact hm
      · exact absurd ho hn
    · exact fun hm => ⟨.inl hm,fun ho => h.fresh fd ho hm⟩
  · rw [transfers_append,hcalls,List.append_nil,h.transfers]
  · rw [attempts_append,hattempts,List.append_nil]

/-- A registration changes the event table only, and only when it succeeds. -/
theorem aeCreateFileEvent_spec (t : World) (fd : Fd) (mask : EventMask) (link : LinkPtr)
    (epollCtl : Option Errno) : ∃ ok events maxfd errno,
    aeCreateFileEvent fd mask link epollCtl t=.ok ok {t with
      events := events
      maxfd := maxfd
      errno := errno
      fdCalls := t.fdCalls++[.create fd mask link epollCtl]} ∧
    (events=t.events ∨ fd<t.setsize ∧
      events=Function.update t.events fd ⟨(t.events fd).mask ||| mask,some link⟩) ∧
    (fd<t.setsize → epollCtl=none →
      events=Function.update t.events fd ⟨(t.events fd).mask ||| mask,some link⟩) ∧
    (¬ (fd<t.setsize ∧ epollCtl=none) → events=t.events) ∧
    maxfd=if fd<t.setsize ∧ epollCtl=none then max t.maxfd fd else t.maxfd := by
  by_cases hlt : fd<t.setsize
  · cases hepoll : epollCtl with
    | none =>
      refine ⟨true,_,max t.maxfd fd,t.errno,?_,.inr ⟨hlt,rfl⟩,fun _ _ => rfl,
        fun h => absurd ⟨hlt,rfl⟩ h,(if_pos ⟨hlt,rfl⟩).symm⟩
      exact aeCreateFileEvent_accepted mask link hlt
    | some errno =>
      refine ⟨false,t.events,t.maxfd,errno,?_,.inl rfl,fun _ h => absurd h (by simp),fun _ => rfl,
        (if_neg (by simp)).symm⟩
      exact aeCreateFileEvent_refused mask link errno hlt
  · refine ⟨false,t.events,t.maxfd,erange,?_,.inl rfl,fun h => absurd h hlt,fun _ => rfl,
      (if_neg fun h => hlt h.1).symm⟩
    exact aeCreateFileEvent_outside mask link epollCtl (not_lt.mp hlt)

/-- The last steps of a successful attempt. -/
theorem Pending.attach {l : SerialLink} {t : World} (h : Pending w l t) (env : ConnectResults)
    (ht : Topology w shape) (hm : shape.Mem node) (hfd : l.fd≠-1) : ∃ u,
    (do
      let l ← derefLink w.nextLink
      let flags ← serialEventFlags node
      let _ ← aeCreateFileEvent l.fd flags w.nextLink env.epollCtl
      modifyNode node fun n => {n with link := some w.nextLink}
      modifyLink w.nextLink fun l => {l with node := some node}
      pure (some w.nextLink) : Prog (Option LinkPtr)) t=.ok (some w.nextLink) u ∧
      Connected w node env {l with node := some node} u ∧ SameFiles t u ∧
      (¬ (l.fd<w.setsize ∧ env.epollCtl=none) → u.events=w.events) := by
  have ht' := h.devices.topology ht
  have hflags : serialEventFlags node t=.ok (eventFlags w node) t := by
    rw [serialEventFlags_apply ht' hm,eventFlags_congr ht h.devices hm]
  obtain ⟨n,hn⟩ := ht'.live_of_mem hm
  obtain ⟨ok,events,maxfd,errno,hx,hevents,hregistered,hfailed,hmax⟩ :=
    aeCreateFileEvent_spec t l.fd (eventFlags w node) w.nextLink env.epollCtl
  rw [h.events,h.setsize] at hevents hregistered hfailed
  rw [h.setsize,h.maxfd] at hmax
  rw [bind_of_ok (derefLink_of_some h.live),bind_of_ok hflags,bind_of_ok hx,
    bind_of_ok (modifyNode_of_some (n:=n) ?_ _),bind_of_ok (modifyLink_of_some (l:=l) ?_ _)]
  · have hmade : t.fdCalls++[.create l.fd (eventFlags w node) w.nextLink env.epollCtl]=
        w.fdCalls++eachFd .opened l++[.create l.fd (eventFlags w node) w.nextLink env.epollCtl] := by
      rw [h.fdCalls]
    refine ⟨_,rfl,⟨?_,h.masterHead,h.nextNode,?_,h.nextLink,h.setsize,rfl,h.empty,hfd,h.sides hfd,
      h.fresh,h.valid,h.openFds,hmade,hevents,hregistered,hmax,h.transfers⟩,⟨rfl,rfl,rfl⟩,hfailed⟩
    · change Function.update t.nodes node _=_
      rw [h.nodes] at hn ⊢
      rw [nodeAt_of_some hn]
    · change Function.update t.links w.nextLink _=_
      rw [h.links,Function.update_idem]
  · exact h.live
  · exact hn

end Attempt

end SerialProxy.ConnectEffects
