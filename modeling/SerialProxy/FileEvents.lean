import SerialProxy.EventTable

/-!
# File events and the interest list of the kernel

The table of file events of ae.c with its descriptor of ae_epoll.c, where `epoll_ctl` is that of
the kernel: it keeps the interest list, and refuses a descriptor that is not open, one that is
added twice, and one that is changed or deleted without being in the list. Closing a descriptor
takes it off the list and leaves the table alone.
-/

namespace SerialProxy.FileEvents

open FaultPrograms SerialState EventTable

/-- `ENOENT` of Linux. -/
def enoent : Errno := 2

/-- `EBADF` of Linux. -/
def ebadf : Errno := 9

/-- `EEXIST` of Linux. -/
def eexist : Errno := 17

/-- The operations of `epoll_ctl`. -/
inductive CtlOp
  /-- `EPOLL_CTL_ADD`. -/
  | add
  /-- `EPOLL_CTL_MOD`. -/
  | mod
  /-- `EPOLL_CTL_DEL`. -/
  | del
  deriving DecidableEq

/-- What the kernel knows of the descriptors. -/
structure Epoll where
  /-- Interest list, with the events asked for. -/
  interest : Fd → Option EventMask
  /-- Open file descriptors of the process. -/
  openFds : Finset Fd

/-- `epoll_ctl`; an addition may be denied for lack of memory or of watches. -/
def Epoll.ctl (k : Epoll) (op : CtlOp) (fd : Fd) (mask : EventMask) (denied : Option Errno) :
    Except Errno Epoll :=
  if fd∉k.openFds then .error ebadf
  else match op,k.interest fd,denied with
    | .add,some _,_ => .error eexist
    | .add,none,some errno => .error errno
    | .add,none,none => .ok {k with interest := Function.update k.interest fd (some mask)}
    | .mod,some _,_ => .ok {k with interest := Function.update k.interest fd (some mask)}
    | .del,some _,_ => .ok {k with interest := Function.update k.interest fd none}
    | .mod,none,_ => .error enoent
    | .del,none,_ => .error enoent

/-- `aeEventLoop`, as far as its file events go. -/
structure AeEventLoop where
  /-- Highest registered descriptor, or -1. -/
  maxfd : Fd
  /-- Size of the table. -/
  setsize : ℕ
  /-- The table. -/
  events : Fd → AeFileEvent
  /-- The kernel behind the epoll descriptor. -/
  epoll : Epoll
  /-- The global `errno`. -/
  errno : Errno

/-- `aeCreateEventLoop`; the memory of the table holds anything before every mask is cleared. -/
def aeCreateEventLoop (setsize : ℕ) (memory : Fd → AeFileEvent) (openFds : Finset Fd) :
    AeEventLoop where
  maxfd := -1
  setsize := setsize
  events := fun fd => {memory fd with mask := aeNone}
  epoll := ⟨fun _ => none,openFds⟩
  errno := 0

/-- Programs of the event loop. -/
abbrev LoopProg := EStateM Fault AeEventLoop

/-- `epoll_ctl` on the descriptor of the loop; false for -1. -/
def epollCtl (op : CtlOp) (fd : Fd) (mask : EventMask) (denied : Option Errno) : LoopProg Bool := do
  let l ← get
  match l.epoll.ctl op fd mask denied with
  | .ok k =>
    modify fun l => {l with epoll := k}
    pure true
  | .error errno =>
    modify fun l => {l with errno := errno}
    pure false

/-- `aeApiAddEvent`; false for -1. -/
def aeApiAddEvent (fd : Fd) (mask : EventMask) (denied : Option Errno) : LoopProg Bool := do
  let l ← get
  let op := if (l.events fd).mask=aeNone then CtlOp.add else CtlOp.mod
  epollCtl op fd (mask ||| (l.events fd).mask) denied

/-- `aeApiDelEvent`, which ignores what `epoll_ctl` returns. -/
def aeApiDelEvent (fd : Fd) (delmask : EventMask) : LoopProg Unit := do
  let l ← get
  let mask := (l.events fd).mask &&& ~~~delmask
  let _ ← epollCtl (if mask≠aeNone then CtlOp.mod else CtlOp.del) fd mask none

/-- `aeCreateFileEvent`; true for `AE_OK`. -/
def aeCreateFileEvent (fd : Fd) (mask : EventMask) (clientData : LinkPtr)
    (denied : Option Errno) : LoopProg Bool := do
  let l ← get
  if fd≥l.setsize then
    modify fun l => {l with errno := erange}
    pure false
  else if ← aeApiAddEvent fd mask denied then
    modify fun l => {l with
      events := Function.update l.events fd ⟨(l.events fd).mask ||| mask,some clientData⟩
      maxfd := max l.maxfd fd}
    pure true
  else
    pure false

/-- `aeDeleteFileEvent`. -/
def aeDeleteFileEvent (fd : Fd) (mask : EventMask) : LoopProg Unit := do
  let l ← get
  if fd≥l.setsize then
    pure ()
  else if (l.events fd).mask=aeNone then
    pure ()
  else
    aeApiDelEvent fd mask
    modify fun l =>
      let rest := (l.events fd).mask &&& ~~~mask
      let events := Function.update l.events fd {l.events fd with mask := rest}
      {l with
        events := events
        maxfd := if fd=l.maxfd ∧ rest=aeNone then highestBelow events l.maxfd.toNat else l.maxfd}

/-- `aeGetFileEvents`. -/
def aeGetFileEvents (l : AeEventLoop) (fd : Fd) : EventMask :=
  if fd≥l.setsize then 0 else (l.events fd).mask

/-- `aeResizeSetSize`; true for `AE_OK`. The memory of new slots holds anything before the loop
over the slots behind the highest registered descriptor clears their masks. -/
def aeResizeSetSize (setsize : ℕ) (memory : Fd → AeFileEvent) : LoopProg Bool := do
  let l ← get
  if setsize=l.setsize then
    pure true
  else if l.maxfd≥setsize then
    pure false
  else
    let moved := fun fd : Fd => if fd<l.setsize then l.events fd else memory fd
    modify fun l => {l with
      events := fun fd => if l.maxfd<fd then {moved fd with mask := aeNone} else moved fd
      setsize := setsize}
    pure true

/-- What the program does with the descriptors of the loop. -/
inductive LoopOp
  /-- `aeCreateFileEvent`. -/
  | create (fd : Fd) (mask : EventMask) (clientData : LinkPtr) (denied : Option Errno)
  /-- `aeDeleteFileEvent`. -/
  | delete (fd : Fd) (mask : EventMask)
  /-- `aeResizeSetSize`. -/
  | resize (setsize : ℕ) (memory : Fd → AeFileEvent)
  /-- The kernel opens a descriptor. -/
  | opened (fd : Fd)
  /-- `close`. -/
  | close (fd : Fd)

/-- One of these calls. -/
def perform : LoopOp → LoopProg Unit
  | .create fd mask clientData denied => do
    let _ ← aeCreateFileEvent fd mask clientData denied
  | .delete fd mask => aeDeleteFileEvent fd mask
  | .resize setsize memory => do
    let _ ← aeResizeSetSize setsize memory
  | .opened fd => modify fun l => {l with epoll := {l.epoll with openFds := insert fd l.epoll.openFds}}
  | .close fd => modify fun l => {l with epoll :=
      ⟨Function.update l.epoll.interest fd none,l.epoll.openFds.erase fd⟩}

/-- What the callers see to: descriptors are no errors, something is registered, and the kernel
hands out descriptors that are not open. -/
def Allowed (l : AeEventLoop) : LoopOp → Prop
  | .create fd mask _ _ => 0≤fd ∧ mask≠aeNone
  | .delete fd _ => 0≤fd
  | .resize _ _ => True
  | .opened fd => 0≤fd ∧ fd∉l.epoll.openFds
  | .close _ => True

/-- The descriptor has a slot with a mask. -/
def Registered (l : AeEventLoop) (fd : Fd) : Prop := 0≤fd ∧ aeGetFileEvents l fd≠aeNone

/-- A registered descriptor is not closed. -/
def Careful (l : AeEventLoop) : LoopOp → Prop
  | .close fd => ¬ Registered l fd
  | _ => True

/-- Bounds of the table. -/
structure Sound (l : AeEventLoop) : Prop where
  /-- Nothing is registered above the highest descriptor. -/
  below : ∀ fd,Registered l fd → fd≤l.maxfd
  /-- It is registered, if there is one. -/
  top : l.maxfd=-1 ∨ Registered l l.maxfd
  /-- The kernel watches open descriptors only. -/
  held : ∀ fd,l.epoll.interest fd≠none → fd∈l.epoll.openFds

/-- What the table asks of the kernel for a descriptor. -/
def asked (l : AeEventLoop) (fd : Fd) : Option EventMask :=
  if 0≤fd ∧ aeGetFileEvents l fd≠aeNone then some (aeGetFileEvents l fd) else none

/-- The kernel watches what the table asks for. -/
def Mirrors (l : AeEventLoop) : Prop := ∀ fd,l.epoll.interest fd=asked l fd

section Kernel

variable {k k' : Epoll} {op : CtlOp} {fd : Fd} {mask : EventMask} {denied : Option Errno}

/-- What `epoll_ctl` does when it succeeds. -/
theorem ctl_ok (h : k.ctl op fd mask denied=.ok k') : fd∈k.openFds ∧
    k'={k with interest := Function.update k.interest fd (if op=.del then none else some mask)} ∧
    (op=.add ↔ k.interest fd=none) := by
  unfold Epoll.ctl at h
  split at h
  · exact absurd h nofun
  · rename_i hopen
    refine ⟨not_not.mp hopen,?_⟩
    split at h <;> simp_all

/-- Descriptors in the list can be changed. -/
theorem ctl_listed {old : EventMask} (hopen : fd∈k.openFds) (hin : k.interest fd=some old)
    (hop : op≠.add) : k.ctl op fd mask denied=.ok {k with
      interest := Function.update k.interest fd (if op=.del then none else some mask)} := by
  unfold Epoll.ctl
  rw [if_neg (not_not.mpr hopen),hin]
  cases op with
  | add => exact absurd rfl hop
  | mod | del => rfl

/-- Others can be added, unless the kernel has no room. -/
theorem ctl_unlisted (mask : EventMask) (denied : Option Errno) (hopen : fd∈k.openFds)
    (hin : k.interest fd=none) :
    k.ctl .add fd mask denied=match denied with
      | some errno => .error errno
      | none => .ok {k with interest := Function.update k.interest fd (some mask)} := by
  unfold Epoll.ctl
  rw [if_neg (not_not.mpr hopen),hin]
  cases denied <;> rfl

/-- A descriptor that is not in the list cannot be changed. -/
theorem ctl_missing (mask : EventMask) (denied : Option Errno) (hin : k.interest fd=none)
    (hop : op≠.add) : ∃ errno,
    k.ctl op fd mask denied=.error errno ∧ (errno=ebadf ∨ errno=enoent) := by
  unfold Epoll.ctl
  split
  · exact ⟨ebadf,rfl,.inl rfl⟩
  · rw [hin]
    cases op with
    | add => exact absurd rfl hop
    | mod | del => exact ⟨enoent,rfl,.inr rfl⟩

end Kernel

section Calls

variable {l t : AeEventLoop} {fd other : Fd} {mask : EventMask} {link : LinkPtr}
variable {denied : Option Errno}

/-- A registered descriptor is inside the table, with some event. -/
theorem registered_iff :
    Registered l fd ↔ 0≤fd ∧ fd<l.setsize ∧ (l.events fd).mask≠aeNone := by
  rw [Registered,aeGetFileEvents]
  split
  · rename_i hge
    constructor
    · exact fun h => absurd rfl h.2
    · exact fun h => absurd h.2.1 (not_lt.mpr hge)
  · rename_i hlt
    exact and_congr_right fun _ => ⟨fun h => ⟨not_le.mp hlt,h⟩,And.right⟩

/-- The table asks the kernel for the events of a registered descriptor. -/
theorem asked_of_registered (h : Registered l fd) : asked l fd=some (l.events fd).mask := by
  have hlt := (registered_iff.mp h).2.1
  rw [asked,if_pos (by exact h),aeGetFileEvents,if_neg (not_le.mpr hlt)]

/-- It asks for nothing else. -/
theorem asked_of_not (h : ¬ Registered l fd) : asked l fd=none := if_neg h

/-- A descriptor it does not ask for is not registered. -/
theorem asked_eq_none : asked l fd=none ↔ ¬ Registered l fd := by
  by_cases h : Registered l fd
  · rw [asked_of_registered h]
    exact ⟨nofun,fun hn => absurd h hn⟩
  · exact ⟨fun _ => h,fun _ => asked_of_not h⟩

/-- Descriptors with the same slot ask for the same events. -/
theorem asked_congr (hsize : t.setsize=l.setsize) (hslot : (t.events fd).mask=(l.events fd).mask) :
    asked t fd=asked l fd := by
  rw [asked,asked,aeGetFileEvents,aeGetFileEvents,hsize,hslot]

/-- Whether a descriptor is registered depends on its slot and the size of the table. -/
theorem registered_congr (hsize : t.setsize=l.setsize)
    (hslot : (t.events fd).mask=(l.events fd).mask) : Registered t fd ↔ Registered l fd := by
  rw [registered_iff,registered_iff,hsize,hslot]

/-- The loop behind a registration that the kernel has accepted. -/
def created (l : AeEventLoop) (fd : Fd) (mask : EventMask) (link : LinkPtr) (k : Epoll) :
    AeEventLoop := {l with
  events := Function.update l.events fd ⟨(l.events fd).mask ||| mask,some link⟩
  maxfd := max l.maxfd fd
  epoll := k}

/-- A registration adds its events to those of the slot. -/
theorem created_events_self (l : AeEventLoop) (fd : Fd) (mask : EventMask) (link : LinkPtr)
    (k : Epoll) : (created l fd mask link k).events fd=⟨(l.events fd).mask ||| mask,some link⟩ :=
  Function.update_self _ _ _

/-- The operation of a registration. -/
def addOp (l : AeEventLoop) (fd : Fd) : CtlOp :=
  if (l.events fd).mask=aeNone then .add else .mod

/-- `epoll_ctl` changes the list of the kernel, or `errno`. -/
theorem epollCtl_apply (op : CtlOp) : epollCtl op fd mask denied l=
    match l.epoll.ctl op fd mask denied with
    | .ok k => .ok true {l with epoll := k}
    | .error errno => .ok false {l with errno := errno} := by
  rw [epollCtl,bind_of_ok (get_apply l)]
  cases l.epoll.ctl op fd mask denied <;> rfl

/-- A registration succeeds if `epoll_ctl` does, and changes only `errno` otherwise. -/
theorem aeCreateFileEvent_apply (mask : EventMask) (link : LinkPtr) (denied : Option Errno)
    (hlt : fd<l.setsize) :
    aeCreateFileEvent fd mask link denied l=
      match l.epoll.ctl (addOp l fd) fd (mask ||| (l.events fd).mask) denied with
      | .ok k => .ok true (created l fd mask link k)
      | .error errno => .ok false {l with errno := errno} := by
  have hadd : aeApiAddEvent fd mask denied l=
      epollCtl (addOp l fd) fd (mask ||| (l.events fd).mask) denied l := rfl
  rw [aeCreateFileEvent,bind_of_ok (get_apply l),if_neg (not_le.mpr hlt),bind_apply,hadd,
    epollCtl_apply]
  cases l.epoll.ctl (addOp l fd) fd (mask ||| (l.events fd).mask) denied <;> rfl

/-- A descriptor behind the table is refused. -/
theorem aeCreateFileEvent_outside (mask : EventMask) (link : LinkPtr) (denied : Option Errno)
    (hge : fd≥l.setsize) :
    aeCreateFileEvent fd mask link denied l=.ok false {l with errno := erange} := by
  rw [aeCreateFileEvent,bind_of_ok (get_apply l),if_pos hge]
  rfl

/-- The loop behind a removal, with what `epoll_ctl` has left. -/
def deleted (l : AeEventLoop) (fd : Fd) (mask : EventMask) (k : Epoll) (errno : Errno) :
    AeEventLoop :=
  let rest := (l.events fd).mask &&& ~~~mask
  let events := Function.update l.events fd {l.events fd with mask := rest}
  {l with
    events := events
    maxfd := if fd=l.maxfd ∧ rest=aeNone then highestBelow events l.maxfd.toNat else l.maxfd
    epoll := k
    errno := errno}

/-- A removal takes its events from those of the slot. -/
theorem deleted_events_self (l : AeEventLoop) (fd : Fd) (mask : EventMask) (k : Epoll)
    (errno : Errno) : (deleted l fd mask k errno).events fd=
      {l.events fd with mask := (l.events fd).mask &&& ~~~mask} :=
  Function.update_self _ _ _

/-- The operation of a removal. -/
def delOp (l : AeEventLoop) (fd : Fd) (mask : EventMask) : CtlOp :=
  if (l.events fd).mask &&& ~~~mask≠aeNone then .mod else .del

/-- A removal changes the table, whatever `epoll_ctl` returns. -/
theorem aeDeleteFileEvent_apply (mask : EventMask) (h : Registered l fd) :
    aeDeleteFileEvent fd mask l=
    match l.epoll.ctl (delOp l fd mask) fd ((l.events fd).mask &&& ~~~mask) none with
    | .ok k => .ok () (deleted l fd mask k l.errno)
    | .error errno => .ok () (deleted l fd mask l.epoll errno) := by
  obtain ⟨-,hlt,hm⟩ := registered_iff.mp h
  have hdel : aeApiDelEvent fd mask l=(do
      let _ ← epollCtl (delOp l fd mask) fd ((l.events fd).mask &&& ~~~mask) none
      pure () : LoopProg Unit) l := rfl
  rw [aeDeleteFileEvent,bind_of_ok (get_apply l),if_neg (not_le.mpr hlt),if_neg hm,bind_apply,hdel,
    bind_apply,epollCtl_apply]
  cases l.epoll.ctl (delOp l fd mask) fd ((l.events fd).mask &&& ~~~mask) none <;> rfl

/-- The removal of a descriptor that is not registered does nothing. -/
theorem aeDeleteFileEvent_of_not (hfd : 0≤fd) (h : ¬ Registered l fd) :
    aeDeleteFileEvent fd mask l=.ok () l := by
  rw [aeDeleteFileEvent,bind_of_ok (get_apply l)]
  by_cases hge : fd≥l.setsize
  · rw [if_pos hge]
    rfl
  · have hm : (l.events fd).mask=aeNone := by
      by_contra hne
      exact h (registered_iff.mpr ⟨hfd,not_le.mp hge,hne⟩)
    rw [if_neg hge,if_pos hm]
    rfl

end Calls

section Bounds

variable {l t : AeEventLoop} {fd other : Fd} {mask : EventMask} {link : LinkPtr} {k : Epoll}
variable {denied : Option Errno} {errno : Errno}

/-- The loop of `aeDeleteFileEvent` stops at the highest registered slot below its bound. -/
theorem highestBelow_spec (events : Fd → AeFileEvent) (n : ℕ) :
    (∀ j : Fd,highestBelow events n<j → j<n → (events j).mask=aeNone) ∧
      (highestBelow events n=-1 ∨ 0≤highestBelow events n ∧ highestBelow events n<n ∧
        (events (highestBelow events n)).mask≠aeNone) := by
  induction n with
  | zero =>
    refine ⟨fun j hlow hhigh => ?_,.inl rfl⟩
    rw [highestBelow] at hlow
    lia
  | succ n ih =>
    rw [highestBelow]
    by_cases hn : (events (n : Fd)).mask=aeNone
    · rw [if_neg (not_not.mpr hn)]
      refine ⟨fun j hlow hhigh => ?_,ih.2.imp_right fun h => ⟨h.1,?_,h.2.2⟩⟩
      · by_cases hj : j=n
        · rw [hj]
          exact hn
        · exact ih.1 j hlow (by lia)
      · have := h.2.1
        lia
    · rw [if_pos hn]
      refine ⟨fun j hlow hhigh => ?_,.inr ⟨by lia,by lia,hn⟩⟩
      lia

/-- A mask with more events is not empty. -/
theorem or_ne_none {a b : EventMask} (hb : b≠aeNone) : a ||| b≠aeNone := by
  revert a b
  decide

/-- The highest descriptor is in the table. -/
theorem Sound.bound (h : Sound l) : l.maxfd<l.setsize := by
  rcases h.top with htop|htop
  · lia
  · exact (registered_iff.mp htop).2.1

/-- A registration registers its own descriptor only. -/
theorem registered_created (hfd : 0≤fd) (hlt : fd<l.setsize) (hm : mask≠aeNone) :
    Registered (created l fd mask link k) other ↔ other=fd ∨ Registered l other := by
  by_cases h : other=fd
  · subst h
    refine ⟨fun _ => .inl rfl,fun _ => registered_iff.mpr ⟨hfd,hlt,?_⟩⟩
    change (Function.update l.events other _ other).mask≠aeNone
    rw [Function.update_self]
    exact or_ne_none hm
  · have hslot : ((created l fd mask link k).events other).mask=(l.events other).mask := by
      exact congrArg AeFileEvent.mask (Function.update_of_ne h _ _)
    rw [registered_congr (l:=l) (t:=created l fd mask link k) rfl hslot]
    exact (or_iff_right h).symm

/-- It keeps the table sound. -/
theorem created_sound (h : Sound l) (hfd : 0≤fd) (hlt : fd<l.setsize) (hm : mask≠aeNone)
    (hheld : ∀ fd,k.interest fd≠none → fd∈k.openFds) : Sound (created l fd mask link k) where
  below := by
    intro other ho
    change other ≤ max l.maxfd fd
    rcases (registered_created hfd hlt hm).mp ho with rfl|ho
    · exact le_max_right _ _
    · exact (h.below other ho).trans (le_max_left _ _)
  top := by
    refine .inr ((registered_created hfd hlt hm).mpr ?_)
    change max l.maxfd fd=fd ∨ Registered l (max l.maxfd fd)
    rcases h.top with htop|htop
    · left
      lia
    · rcases max_choice l.maxfd fd with hmax|hmax
      · exact .inr (hmax.symm ▸ htop)
      · exact .inl hmax
  held := hheld

/-- A removal unregisters a descriptor exactly if no event of it is left. -/
theorem registered_deleted (h : Registered l fd) :
    Registered (deleted l fd mask k errno) other ↔ Registered l other ∧
      (other=fd → (l.events fd).mask &&& ~~~mask≠aeNone) := by
  by_cases ho : other=fd
  · subst ho
    have hslot : ((deleted l other mask k errno).events other).mask=
        (l.events other).mask &&& ~~~mask := by
      dsimp only [deleted]
      rw [Function.update_self]
    obtain ⟨hpos,hlt,hm⟩ := registered_iff.mp h
    rw [registered_iff,hslot]
    exact ⟨fun hr => ⟨h,fun _ => hr.2.2⟩,fun hr => ⟨hpos,hlt,hr.2 rfl⟩⟩
  · have hslot : ((deleted l fd mask k errno).events other).mask=(l.events other).mask := by
      dsimp only [deleted]
      rw [Function.update_of_ne ho]
    rw [registered_congr (l:=l) (t:=deleted l fd mask k errno) rfl hslot]
    exact ⟨fun hr => ⟨hr,fun he => absurd he ho⟩,And.left⟩

/-- The search for the new highest descriptor finds the highest one that is left. -/
theorem deleted_sound (h : Sound l) (hr : Registered l fd)
    (hheld : ∀ fd,k.interest fd≠none → fd∈k.openFds) : Sound (deleted l fd mask k errno) := by
  let t := deleted l fd mask k errno
  have hbound := h.bound
  by_cases hlast : fd=l.maxfd ∧ (l.events fd).mask &&& ~~~mask=aeNone
  · have hmax : t.maxfd=highestBelow t.events l.maxfd.toNat := if_pos hlast
    obtain ⟨hnone,hfound⟩ := highestBelow_spec t.events l.maxfd.toNat
    refine ⟨fun other ho => ?_,?_,hheld⟩
    · obtain ⟨hold,hne⟩ := (registered_deleted hr).mp ho
      have hle := h.below other hold
      have hother : other≠l.maxfd := fun he => hne (he.trans hlast.1.symm) hlast.2
      change other≤t.maxfd
      rw [hmax]
      by_contra hgt
      have hslot := hnone other (not_le.mp hgt) (by lia)
      exact (registered_iff.mp ho).2.2 hslot
    · change t.maxfd=-1 ∨ Registered t t.maxfd
      rw [hmax]
      refine hfound.imp_right fun hf => registered_iff.mpr ⟨hf.1,?_,hf.2.2⟩
      have hlow := hf.2.1
      change highestBelow t.events l.maxfd.toNat<l.setsize
      lia
  · have hmax : t.maxfd=l.maxfd := if_neg hlast
    refine ⟨fun other ho => ?_,?_,hheld⟩
    · change other≤t.maxfd
      rw [hmax]
      exact h.below other ((registered_deleted hr).mp ho).1
    · change t.maxfd=-1 ∨ Registered t t.maxfd
      rw [hmax]
      refine h.top.imp_right fun htop => (registered_deleted hr).mpr ⟨htop,fun he hrest => ?_⟩
      exact hlast ⟨he.symm,hrest⟩

/-- The kernel keeps to open descriptors. -/
theorem ctl_held (h : Sound l) {op : CtlOp} (hk : l.epoll.ctl op fd mask denied=.ok k) :
    ∀ other,k.interest other≠none → other∈k.openFds := by
  obtain ⟨hopen,rfl,-⟩ := ctl_ok hk
  intro other ho
  by_cases he : other=fd
  · exact he ▸ hopen
  · have hsame := Function.update_of_ne he (if op=.del then none else some mask) l.epoll.interest
    exact h.held other fun hnone => ho (hsame.trans hnone)

/-- `aeResizeSetSize` succeeds exactly if every registered descriptor has a slot in the new
table, and loses no registration in any case. Its comment keeps one slot more free. -/
theorem aeResizeSetSize_spec (h : Sound l) (setsize : ℕ) (memory : Fd → AeFileEvent) : ∃ ok t,
    aeResizeSetSize setsize memory l=.ok ok t ∧ (ok=true ↔ ∀ fd,Registered l fd → fd<setsize) ∧
      (ok=true → t.setsize=setsize) ∧ (∀ fd,Registered t fd ↔ Registered l fd) ∧
      (∀ fd,Registered l fd → t.events fd=l.events fd) ∧ t.maxfd=l.maxfd ∧ t.epoll=l.epoll := by
  have hbound := h.bound
  rw [aeResizeSetSize,bind_of_ok (get_apply l)]
  by_cases hsame : setsize=l.setsize
  · rw [if_pos hsame]
    refine ⟨true,l,rfl,⟨fun _ fd hr => ?_,fun _ => rfl⟩,fun _ => hsame.symm,fun _ => .rfl,
      fun _ _ => rfl,rfl,rfl⟩
    rw [hsame]
    exact (registered_iff.mp hr).2.1
  · rw [if_neg hsame]
    by_cases hfull : l.maxfd≥setsize
    · rw [if_pos hfull]
      refine ⟨false,l,rfl,⟨nofun,fun hall => ?_⟩,nofun,fun _ => .rfl,fun _ _ => rfl,rfl,rfl⟩
      rcases h.top with htop|htop
      · lia
      · have hlt := hall _ htop
        lia
    · rw [if_neg hfull]
      have hslot : ∀ fd,fd≤l.maxfd → (if l.maxfd<fd then
          {(if fd<l.setsize then l.events fd else memory fd) with mask := aeNone}
          else if fd<l.setsize then l.events fd else memory fd)=l.events fd := by
        intro fd hle
        rw [if_neg (not_lt.mpr hle),if_pos (by lia)]
      refine ⟨true,_,rfl,⟨fun _ fd hr => ?_,fun _ => rfl⟩,fun _ => rfl,fun fd => ?_,
        fun fd hr => hslot fd (h.below fd hr),rfl,rfl⟩
      · have hle := h.below fd hr
        lia
      · rw [registered_iff,registered_iff]
        dsimp only
        by_cases hle : fd≤l.maxfd
        · rw [hslot fd hle]
          constructor
          · rintro ⟨hpos,-,hm⟩
            exact ⟨hpos,by lia,hm⟩
          · rintro ⟨hpos,-,hm⟩
            exact ⟨hpos,by lia,hm⟩
        · rw [if_pos (not_le.mp hle)]
          refine ⟨fun hr => absurd rfl hr.2.2,fun hr => ?_⟩
          exact absurd (h.below fd (registered_iff.mpr hr)) hle

end Bounds

section Steps

variable {l t : AeEventLoop} {fd other : Fd} {mask : EventMask} {link : LinkPtr} {k : Epoll}
variable {denied : Option Errno} {errno : Errno} {op : LoopOp}

/-- What a call leaves: the cases of all of them. -/
inductive Performed (l : AeEventLoop) : LoopOp → AeEventLoop → Prop
  /-- The kernel accepts the registration. -/
  | created {fd : Fd} {mask : EventMask} {link : LinkPtr} {denied : Option Errno} {k : Epoll} :
      fd<l.setsize → l.epoll.ctl (addOp l fd) fd (mask ||| (l.events fd).mask) denied=.ok k →
      Performed l (.create fd mask link denied) (created l fd mask link k)
  /-- There is no slot, or the kernel refuses. -/
  | refused {fd : Fd} {mask : EventMask} {link : LinkPtr} {denied : Option Errno}
      (errno : Errno) : (∀ k,fd<l.setsize →
        l.epoll.ctl (addOp l fd) fd (mask ||| (l.events fd).mask) denied≠.ok k) →
      Performed l (.create fd mask link denied) {l with errno := errno}
  /-- The kernel accepts the removal. -/
  | deleted {fd : Fd} {mask : EventMask} {k : Epoll} : Registered l fd →
      l.epoll.ctl (delOp l fd mask) fd ((l.events fd).mask &&& ~~~mask) none=.ok k →
      Performed l (.delete fd mask) (deleted l fd mask k l.errno)
  /-- It refuses, which only the table does not notice. -/
  | ignored {fd : Fd} {mask : EventMask} (errno : Errno) : Registered l fd →
      l.epoll.ctl (delOp l fd mask) fd ((l.events fd).mask &&& ~~~mask) none=.error errno →
      Performed l (.delete fd mask) (deleted l fd mask l.epoll errno)
  /-- Nothing is to be removed. -/
  | absent {fd : Fd} {mask : EventMask} : ¬ Registered l fd → Performed l (.delete fd mask) l
  /-- The table keeps its registrations. -/
  | resized {setsize : ℕ} {memory : Fd → AeFileEvent} {t : AeEventLoop} :
      (∀ fd,Registered t fd ↔ Registered l fd) →
      (∀ fd,Registered l fd → t.events fd=l.events fd) → t.maxfd=l.maxfd → t.epoll=l.epoll →
      Performed l (.resize setsize memory) t
  /-- One descriptor more. -/
  | opened {fd : Fd} : fd∉l.epoll.openFds → Performed l (.opened fd)
      {l with epoll := {l.epoll with openFds := insert fd l.epoll.openFds}}
  /-- One descriptor less. -/
  | closed (fd : Fd) : Performed l (.close fd) {l with epoll :=
      ⟨Function.update l.epoll.interest fd none,l.epoll.openFds.erase fd⟩}

/-- Every call returns, in one of these ways. -/
theorem perform_cases (h : Sound l) (ha : Allowed l op) :
    ∃ t,perform op l=.ok () t ∧ Performed l op t := by
  cases op with
  | create fd mask link denied =>
    by_cases hlt : fd<l.setsize
    · have hcreate := aeCreateFileEvent_apply mask link denied hlt
      cases hctl : l.epoll.ctl (addOp l fd) fd (mask ||| (l.events fd).mask) denied with
      | ok k =>
        rw [hctl] at hcreate
        exact ⟨_,bind_of_ok hcreate _,.created hlt hctl⟩
      | error errno =>
        rw [hctl] at hcreate
        exact ⟨_,bind_of_ok hcreate _,.refused errno fun k _ hk => nomatch hctl.symm.trans hk⟩
    · have hcreate := aeCreateFileEvent_outside mask link denied (not_lt.mp hlt)
      exact ⟨_,bind_of_ok hcreate _,.refused erange fun k h => absurd h hlt⟩
  | delete fd mask =>
    by_cases hr : Registered l fd
    · have hdelete := aeDeleteFileEvent_apply mask hr
      cases hctl : l.epoll.ctl (delOp l fd mask) fd ((l.events fd).mask &&& ~~~mask) none with
      | ok k =>
        rw [hctl] at hdelete
        exact ⟨_,hdelete,.deleted hr hctl⟩
      | error errno =>
        rw [hctl] at hdelete
        exact ⟨_,hdelete,.ignored errno hr hctl⟩
    · exact ⟨_,aeDeleteFileEvent_of_not ha hr,.absent hr⟩
  | resize setsize memory =>
    obtain ⟨ok,t,hrun,-,-,hr,hslot,hmax,hepoll⟩ := aeResizeSetSize_spec h setsize memory
    exact ⟨t,bind_of_ok hrun _,.resized hr hslot hmax hepoll⟩
  | opened fd => exact ⟨_,rfl,.opened ha.2⟩
  | close fd => exact ⟨_,rfl,.closed fd⟩

/-- A call that returns has done what it is to do. -/
theorem Performed.of_ok (h : Sound l) (ha : Allowed l op) (hx : perform op l=.ok () t) :
    Performed l op t := by
  obtain ⟨u,hu,hp⟩ := perform_cases h ha
  obtain ⟨-,rfl⟩ := EStateM.Result.ok.inj (hu.symm.trans hx)
  exact hp

/-- An allowed call keeps the table sound. -/
theorem Performed.sound (h : Sound l) (ha : Allowed l op) (hp : Performed l op t) : Sound t := by
  cases hp with
  | created hlt hctl => exact created_sound h ha.1 hlt ha.2 (ctl_held h hctl)
  | refused errno _ => exact ⟨h.below,h.top,h.held⟩
  | deleted hr hctl => exact deleted_sound h hr (ctl_held h hctl)
  | ignored errno hr _ => exact deleted_sound h hr h.held
  | absent _ => exact h
  | resized hr _ hmax hepoll =>
    refine ⟨fun fd hfd => ?_,?_,?_⟩
    · rw [hmax]
      exact h.below fd ((hr fd).mp hfd)
    · rw [hmax]
      exact h.top.imp_right (hr _).mpr
    · rw [hepoll]
      exact h.held
  | opened hnew =>
    exact ⟨h.below,h.top,fun fd hfd => Finset.mem_insert_of_mem (h.held fd hfd)⟩
  | closed fd =>
    refine ⟨h.below,h.top,fun other ho => ?_⟩
    by_cases he : other=fd
    · subst he
      exact absurd (Function.update_self _ _ _) ho
    · have hsame := Function.update_of_ne he none l.epoll.interest
      exact Finset.mem_erase.mpr ⟨he,h.held other fun hnone => ho (hsame.trans hnone)⟩

/-- A slot of the table and its entry in the interest list change together. -/
theorem mirrors_update {x : Option EventMask} (h : Mirrors l)
    (hinterest : t.epoll.interest=Function.update l.epoll.interest fd x)
    (hother : ∀ other,other≠fd → asked t other=asked l other) (hfd : asked t fd=x) :
    Mirrors t := by
  intro other
  rw [hinterest]
  by_cases he : other=fd
  · rw [he,Function.update_self,hfd]
  · rw [Function.update_of_ne he,hother other he,h other]

/-- Where the kernel watches what the table asks for, it accepts every removal. -/
theorem Mirrors.removal (hs : Sound l) (h : Mirrors l) (hr : Registered l fd)
    (mask : EventMask) :
    l.epoll.ctl (delOp l fd mask) fd ((l.events fd).mask &&& ~~~mask) none=.ok {l.epoll with
      interest := Function.update l.epoll.interest fd
        (if delOp l fd mask=.del then none else some ((l.events fd).mask &&& ~~~mask))} := by
  have hin := (h fd).trans (asked_of_registered hr)
  refine ctl_listed (hs.held fd (by rw [hin]; nofun)) hin ?_
  unfold delOp
  split <;> nofun

/-- A registration that the kernel accepts is in both lists. -/
theorem Mirrors.created (h : Mirrors l) (hfd : 0≤fd) (hm : mask≠aeNone) (hlt : fd<l.setsize)
    (hctl : l.epoll.ctl (addOp l fd) fd (mask ||| (l.events fd).mask) denied=.ok k) :
    Mirrors (created l fd mask link k) := by
  obtain ⟨-,rfl,-⟩ := ctl_ok hctl
  have hop : addOp l fd≠.del := by
    unfold addOp
    split <;> nofun
  refine mirrors_update h rfl (fun other ho => asked_congr rfl ?_) ?_
  · exact congrArg AeFileEvent.mask (Function.update_of_ne ho _ _)
  · rw [if_neg hop,asked_of_registered ((registered_created hfd hlt hm).mpr (.inl rfl)),
      created_events_self,BitVec.or_comm]

/-- So is what a removal leaves. -/
theorem Mirrors.deleted (h : Mirrors l) (hr : Registered l fd)
    (hctl : l.epoll.ctl (delOp l fd mask) fd ((l.events fd).mask &&& ~~~mask) none=.ok k) :
    Mirrors (deleted l fd mask k errno) := by
  obtain ⟨-,rfl,-⟩ := ctl_ok hctl
  refine mirrors_update h rfl (fun other ho => asked_congr rfl ?_) ?_
  · exact congrArg AeFileEvent.mask (Function.update_of_ne ho _ _)
  · unfold delOp
    by_cases hrest : (l.events fd).mask &&& ~~~mask=aeNone
    · rw [if_neg (not_not.mpr hrest),if_pos rfl,asked_eq_none,registered_deleted hr]
      exact fun hleft => hleft.2 rfl hrest
    · rw [if_pos hrest,if_neg nofun,
        asked_of_registered ((registered_deleted hr).mpr ⟨hr,fun _ => hrest⟩)]
      rw [deleted_events_self]

/-- The kernel goes on watching what the table asks for exactly if no registered descriptor is
closed. -/
theorem Performed.mirrors (hs : Sound l) (h : Mirrors l) (ha : Allowed l op)
    (hp : Performed l op t) : Mirrors t ↔ Careful l op := by
  cases hp with
  | created hlt hctl => exact iff_of_true (h.created ha.1 ha.2 hlt hctl) trivial
  | refused errno _ => exact iff_of_true h trivial
  | deleted hr hctl => exact iff_of_true (h.deleted hr hctl) trivial
  | @ignored fd mask errno hr hctl => exact nomatch (h.removal hs hr mask).symm.trans hctl
  | absent _ => exact iff_of_true h trivial
  | resized hr hslot _ hepoll =>
    refine iff_of_true (fun fd => ?_) trivial
    rw [hepoll,h fd]
    by_cases hfd : Registered l fd
    · rw [asked_of_registered hfd,asked_of_registered ((hr fd).mpr hfd),hslot fd hfd]
    · rw [asked_of_not hfd,asked_of_not fun ht => hfd ((hr fd).mp ht)]
  | opened _ => exact iff_of_true h trivial
  | closed fd =>
    constructor
    · intro ht
      exact asked_eq_none.mp ((ht fd).symm.trans (Function.update_self _ _ _))
    · exact fun hfd => mirrors_update h rfl (fun _ _ => rfl) (asked_of_not hfd)

end Steps

section Runs

variable {l t : AeEventLoop} {fd : Fd} {mask : EventMask} {op : LoopOp} {ops : List LoopOp}
variable {setsize : ℕ} {memory : Fd → AeFileEvent} {openFds : Finset Fd}

/-- A new event loop has nothing registered. -/
theorem not_registered_fresh : ¬ Registered (aeCreateEventLoop setsize memory openFds) fd :=
  fun h => (registered_iff.mp h).2.2 rfl

/-- Its table is sound. -/
theorem sound_fresh (setsize : ℕ) (memory : Fd → AeFileEvent) (openFds : Finset Fd) :
    Sound (aeCreateEventLoop setsize memory openFds) :=
  ⟨fun _ h => absurd h not_registered_fresh,.inl rfl,fun _ h => absurd rfl h⟩

/-- The list of the kernel is empty too. -/
theorem mirrors_fresh (setsize : ℕ) (memory : Fd → AeFileEvent) (openFds : Finset Fd) :
    Mirrors (aeCreateEventLoop setsize memory openFds) :=
  fun _ => (asked_of_not not_registered_fresh).symm

/-- By induction on the calls, the table stays sound. -/
theorem sound_of_run (h : Sound l) (hrun : Run perform Allowed l ops t) : Sound t :=
  hrun.invariant (fun _ _ _ hs ha hx => (Performed.of_ok hs ha hx).sound hs ha) h

/-- Behind any calls on a new event loop, `maxfd` is the highest registered descriptor, and
resizing the table succeeds exactly if it keeps a slot for each registered descriptor; it loses
no registration in any case. -/
theorem table_exact (hrun : Run perform Allowed (aeCreateEventLoop setsize memory openFds) ops t)
    (size : ℕ) (memory' : Fd → AeFileEvent) :
    (∀ fd,Registered t fd → fd≤t.maxfd) ∧ (t.maxfd=-1 ∨ Registered t t.maxfd) ∧
      ∃ ok u,aeResizeSetSize size memory' t=.ok ok u ∧
        (ok=true ↔ ∀ fd,Registered t fd → fd<size) ∧
        ∀ fd,0≤fd → aeGetFileEvents u fd=aeGetFileEvents t fd ∧
          (Registered t fd → u.events fd=t.events fd) := by
  have hs := sound_of_run (sound_fresh setsize memory openFds) hrun
  obtain ⟨ok,u,hresize,hok,-,hr,hslot,-,-⟩ := aeResizeSetSize_spec hs size memory'
  refine ⟨hs.below,hs.top,ok,u,hresize,hok,fun fd hfd => ⟨?_,hslot fd⟩⟩
  by_cases h : Registered t fd
  · have hu := (hr fd).mpr h
    rw [aeGetFileEvents,aeGetFileEvents,if_neg (not_le.mpr (registered_iff.mp h).2.1),
      if_neg (not_le.mpr (registered_iff.mp hu).2.1),hslot fd h]
  · have hu := fun hu => h ((hr fd).mp hu)
    have hnone : aeGetFileEvents t fd=aeNone := not_not.mp fun hne => h ⟨hfd,hne⟩
    have hnone' : aeGetFileEvents u fd=aeNone := not_not.mp fun hne => hu ⟨hfd,hne⟩
    rw [hnone,hnone']

/-- All along a run the kernel watches exactly what the table asks for, if and only if no
descriptor is closed while it is registered. -/
theorem mirrors_iff (hrun : Run perform Allowed (aeCreateEventLoop setsize memory openFds) ops t) :
    (∀ done todo u,ops=done++todo →
        Run perform Allowed (aeCreateEventLoop setsize memory openFds) done u → Mirrors u) ↔
      Run perform (fun l op => Allowed l op ∧ Careful l op)
        (aeCreateEventLoop setsize memory openFds) ops t := by
  refine hrun.kept_iff (I:=Mirrors) (J:=Sound) ?_ (mirrors_fresh _ _ _) (sound_fresh _ _ _)
  intro l op u hm hs ha hx
  have hp := Performed.of_ok hs ha hx
  exact ⟨hp.sound hs ha,hp.mirrors hs hm ha⟩

/-- A slot whose descriptor the kernel no longer watches. -/
structure Stale (l : AeEventLoop) (fd : Fd) : Prop where
  /-- The slot is in use. -/
  registered : Registered l fd
  /-- The descriptor is not in the list. -/
  unwatched : l.epoll.interest fd=none

/-- The call removes all that is left in the slot. -/
def Clears (l : AeEventLoop) (fd : Fd) (op : LoopOp) : Prop :=
  ∃ mask,op=.delete fd mask ∧ (l.events fd).mask &&& ~~~mask=aeNone

/-- Only `aeDeleteFileEvent` makes such a slot usable again. -/
theorem Stale.step (hs : Sound l) (h : Stale l fd) (ha : Allowed l op)
    (hx : perform op l=.ok () t) (hop : ¬ Clears l fd op) : Stale t fd := by
  have hbusy : (l.events fd).mask≠aeNone := (registered_iff.mp h.registered).2.2
  have hp := Performed.of_ok hs ha hx
  cases hp with
  | @created other mask link denied k hlt hctl =>
    have hother : fd≠other := by
      rintro rfl
      have hin := (ctl_ok hctl).2.2.mpr h.unwatched
      rw [addOp,if_neg hbusy] at hin
      exact nomatch hin
    obtain ⟨-,rfl,-⟩ := ctl_ok hctl
    refine ⟨(registered_created ha.1 hlt ha.2).mpr (.inr h.registered),?_⟩
    exact (Function.update_of_ne hother _ _).trans h.unwatched
  | refused errno _ => exact ⟨h.registered,h.unwatched⟩
  | @deleted other mask k hr hctl =>
    have hother : fd≠other := by
      rintro rfl
      have hop : delOp l fd mask≠.add := by unfold delOp; split <;> nofun
      obtain ⟨errno,herr,-⟩ := ctl_missing ((l.events fd).mask &&& ~~~mask) none h.unwatched hop
      exact nomatch hctl.symm.trans herr
    obtain ⟨-,rfl,-⟩ := ctl_ok hctl
    refine ⟨(registered_deleted hr).mpr ⟨h.registered,fun he => absurd he hother⟩,?_⟩
    exact (Function.update_of_ne hother _ _).trans h.unwatched
  | @ignored other mask errno hr hctl =>
    refine ⟨(registered_deleted hr).mpr ⟨h.registered,fun he hrest => hop ⟨mask,?_,?_⟩⟩,
      h.unwatched⟩
    · rw [he]
    · rw [he]
      exact hrest
  | absent _ => exact h
  | resized hr _ _ hepoll =>
    refine ⟨(hr fd).mpr h.registered,?_⟩
    rw [hepoll]
    exact h.unwatched
  | opened _ => exact ⟨h.registered,h.unwatched⟩
  | closed other =>
    refine ⟨h.registered,?_⟩
    by_cases he : fd=other
    · exact he ▸ Function.update_self _ _ _
    · exact (Function.update_of_ne he _ _).trans h.unwatched

end Runs

section Sample

/-- An event loop of the size the program uses. -/
def emptyLoop : AeEventLoop :=
  aeCreateEventLoop configDefaultMaxClients (fun _ => ⟨aeNone,none⟩) {0,1,2,3}

/-- The loop behind these calls. -/
def loopAfter (ops : List LoopOp) : AeEventLoop :=
  ops.foldl (fun l op => finalState (perform op l)) emptyLoop

/-- A run of the sample goes on with one more call. -/
theorem run_snoc {ops : List LoopOp} (op : LoopOp) {admits : AeEventLoop → LoopOp → Prop}
    {l : AeEventLoop} (h : Run perform admits l ops (loopAfter ops))
    (ha : admits (loopAfter ops) op) (hreturns : returns (perform op (loopAfter ops))=true) :
    Run perform admits l (ops++[op]) (loopAfter (ops++[op])) := by
  have hlast : loopAfter (ops++[op])=finalState (perform op (loopAfter ops)) :=
    List.foldl_concat ..
  rw [hlast]
  exact h.snoc ha (eq_ok_of_returns hreturns)

/-- Descriptor 4 is opened and registered. -/
def registering : List LoopOp := [.opened 4,.create 4 aeReadable 0 none]

/-- The calls of the sample are allowed and careful. -/
theorem registering_run : Run perform (fun l op => Allowed l op ∧ Careful l op) emptyLoop
    registering (loopAfter registering) := by
  have hnone : Run perform (fun l op => Allowed l op ∧ Careful l op) emptyLoop [] (loopAfter []) :=
    .nil emptyLoop
  have hopen := run_snoc (.opened 4) hnone ⟨⟨by decide,by decide⟩,trivial⟩ (by decide)
  exact run_snoc (.create 4 aeReadable 0 none) hopen ⟨⟨by decide,by decide⟩,trivial⟩ (by decide)

/-- They are allowed. -/
theorem registering_allowed : Run perform Allowed emptyLoop registering (loopAfter registering) :=
  registering_run.mono fun _ _ h => h.1

/-- With descriptor 4 registered, five slots are enough. -/
theorem table_exact_registering : ∃ u,
    aeResizeSetSize 5 (fun _ => ⟨aeNone,none⟩) (loopAfter registering)=.ok true u ∧
      aeGetFileEvents u 4=aeReadable := by
  obtain ⟨hmax,-,ok,u,hresize,hok,hkept⟩ :=
    table_exact registering_allowed 5 fun _ => ⟨aeNone,none⟩
  have hlast : (loopAfter registering).maxfd=4 := by decide
  have htrue : ok=true := hok.mpr fun fd hr => by
    have hle := hmax fd hr
    rw [hlast] at hle
    lia
  subst htrue
  exact ⟨u,hresize,(hkept 4 (by decide)).1⟩

/-- The sample keeps both lists the same. -/
theorem mirrors_iff_registering : Mirrors (loopAfter registering) :=
  (mirrors_iff registering_allowed).mpr registering_run registering [] _
    (List.append_nil _).symm registering_allowed

end Sample

end SerialProxy.FileEvents
