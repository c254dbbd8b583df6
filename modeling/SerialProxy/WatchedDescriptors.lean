import SerialProxy.FileEvents
import SerialProxy.PrimitiveChanges

/-!
# What the kernel watches for the daemon

The daemon keeps its event table by the result of each `epoll_ctl`, while the event loop of ae.c
stands in front of the kernel and its interest list. Call by call the two return the same and
leave the same table. So the calls that a running daemon has made, replayed on the event loop,
lead to its table; they close no registered descriptor, and the kernel refuses nothing but a new
registration for which it has no room. The interest list is then the table, and `epoll_wait`
reports what the runs of the daemon take for granted.
-/

namespace SerialProxy.WatchedDescriptors

open FaultPrograms LinkedCells CText SerialState EventTable SerialNodes SerialLinks SerialConfig
open EventLoop NodeTopology LinkEffects LinkCoherence HandlerEffects ConnectEffects
open ConnectOutcomes Reconnection ConfigLoading Iterations PrimitiveChanges
open FileEvents hiding Registered aeCreateFileEvent aeDeleteFileEvent

/-- What `epoll_wait` may return for this interest list. -/
structure Reported (k : Epoll) (entries : List PollEntry) : Prop where
  /-- Only descriptors in the list. -/
  listed : ∀ e∈entries,k.interest e.fd≠none
  /-- Each of them at most once. -/
  once : (entries.map PollEntry.fd).Nodup
  /-- `EPOLLIN` only where it is asked for. -/
  readable : ∀ e∈entries,e.epollin=true →
    ∃ mask,k.interest e.fd=some mask ∧ mask &&& aeReadable≠0
  /-- `EPOLLOUT` only where it is asked for. -/
  writable : ∀ e∈entries,e.epollout=true →
    ∃ mask,k.interest e.fd=some mask ∧ mask &&& aeWritable≠0

/-- The kernel has no reason but a lack of room to refuse this call. -/
def Accepted (l : AeEventLoop) : LoopOp → Prop
  | .create fd mask _ denied => fd<l.setsize → denied=none →
    ∃ k,l.epoll.ctl (addOp l fd) fd (mask ||| (l.events fd).mask) denied=.ok k
  | .delete fd mask => FileEvents.Registered l fd →
    ∃ k,l.epoll.ctl (delOp l fd mask) fd ((l.events fd).mask &&& ~~~mask) none=.ok k
  | _ => True

/-- A call that closes no registered descriptor and that the kernel accepts. -/
def Smooth (l : AeEventLoop) (op : LoopOp) : Prop := Allowed l op ∧ Careful l op ∧ Accepted l op

/-- The event loop has the table and the descriptors of the daemon. -/
structure Shows (w : World) (l : AeEventLoop) : Prop where
  /-- The table. -/
  events : l.events=w.events
  /-- Its highest registered descriptor. -/
  maxfd : l.maxfd=w.maxfd
  /-- Its size. -/
  setsize : l.setsize=w.setsize
  /-- The open descriptors. -/
  openFds : l.epoll.openFds=w.openFds

/-- A call of the daemon on a descriptor, as one on the event loop and the kernel. -/
def loopOp : FdCall → LoopOp
  | .opened fd => .opened fd
  | .close fd => .close fd
  | .create fd mask clientData epollCtl => .create fd mask clientData epollCtl
  | .delete fd mask => .delete fd mask

/-- The descriptors of links are no errors. -/
def Numbered (w : World) : Prop := ∀ link l fd,w.links link=some l → Owns l fd → 0≤fd

section Alike

variable {l : AeEventLoop} {w u : World} {fd : Fd} {mask : EventMask} {denied : Option Errno}

/-- Only the table and the descriptors matter. -/
theorem Shows.congr (h : Shows w l) (hevents : u.events=w.events) (hmaxfd : u.maxfd=w.maxfd)
    (hsetsize : u.setsize=w.setsize) (hfds : u.openFds=w.openFds) : Shows u l :=
  ⟨h.events.trans hevents.symm,h.maxfd.trans hmaxfd.symm,h.setsize.trans hsetsize.symm,
    h.openFds.trans hfds.symm⟩

/-- A registration that the kernel accepts, of the daemon and of the event loop. -/
theorem accepted_alike (h : Shows w l) (hlt : fd<w.setsize) {k : Epoll}
    (hctl : l.epoll.ctl (addOp l fd) fd (mask ||| (l.events fd).mask) none=.ok k)
    (hfds : k.openFds=l.epoll.openFds) (link : LinkPtr) : ∃ u t,
      EventTable.aeCreateFileEvent fd mask link none w=.ok true u ∧
      FileEvents.aeCreateFileEvent fd mask link none l=.ok true t ∧ Shows u t ∧
      (w.errno=l.errno → u.errno=t.errno) := by
  have hlt' : fd<l.setsize := h.setsize ▸ hlt
  have hloop := aeCreateFileEvent_apply mask link none hlt'
  rw [hctl] at hloop
  refine ⟨_,_,EventTable.aeCreateFileEvent_accepted mask link hlt,hloop,
    ⟨?_,?_,h.setsize,hfds.trans h.openFds⟩,id⟩
  · change Function.update l.events fd _=_
    rw [h.events]
  · change max l.maxfd fd=_
    rw [h.maxfd]

/-- A registration of an open descriptor, of the daemon and of the event loop: both return the
same, leave the same table and the same `errno`. The kernel may deny a new registration only. -/
theorem create_alike (hm : Mirrors l) (h : Shows w l) (hfd : 0≤fd)
    (hopen : fd∈w.openFds) (hdenied : denied=none ∨ (w.events fd).mask=aeNone)
    (mask : EventMask) (link : LinkPtr) : ∃ ok u t,
    EventTable.aeCreateFileEvent fd mask link denied w=.ok ok u ∧
      FileEvents.aeCreateFileEvent fd mask link denied l=.ok ok t ∧ Shows u t ∧
      (w.errno=l.errno → u.errno=t.errno) := by
  have hslot : (l.events fd).mask=(w.events fd).mask := by rw [h.events]
  by_cases hlt : fd<w.setsize
  · have hlt' : fd<l.setsize := h.setsize ▸ hlt
    have hopen' : fd∈l.epoll.openFds := h.openFds ▸ hopen
    by_cases hfree : (w.events fd).mask=aeNone
    · have hin : l.epoll.interest fd=none :=
        (hm fd).trans (asked_of_not fun hr => (registered_iff.mp hr).2.2 (hslot.trans hfree))
      have hadd : addOp l fd=.add := if_pos (hslot.trans hfree)
      have hctl := ctl_unlisted (mask ||| (l.events fd).mask) denied hopen' hin
      rw [← hadd] at hctl
      cases denied with
      | some errno =>
        have hloop := aeCreateFileEvent_apply mask link (some errno) hlt'
        rw [hctl] at hloop
        exact ⟨false,_,_,EventTable.aeCreateFileEvent_refused mask link errno hlt,hloop,
          ⟨h.events,h.maxfd,h.setsize,h.openFds⟩,fun _ => rfl⟩
      | none => exact ⟨true,accepted_alike h hlt hctl rfl link⟩
    · obtain rfl : denied=none := hdenied.resolve_right hfree
      have hmask : (l.events fd).mask≠aeNone := fun hm => hfree (hslot.symm.trans hm)
      have hin := (hm fd).trans
        (asked_of_registered (registered_iff.mpr ⟨hfd,hlt',hmask⟩))
      have hmod : addOp l fd=.mod := if_neg hmask
      have hne : addOp l fd≠.add := fun hadd => nomatch hmod.symm.trans hadd
      exact ⟨true,accepted_alike h hlt (ctl_listed hopen' hin hne) rfl link⟩
  · exact ⟨false,_,_,EventTable.aeCreateFileEvent_outside mask link denied (not_lt.mp hlt),
      FileEvents.aeCreateFileEvent_outside mask link denied (h.setsize ▸ not_lt.mp hlt),
      ⟨h.events,h.maxfd,h.setsize,h.openFds⟩,fun _ => rfl⟩

/-- So does a removal. -/
theorem delete_alike (hs : Sound l) (hm : Mirrors l) (h : Shows w l) (hfd : 0≤fd)
    (mask : EventMask) : ∃ u t,EventTable.aeDeleteFileEvent fd mask w=.ok () u ∧
      FileEvents.aeDeleteFileEvent fd mask l=.ok () t ∧ Shows u t ∧
      (w.errno=l.errno → u.errno=t.errno) := by
  refine ⟨deleteFileEvent w fd mask,?_⟩
  by_cases hr : FileEvents.Registered l fd
  · obtain ⟨-,hlt,hmask⟩ := registered_iff.mp hr
    have hloop := aeDeleteFileEvent_apply mask hr
    rw [hm.removal hs hr mask] at hloop
    rw [h.setsize] at hlt
    rw [h.events] at hmask
    have hin : ¬ (fd≥w.setsize ∨ (w.events fd).mask=aeNone) :=
      not_or.mpr ⟨not_le.mpr hlt,hmask⟩
    refine ⟨_,rfl,hloop,⟨?_,?_,h.setsize,h.openFds⟩,id⟩
    · dsimp only [deleteFileEvent]
      rw [if_neg hin,← h.events]
      rfl
    · dsimp only [deleteFileEvent,deleted]
      rw [if_neg hin,if_neg hin,← h.events,← h.maxfd]
      split
      · rename_i hlast
        rw [hlast.1]
      · rfl
  · have hout : fd≥w.setsize ∨ (w.events fd).mask=aeNone := by
      by_contra hnot
      obtain ⟨hlt,hmask⟩ := not_or.mp hnot
      rw [← h.events] at hmask
      rw [← h.setsize] at hlt
      exact hr (registered_iff.mpr ⟨hfd,not_le.mp hlt,hmask⟩)
    refine ⟨l,rfl,aeDeleteFileEvent_of_not hfd hr,h.congr ?_ ?_ rfl rfl,id⟩
    · dsimp only [deleteFileEvent]
      rw [if_pos hout]
    · dsimp only [deleteFileEvent]
      rw [if_pos hout]

end Alike

section Loops

variable {l t : AeEventLoop} {ops : List LoopOp} {op : LoopOp} {fd : Fd} {mask : EventMask}
variable {link : LinkPtr} {denied : Option Errno} {w : World}

/-- An event loop that has come from an empty one in such a history. -/
def Reached (ops : List LoopOp) (l : AeEventLoop) : Prop := Run perform Smooth emptyLoop ops l

theorem Reached.allowed (h : Reached ops l) : Run perform Allowed emptyLoop ops l :=
  h.mono fun _ _ hs => hs.1

theorem Reached.sound (h : Reached ops l) : Sound l :=
  sound_of_run (sound_fresh _ _ _) h.allowed

/-- The interest list mirrors the table, as no registered descriptor is closed. -/
theorem Reached.mirrors (h : Reached ops l) : Mirrors l :=
  (mirrors_iff h.allowed).mpr (h.mono fun _ _ hs => ⟨hs.1,hs.2.1⟩) ops [] l
    (List.append_nil ops).symm h.allowed

/-- The kernel hands out a descriptor. -/
theorem Reached.open (h : Reached ops l) (hw : Shows w l) (hfd : 0≤fd) (hnew : fd∉w.openFds) :
    ∃ t,Reached (ops++[.opened fd]) t ∧ Shows {w with openFds := insert fd w.openFds} t := by
  refine ⟨_,Run.snoc h ⟨⟨hfd,hw.openFds ▸ hnew⟩,trivial,trivial⟩ rfl,?_⟩
  exact ⟨hw.events,hw.maxfd,hw.setsize,congrArg (insert fd) hw.openFds⟩

/-- A descriptor that is not registered is closed. -/
theorem Reached.close (h : Reached ops l) (hw : Shows w l) (hfree : (w.events fd).mask=aeNone) :
    ∃ t,Reached (ops++[.close fd]) t ∧ Shows {w with openFds := w.openFds.erase fd} t := by
  have hnot : ¬ FileEvents.Registered l fd := fun hr =>
    (registered_iff.mp hr).2.2 (hw.events ▸ hfree)
  refine ⟨_,Run.snoc h ⟨trivial,hnot,trivial⟩ rfl,?_⟩
  exact ⟨hw.events,hw.maxfd,hw.setsize,congrArg (Finset.erase · fd) hw.openFds⟩

/-- A removal, which the kernel accepts. -/
theorem Reached.delete (h : Reached ops l) (hw : Shows w l) (hfd : 0≤fd) (mask : EventMask) :
    ∃ t,Reached (ops++[.delete fd mask]) t ∧ Shows (deleteFileEvent w fd mask) t := by
  have haccept : Accepted l (.delete fd mask) := fun hr => ⟨_,h.mirrors.removal h.sound hr mask⟩
  obtain ⟨u,t,hu,ht,hshow,-⟩ := delete_alike h.sound h.mirrors hw hfd mask
  cases hu
  exact ⟨t,Run.snoc h ⟨hfd,trivial,haccept⟩ ht,hshow⟩

/-- A new registration: the descriptor is not in the list, so the kernel adds it, unless there is
no room for it. -/
theorem Reached.create (h : Reached ops l) (hw : Shows w l) (denied : Option Errno) (hfd : 0≤fd)
    (hopen : fd∈w.openFds) (hfree : (w.events fd).mask=aeNone) (hmask : mask≠aeNone)
    (link : LinkPtr) : ∃ ok u t,EventTable.aeCreateFileEvent fd mask link denied w=.ok ok u ∧
      Reached (ops++[.create fd mask link denied]) t ∧ Shows u t := by
  have hin : l.epoll.interest fd=none := (h.mirrors fd).trans
    (asked_of_not fun hr => (registered_iff.mp hr).2.2 (hw.events ▸ hfree))
  have hadd : addOp l fd=.add := if_pos (hw.events ▸ hfree)
  have haccept : Accepted l (.create fd mask link denied) := by
    rintro - rfl
    rw [hadd]
    exact ⟨_,ctl_unlisted _ none (hw.openFds ▸ hopen) hin⟩
  obtain ⟨ok,u,t,hu,ht,hshow,-⟩ :=
    create_alike h.mirrors hw hfd hopen (Or.inr (a:=denied=none) hfree) mask link
  refine ⟨ok,u,t,hu,Run.snoc h ⟨⟨hfd,hmask⟩,trivial,haccept⟩ ?_,hshow⟩
  exact bind_of_ok ht _

/-- One descriptor of a link is opened, if the link has it. -/
theorem Reached.openOne (h : Reached ops l) (hw : Shows w l)
    (hnew : fd≠-1 → 0≤fd ∧ fd∉w.openFds) : ∃ t fds,
      Reached (ops++(if fd≠-1 then [FdCall.opened fd] else []).map loopOp) t ∧
      Shows {w with openFds := fds} t ∧
      ∀ other,other∈fds ↔ other∈w.openFds ∨ other≠-1 ∧ other=fd := by
  by_cases hfd : fd=-1
  · rw [if_neg (not_not.mpr hfd),List.map_nil,List.append_nil]
    refine ⟨l,w.openFds,h,hw,fun other => (or_iff_left ?_).symm⟩
    rintro ⟨hne,rfl⟩
    exact hne hfd
  · rw [if_pos hfd]
    obtain ⟨hpos,hfresh⟩ := hnew hfd
    obtain ⟨t,ht,hshow⟩ := h.open hw hpos hfresh
    refine ⟨t,_,ht,hshow,fun other => ?_⟩
    rw [Finset.mem_insert,or_comm]
    exact or_congr_right ⟨fun he => ⟨he ▸ hfd,he⟩,And.right⟩

/-- The descriptors of a link are opened. -/
theorem Reached.openAll (h : Reached ops l) (hw : Shows w l) {k : SerialLink}
    (hnew : ∀ fd,Owns k fd → 0≤fd ∧ fd∉w.openFds) (hsides : k.fd≠-1 → k.sfd≠k.fd) : ∃ t fds,
      Reached (ops++(eachFd .opened k).map loopOp) t ∧ Shows {w with openFds := fds} t ∧
      ∀ fd,fd∈fds ↔ fd∈w.openFds ∨ Owns k fd := by
  obtain ⟨t,fds,ht,hshow,hfds⟩ := h.openOne hw fun hne : k.fd≠-1 => hnew _ ⟨hne,.inl rfl⟩
  have hslave : k.sfd≠-1 → 0≤k.sfd ∧ k.sfd∉fds := by
    intro hne
    obtain ⟨hpos,hfresh⟩ := hnew k.sfd ⟨hne,.inr rfl⟩
    refine ⟨hpos,?_⟩
    rw [hfds]
    rintro (hold|⟨-,he⟩)
    · exact hfresh hold
    · exact hsides (he ▸ hne) he
  obtain ⟨t',fds',ht',hshow',hfds'⟩ := ht.openOne hshow hslave
  refine ⟨t',fds',?_,hshow',fun fd => ?_⟩
  · rw [eachFd,List.map_append,← List.append_assoc]
    exact ht'
  · rw [hfds']
    change fd∈fds ∨ _ ↔ _
    rw [hfds,or_assoc,← and_or_left]
    rfl

/-- One descriptor of a link is closed, if the link has it. -/
theorem Reached.closeOne (h : Reached ops l) (hw : Shows w l)
    (hfree : fd≠-1 → (w.events fd).mask=aeNone) : ∃ t fds,
      Reached (ops++(if fd≠-1 then [FdCall.close fd] else []).map loopOp) t ∧
      Shows {w with openFds := fds} t ∧
      ∀ other,other∈fds ↔ other∈w.openFds ∧ ¬ (other≠-1 ∧ other=fd) := by
  by_cases hfd : fd=-1
  · rw [if_neg (not_not.mpr hfd),List.map_nil,List.append_nil]
    refine ⟨l,w.openFds,h,hw,fun other => (and_iff_left ?_).symm⟩
    rintro ⟨hne,rfl⟩
    exact hne hfd
  · rw [if_pos hfd]
    obtain ⟨t,ht,hshow⟩ := h.close hw (hfree hfd)
    refine ⟨t,_,ht,hshow,fun other => ?_⟩
    rw [Finset.mem_erase,and_comm]
    exact and_congr_right fun _ => not_congr ⟨fun he => ⟨he ▸ hfd,he⟩,And.right⟩

/-- The descriptors of a link are closed, none of which is registered. -/
theorem Reached.closeAll (h : Reached ops l) (hw : Shows w l) {k : SerialLink}
    (hfree : ∀ fd,Owns k fd → (w.events fd).mask=aeNone) : ∃ t fds,
      Reached (ops++(eachFd .close k).map loopOp) t ∧ Shows {w with openFds := fds} t ∧
      ∀ fd,fd∈fds ↔ fd∈w.openFds ∧ ¬ Owns k fd := by
  obtain ⟨t,fds,ht,hshow,hfds⟩ := h.closeOne hw fun hne : k.fd≠-1 => hfree _ ⟨hne,.inl rfl⟩
  obtain ⟨t',fds',ht',hshow',hfds'⟩ := ht.closeOne hshow
    fun hne : k.sfd≠-1 => hfree _ ⟨hne,.inr rfl⟩
  refine ⟨t',fds',?_,hshow',fun fd => ?_⟩
  · rw [eachFd,List.map_append,← List.append_assoc]
    exact ht'
  · rw [hfds']
    change fd∈fds ∧ _ ↔ _
    rw [hfds,and_assoc,← not_or,← and_or_left]
    rfl

end Loops

section Changing

variable {w t : World} {shape : Shape} {link : LinkPtr} {l : SerialLink} {fd : Fd}
variable {loop : AeEventLoop} {ops : List LoopOp}

/-- The daemon and the event loop to which its own calls lead. -/
structure Watching (w : World) : Prop where
  /-- The loop. -/
  loop : ∃ loop,Reached (w.fdCalls.map loopOp) loop ∧ Shows w loop
  /-- Descriptors are no errors. -/
  numbered : Numbered w

/-- What is registered belongs to a link and is open. -/
theorem unregistered_of_closed (hc : Coherent shape w) (h : fd∉w.openFds) :
    (w.events fd).mask=aeNone := by
  by_contra hm
  obtain ⟨-,link,l,node,-,hl,hfd,-⟩ := hc.registered fd hm
  have hown : Owns l fd := ⟨hfd ▸ hc.connected link l hl,.inl hfd.symm⟩
  exact h (hc.opened link l fd hl hown)

/-- A slave descriptor is never registered. -/
theorem unregistered_sfd (hc : Coherent shape w) (hl : w.links link=some l) (hs : l.sfd≠-1) :
    (w.events l.sfd).mask=aeNone := by
  by_contra hm
  obtain ⟨link',l',node,-,hl',hfd,-⟩ := (hc.registered _ hm).client
  have hown : Owns l' l.sfd := ⟨hs,.inl hfd.symm⟩
  have hsame := hc.separate link' l' link l _ hl' hl hown ⟨hs,.inr rfl⟩
  subst hsame
  rw [hl,Option.some.injEq] at hl'
  subst hl'
  exact hc.sides _ _ hl hfd.symm

/-- The descriptors of a link are taken off the table before they are closed. -/
theorem Watching.closed (hc : Coherent shape w) (h : Watching w) (ha : Attached w link) :
    Watching (close w link) := by
  obtain ⟨loop,hreach,hshow⟩ := h.loop
  let la := linkAt w link
  let flags := eventFlags w (nodeOf w link)
  have hmine : Owns la la.fd := ⟨ha.fd,.inl rfl⟩
  obtain ⟨loop₁,hr₁,hshow₁⟩ := hreach.delete hshow (h.numbered link _ _ ha.live hmine) flags
  have hfree : ∀ fd,Owns la fd → ((deleteFileEvent w la.fd flags).events fd).mask=aeNone := by
    rintro fd ⟨hne,rfl|rfl⟩
    · exact hc.close_events_self ha
    · have hother := hc.sides _ _ ha.live
      rw [deleteFileEvent_events_of_ne flags hother]
      exact unregistered_sfd hc ha.live hne
  obtain ⟨loop₂,fds,hr₂,hshow₂,hfds⟩ := hr₁.closeAll hshow₁ hfree
  refine ⟨⟨loop₂,?_,hshow₂.congr rfl rfl rfl ?_⟩,?_⟩
  · have hmade : (close w link).fdCalls=w.fdCalls++[.delete la.fd flags]++eachFd .close la := by
      rw [List.append_assoc]
      rfl
    rw [hmade,List.map_append,List.map_append]
    exact hr₂
  · ext fd
    rw [hfds]
    exact mem_remainingFds_iff ha.fd
  · intro other l fd hl
    exact h.numbered other l fd (close_links_some hl).2

/-- The descriptors of a new link are opened, and the first of them is registered. -/
theorem Watching.connected {node : NodePtr} {env : ConnectResults} (hc : Coherent shape w)
    (h : Watching w) (hmem : shape.Mem node) (ho : Outcome w node (nodeAt w node) env t)
    (hworks : attemptWorks (nodeAt w node) env=true) (hcon : Connected w node env l t) :
    Watching t := by
  obtain ⟨loop,hreach,hshow⟩ := h.loop
  have hmine : Owns l l.fd := ⟨hcon.isOpen,.inl rfl⟩
  have hnumbered : Numbered t := by
    intro link l' fd hl hown
    rcases connected_links_some hcon hl with ⟨-,rfl⟩|⟨-,hold⟩
    · exact hcon.valid fd hown
    · exact h.numbered link l' fd hold hown
  obtain ⟨loop₁,fds,hr₁,hshow₁,hfds⟩ := hreach.openAll hshow
    (fun fd hown => ⟨hcon.valid fd hown,hcon.fresh fd hown⟩) fun _ => hcon.sides
  have hslot : (w.events l.fd).mask=aeNone := connected_unregistered hc hcon
  obtain ⟨ok,u,loop₂,hu,hr₂,hshow₂⟩ := hr₁.create hshow₁ env.epollCtl (hcon.valid l.fd hmine)
    ((hfds l.fd).mpr (.inr hmine)) hslot (eventFlags_ne_none hc.topology hmem) w.nextLink
  obtain ⟨ok',events,maxfd,errno,hu',-,hregistered,hfailed,hmax⟩ := aeCreateFileEvent_spec
    {w with openFds := fds} l.fd (eventFlags w node) w.nextLink env.epollCtl
  obtain ⟨-,rfl⟩ := EStateM.Result.ok.inj (hu'.symm.trans hu)
  refine ⟨⟨loop₂,?_,hshow₂.congr ?_ ?_ hcon.setsize ?_⟩,hnumbered⟩
  · rw [hcon.fdCalls,List.map_append,List.map_append]
    exact hr₂
  · change t.events=events
    by_cases hroom : l.fd<w.setsize ∧ env.epollCtl=none
    · rw [hcon.registered hroom.1 hroom.2]
      exact (hregistered hroom.1 hroom.2).symm
    · obtain ⟨l',hl',hfdeq,-⟩ := ho.link hworks
      rw [hcon.links,Function.update_self,Option.some.injEq] at hl'
      subst hl'
      rw [ho.unregistered (hfdeq ▸ hroom)]
      exact (hfailed hroom).symm
  · exact hcon.maxfd.trans hmax.symm
  · ext fd
    exact (hcon.openFds fd).trans (hfds fd).symm

/-- A failed attempt closes what it has opened, none of which was registered. -/
theorem Watching.abandoned (hc : Coherent shape w) (h : Watching w) (ha : Abandoned w t) :
    Watching t := by
  obtain ⟨loop,hreach,hshow⟩ := h.loop
  obtain ⟨l,hnew,hsides,hcalls⟩ := ha.fdCalls
  obtain ⟨loop₁,fds₁,hr₁,hshow₁,hfds₁⟩ := hreach.openAll hshow hnew hsides
  have hfree : ∀ fd,Owns l fd → (w.events fd).mask=aeNone := fun fd hown =>
    unregistered_of_closed hc (hnew fd hown).2
  obtain ⟨loop₂,fds₂,hr₂,hshow₂,hfds₂⟩ := hr₁.closeAll hshow₁ hfree
  refine ⟨⟨loop₂,?_,hshow₂.congr ha.events ha.maxfd ha.setsize ?_⟩,?_⟩
  · rw [hcalls,List.map_append,List.map_append]
    exact hr₂
  · rw [ha.openFds]
    ext fd
    rw [hfds₂]
    change fd∈w.openFds ↔ fd∈fds₁ ∧ ¬ Owns l fd
    rw [hfds₁]
    constructor
    · exact fun hold => ⟨.inl hold,fun hown => (hnew fd hown).2 hold⟩
    · rintro ⟨hold|hown,hnot⟩
      · exact hold
      · exact absurd hown hnot
  · intro link l fd hl
    exact h.numbered link l fd (ha.links ▸ hl)

/-- Every primitive change keeps the daemon and its event loop together. -/
theorem Change.watching (hc : Coherent shape w) (h : Watching w) (hch : Change shape w t) :
    Watching t := by
  cases hch with
  | inside hs _ =>
    obtain ⟨loop,hreach,hshow⟩ := h.loop
    refine ⟨⟨loop,hs.fdCalls ▸ hreach,hshow.congr hs.events hs.maxfd hs.setsize hs.openFds⟩,?_⟩
    intro link l fd hl hown
    obtain ⟨l',hl',hfd,hsfd,-⟩ := hs.symm.live_link hl
    exact h.numbered link l' fd hl' ((owns_congr hfd hsfd).mpr hown)
  | close ha => exact h.closed hc ha
  | @attempt env node _ hmem hs =>
    have hresult := hs.result
    split at hresult
    · rename_i hworks
      obtain ⟨l,hcon⟩ := hresult
      exact h.connected hc hmem hs.outcome hworks hcon
    · exact h.abandoned hc hresult

end Changing

section Running

variable {w s : World} {shape : Shape} {entries : List PollEntry}

/-- Loading a configuration makes no call on a descriptor. -/
theorem loaded_watching (h : Loaded shape s) : Watching s where
  loop := ⟨emptyLoop,h.fdCalls ▸ .nil _,h.events.symm,h.maxfd.symm,h.setsize.symm,h.openFds.symm⟩
  numbered := fun link l fd hl => by simp [h.links] at hl

/-- So in every state the loop reaches, the calls made until then are those of such a run. -/
theorem running_watching (h : Running w) : ∃ shape,Coherent shape w ∧ Watching w := by
  obtain ⟨shape,s,hs,hch⟩ := running_changes h
  exact ⟨shape,hch.invariant hs.coherent (loaded_watching hs) fun _ _ hc hi =>
    Change.watching hc hi⟩

/-- What `epoll_wait` may report is what is assumed of it in the runs of the daemon. -/
theorem reported_iff {loop : AeEventLoop} (hinterest : ∀ fd,loop.epoll.interest fd=
    if (w.events fd).mask=aeNone then none else some (w.events fd).mask) :
    Pollable w entries ↔ Reported loop.epoll entries := by
  have hmask : ∀ fd mask,loop.epoll.interest fd=some mask → (w.events fd).mask=mask := by
    intro fd mask hfd
    rw [hinterest] at hfd
    split at hfd
    · exact nomatch hfd
    · exact Option.some.inj hfd
  have hsome : ∀ fd,(w.events fd).mask≠aeNone →
      loop.epoll.interest fd=some (w.events fd).mask := fun fd hm => by
    rw [hinterest,if_neg hm]
  constructor
  · intro h
    refine ⟨fun e he => ?_,h.once,fun e he hin => ?_,fun e he hout => ?_⟩
    · rw [hsome _ (h.registered e he)]
      nofun
    · exact ⟨_,hsome _ (h.registered e he),h.readable e he hin⟩
    · exact ⟨_,hsome _ (h.registered e he),h.writable e he hout⟩
  · intro h
    refine ⟨fun e he hm => ?_,h.once,fun e he hin => ?_,fun e he hout => ?_⟩
    · have hlisted := h.listed e he
      rw [hinterest,if_pos hm] at hlisted
      exact hlisted rfl
    · obtain ⟨mask,hfd,hm⟩ := h.readable e he hin
      rw [hmask _ _ hfd]
      exact hm
    · obtain ⟨mask,hfd,hm⟩ := h.writable e he hout
      rw [hmask _ _ hfd]
      exact hm

/-- In every state that the loop of the daemon reaches, the calls that it has made until then,
replayed on the event loop of ae.c in front of the kernel, lead to its event table and its open
descriptors. No call has closed a registered descriptor, and the kernel has refused nothing but
registrations without room. So the kernel watches exactly what is in the table, and the polls
assumed in the runs are those it can answer. -/
theorem running_watched (h : Running w) : ∃ loop,
    Run perform Smooth emptyLoop (w.fdCalls.map loopOp) loop ∧ loop.events=w.events ∧
    loop.maxfd=w.maxfd ∧ loop.setsize=w.setsize ∧ loop.epoll.openFds=w.openFds ∧
    (∀ fd,loop.epoll.interest fd=
      if (w.events fd).mask=aeNone then none else some (w.events fd).mask) ∧
    ∀ entries,Pollable w entries ↔ Reported loop.epoll entries := by
  obtain ⟨shape,hc,⟨loop,hreach,hshow⟩,hnumbered⟩ := running_watching h
  have hinterest : ∀ fd,loop.epoll.interest fd=
      if (w.events fd).mask=aeNone then none else some (w.events fd).mask := by
    intro fd
    rw [hreach.mirrors fd]
    split
    · rename_i hm
      rw [← hshow.events] at hm
      exact asked_of_not fun hr => (registered_iff.mp hr).2.2 hm
    · rename_i hm
      obtain ⟨hlt,link,l,node,-,hl,hfd,-⟩ := hc.registered fd hm
      have hown : Owns l fd := ⟨hfd ▸ hc.connected link l hl,.inl hfd.symm⟩
      have hpos : 0≤fd := hnumbered link l fd hl hown
      rw [← hshow.events] at hm ⊢
      rw [← hshow.setsize] at hlt
      exact asked_of_registered (registered_iff.mpr ⟨hpos,hlt,hm⟩)
  exact ⟨loop,hreach,hshow.events,hshow.maxfd,hshow.setsize,hshow.openFds,hinterest,
    fun _ => reported_iff hinterest⟩

/-- Behind the start of the sample, descriptor 4 is that of the master, which has a writer. -/
theorem running_watched_boot : ∃ loop,
    Run perform Smooth emptyLoop (sampleBoot.fdCalls.map loopOp) loop ∧
    loop.epoll.openFds=sampleBoot.openFds ∧
    loop.epoll.interest 4=some (aeReadable ||| aeWritable) := by
  obtain ⟨loop,hrun,-,-,-,hfds,hinterest,-⟩ := running_watched sampleBoot_running
  have hmask : (sampleBoot.events 4).mask=aeReadable ||| aeWritable := by decide +kernel
  refine ⟨loop,hrun,hfds,?_⟩
  rw [hinterest,hmask]
  decide

end Running

end SerialProxy.WatchedDescriptors
