import SerialProxy.HeldSymlinks
import Mathlib.Algebra.Order.BigOperators.Group.Finset
import Mathlib.Logic.Relation

/-!
# Primitive changes

Everything the daemon does between the start of its loop and the shutdown is a sequence of
three primitive changes: what happens inside open links, the closing of a link, and a connect
attempt. What each of them keeps holds in every state of a run. The first use is that the open
descriptors of the process are exactly those of its open links.
-/

namespace SerialProxy.PrimitiveChanges

open FaultPrograms LinkedCells CText SerialState EventTable SerialNodes SerialLinks SerialConfig
open EventLoop NodeTopology LinkEffects LinkCoherence HandlerEffects DispatchPasses ConnectEffects
open ConnectOutcomes Reconnection ConfigLoading Iterations StateFrames HeldSymlinks

/-- A primitive change. -/
inductive Change (shape : Shape) (w : World) : World → Prop
  /-- Buffers, `errno` and the calls recorded. -/
  | inside {t : World} : SameExceptBuffers w t → files t=files w → Change shape w t
  /-- A link is closed. -/
  | close {link : LinkPtr} : Attached w link → Change shape w (close w link)
  /-- A connect attempt. -/
  | attempt {env : NodePtr → ConnectResults} {node : NodePtr} {t : World} : shape.Mem node →
      AttemptStep env w node t → Change shape w t

/-- Any number of them. -/
abbrev Changes (shape : Shape) : World → World → Prop := Relation.ReflTransGen (Change shape)

section Changing

variable {w s t u : World} {shape : Shape} {link : LinkPtr} {mask : EventMask}
variable {env : CallResults} {it : Iteration}

/-- A change keeps the state coherent. -/
theorem Change.coherent (hc : Coherent shape w) (h : Change shape w t) : Coherent shape t := by
  cases h with
  | inside h _ => exact h.coherent hc
  | close ha => exact hc.close ha
  | @attempt env _ _ _ h =>
    have hrefl : Growing shape env w w := ⟨hc,.refl w⟩
    exact (h.growing hrefl).coherent

/-- What every primitive change keeps is kept by any number of them. -/
theorem Changes.invariant {I : World → Prop} (h : Changes shape w t) (hc : Coherent shape w)
    (hi : I w) (hstep : ∀ s u,Coherent shape s → I s → Change shape s u → I u) :
    Coherent shape t ∧ I t := by
  induction h with
  | refl => exact ⟨hc,hi⟩
  | tail _ hlast ih => exact ⟨hlast.coherent ih.1,hstep _ _ ih.1 ih.2 hlast⟩

/-- Recorded calls are no change but of `errno` and the trace. -/
theorem changes_record (w : World) (errno : Errno) (calls : List Call) :
    Changes shape w (record w errno calls) :=
  .single (.inside (.record w errno calls) rfl)

/-- A link that is closed is one change. -/
theorem changes_close (ha : Attached w link) (errno : Errno) (calls : List Call) :
    Changes shape w (close (record w errno calls) link) :=
  (changes_record w errno calls).tail (.close (ha.record errno calls))

/-- The read side fills the buffer or closes the link. -/
theorem afterRead_changes (ha : Attached w link) (result : ReadResult) :
    Changes shape w (afterRead w link result) := by
  by_cases hd : ∃ block,result=.data block
  · obtain ⟨block,rfl⟩ := hd
    have hfill : Change shape w (receive w link block) := .inside (.update ha.live _ _) rfl
    exact (Relation.ReflTransGen.single hfill).trans (changes_record _ _ _)
  · rw [afterRead_of_not_data fun block h => hd ⟨block,h⟩]
    split
    · exact changes_close ha _ _
    · exact changes_record w _ _

/-- The write side writes, and closes its own link when the write is rejected. -/
theorem afterWrite_changes (ha : Attached w link) (result : WriteResult) :
    Changes shape w (afterWrite w link result) := by
  unfold afterWrite
  split
  · exact .refl
  · cases result with
    | accepted count hpos => exact changes_record w _ _
    | zero | fail errno => exact changes_close ha _ _

/-- The read side is a sequence of changes. -/
theorem serialReadHandler_changes (hc : Coherent shape w) (ha : Attached w link)
    (result : ReadResult) : ∃ t,serialReadHandler link result w=.ok () t ∧ Changes shape w t :=
  ⟨_,serialReadHandler_apply hc.topology ha result,afterRead_changes ha result⟩

/-- A callback makes primitive changes only, also when it ends in a freed link. -/
theorem serialEventHandler_changes (hc : Coherent shape w) (ha : Attached w link)
    (mask : EventMask) (env : CallResults) :
    Changes shape w (finalState (serialEventHandler (some link) mask env w)) := by
  have hwrite : ∀ s,Coherent shape s → (s.links link).isSome →
      Changes shape s (finalState (serialWriteHandler link env.write s)) := by
    intro s hcs hlive
    obtain ⟨l,hl⟩ := Option.isSome_iff_exists.mp hlive
    have has := hcs.attached hl
    obtain ⟨hrun,-⟩ := serialWriteHandler_effect hcs has env.write
    rw [hrun]
    exact afterWrite_changes has env.write
  by_cases hr : mask &&& aeReadable≠0
  · obtain ⟨s,hread,hs⟩ := serialReadHandler_changes hc ha env.read
    have hcs := (Changes.invariant (I:=fun _ => True) hs hc trivial fun _ _ _ _ _ => trivial).1
    rw [serialEventHandler,if_pos hr,bind_of_ok hread]
    by_cases hw : mask &&& aeWritable≠0
    · rw [if_pos hw]
      cases hl : s.links link with
      | none =>
        change Changes shape w (finalState (serialWriteHandler link env.write s))
        rw [serialWriteHandler_freed hl]
        exact hs
      | some l => exact hs.trans (hwrite s hcs (by rw [hl]; rfl))
    · rw [if_neg hw]
      exact hs
  · rw [serialEventHandler,if_neg hr]
    by_cases hw : mask &&& aeWritable≠0
    · rw [if_pos hw]
      exact hwrite w hc (by rw [ha.live]; rfl)
    · rw [if_neg hw]
      exact .refl

/-- So is a callback, however it ends. -/
theorem Calling.changes {event : EventMask} {e : AeFiredEvent} (hc : Coherent shape t)
    (h : Calling shape t event e env link u) : Changes shape t u := by
  have hend := serialEventHandler_changes hc h.attached e.mask env
  rw [h.run] at hend
  split at hend <;> exact hend

/-- A reconnect is a sequence of attempts. -/
theorem AttemptRun.changes {env : NodePtr → ConnectResults} {nodes : List NodePtr}
    (hm : ∀ node∈nodes,shape.Mem node) (h : AttemptRun env w nodes t) : Changes shape w t := by
  induction h with
  | start => exact .refl
  | note _ hn ih =>
    have hfiles : files _=files _ := Prod.ext hn.files.symlinks hn.files.ttys
    exact (ih hm).tail (.inside (quiet_same hn.quiet) hfiles)
  | attempt _ hs ih =>
    have hmem := hm _ (List.mem_append_right _ List.mem_cons_self)
    exact (ih fun node hn => hm node (List.mem_append_left _ hn)).tail (.attempt hmem hs)

/-- So is a reconnect. -/
theorem serialReconnect_changes (hc : Coherent shape w) {env : NodePtr → ConnectResults}
    (h : serialReconnect env w=.ok () t) : Changes shape w t := by
  obtain ⟨t',ht',hrun⟩ := serialReconnect_attempts hc env
  rw [h,EStateM.Result.ok.injEq] at ht'
  obtain ⟨-,rfl⟩ := ht'
  refine AttemptRun.changes (fun node hn => ?_) hrun
  obtain ⟨g,hg,hmem⟩ := List.mem_flatMap.mp (mem_of_attemptOrder hn)
  exact ⟨g,hg,List.mem_cons.mp hmem⟩

/-- So is the reset of the buffers before a poll. -/
theorem Polled.changes (h : Polled shape w it s) : Changes shape w s := by
  obtain ⟨s₀,hsleep,hpoll⟩ := h.polls
  have hf₀ : files s₀=files w := (keeps_serialBeforeSleep filePart_files).ok hsleep
  have hf : files s=files s₀ := (keeps_aeApiPoll filePart_files it.poll).ok hpoll
  exact .single (.inside h.same (hf.trans hf₀))

/-- An iteration of the loop makes primitive changes only. -/
theorem aeMainStep_changes (hc : Coherent shape w) (ha : Admitted w it)
    (h : aeMainStep it w=.ok () u) : Changes shape w u := by
  obtain ⟨r,t,hw,hcron⟩ := aeMainStep_parts hc ha h
  have hr : Changes shape w r := reading_invariant ha (fun _ => Changes shape w)
    (fun _ hs => Polled.changes hs) (fun _ _ _ _ _ _ hi _ => hi)
    (fun done e todo t link u _ ⟨s,_,hturn⟩ hi hcall _ =>
      hi.trans (Calling.changes hturn.mid.coherent hcall))
    (fired_whole it) hw.reading
  have ht : Changes shape w t := writing_invariant ha (fun _ => Changes shape w) hr
    (fun _ _ _ _ _ _ hi _ => hi)
    (fun done e todo t link u _ ht hi hcall =>
      hi.trans (Calling.changes ht.turn.mid.coherent hcall))
    (List.append_nil _).symm hw
  cases hcase : it.cron with
  | none =>
    rw [hcase] at hcron
    exact hcron ▸ ht
  | some env =>
    rw [hcase] at hcron
    exact ht.trans (serialReconnect_changes hw.turn.mid.coherent hcron)

/-- Nodes are loaded, and nothing else has happened. -/
structure Loaded (shape : Shape) (s : World) : Prop where
  /-- The nodes form the tree. -/
  coherent : Coherent shape s
  /-- No link was ever opened. -/
  links : ∀ link,s.links link=none
  /-- The process has its first descriptors only. -/
  openFds : s.openFds=World.boot.openFds
  /-- There are no symbolic links. -/
  symlinks : s.symlinks=World.boot.symlinks
  /-- Nothing is registered. -/
  events : s.events=World.boot.events
  /-- There is no highest descriptor. -/
  maxfd : s.maxfd=World.boot.maxfd
  /-- The table has its size. -/
  setsize : s.setsize=World.boot.setsize
  /-- No call was made on a descriptor. -/
  fdCalls : s.fdCalls=[]

/-- A running daemon has come from its loaded configuration by primitive changes. -/
theorem running_changes (h : Running w) : ∃ shape s,Loaded shape s ∧ Changes shape s w := by
  refine Reachable.invariant (I:=fun w => ∃ shape s,Loaded shape s ∧ Changes shape s w) h ?_ ?_
  · rintro w ⟨entries,env,hinit⟩
    obtain ⟨s,shape,-,-,-,hout,hc,hload,hconnect⟩ := serialInit_loads hinit
    have hfiles := (keeps_loadEntries filePart_files entries).ok hload
    exact ⟨shape,s,⟨hc,fun link => by rw [hout.links]; rfl,hout.openFds,
      congrArg Prod.fst hfiles,hout.events,hout.maxfd,hout.setsize,hout.fdCalls⟩,
      serialReconnect_changes hc hconnect⟩
  · rintro s it t ⟨shape,s₀,hs₀,hch⟩ ha hx
    have hcs := (Changes.invariant (I:=fun _ => True) hch hs₀.coherent trivial
      fun _ _ _ _ _ => trivial).1
    exact ⟨shape,s₀,hs₀,hch.trans (aeMainStep_changes hcs ha hx)⟩

end Changing

/-- The open descriptors are the first ones of the process and those of the open links. -/
structure NoLeak (w : World) : Prop where
  /-- A descriptor is open exactly if it is one of these. -/
  exact : ∀ fd,fd∈w.openFds ↔ fd∈World.boot.openFds ∨ ∃ link l,w.links link=some l ∧ Owns l fd
  /-- No link has one of the first descriptors. -/
  apart : ∀ link l fd,w.links link=some l → Owns l fd → fd∉World.boot.openFds

/-- Every symbolic link is at the path of a virtual. -/
def VirtualPaths (w : World) : Prop := ∀ path target,w.symlinks path=some target →
  ∃ node n,w.nodes node=some n ∧ nodeIsVirtual n=true ∧ n.name=path

section Descriptors

variable {w s t u : World} {shape : Shape} {link : LinkPtr} {l : SerialLink} {fd : Fd}

/-- A link that is closed gives its own descriptors back, and no others. -/
theorem mem_remainingFds_iff {fds : Finset Fd} (hfd : l.fd≠-1) :
    fd∈remainingFds fds l ↔ fd∈fds ∧ ¬ Owns l fd := by
  unfold remainingFds Owns
  by_cases hs : l.sfd=-1
  · rw [if_neg (not_not.mpr hs),Finset.mem_erase]
    constructor
    · rintro ⟨hne,hm⟩
      exact ⟨hm,fun h => h.2.elim hne fun he => h.1 (he.trans hs)⟩
    · rintro ⟨hm,hn⟩
      exact ⟨fun he => hn ⟨he ▸ hfd,.inl he⟩,hm⟩
  · rw [if_pos hs,Finset.mem_erase,Finset.mem_erase]
    constructor
    · rintro ⟨hne,hne',hm⟩
      exact ⟨hm,fun h => h.2.elim hne' hne⟩
    · rintro ⟨hm,hn⟩
      exact ⟨fun he => hn ⟨he ▸ hs,.inr he⟩,fun he => hn ⟨he ▸ hfd,.inl he⟩,hm⟩

/-- Only the two descriptors of a link matter. -/
theorem owns_congr {l' : SerialLink} (hf : l'.fd=l.fd) (hs : l'.sfd=l.sfd) :
    Owns l' fd ↔ Owns l fd := by
  rw [Owns,Owns,hf,hs]

/-- Buffers hold no descriptors. -/
theorem NoLeak.inside (h : NoLeak w) (hs : SameExceptBuffers w t) : NoLeak t where
  exact := by
    intro fd
    rw [hs.openFds,h.exact]
    have hiff : (∃ link l,w.links link=some l ∧ Owns l fd) ↔
        ∃ link l,t.links link=some l ∧ Owns l fd := by
      constructor
      · rintro ⟨link,l,hl,ho⟩
        obtain ⟨l',hl',hf,hsf,-⟩ := hs.live_link hl
        exact ⟨link,l',hl',(owns_congr hf hsf).mpr ho⟩
      · rintro ⟨link,l,hl,ho⟩
        obtain ⟨l',hl',hf,hsf,-⟩ := hs.symm.live_link hl
        exact ⟨link,l',hl',(owns_congr hf hsf).mpr ho⟩
    rw [hiff]
  apart := by
    intro link l fd hl ho
    obtain ⟨l',hl',hf,hsf,-⟩ := hs.symm.live_link hl
    exact h.apart link l' fd hl' ((owns_congr hf hsf).mpr ho)

/-- No descriptor is left by a link that is closed. -/
theorem NoLeak.close (h : NoLeak w) (hc : Coherent shape w) (ha : Attached w link) :
    NoLeak (close w link) where
  exact := by
    intro fd
    change fd∈remainingFds w.openFds (linkAt w link) ↔ _
    rw [mem_remainingFds_iff ha.fd,h.exact]
    constructor
    · rintro ⟨hbase|⟨other,l,hl,ho⟩,hn⟩
      · exact .inl hbase
      · have hne : other≠link := by
          rintro rfl
          exact hn (linkAt_of_some hl ▸ ho)
        exact .inr ⟨other,l,(close_links_of_ne hne).trans hl,ho⟩
    · rintro (hbase|⟨other,l,hl,ho⟩)
      · exact ⟨.inl hbase,fun ho => h.apart link _ fd ha.live ho hbase⟩
      · obtain ⟨hne,hl⟩ := close_links_some hl
        refine ⟨.inr ⟨other,l,hl,ho⟩,fun hown => hne ?_⟩
        exact hc.separate other l link _ fd hl ha.live ho hown
  apart := fun other l fd hl => h.apart other l fd (close_links_some hl).2

/-- Nor by a connect attempt, however it fails. -/
theorem NoLeak.attempt {env : NodePtr → ConnectResults} {node : NodePtr} (h : NoLeak w)
    (hc : Coherent shape w) (hs : AttemptStep env w node t) : NoLeak t := by
  have hresult := hs.result
  split at hresult
  · obtain ⟨l,hcon⟩ := hresult
    have hnew : t.links w.nextLink=some l := by rw [hcon.links,Function.update_self]
    refine ⟨fun fd => ?_,fun link l' fd hl ho => ?_⟩
    · rw [hcon.openFds,h.exact]
      constructor
      · rintro ((hbase|⟨link,l',hl,ho⟩)|ho)
        · exact .inl hbase
        · exact .inr ⟨link,l',connected_links_kept hc hcon hl,ho⟩
        · exact .inr ⟨_,l,hnew,ho⟩
      · rintro (hbase|⟨link,l',hl,ho⟩)
        · exact .inl (.inl hbase)
        · rcases connected_links_some hcon hl with ⟨-,rfl⟩|⟨-,hl⟩
          · exact .inr ho
          · exact .inl (.inr ⟨link,l',hl,ho⟩)
    · rcases connected_links_some hcon hl with ⟨-,rfl⟩|⟨-,hl⟩
      · exact fun hbase => hcon.fresh fd ho ((h.exact fd).mpr (.inl hbase))
      · exact h.apart link l' fd hl ho
  · have hlinks := hresult.links
    refine ⟨fun fd => ?_,fun link l fd hl => h.apart link l fd (hlinks ▸ hl)⟩
    rw [hresult.openFds,h.exact,hlinks]

/-- So no change leaves one. -/
theorem Change.noLeak (hc : Coherent shape w) (h : NoLeak w) (hch : Change shape w t) :
    NoLeak t := by
  cases hch with
  | inside hs _ => exact h.inside hs
  | close ha => exact h.close hc ha
  | attempt _ hs => exact h.attempt hc hs

/-- Behind the configuration nothing is open. -/
theorem loaded_noLeak (h : Loaded shape s) : NoLeak s where
  exact := by
    intro fd
    rw [h.openFds]
    simp [h.links]
  apart := fun link l fd hl => by simp [h.links] at hl

/-- Nothing leaks in a running daemon. -/
theorem running_noLeak (h : Running w) : ∃ shape,Coherent shape w ∧ NoLeak w := by
  obtain ⟨shape,s,hs,hch⟩ := running_changes h
  exact ⟨shape,hch.invariant hs.coherent (loaded_noLeak hs) fun _ _ hc hi => Change.noLeak hc hi⟩

/-- The two descriptors that a node may have. -/
def nodeFds (w : World) (node : NodePtr) : Finset Fd :=
  match (nodeAt w node).link with
  | some link => {(linkAt w link).fd,(linkAt w link).sfd}
  | none => ∅

/-- A node holds two descriptors at most. -/
theorem nodeFds_card (w : World) (node : NodePtr) : (nodeFds w node).card≤2 := by
  unfold nodeFds
  split
  · exact Finset.card_le_two
  · exact Nat.zero_le _

/-- No descriptor leaks: in every state that the loop reaches, however often devices were lost
and reconnected, an open descriptor is one of the four the process starts with or belongs to
the link of a node, and there are at most two for each node of the configuration. -/
theorem descriptors_exact (h : Running w) : ∃ shape,Topology w shape ∧
    (∀ fd,fd∈w.openFds ↔ fd∈World.boot.openFds ∨ ∃ node n link l,w.nodes node=some n ∧
      n.link=some link ∧ w.links link=some l ∧ Owns l fd) ∧
    w.openFds.card≤4+2*(shape.flatMap fun g => g.1::g.2).length := by
  obtain ⟨shape,hc,hleak⟩ := running_noLeak h
  have hexact : ∀ fd,fd∈w.openFds ↔ fd∈World.boot.openFds ∨ ∃ node n link l,
      w.nodes node=some n ∧ n.link=some link ∧ w.links link=some l ∧ Owns l fd := by
    intro fd
    rw [hleak.exact]
    refine or_congr_right ⟨?_,?_⟩
    · rintro ⟨link,l,hl,ho⟩
      obtain ⟨node,n,hn,hlink⟩ := hc.held link l hl
      exact ⟨node,n,link,l,hn,hlink,hl,ho⟩
    · rintro ⟨node,n,link,l,-,-,hl,ho⟩
      exact ⟨link,l,hl,ho⟩
  let nodes := shape.flatMap fun g => g.1::g.2
  have hsub : w.openFds⊆World.boot.openFds ∪ nodes.toFinset.biUnion (nodeFds w) := by
    intro fd hfd
    rw [Finset.mem_union]
    rcases (hexact fd).mp hfd with hbase|⟨node,n,link,l,hn,hlink,hl,hne,ho⟩
    · exact .inl hbase
    · obtain ⟨l',hl',hback⟩ := hc.linked node n link hn hlink
      have hmem : node∈nodes := by
        obtain ⟨g,hg,hm⟩ := hc.node_mem hl' hback
        exact List.mem_flatMap.mpr ⟨g,hg,List.mem_cons.mpr hm⟩
      have hfds : fd∈nodeFds w node := by
        rw [nodeFds,nodeAt_of_some hn,hlink]
        simpa [linkAt_of_some hl] using ho
      exact .inr (Finset.mem_biUnion.mpr ⟨node,List.mem_toFinset.mpr hmem,hfds⟩)
  refine ⟨shape,hc.topology,hexact,(Finset.card_le_card hsub).trans ?_⟩
  change _≤4+2*nodes.length
  have hunion := Finset.card_union_le World.boot.openFds (nodes.toFinset.biUnion (nodeFds w))
  have hnodes := Finset.card_biUnion_le_card_mul nodes.toFinset (nodeFds w) 2 fun node _ =>
    nodeFds_card w node
  have hlength := List.toFinset_card_le nodes
  have hfirst : World.boot.openFds.card=4 := rfl
  omega

/-- The sample has its devices open. -/
theorem descriptors_exact_boot : ∃ shape,Topology sampleBoot shape ∧
    (∀ fd,fd∈sampleBoot.openFds ↔ fd∈World.boot.openFds ∨ ∃ node n link l,
      sampleBoot.nodes node=some n ∧ n.link=some link ∧ sampleBoot.links link=some l ∧
        Owns l fd) ∧
    sampleBoot.openFds.card≤4+2*(shape.flatMap fun g => g.1::g.2).length :=
  descriptors_exact sampleBoot_running

/-- A change makes and frees no node. -/
theorem Change.devices (hc : Coherent shape w) (h : Change shape w t) : SameDevices w t := by
  cases h with
  | inside h _ => exact h.devices
  | close ha => exact SameDevices.close ha
  | @attempt env _ _ _ h =>
    have hrefl : Growing shape env w w := ⟨hc,.refl w⟩
    exact (h.growing hrefl).grown.devices

/-- The paths of virtuals stay so while devices do. -/
theorem VirtualPaths.same (h : VirtualPaths w) (hd : SameDevices w t)
    (hs : ∀ path target,t.symlinks path=some target → w.symlinks path=some target ∨
      ∃ node n,w.nodes node=some n ∧ nodeIsVirtual n=true ∧ n.name=path) : VirtualPaths t := by
  intro path target hpath
  have hnode : ∃ node n,w.nodes node=some n ∧ nodeIsVirtual n=true ∧ n.name=path :=
    (hs path target hpath).elim (h path target) id
  obtain ⟨node,n,hn,hv,hname⟩ := hnode
  obtain ⟨link,hn'⟩ := hd.node hn
  exact ⟨node,_,hn',hv,hname⟩

/-- A change makes symbolic links at paths of virtuals only. -/
theorem Change.virtualPaths (hc : Coherent shape w) (h : VirtualPaths w)
    (hch : Change shape w t) : VirtualPaths t := by
  refine h.same (Change.devices hc hch) fun path target hpath => ?_
  cases hch with
  | inside _ hf => exact .inl ((congrFun (congrArg Prod.fst hf) path).symm.trans hpath)
  | close _ => exact .inl hpath
  | @attempt env node _ _ hs =>
    obtain ⟨n,hn,-⟩ := hs.live
    rw [hs.outcome.symlinks,nodeAt_of_some hn] at hpath
    by_cases hname : path=n.name
    · cases hpty : openedPty n (env node) with
      | none =>
        rw [openedSymlinks,hpty] at hpath
        exact .inl hpath
      | some pty =>
        have hv : nodeIsVirtual n=true := by
          unfold openedPty at hpty
          split at hpty
          · exact absurd hpty.symm (Option.some_ne_none _)
          · split at hpty
            · assumption
            · exact absurd hpty.symm (Option.some_ne_none _)
        exact .inr ⟨node,n,hn,hv,hname.symm⟩
    · rw [openedSymlinks_of_ne hname] at hpath
      exact .inl hpath

/-- Every symbolic link that a running daemon has made is at the path of a virtual. -/
theorem running_virtualPaths (h : Running w) : VirtualPaths w := by
  obtain ⟨shape,s,hs,hch⟩ := running_changes h
  have hstart : VirtualPaths s := by
    intro path target hpath
    rw [hs.symlinks] at hpath
    exact absurd hpath.symm (Option.some_ne_none _)
  exact (hch.invariant hs.coherent hstart fun _ _ hc hi => Change.virtualPaths hc hi).2

end Descriptors

end SerialProxy.PrimitiveChanges
