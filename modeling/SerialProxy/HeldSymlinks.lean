import SerialProxy.ReconnectContract
import SerialProxy.StateFrames

/-!
# Symbolic links and the terminals they lead to

Only a connect attempt and the release of a node write to the file system. A
symbolic link leads to a pty that the daemon holds as long as no callback closes
the link of a virtual and no attempt on a virtual fails behind its `symlink`:
neither `_serialFreeLink` nor the cleanup of an attempt removes the path.
-/

namespace SerialProxy.HeldSymlinks

open FaultPrograms LinkedCells CText SerialState EventTable SerialNodes SerialLinks SerialConfig
open EventLoop NodeTopology LinkEffects LinkCoherence HandlerEffects DispatchPasses ConnectEffects
open ConnectOutcomes Reconnection ReconnectContract ConfigLoading Iterations StateFrames

/-- What is outside the process: symbolic links, and the terminals of slave descriptors. -/
def files (w : World) : (CString → Option CString)×(Fd → CString) := (w.symlinks,w.ttys)

/-- Only a connect and the release of a node can change them. -/
theorem filePart_files : FilePart files where
  inside := fun _ _ _ httys hsymlinks => Prod.ext hsymlinks httys
  calls := fun _ _ _ => rfl

/-- No two nodes have the same name. -/
def DistinctNames (w : World) : Prop :=
  ∀ node other n m,w.nodes node=some n → w.nodes other=some m → n.name=m.name → node=other

/-- A symbolic link at the path of a virtual leads to the terminal of its link. -/
def Held (w : World) : Prop :=
  ∀ node n target,w.nodes node=some n → nodeIsVirtual n=true → w.symlinks n.name=some target →
    ∃ link l,n.link=some link ∧ w.links link=some l ∧ l.sfd≠-1 ∧ w.ttys l.sfd=target

/-- A callback in this state closes its link. -/
def Closes (t : World) (link : LinkPtr) (mask : EventMask) (env : CallResults) : Prop :=
  (mask &&& aeReadable≠0 ∧ readCloses t.errno env.read=true) ∨
    (mask &&& aeWritable≠0 ∧ writeRejected t link env.write=true)

/-- No attempt of a reconnect from `t` fails on a virtual behind its `symlink`. -/
def CleanReconnect (t : World) (env : NodePtr → ConnectResults) : Prop :=
  ∀ node n master,t.nodes node=some n → nodeIsVirtual n=true → n.link=none →
    n.virtualof=some master → connects t env master=true →
    openWorks n (env node)=true → attemptWorks n (env node)=true

/-- In an iteration from `w`, the two passes end in state `t`. -/
def Dispatched (w : World) (it : Iteration) (t : World) : Prop :=
  ∃ s second r done,Polls w it (fired it) s ∧ readPass (fired it) s=.ok second r ∧
    writePass second r=.ok done t

/-- No callback of the iteration closes the link of a virtual, and no attempt
fails on a virtual behind its `symlink`. -/
structure CleanIteration (w : World) (it : Iteration) : Prop where
  /-- The kernel may serve the iteration. -/
  admitted : Admitted w it
  /-- Links of virtuals stay open. -/
  callbacks : ∀ t e env link,HandlerCall w it t e env → (t.events e.fd).clientData=some link →
    nodeIsVirtual (nodeAt t (nodeOf t link))=true → ¬ Closes t link e.mask env
  /-- Attempts on virtuals do not fail behind their `symlink`. -/
  attempts : ∀ t env,Dispatched w it t → it.cron=some env → CleanReconnect t env

/-- The loop starts behind a reconnect without such a failure. -/
def BootedClean (w : World) : Prop :=
  ∃ entries env,serialInit entries env World.boot=.ok () w ∧
    ∀ t,loadEntries entries World.boot=.ok () t → CleanReconnect t env

section Held

variable {w s t u : World} {shape : Shape} {link : LinkPtr} {l : SerialLink} {node : NodePtr}
variable {n : SerialNode} {mask : EventMask} {env : CallResults}

/-- Names do not change while the daemon runs. -/
theorem DistinctNames.devices (h : DistinctNames w) (hs : SameDevices w t) : DistinctNames t := by
  intro node other n m hn hm hname
  obtain ⟨link,hn'⟩ := hs.symm.node hn
  obtain ⟨link',hm'⟩ := hs.symm.node hm
  exact h node other _ _ hn' hm' hname

/-- Clearing buffers does not affect where the links lead. -/
theorem Held.buffers (h : Held w) (hs : SameExceptBuffers w t) (hf : files t=files w) : Held t := by
  intro node n target hn hv hsym
  rw [hs.nodes] at hn
  rw [show t.symlinks=w.symlinks from congrArg Prod.fst hf] at hsym
  obtain ⟨link,l,hlink,hl,hsfd,htty⟩ := h node n target hn hv hsym
  obtain ⟨l',hl',-,hsfd',-⟩ := hs.live_link hl
  refine ⟨link,l',hlink,hl',hsfd' ▸ hsfd,?_⟩
  rw [show t.ttys=w.ttys from congrArg Prod.snd hf,hsfd',htty]

/-- A callback that does not close its link leaves it with something. -/
theorem eventLink_of_not_closes (h : ¬ Closes t link mask env) :
    eventLink t link mask env≠none := by
  unfold eventLink
  rw [if_neg fun hw => h (.inr hw)]
  split
  · exact mt linkAfterRead_eq_none.mp fun hr => h (.inl ⟨‹_›,hr⟩)
  · exact Option.some_ne_none _

/-- A callback that keeps the link of a virtual keeps where the links lead. -/
theorem Held.callback (h : Held t) (hc : Coherent shape t) (ha : Attached t link)
    {calls : List Call} (he : Effect shape t link calls (eventLink t link mask env) u)
    (hf : files u=files t)
    (hkeep : nodeIsVirtual (nodeAt t (nodeOf t link))=true → ¬ Closes t link mask env) :
    Held u := by
  intro node n target hn hv hsym
  obtain ⟨old,hn₀⟩ := he.confined.devices.symm.node hn
  rw [show u.symlinks=t.symlinks from congrArg Prod.fst hf] at hsym
  obtain ⟨link₀,l₀,hlink₀,hl₀,hsfd,htty⟩ := h node _ target hn₀ hv hsym
  obtain ⟨l₀',hl₀',hback⟩ := hc.linked node _ link₀ hn₀ hlink₀
  rw [hl₀,Option.some.injEq] at hl₀'
  subst hl₀'
  rw [show u.ttys=t.ttys from congrArg Prod.snd hf]
  rcases eq_or_ne link₀ link with rfl|hne
  · have hnode : nodeOf t link₀=node := by
      rw [nodeOf,linkAt_of_some hl₀,hback,Option.getD_some]
    rw [hnode,nodeAt_of_some hn₀] at hkeep
    obtain ⟨l',hl'⟩ := Option.ne_none_iff_exists'.mp (eventLink_of_not_closes (hkeep hv))
    have hl := he.own.trans hl'
    obtain ⟨l₁,hl₁,-,hsfd',hnode'⟩ := he.confined.own l' hl
    rw [hl₀,Option.some.injEq] at hl₁
    subst hl₁
    obtain ⟨node',n',hb,hn',hlink'⟩ := he.coherent.node_live hl
    rw [hnode',hback,Option.some.injEq] at hb
    subst hb
    rw [hn,Option.some.injEq] at hn'
    subst hn'
    exact ⟨link₀,l',hlink',hl,hsfd' ▸ hsfd,by rw [hsfd',htty]⟩
  · have hnode : node≠nodeOf t link := by
      rintro rfl
      obtain rfl : link₀=link := by
        have hb := ha.back
        rw [nodeAt_of_some hn₀,hlink₀,Option.some.injEq] at hb
        exact hb
      exact hne rfl
    have hsame := he.confined.nodes node hnode
    rw [hn,hn₀,Option.some.injEq] at hsame
    exact ⟨link₀,l₀,by rw [hsame]; exact hlink₀,(he.confined.links link₀ hne).trans hl₀,hsfd,htty⟩

/-- An attempt changes the symbolic link at the path of its node only. -/
theorem openedSymlinks_of_ne {path : CString} (h : path≠n.name) (w : World)
    (env : ConnectResults) : openedSymlinks w n env path=w.symlinks path := by
  unfold openedSymlinks
  cases openedPty n env with
  | none => rfl
  | some pty =>
    dsimp only [placed]
    split <;> split <;> simp only [Function.update_of_ne h]

/-- An attempt learns the terminal of a new descriptor only. -/
theorem openedTtys_of_mem {fd : Fd} (h : fd∈w.openFds) (n : SerialNode) (env : ConnectResults) :
    openedTtys w n env fd=w.ttys fd := by
  unfold openedTtys
  cases hpty : openedPty n env with
  | none => rfl
  | some pty =>
    have hsfd := openedSfd_of_pty w.openFds hpty
    refine Function.update_of_ne (fun he => ?_) _ _
    rw [he,hsfd] at h
    exact pty.slave.fresh _ (Finset.mem_insert_of_mem h)

/-- A symbolic link that an attempt leaves where there was none leads to its terminal. -/
theorem openedSymlinks_self {env : ConnectResults} {target : CString}
    (hnone : w.symlinks n.name=none) (hm : nodeIsMaster n=false) (hv : nodeIsVirtual n=true)
    (h : openedSymlinks w n env n.name=some target) : openWorks n env=true ∧
      openedTtys w n env (openedSfd w.openFds n env)=target ∧ openedSfd w.openFds n env≠-1 := by
  have hpty : openedPty n env=env.openpty.toOption := by
    rw [openedPty,hm,if_neg Bool.false_ne_true,if_pos hv]
  unfold openedSymlinks at h
  unfold openedTtys
  cases hopen : env.openpty with
  | error errno =>
    rw [hpty,hopen] at h
    rw [show w.symlinks n.name=some target from h] at hnone
    exact absurd hnone (Option.some_ne_none _)
  | ok pty =>
    rw [hopen] at hpty
    replace hpty : openedPty n env=some pty := hpty
    have hsfd := openedSfd_of_pty w.openFds hpty
    rw [hpty] at h ⊢
    dsimp only [placed] at h ⊢
    cases hs : env.symlink with
    | none =>
      rw [hs,Option.isNone_none,if_pos rfl,Function.update_self,Option.some.injEq] at h
      refine ⟨?_,by rw [Function.update_self,h],hsfd ▸ FreshFd.ne_error pty.slave _⟩
      rw [openWorks,hm,if_neg Bool.false_ne_true,if_pos hv,hopen,hs]
      rfl
    | some errno =>
      rw [hs,Option.isNone_some,if_neg Bool.false_ne_true] at h
      split at h
      · rw [Function.update_self] at h
        exact absurd h.symm (Option.some_ne_none _)
      · rw [hnone] at h
        exact absurd h.symm (Option.some_ne_none _)

/-- An attempt that does not fail behind its `symlink` keeps where the links lead. -/
theorem Held.attempt {env : NodePtr → ConnectResults} (h : Held t) (hd : DistinctNames t)
    (hc : Coherent shape t) (hs : AttemptStep env t node u)
    (hclean : nodeIsVirtual (nodeAt t node)=true → openWorks (nodeAt t node) (env node)=true →
      attemptWorks (nodeAt t node) (env node)=true) : Held u := by
  obtain ⟨n,hn,hfree⟩ := hs.live
  have ho := hs.outcome
  have hresult := hs.result
  rw [nodeAt_of_some hn] at hclean ho hresult
  intro v m target hm hv hsym
  rw [ho.symlinks] at hsym
  rw [ho.ttys]
  rcases eq_or_ne v node with rfl|hne
  · obtain ⟨link,hlink,hworks⟩ := hs.linked hn
    rw [hm,Option.some.injEq] at hlink
    subst hlink
    have hnone : t.symlinks n.name=none := by
      by_contra hsome
      obtain ⟨old,hold⟩ := Option.ne_none_iff_exists'.mp hsome
      obtain ⟨link',-,hlink',-⟩ := h v n old hn hv hold
      rw [hfree] at hlink'
      exact Option.some_ne_none _ hlink'.symm
    have hmaster : nodeIsMaster n=false := by
      obtain ⟨g,hg,hvg⟩ := hc.topology.owner_of_virtual (hc.topology.covered v n hn)
        (by rwa [nodeAt_of_some hn])
      obtain ⟨m,hm,hf,-⟩ := hc.topology.virtual g hg v hvg
      rw [hn,Option.some.injEq] at hm
      exact hm ▸ not_nodeIsMaster_of_flags hf
    obtain ⟨hopen,htty,hsfd⟩ := openedSymlinks_self hnone hmaster hv hsym
    have hw := hclean hv hopen
    obtain ⟨l,hl,-,hlsfd⟩ := ho.link hw
    rw [hw,if_pos rfl] at hresult
    obtain ⟨l',hcon⟩ := hresult
    have hnode := hcon.nodes
    rw [funext_iff] at hnode
    have hself := hnode v
    rw [hm,Function.update_self,Option.some.injEq] at hself
    exact ⟨t.nextLink,l,by rw [hself],hl,hlsfd ▸ hsfd,hlsfd ▸ htty⟩
  · have hm' := (hs.others hne).symm.trans hm
    have hname : m.name≠n.name := fun he => hne (hd v node m n hm' hn he)
    rw [openedSymlinks_of_ne hname] at hsym
    obtain ⟨link,l,hlink,hl,hsfd,htty⟩ := h v m target hm' hv hsym
    have hgrown := (hs.growing (w:=t) ⟨hc,.refl t⟩).grown
    refine ⟨link,l,hlink,hgrown.links link l hl,hsfd,?_⟩
    rw [openedTtys_of_mem (hc.opened link l l.sfd hl ⟨hsfd,.inr rfl⟩),htty]

/-- A run of attempts keeps where the links lead, if none fails behind its `symlink`. -/
theorem Held.attempts {env : NodePtr → ConnectResults} {nodes : List NodePtr} (h : Held w)
    (hd : DistinctNames w) (hc : Coherent shape w) (hrun : AttemptRun env w nodes t)
    (hclean : ∀ node∈nodes,nodeIsVirtual (nodeAt w node)=true →
      openWorks (nodeAt w node) (env node)=true → attemptWorks (nodeAt w node) (env node)=true) :
    Held t := by
  induction hrun with
  | start => exact h
  | @note nodes t u _ hn ih =>
    have hf : files u=files t := Prod.ext hn.files.symlinks hn.files.ttys
    exact (ih hclean).buffers (quiet_same hn.quiet) hf
  | @attempt nodes t u last hrun hs ih =>
    have hg := hrun.growing hc
    refine (ih fun node hm => hclean node (List.mem_append_left _ hm)).attempt
      (hd.devices hg.grown.devices) hg.coherent hs ?_
    obtain ⟨n,hn,-⟩ := hs.live
    obtain ⟨link,hn'⟩ := hg.grown.devices.symm.node hn
    have hlast := hclean last (List.mem_append_right _ (List.mem_singleton_self last))
    rw [nodeAt_of_some hn'] at hlast
    rw [nodeAt_of_some hn]
    exact hlast

/-- A reconnect keeps where the links lead, if no attempt fails behind its `symlink`. -/
theorem Held.reconnect {env : NodePtr → ConnectResults} (h : Held w) (hd : DistinctNames w)
    (hc : Coherent shape w) (hclean : CleanReconnect w env) (hx : serialReconnect env w=.ok () t) :
    Held t := by
  obtain ⟨t',hx',hrun⟩ := serialReconnect_attempts hc env
  rw [hx,EStateM.Result.ok.injEq] at hx'
  obtain ⟨-,rfl⟩ := hx'
  refine h.attempts hd hc hrun fun node hm hv => ?_
  obtain ⟨g,hg,hnode⟩ := List.mem_flatMap.mp (mem_of_attemptOrder hm)
  rcases List.mem_cons.mp hnode with rfl|hvg
  · obtain ⟨m,hm,hf,-⟩ := hc.topology.master g hg
    rw [nodeAt_of_some hm,not_nodeIsVirtual_of_flags hf] at hv
    exact Bool.noConfusion hv
  · obtain ⟨n,hn,-,hof,-⟩ := hc.topology.virtual g hg node hvg
    obtain ⟨hfree,hconnects⟩ := (virtual_mem_attemptOrder hc.topology hg hvg).mp hm
    rw [Linked,nodeAt_of_some hn,Option.not_isSome_iff_eq_none] at hfree
    rw [nodeAt_of_some hn] at hv ⊢
    exact hclean node n g.1 hn hv hfree hof hconnects

section Passes

variable {it : Iteration} {r : World} {done todo : List AeFiredEvent} {e : AeFiredEvent}

/-- The state the passes start from. -/
theorem Held.polled (h : Held w) (hs : Polled shape w it s) : Held s := by
  obtain ⟨s₀,hsleep,hpoll⟩ := hs.polls
  exact h.buffers hs.same (((keeps_aeApiPoll filePart_files it.poll).ok hpoll).trans
    ((keeps_serialBeforeSleep filePart_files).ok hsleep))

/-- A callback of a clean iteration keeps where the links lead. -/
theorem Held.call {event : EventMask} (h : Held t) (hc : Coherent shape t)
    (ha : CleanIteration w it) (hh : HandlerCall w it t e env)
    (hcall : Calling shape t event e env link u) : Held u := by
  refine h.callback hc hcall.attached hcall.effect ?_ (ha.callbacks t e env link hh hcall.client)
  have hf := keeps_serialEventHandler filePart_files (some link) e.mask env t
  rw [hcall.run] at hf
  split at hf <;> exact hf

/-- An iteration keeps where the links lead. -/
theorem aeMainStep_held (h : Held w) (hd : DistinctNames w) (hc : Coherent shape w)
    (ha : CleanIteration w it) (hx : aeMainStep it w=.ok () u) : Held u := by
  obtain ⟨r,t,hw,hcron⟩ := aeMainStep_parts hc ha.admitted hx
  have hr : Held r := reading_invariant ha.admitted (fun _ => Held) (fun _ hs => h.polled hs)
    (fun _ _ _ _ _ _ hi _ => hi)
    (fun done e todo t link u hsplit ht hi hcall _ =>
      have ⟨s,_,hturn⟩ := ht
      hi.call hturn.mid.coherent ha (.first (ht.firstCall hsplit hcall.fires)) hcall)
    (fired_whole it) hw.reading
  have ht : Held t := writing_invariant ha.admitted (fun _ => Held) hr
    (fun _ _ _ _ _ _ hi _ => hi)
    (fun done e todo t link u hsplit ht hi hcall =>
      hi.call ht.turn.mid.coherent ha (.second (ht.secondTurn hsplit) hcall.fires) hcall)
    (List.append_nil _).symm hw
  cases hcase : it.cron with
  | none =>
    rw [hcase] at hcron
    exact hcron ▸ ht
  | some env =>
    rw [hcase] at hcron
    obtain ⟨s,hp,hread⟩ := hw.reads
    obtain ⟨done,hwrite⟩ := hw.turn.run
    have hclean := ha.attempts t env ⟨s,_,r,done,hp,hread,hwrite⟩ hcase
    exact ht.reconnect (hd.devices (writing_devices hw)) hw.turn.mid.coherent hclean hcron

end Passes

/-- The loop starts with every symbolic link leading to a terminal of the daemon. -/
theorem booted_held (h : BootedClean w) :
    ∃ shape,Coherent shape w ∧ (DistinctNames w → Held w) := by
  obtain ⟨entries,env,hinit,hclean⟩ := h
  obtain ⟨s,shape,-,-,-,-,hc,hload,hconnect⟩ := serialInit_loads hinit
  obtain ⟨t,hx,hg⟩ := serialReconnect_spec hc env
  rw [hconnect,EStateM.Result.ok.injEq] at hx
  obtain ⟨-,rfl⟩ := hx
  refine ⟨shape,hg.coherent,fun hd => Held.reconnect ?_ (hd.devices hg.grown.devices.symm) hc
    (hclean s hload) hconnect⟩
  have hnone : s.symlinks=fun _ => none := 
    congrArg Prod.fst ((keeps_loadEntries filePart_files entries).ok hload)
  intro node n target _ _ hsym
  rw [hnone] at hsym
  exact absurd hsym.symm (Option.some_ne_none _)

/-- As long as no callback closes the link of a virtual and no attempt on a virtual fails
behind its `symlink`, the symbolic link at the path of a virtual leads to the terminal that
the open link of this virtual holds. -/
theorem symlinks_held (h : Reachable BootedClean aeMainStep CleanIteration w)
    (hd : DistinctNames w) : ∀ node n target,w.nodes node=some n → nodeIsVirtual n=true →
      w.symlinks n.name=some target → ∃ link l,n.link=some link ∧ w.links link=some l ∧
        l.sfd∈w.openFds ∧ w.ttys l.sfd=target := by
  obtain ⟨shape,hc,hheld⟩ := Reachable.invariant
    (I:=fun w => ∃ shape,Coherent shape w ∧ (DistinctNames w → Held w)) h
    (fun _ hb => booted_held hb) fun s it t ⟨shape,hc,hheld⟩ ha hx => by
      have hadv := aeMainStep_advanced hc ha.admitted hx
      exact ⟨shape,aeMainStep_coherent hc ha.admitted hx,fun hd =>
        have hds := hd.devices hadv.devices.symm
        aeMainStep_held (hheld hds) hds hc ha hx⟩
  intro node n target hn hv hsym
  obtain ⟨link,l,hlink,hl,hsfd,htty⟩ := hheld hd node n target hn hv hsym
  exact ⟨link,l,hlink,hl,hc.opened link l l.sfd hl ⟨hsfd,.inr rfl⟩,htty⟩

end Held

section Sample

theorem workingConnect_works (n : SerialNode) : attemptWorks n workingConnect=true := by
  have hopen : openWorks n workingConnect=true := by
    unfold openWorks
    split
    · rfl
    · split <;> rfl
  have hspeed : speedWorks n workingConnect=true := by
    unfold speedWorks
    split
    · exact Bool.or_true _
    · rfl
  rw [attemptWorks,hopen,hspeed]
  rfl

theorem sampleBoot_clean : BootedClean sampleBoot :=
  ⟨sampleEntries,fun _ => workingConnect,eq_ok_of_returns (by decide +kernel),
    fun _ _ _ n _ _ _ _ _ _ _ => workingConnect_works n⟩

theorem sampleBoot_distinct : DistinctNames sampleBoot := by
  have hnames : ∀ node<3,∀ other<3,
      (nodeAt sampleBoot node).name=(nodeAt sampleBoot other).name → node=other := by
    decide +kernel
  obtain ⟨shape,hc⟩ := running_coherent sampleBoot_running
  have hlt : ∀ node n,sampleBoot.nodes node=some n → node<3 := fun node n hn =>
    (hc.topology.numbered node n hn).trans_le (by decide +kernel)
  intro node other n m hn hm he
  refine hnames node (hlt node n hn) other (hlt other m hm) ?_
  rw [nodeAt_of_some hn,nodeAt_of_some hm,he]

/-- The exchange closes no link: its read brings data, and its write is taken. -/
theorem exchange_clean : CleanIteration sampleBoot exchange where
  admitted := exchange_admitted
  callbacks := by
    intro t e env link hcall _ _ hcloses
    obtain ⟨shape,hc⟩ := running_coherent sampleBoot_running
    cases hcall with
    | first h =>
      have hreads : ∀ e∈fired exchange,e.mask &&& aeReadable≠0 →
          readCloses t.errno e.first.read=false ∧ e.mask &&& aeWritable=0 := by
        intro e he
        rcases List.mem_pair.mp he with rfl|rfl
        · exact fun _ => ⟨rfl,by decide⟩
        · exact fun hr => absurd hr (by decide)
      obtain ⟨done,todo,hsplit,-⟩ := reading_of_firstCall hc exchange_admitted h
      obtain ⟨_,_,_,_,-,-,hfires⟩ := h
      obtain ⟨hread,hwrite⟩ := hreads e (mem_of_split hsplit) (ne_of_and_ne hfires).2
      rcases hcloses with ⟨-,hclose⟩|⟨hw,-⟩
      · exact Bool.noConfusion (hread.symm.trans hclose)
      · exact hw hwrite
    | second h =>
      have hwrites : ∀ e∈remaining exchange,e.mask &&& aeWritable≠0 →
          writeCloses e.second.write=false := by decide
      obtain ⟨r,done,todo,hsplit,-⟩ := writing_of_secondTurn hc exchange_admitted h
      have he := mem_of_split hsplit
      rcases hcloses with ⟨hr,-⟩|⟨hw,hclose⟩
      · exact hr (not_readable_of_remaining he)
      · rw [writeRejected,hwrites e he hw,Bool.and_false] at hclose
        exact Bool.noConfusion hclose
  attempts := fun _ _ _ hcron => absurd hcron (Option.some_ne_none _).symm

/-- Behind the exchange the virtual `b` is still reached at its path. -/
theorem symlinks_held_exchange :
    let u := finalState (aeMainStep exchange sampleBoot)
    u.symlinks (nodeAt u 2).name=some "/dev/pts/1".toList ∧
      ∃ link l,(nodeAt u 2).link=some link ∧ u.links link=some l ∧ l.sfd∈u.openFds ∧
        u.ttys l.sfd="/dev/pts/1".toList := by
  intro u
  obtain ⟨shape,hc⟩ := running_coherent sampleBoot_running
  have hstep : aeMainStep exchange sampleBoot=.ok () u := eq_ok_of_returns (by decide +kernel)
  have hdistinct := sampleBoot_distinct.devices
    (aeMainStep_advanced hc exchange_admitted hstep).devices
  have hsym : u.symlinks (nodeAt u 2).name=some "/dev/pts/1".toList := by decide +kernel
  exact ⟨hsym,symlinks_held
    ⟨sampleBoot,[exchange],sampleBoot_clean,.cons exchange_clean hstep (.nil u)⟩ hdistinct 2
    (nodeAt u 2) "/dev/pts/1".toList (by decide +kernel) (by decide +kernel) hsym⟩

/-- The master sends a byte that the virtual `b` does not take. -/
def rejected : Iteration :=
  ⟨.ok [⟨4,true,false,false,false,⟨.data (sampleBlock 7 [] nil_lt_bufsiz),.zero⟩,⟨.eof,.zero⟩⟩,
    ⟨5,false,true,false,false,⟨.eof,.zero⟩,⟨.eof,.fail 5⟩⟩],none⟩

/-- A virtual that lost its link still has a symbolic link at its path. -/
theorem symlink_left_behind : ¬ ∀ w,Running w → DistinctNames w → ∀ node n target,
    w.nodes node=some n → nodeIsVirtual n=true → w.symlinks n.name=some target →
      ∃ link l,n.link=some link ∧ w.links link=some l ∧ l.sfd∈w.openFds ∧
        w.ttys l.sfd=target := by
  intro h
  have hadmitted : Admitted sampleBoot rejected :=
    ⟨by decide +kernel,by decide +kernel,by decide +kernel,by decide +kernel⟩
  have hstep : aeMainStep rejected sampleBoot=
      .ok () (finalState (aeMainStep rejected sampleBoot)) :=
    eq_ok_of_returns (by decide +kernel)
  obtain ⟨shape,hc⟩ := running_coherent sampleBoot_running
  have hdistinct := sampleBoot_distinct.devices (aeMainStep_advanced hc hadmitted hstep).devices
  have hnode : (finalState (aeMainStep rejected sampleBoot)).nodes 2=
      some (nodeAt (finalState (aeMainStep rejected sampleBoot)) 2) := by decide +kernel
  have hfree : (nodeAt (finalState (aeMainStep rejected sampleBoot)) 2).link=none := by
    decide +kernel
  obtain ⟨link,-,hlink,-⟩ := h _ (sampleBoot_running.step hadmitted hstep) hdistinct 2 _
    "/dev/pts/1".toList hnode (by decide +kernel) (by decide +kernel)
  rw [hfree] at hlink
  exact Option.some_ne_none link hlink.symm

end Sample

end SerialProxy.HeldSymlinks
