import SerialProxy.PrimitiveChanges
import SerialProxy.Release
import SerialProxy.ServerStart

/-!
# The end of the process

What `serialTerm` gives back besides memory: the descriptors of the links and the symbolic
links of the virtuals. Behind a shutdown the process is as it was before it read its
configuration. The ways in which `main` ends.
-/

namespace SerialProxy.Shutdown

open FaultPrograms LinkedCells CText SerialState EventTable SerialNodes SerialLinks SerialConfig
open EventLoop NodeTopology LinkEffects LinkCoherence ConfigLoading Iterations StateFrames
open HeldSymlinks Teardown Release PrimitiveChanges

section Freeing

variable {w t : World} {node : NodePtr} {n : SerialNode} {remove : Option Errno}

/-- The fields of a node are no descriptors. -/
theorem opens_modifyNode (node : NodePtr) (f : SerialNode → SerialNode) :
    Keeps World.openFds (modifyNode node f) :=
  (keeps_derefNode node).bind fun _ => keeps_modify fun _ => rfl

/-- Unlinking a node opens and closes nothing. -/
theorem opens_unlinkNode {clearHead : Prog Unit} (hclear : Keeps World.openFds clearHead)
    (node : NodePtr) (prev : Option NodePtr) (bound : ℕ) (head : Option NodePtr) :
    Keeps World.openFds (unlinkNode clearHead node prev bound head) := by
  induction bound generalizing head with
  | zero =>
    cases head with
    | none => exact keeps_pure ()
    | some cur => exact keeps_throw _
  | succ bound ih =>
    cases head with
    | none => exact keeps_pure ()
    | some cur =>
      refine Keeps.ite ?_ ((keeps_derefNode cur).bind fun c => ih c.next)
      cases prev with
      | none => exact hclear.bind fun _ => opens_modifyNode node _
      | some p =>
        exact (keeps_derefNode node).bind fun n => (opens_modifyNode p _).bind fun _ =>
          opens_modifyNode node _

/-- Neither does removing a path. -/
theorem opens_sysRemove (path : CString) (remove : Option Errno) :
    Keeps World.openFds (sysRemove path remove) := by
  refine Keeps.bind (keeps_modify (by exact fun _ => rfl)) fun _ => ?_
  cases remove with
  | none => exact keeps_modify fun _ => rfl
  | some errno => exact keeps_modify fun _ => rfl

/-- `serialFreeNode` opens and closes nothing. -/
theorem opens_serialFreeNode (node : NodePtr) (remove : Option Errno) :
    Keeps World.openFds (serialFreeNode node remove) := by
  have hrelease : Keeps World.openFds (do
      modifyNode node fun n => {n with virtualHead := none}
      releaseNode node) :=
    (opens_modifyNode node _).bind fun _ => (keeps_derefNode node).bind fun _ =>
      Keeps.bind (keeps_modify (by exact fun _ => rfl)) fun _ =>
        keeps_modify (by exact fun _ => rfl)
  refine (keeps_derefNode node).bind fun n =>
    (keeps_visitNodes (fun cur => opens_modifyNode cur _) n.virtualHead).bind fun _ =>
      Keeps.ite ((opens_sysRemove n.name remove).bind fun _ => ?_) hrelease
  cases n.virtualof with
  | none => exact hrelease
  | some master =>
    have hunlink := opens_unlinkNode (opens_modifyNode master fun n => {n with virtualHead := none})
    exact ((keeps_derefNode master).bind fun _ => keeps_get.bind fun _ =>
      hunlink node none _ _).bind fun _ => hrelease

/-- The symbolic links behind `serialFreeNode`. -/
def unplaced (w : World) (n : SerialNode) (remove : Option Errno) : CString → Option CString :=
  if nodeIsVirtual n=true ∧ remove=none then Function.update w.symlinks n.name none
  else w.symlinks

/-- A part of the state that a program keeps has the value behind it that it had before. -/
theorem Keeps.ensures {α γ : Type} {part : World → γ} {x : Prog α} (h : Keeps part x) (p : γ) :
    Ensures (fun s => part s=p) x (fun _ s => part s=p) fun _ _ => True := by
  intro s hs
  have hx := h s
  cases hr : x s with
  | ok a t => rw [hr] at hx; exact hx.trans hs
  | error e t => trivial

/-- A program that keeps the symbolic links leaves each of them as it was. -/
theorem ensures_symlinks {α : Type} {x : Prog α} (h : Keeps files x)
    (symlinks : CString → Option CString) : Ensures (fun s => s.symlinks=symlinks) x
      (fun _ s => s.symlinks=symlinks) fun _ _ => True :=
  have hpart : Keeps World.symlinks x := fun s => congrArg Prod.fst (h s)
  Keeps.ensures hpart symlinks

/-- `remove` takes the symbolic link away if it works, and changes nothing else about them. -/
theorem sysRemove_symlinks (path : CString) (remove : Option Errno)
    (symlinks : CString → Option CString) : Ensures (fun s => s.symlinks=symlinks)
      (sysRemove path remove) (fun _ s => s.symlinks=
        if remove=none then Function.update symlinks path none else symlinks) fun _ _ => True := by
  intro s hs
  cases remove with
  | none => exact congrArg (Function.update · path none) hs
  | some errno => exact hs

/-- `serialFreeNode` takes the symbolic link of a virtual away, if `remove` does. -/
theorem serialFreeNode_symlinks (hn : w.nodes node=some n)
    (hrun : serialFreeNode node remove w=.ok () t) : t.symlinks=unplaced w n remove := by
  have hp := filePart_files
  rw [serialFreeNode,bind_of_ok (derefNode_of_some hn)] at hrun
  have hrelease := fun symlinks => ensures_symlinks
    ((keeps_modifyNode hp node fun n => {n with virtualHead := none}).bind fun _ =>
      keeps_releaseNode hp node) symlinks
  have hvisit := ensures_symlinks (keeps_visitNodes
    (fun cur => keeps_modifyNode hp cur fun c => {c with virtualof := none}) n.virtualHead)
    w.symlinks
  refine (hvisit.bind (R:=fun _ t => t.symlinks=unplaced w n remove) fun _ => ?_).of_ok rfl hrun
  unfold unplaced
  by_cases hv : nodeIsVirtual n=true
  · simp only [hv,if_true,true_and]
    refine (sysRemove_symlinks n.name remove w.symlinks).bind fun _ => ?_
    cases n.virtualof with
    | none => exact hrelease _
    | some master =>
      exact (ensures_symlinks (keeps_serialRemoveVirtualNode hp master node) _).bind fun _ =>
        hrelease _
  · simp only [hv]
    exact hrelease _

end Freeing

/-- What the teardown of these nodes has given back. -/
structure GivenBack (w : World) (env : NodePtr → Option Errno) (done : List NodePtr) (t : World) :
    Prop where
  /-- The descriptors of their links are closed, and no others. -/
  openFds : ∀ fd,fd∈t.openFds ↔ fd∈w.openFds ∧ ∀ node∈done,∀ link,
    (nodeAt w node).link=some link → ¬ Owns (linkAt w link) fd
  /-- The symbolic links of the virtuals whose `remove` succeeds are gone, and no others. -/
  symlinks : ∀ path,t.symlinks path=
    if ∃ node∈done,nodeIsVirtual (nodeAt w node)=true ∧ (nodeAt w node).name=path ∧ env node=none
    then none else w.symlinks path

section Teardowns

variable {w s t u : World} {shape : Shape} {node : NodePtr} {done todo rest : List NodePtr}
variable {env : NodePtr → Option Errno} {n : SerialNode}

/-- At the start nothing is to be given back yet. -/
theorem givenBack_start (w : World) (env : NodePtr → Option Errno) : GivenBack w env [] w :=
  ⟨by simp,by simp⟩

/-- The node of the next turn is read with the flags it had at the start. -/
theorem Standing.flags (hc : Coherent shape w) (h : Standing w done t)
    (hsplit : termOrder shape=done++node::todo) :
    ∃ flags,serialEventFlags node t=.ok flags t := by
  obtain ⟨hd,g,hg,⟨hv,-⟩|⟨rfl,hall⟩⟩ := termOrder_split hc.topology hsplit
  · exact ⟨_,h.flags_virtual hc.topology hg hv hd⟩
  · exact ⟨_,h.flags_master hc.topology hg hd hall⟩

/-- Closing the link of a node closes its descriptors. -/
theorem closeNodeLink_gives (hc : Coherent shape w) (h : Standing w done t)
    (hn : w.nodes node=some n) (hsplit : termOrder shape=done++node::todo)
    (hrun : closeNodeLink node n.link t=.ok () u) : u.symlinks=t.symlinks ∧
      (∀ fd,fd∈u.openFds ↔ fd∈t.openFds ∧ ∀ link,n.link=some link → ¬ Owns (linkAt w link) fd) ∧
      ∃ m,u.nodes node=some m ∧ m.name=n.name ∧ nodeIsVirtual m=nodeIsVirtual n := by
  have hd := (termOrder_split hc.topology hsplit).1
  have hleft := h.nodes_some hn hd
  obtain ⟨flags,hflags⟩ := Standing.flags hc h hsplit
  cases hlink : n.link with
  | none =>
    rw [hlink,closeNodeLink,pure_apply,EStateM.Result.ok.injEq] at hrun
    rw [← hrun.2]
    exact ⟨rfl,by simp,_,hleft,rfl,rfl⟩
  | some link =>
    obtain ⟨ha,hl,ho⟩ := h.attached hc hn hd hlink
    have hclosed : (closeLink t link flags).nodes=Function.update t.nodes node
        (some {n with virtualHead := headAfter w done node, link := none}) := by
      rw [closeLink,ho,nodeAt_of_some hleft]
    have hself := (congrFun hclosed node).trans (Function.update_self _ _ _)
    have hfree := serialFreeLink_apply ha
      (show serialEventFlags (nodeOf t link) t=.ok flags t by rw [ho,hflags])
    rw [hlink,closeNodeLink,bind_of_ok hfree,modifyNode_of_some hself,EStateM.Result.ok.injEq] at hrun
    rw [← hrun.2]
    refine ⟨rfl,fun fd => ?_,_,Function.update_self _ _ _,rfl,rfl⟩
    change fd∈remainingFds t.openFds (linkAt t link) ↔ _
    rw [mem_remainingFds_iff ha.fd,hl]
    simp

/-- A turn of the teardown gives back what its node holds. -/
theorem termTurn_gives (hc : Coherent shape w) (h : Standing w done t)
    (hb : GivenBack w env done t) (hsplit : termOrder shape=done++node::todo)
    (hrun : termTurn w env node t=.ok () u) : GivenBack w env (done++[node]) u := by
  obtain ⟨hd,-⟩ := termOrder_split hc.topology hsplit
  have hmem : shape.Mem node := mem_termOrder.mp (by rw [hsplit]; simp)
  obtain ⟨n,hn⟩ := hc.topology.live_of_mem hmem
  have hat := nodeAt_of_some hn
  let t₁ := LinkEffects.record t t.errno [.log llInfo (termText n++n.name)]
  have hlog : Standing w done t₁ := h.record t.errno [.log llInfo (termText n++n.name)]
  rw [termTurn,hat,termNode_apply (h.nodes_some hn hd),bind_ok_iff] at hrun
  obtain ⟨_,s,hclose,hfree⟩ := hrun
  obtain ⟨hsym,hfds,m,hm,hname,hvirtual⟩ := closeNodeLink_gives hc hlog hn hsplit hclose
  have hopen : u.openFds=s.openFds := (opens_serialFreeNode node (env node)).ok hfree
  have hlinks := serialFreeNode_symlinks hm hfree
  refine ⟨fun fd => ?_,fun path => ?_⟩
  · rw [hopen,hfds]
    change fd∈t.openFds ∧ _ ↔ _
    rw [hb.openFds]
    simp only [List.mem_append,List.mem_singleton,or_imp,forall_and,forall_eq,hat,and_assoc]
  · have hs : s.symlinks=t.symlinks := hsym
    rw [hlinks,unplaced,hname,hvirtual,hs]
    by_cases hgone : nodeIsVirtual n=true ∧ env node=none
    · rw [if_pos hgone]
      by_cases hpath : path=n.name
      · have hex : ∃ node'∈done++[node],nodeIsVirtual (nodeAt w node')=true ∧
            (nodeAt w node').name=path ∧ env node'=none :=
          ⟨node,by simp,hat ▸ hgone.1,by rw [hat,hpath],hgone.2⟩
        rw [hpath,Function.update_self,if_pos (hpath ▸ hex)]
      · rw [Function.update_of_ne hpath,hb.symlinks]
        have hiff : (∃ node'∈done++[node],nodeIsVirtual (nodeAt w node')=true ∧
            (nodeAt w node').name=path ∧ env node'=none) ↔
            ∃ node'∈done,nodeIsVirtual (nodeAt w node')=true ∧
              (nodeAt w node').name=path ∧ env node'=none := by
          simp only [List.mem_append,List.mem_singleton,or_and_right,exists_or,exists_eq_left,hat,
            Ne.symm hpath,false_and,and_false,or_false]
        simp only [hiff]
    · rw [if_neg hgone,hb.symlinks]
      have hiff : (∃ node'∈done++[node],nodeIsVirtual (nodeAt w node')=true ∧
          (nodeAt w node').name=path ∧ env node'=none) ↔
          ∃ node'∈done,nodeIsVirtual (nodeAt w node')=true ∧
            (nodeAt w node').name=path ∧ env node'=none := by
        have hnot : ¬ (nodeIsVirtual n=true ∧ n.name=path ∧ env node=none) :=
          fun h => hgone ⟨h.1,h.2.2⟩
        simp only [List.mem_append,List.mem_singleton,or_and_right,exists_or,exists_eq_left,hat,
          hnot,or_false]
      simp only [hiff]

/-- By induction on the turns, each gives back what its node has. -/
theorem termTurns_give (hc : Coherent shape w) (h : Standing w done t)
    (hb : GivenBack w env done t) (hsplit : termOrder shape=done++(todo++rest))
    (hrun : termTurns w env todo t=.ok () u) : GivenBack w env (done++todo) u := by
  induction todo generalizing done t with
  | nil =>
    rw [termTurns,List.forM_eq_forM,List.forM_nil,pure_apply,EStateM.Result.ok.injEq] at hrun
    rw [List.append_nil,← hrun.2]
    exact hb
  | cons node todo ih =>
    obtain ⟨s,hturn,hs⟩ : ∃ s,termTurn w env node t=.ok () s ∧ Turned w done node t s :=
      termTurn_spec hc h hsplit
    rw [termTurns,List.forM_eq_forM,List.forM_cons,bind_of_ok hturn] at hrun
    have hrest := ih hs.standing (termTurn_gives hc h hb hsplit hturn) (by simpa using hsplit) hrun
    simpa using hrest

/-- `serialTerm` of a running daemon frees every node and link, closes every descriptor the
process did not start with, and takes every symbolic link away whose `remove` succeeds. -/
theorem serialTerm_restores (h : Running w) (env : NodePtr → Option Errno) : ∃ u,
    serialTerm env w=.ok () u ∧ (∀ node,u.nodes node=none) ∧ (∀ link,u.links link=none) ∧
      u.openFds=World.boot.openFds ∧ ∀ path target,u.symlinks path=some target →
        ∃ node n errno,w.nodes node=some n ∧ nodeIsVirtual n=true ∧ n.name=path ∧
          env node=some errno := by
  obtain ⟨shape,hc,hleak⟩ := running_noLeak h
  obtain ⟨u,hrun,hstand,-⟩ := serialTerm_spec hc env
  have hturns := hrun
  rw [serialTerm_eq hc env] at hturns
  have hsplit : termOrder shape=[]++(termOrder shape++[]) := (List.append_nil _).symm
  have hgiven := termTurns_give hc (.start w) (givenBack_start w env) hsplit hturns
  obtain ⟨hnodes,hlinks⟩ := empty_of_standing hc hstand
  refine ⟨u,hrun,hnodes,hlinks,?_,fun path target hpath => ?_⟩
  · ext fd
    rw [hgiven.openFds,hleak.exact,List.nil_append]
    constructor
    · rintro ⟨hbase|⟨link,l,hl,ho⟩,hall⟩
      · exact hbase
      · obtain ⟨node,hm,hlink,-⟩ := holder hc hl
        exact absurd (linkAt_of_some hl ▸ ho) (hall node hm link hlink)
    · refine fun hbase => ⟨.inl hbase,fun node _ link hlink ho => ?_⟩
      obtain ⟨l,hl,-⟩ := live_of_link hc hlink
      exact hleak.apart link l fd hl (linkAt_of_some hl ▸ ho) hbase
  · have hsym := hgiven.symlinks path
    rw [hpath,List.nil_append] at hsym
    split at hsym
    · exact absurd hsym (Option.some_ne_none _)
    · rename_i hkept
      obtain ⟨node,n,hn,hv,hname⟩ := running_virtualPaths h path target hsym.symm
      have hat := nodeAt_of_some hn
      have hmem : node∈termOrder shape := mem_termOrder.mpr (hc.topology.covered node n hn)
      cases henv : env node with
      | none => exact absurd ⟨node,hmem,by rw [hat,hv],by rw [hat,hname],henv⟩ hkept
      | some errno => exact ⟨node,n,errno,hn,hv,hname,henv⟩

/-- Every `remove` succeeds, so no symbolic link is left. -/
theorem serialTerm_restores_boot : ∃ u,serialTerm (fun _ => none) sampleBoot=.ok () u ∧
    u.openFds=World.boot.openFds ∧ ∀ path,u.symlinks path=none := by
  obtain ⟨u,hrun,-,-,hfds,hsym⟩ := serialTerm_restores sampleBoot_running fun _ => none
  refine ⟨u,hrun,hfds,fun path => ?_⟩
  cases hpath : u.symlinks path with
  | none => rfl
  | some target =>
    obtain ⟨node,n,errno,-,-,-,herr⟩ := hsym path target hpath
    exact absurd herr (Option.some_ne_none _).symm

end Teardowns

end SerialProxy.Shutdown
