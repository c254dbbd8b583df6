import SerialProxy.Teardown

/-!
# What the teardown releases

The calls of the teardown free every node and every live link once, close
every descriptor of a link once and remove the path of every virtual.
-/

namespace SerialProxy.Release

open FaultPrograms LinkedCells CText SerialState EventTable SerialNodes SerialLinks EventLoop
open NodeTopology LinkEffects LinkCoherence Iterations Teardown

section Counting

variable {α β : Type} [DecidableEq β] {f : α → List β} {b : β} {xs : List α} {a : α}

/-- What one element of a list without repetition contributes once, and no other
one contributes, occurs once. -/
theorem count_flatMap_of_unique (hn : xs.Nodup) (ha : a∈xs) (hone : (f a).count b=1)
    (hother : ∀ x∈xs,b∈f x → x=a) : (xs.flatMap f).count b=1 := by
  induction xs with
  | nil => simp at ha
  | cons x xs ih =>
    obtain ⟨hx,hn⟩ := List.nodup_cons.mp hn
    rw [List.flatMap_cons,List.count_append]
    rcases List.mem_cons.mp ha with rfl|ha
    · have hzero : (xs.flatMap f).count b=0 := by
        refine List.count_eq_zero_of_not_mem fun hb => ?_
        obtain ⟨y,hy,hby⟩ := List.mem_flatMap.mp hb
        exact hx (hother y (List.mem_cons_of_mem _ hy) hby ▸ hy)
      rw [hone,hzero]
    · have hzero : (f x).count b=0 := by
        refine List.count_eq_zero_of_not_mem fun hb => hx ?_
        rwa [hother x List.mem_cons_self hb]
      rw [hzero,ih hn ha fun y hy => hother y (List.mem_cons_of_mem _ hy)]

end Counting

/-- The calls of a teardown release everything that `w` holds exactly once. -/
structure Released (w : World) (shape : Shape) (calls : List Call) : Prop where
  /-- Every node is freed once. -/
  nodes : ∀ node,shape.Mem node → calls.count (.freeNode node)=1
  /-- Every live link is freed once. -/
  links : ∀ link l,w.links link=some l → calls.count (.freeLink link)=1
  /-- Every descriptor of a link is closed once. -/
  descriptors : ∀ link l fd,w.links link=some l → Owns l fd → calls.count (.close fd)=1
  /-- The path of every virtual is removed. -/
  paths : ∀ g∈shape,∀ v∈g.2,.remove (nodeAt w v).name∈calls
  /-- Nothing else is released. -/
  only : ∀ call∈calls,match call with
    | .freeNode node => shape.Mem node
    | .freeLink link => w.links link≠none
    | .close fd => ∃ link l,w.links link=some l ∧ Owns l fd
    | .remove path => ∃ g∈shape,∃ v∈g.2,path=(nodeAt w v).name
    | .log _ _ => True
    | _ => False

section Calls

variable {w : World} {shape : Shape} {node : NodePtr} {link : LinkPtr} {l : SerialLink} {fd : Fd}
variable {n : SerialNode} {call : Call}

theorem mem_closeCalls : call∈closeCalls link l ↔
    call=.close l.fd ∨ (l.sfd≠-1 ∧ call=.close l.sfd) ∨ call=.freeLink link := by
  rw [closeCalls]
  split <;> simp_all

theorem mem_termCalls : call∈termCalls w node ↔
    call=.log llInfo (termText (nodeAt w node)++(nodeAt w node).name) ∨
      call∈closingCalls w (nodeAt w node) ∨ call∈freeingCalls node (nodeAt w node) := by
  rw [termCalls,List.mem_cons,List.mem_append]

/-- A node is freed in its own turn. -/
theorem count_freeNode : (termCalls w node).count (.freeNode node)=1 := by
  have hclosing : (closingCalls w (nodeAt w node)).count (.freeNode node)=0 := by
    refine List.count_eq_zero_of_not_mem fun h => ?_
    rw [closingCalls] at h
    split at h
    · simp [mem_closeCalls] at h
    · simp at h
  rw [termCalls,List.count_cons_of_ne (by simp),List.count_append,hclosing,freeingCalls]
  split <;> simp

/-- A link is freed in the turn of its node. -/
theorem count_freeLink (hlink : (nodeAt w node).link=some link) :
    (termCalls w node).count (.freeLink link)=1 := by
  have hfreeing : (freeingCalls node (nodeAt w node)).count (.freeLink link)=0 := by
    rw [freeingCalls]
    split <;> simp
  rw [termCalls,List.count_cons_of_ne (by simp),List.count_append,hfreeing,
    closingCalls_some hlink,closeCalls]
  split <;> simp

/-- A descriptor is closed in the turn of its node. -/
theorem count_close (hlink : (nodeAt w node).link=some link) (hl : linkAt w link=l)
    (hside : l.sfd≠l.fd) (ho : Owns l fd) : (termCalls w node).count (.close fd)=1 := by
  have hfreeing : (freeingCalls node (nodeAt w node)).count (.close fd)=0 := by
    rw [freeingCalls]
    split <;> simp
  rw [termCalls,List.count_cons_of_ne (by simp),List.count_append,hfreeing,
    closingCalls_some hlink,hl,closeCalls]
  obtain ⟨hne,rfl|rfl⟩ := ho
  · split <;> simp [hside]
  · rw [if_pos hne]
    simp [hside.symm]

/-- A turn frees its own node only. -/
theorem eq_of_freeNode {other : NodePtr} (h : .freeNode other∈termCalls w node) : other=node := by
  rcases mem_termCalls.mp h with h|h|h
  · simp at h
  · rw [closingCalls] at h
    split at h
    · simp [mem_closeCalls] at h
    · simp at h
  · rw [freeingCalls] at h
    split at h <;> simpa using h

/-- A turn frees the link of its node only. -/
theorem link_of_freeLink (h : .freeLink link∈termCalls w node) :
    (nodeAt w node).link=some link := by
  rcases mem_termCalls.mp h with h|h|h
  · simp at h
  · rw [closingCalls] at h
    split at h
    · next other hother =>
      rw [hother]
      simpa [mem_closeCalls,eq_comm] using h
    · simp at h
  · rw [freeingCalls] at h
    split at h <;> simp at h

/-- A turn closes descriptors of the link of its node only. -/
theorem link_of_close (h : .close fd∈termCalls w node) : ∃ link,
    (nodeAt w node).link=some link ∧ (fd=(linkAt w link).fd ∨
      (linkAt w link).sfd≠-1 ∧ fd=(linkAt w link).sfd) := by
  rcases mem_termCalls.mp h with h|h|h
  · simp at h
  · rw [closingCalls] at h
    split at h
    · next link hlink => exact ⟨link,hlink,by simpa [mem_closeCalls] using h⟩
    · simp at h
  · rw [freeingCalls] at h
    split at h <;> simp at h

/-- The node that holds a live link. -/
theorem holder (hc : Coherent shape w) (hl : w.links link=some l) :
    ∃ node∈termOrder shape,(nodeAt w node).link=some link ∧ l.node=some node := by
  obtain ⟨node,n,hback,hn,hlink⟩ := hc.node_live hl
  exact ⟨node,mem_termOrder.mpr (hc.topology.covered node n hn),by rw [nodeAt_of_some hn,hlink],
    hback⟩

/-- The link of a node is live and points back to it. -/
theorem live_of_link (hc : Coherent shape w) (h : (nodeAt w node).link=some link) :
    ∃ l,w.links link=some l ∧ l.node=some node := by
  obtain ⟨n,hn,hlink⟩ := node_of_link h
  exact hc.linked node n link hn hlink

/-- A turn that closes a descriptor of a live link is the turn of its node. -/
theorem owner_of_close (hc : Coherent shape w) (h : .close fd∈termCalls w node) :
    ∃ link l,w.links link=some l ∧ Owns l fd ∧ l.node=some node := by
  obtain ⟨link,hlink,hfd⟩ := link_of_close h
  obtain ⟨l,hl,hback⟩ := live_of_link hc hlink
  rw [linkAt_of_some hl] at hfd
  refine ⟨link,l,hl,?_,hback⟩
  rcases hfd with rfl|⟨hne,rfl⟩
  · exact ⟨hc.connected link l hl,.inl rfl⟩
  · exact ⟨hne,.inr rfl⟩

/-- Closing the link of a node frees a live link or closes one of its descriptors. -/
theorem released_by_closing (hc : Coherent shape w) (h : call∈closingCalls w (nodeAt w node)) :
    (∃ link l,w.links link=some l ∧ call=.freeLink link) ∨
      ∃ link l fd,w.links link=some l ∧ Owns l fd ∧ call=.close fd := by
  have hclose : ∀ fd,call=.close fd → ∃ link l fd,w.links link=some l ∧ Owns l fd ∧
      call=.close fd := by
    rintro fd rfl
    obtain ⟨link,l,hl,ho,-⟩ := owner_of_close hc (mem_termCalls.mpr (.inr (.inl h)))
    exact ⟨link,l,fd,hl,ho,rfl⟩
  rw [closingCalls] at h
  split at h
  · next link hlink =>
    obtain ⟨l,hl,-⟩ := live_of_link hc hlink
    rcases mem_closeCalls.mp h with hcall|⟨-,hcall⟩|hcall
    · exact .inr (hclose _ hcall)
    · exact .inr (hclose _ hcall)
    · exact .inl ⟨link,l,hl,hcall⟩
  · simp at h

/-- Freeing a node frees its memory or removes the path of a virtual. -/
theorem released_by_freeing (ht : Topology w shape) (hm : shape.Mem node)
    (h : call∈freeingCalls node (nodeAt w node)) :
    call=.freeNode node ∨ ∃ g∈shape,∃ v∈g.2,call=.remove (nodeAt w v).name := by
  rw [freeingCalls] at h
  split at h
  · next hvirtual =>
    rcases List.mem_cons.mp h with rfl|h
    · obtain ⟨g,hg,hv⟩ := ht.owner_of_virtual hm hvirtual
      exact .inr ⟨g,hg,node,hv,rfl⟩
    · exact .inl (List.mem_singleton.mp h)
  · exact .inl (List.mem_singleton.mp h)

/-- The calls of the teardown release what the nodes and links hold. -/
theorem released (hc : Coherent shape w) :
    Released w shape ((termOrder shape).flatMap (termCalls w)) where
  nodes := fun node hm => count_flatMap_of_unique (termOrder_nodup hc.topology)
    (mem_termOrder.mpr hm) count_freeNode fun x _ hx => (eq_of_freeNode hx).symm
  links := by
    intro link l hl
    obtain ⟨node,hmem,hlink,hback⟩ := holder hc hl
    refine count_flatMap_of_unique (termOrder_nodup hc.topology) hmem (count_freeLink hlink) ?_
    intro x _ hx
    obtain ⟨l',hl',hback'⟩ := live_of_link hc (link_of_freeLink hx)
    rw [hl,Option.some.injEq] at hl'
    exact Option.some.inj (hback'.symm.trans (hl' ▸ hback))
  descriptors := by
    intro link l fd hl ho
    obtain ⟨node,hmem,hlink,hback⟩ := holder hc hl
    refine count_flatMap_of_unique (termOrder_nodup hc.topology) hmem
      (count_close hlink (linkAt_of_some hl) (hc.sides link l hl) ho) ?_
    intro x _ hx
    obtain ⟨link',l',hl',ho',hback'⟩ := owner_of_close hc hx
    obtain rfl := hc.separate link l link' l' fd hl hl' ho ho'
    rw [hl,Option.some.injEq] at hl'
    exact Option.some.inj (hback'.symm.trans (hl' ▸ hback))
  paths := by
    intro g hg v hv
    obtain ⟨n,hn,hf,-⟩ := hc.topology.virtual g hg v hv
    refine List.mem_flatMap.mpr ⟨v,mem_termOrder.mpr ⟨g,hg,.inr hv⟩,mem_termCalls.mpr (.inr (.inr ?_))⟩
    rw [freeingCalls,nodeAt_of_some hn,if_pos (nodeIsVirtual_of_flags hf)]
    exact List.mem_cons_self
  only := by
    intro call hm
    obtain ⟨node,hmem,hcall⟩ := List.mem_flatMap.mp hm
    have hnode := mem_termOrder.mp hmem
    rcases mem_termCalls.mp hcall with rfl|h|h
    · trivial
    · rcases released_by_closing hc h with ⟨link,l,hl,rfl⟩|⟨link,l,fd,hl,ho,rfl⟩
      · exact fun hnone => absurd (hnone.symm.trans hl) (by simp)
      · exact ⟨link,l,hl,ho⟩
    · rcases released_by_freeing hc.topology hnode h with rfl|⟨g,hg,v,hv,rfl⟩
      · exact hnode
      · exact ⟨g,hg,v,hv,rfl⟩

/-- After the teardown no node and no link is left. -/
theorem empty_of_standing {u : World} (hc : Coherent shape w) (h : Standing w (termOrder shape) u) :
    (∀ node,u.nodes node=none) ∧ ∀ link,u.links link=none := by
  constructor
  · intro node
    rw [h.nodes,nodesAfter]
    split
    · rfl
    · next hout =>
      cases hn : w.nodes node with
      | none => rfl
      | some n => exact absurd (mem_termOrder.mpr (hc.topology.covered node n hn)) hout
  · intro link
    rw [h.links,linksAfter]
    split
    · rfl
    · next hout =>
      cases hl : w.links link with
      | none => rfl
      | some l =>
        obtain ⟨node,hmem,hlink,-⟩ := holder hc hl
        exact absurd ⟨node,hmem,hlink⟩ hout

/-- The teardown of a running daemon returns without a fault and releases every node,
link, descriptor and path. -/
theorem serialTerm_releases (h : Running w) (env : NodePtr → Option Errno) : ∃ shape u calls,
    Topology w shape ∧ serialTerm env w=.ok () u ∧ u.trace=w.trace++calls ∧
      Released w shape calls ∧ (∀ node,u.nodes node=none) ∧ ∀ link,u.links link=none := by
  obtain ⟨shape,hc⟩ := running_coherent h
  obtain ⟨u,hrun,hs,htrace⟩ := serialTerm_spec hc env
  exact ⟨shape,u,_,hc.topology,hrun,htrace,released hc,empty_of_standing hc hs⟩

theorem serialTerm_releases_sample : ∃ shape u calls,Topology sampleBoot shape ∧
    serialTerm (fun _ => none) sampleBoot=.ok () u ∧ u.trace=sampleBoot.trace++calls ∧
      Released sampleBoot shape calls ∧ (∀ node,u.nodes node=none) ∧ ∀ link,u.links link=none :=
  serialTerm_releases sampleBoot_running _

end Calls

end SerialProxy.Release
