import SerialProxy.ConnectContract

/-!
# Which nodes a reconnect touches

A reconnect attempts every master without a link, and every virtual without a
link whose master is linked then. Each of them is attempted once, is linked
behind it exactly when its attempt succeeded, and everything else stays as it is.
-/

namespace SerialProxy.ReconnectContract

open FaultPrograms SerialState EventTable SerialNodes SerialLinks EventLoop NodeTopology
open LinkCoherence ConnectEffects ConnectOutcomes Reconnection Iterations ConnectContract

/-- The node has a link. -/
def Linked (w : World) (node : NodePtr) : Prop := (nodeAt w node).link.isSome=true

instance (w : World) (node : NodePtr) : Decidable (Linked w node) :=
  inferInstanceAs (Decidable (_=true))

/-- What one reconnect from `w` to `t` has done. -/
structure Reconnected (shape : Shape) (w : World) (env : NodePtr → ConnectResults)
    (t : World) : Prop where
  /-- A node with a link keeps it, with descriptors, buffer and registration. -/
  kept : ∀ node n link,w.nodes node=some n → n.link=some link → t.nodes node=some n ∧
    ∃ l,w.links link=some l ∧ t.links link=some l ∧ t.events l.fd=w.events l.fd
  /-- A master is attempted once if it had no link, a virtual if it had no link and its
  master has one at the end, and no other node. -/
  attempted : ∃ nodes,attempts t.trace=attempts w.trace++nodes ∧
    (∀ g∈shape,nodes.count g.1=if Linked w g.1 then 0 else 1) ∧
    (∀ g∈shape,∀ v∈g.2,nodes.count v=if ¬ Linked w v ∧ Linked t g.1 then 1 else 0) ∧
    ∀ node∈nodes,shape.Mem node
  /-- A master without a link has one at the end exactly when its attempt succeeds. -/
  master : ∀ g∈shape,¬ Linked w g.1 →
    (Linked t g.1 ↔ attemptWorks (nodeAt w g.1) (env g.1)=true)
  /-- A virtual without a link has one at the end exactly when it is attempted with success. -/
  virtual : ∀ g∈shape,∀ v∈g.2,¬ Linked w v →
    (Linked t v ↔ Linked t g.1 ∧ attemptWorks (nodeAt w v) (env v)=true)

section Attempted

variable {env : NodePtr → ConnectResults} {w t : World} {shape : Shape} {node : NodePtr}
variable {g : NodePtr×List NodePtr} {nodes : List NodePtr} {n : SerialNode}

theorem mem_unlinked : node∈unlinked w nodes ↔ node∈nodes ∧ ¬ Linked w node := by
  rw [unlinked,List.mem_filter,Linked,Option.not_isSome_iff_eq_none,Option.isNone_iff_eq_none]

/-- The attempts are on different nodes. -/
theorem attemptOrder_nodup (ht : Topology w shape) : (attemptOrder w env shape).Nodup := by
  obtain ⟨hgroup,hpair⟩ := List.nodup_flatMap.mp ht.nodes_nodup
  refine List.nodup_flatMap.mpr ⟨fun g hg => ?_,hpair.imp fun h node hm hm' =>
    h (mem_of_groupAttempts hm) (mem_of_groupAttempts hm')⟩
  have hfirst : (unlinked w [g.1]).Nodup := (List.nodup_singleton g.1).filter _
  unfold groupAttempts
  split
  · refine List.nodup_append.mpr ⟨hfirst,(List.nodup_cons.mp (hgroup g hg)).2.filter _,?_⟩
    rintro a ha b hb rfl
    rw [List.mem_singleton.mp (mem_of_unlinked ha)] at hb
    exact (List.nodup_cons.mp (hgroup g hg)).1 (mem_of_unlinked hb)
  · rw [List.append_nil]
    exact hfirst

theorem master_mem_attemptOrder (ht : Topology w shape) (hg : g∈shape) :
    g.1∈attemptOrder w env shape ↔ ¬ Linked w g.1 := by
  constructor
  · intro hm
    obtain ⟨g',hg',hm⟩ := List.mem_flatMap.mp hm
    rcases List.mem_append.mp hm with hm|hm
    · rw [mem_unlinked,List.mem_singleton] at hm
      exact hm.2
    · split at hm
      · exact absurd rfl (ht.master_ne_virtual hg hg' (mem_of_unlinked hm))
      · exact absurd hm List.not_mem_nil
  · intro hfree
    exact List.mem_flatMap.mpr ⟨g,hg,List.mem_append_left _
      (mem_unlinked.mpr ⟨List.mem_singleton_self _,hfree⟩)⟩

theorem virtual_mem_attemptOrder (ht : Topology w shape) (hg : g∈shape) (hv : node∈g.2) :
    node∈attemptOrder w env shape ↔ ¬ Linked w node ∧ connects w env g.1=true := by
  constructor
  · intro hm
    obtain ⟨g',hg',hm⟩ := List.mem_flatMap.mp hm
    rcases List.mem_append.mp hm with hm|hm
    · exact absurd (List.mem_singleton.mp (mem_of_unlinked hm)).symm
        (ht.master_ne_virtual hg' hg hv)
    · split at hm
      · rename_i hconnects
        obtain rfl := ht.eq_of_virtual hg hg' hv (mem_of_unlinked hm)
        exact ⟨(mem_unlinked.mp hm).2,hconnects⟩
      · exact absurd hm List.not_mem_nil
  · rintro ⟨hfree,hconnects⟩
    refine List.mem_flatMap.mpr ⟨g,hg,List.mem_append_right _ ?_⟩
    rw [if_pos hconnects]
    exact mem_unlinked.mpr ⟨hv,hfree⟩

/-- A node that was attempted is linked exactly when its attempt succeeds. -/
theorem linked_of_attempted (h : AttemptRun env w nodes t) (hm : node∈nodes) :
    Linked t node ↔ attemptWorks (nodeAt w node) (env node)=true := by
  obtain ⟨n,link,hn,-,ht,hworks⟩ := h.linked hm
  rw [Linked,nodeAt_of_some ht,nodeAt_of_some hn,← hworks]

/-- A node that was not attempted is linked exactly when it was before. -/
theorem linked_of_not_attempted (h : AttemptRun env w nodes t) (hm : node∉nodes) :
    Linked t node ↔ Linked w node := by
  rw [Linked,Linked,nodeAt,nodeAt,h.others hm]

/-- The masters that have a link at the end. -/
theorem linked_master (hc : Coherent shape w) (h : AttemptRun env w (attemptOrder w env shape) t)
    (hg : g∈shape) : Linked t g.1 ↔ connects w env g.1=true := by
  have hmem : g.1∈attemptOrder w env shape ↔ ¬ Linked w g.1 :=
    master_mem_attemptOrder hc.topology hg
  rw [connects,Bool.or_eq_true]
  by_cases hl : Linked w g.1
  · rw [linked_of_not_attempted h fun hm => hmem.mp hm hl]
    exact iff_of_true hl (.inl hl)
  · rw [linked_of_attempted h (hmem.mpr hl)]
    exact ⟨.inr,fun h => h.resolve_left hl⟩

/-- A run of attempts in the order of the lists does what a reconnect should. -/
theorem reconnected_of_run (hc : Coherent shape w)
    (h : AttemptRun env w (attemptOrder w env shape) t) : Reconnected shape w env t where
  kept := by
    intro node n link hn hlink
    obtain ⟨l,hl,-⟩ := hc.linked node n link hn hlink
    have hnot : node∉attemptOrder w env shape := by
      intro hm
      obtain ⟨n',-,hn',hfree,-⟩ := h.linked hm
      rw [hn,Option.some.injEq] at hn'
      rw [← hn',hlink] at hfree
      exact absurd hfree (Option.some_ne_none link)
    have hgrown := (h.growing hc).grown
    exact ⟨(h.others hnot).trans hn,l,hl,hgrown.links link l hl,hgrown.kept link l hl⟩
  attempted := by
    refine ⟨_,h.attempts,fun g hg => ?_,fun g hg v hv => ?_,fun node hm => ?_⟩
    · rw [(attemptOrder_nodup hc.topology).count]
      simp only [master_mem_attemptOrder hc.topology hg,ite_not]
    · rw [(attemptOrder_nodup hc.topology).count]
      simp only [virtual_mem_attemptOrder hc.topology hg hv,linked_master hc h hg]
    · obtain ⟨g,hg,hm⟩ := List.mem_flatMap.mp (mem_of_attemptOrder hm)
      exact ⟨g,hg,List.mem_cons.mp hm⟩
  master := by
    intro g hg hfree
    exact linked_of_attempted h ((master_mem_attemptOrder hc.topology hg).mpr hfree)
  virtual := by
    intro g hg v hv hfree
    have hmem : v∈attemptOrder w env shape ↔ ¬ Linked w v ∧ connects w env g.1=true :=
      virtual_mem_attemptOrder hc.topology hg hv
    rw [linked_master hc h hg]
    by_cases hconnects : connects w env g.1=true
    · rw [linked_of_attempted h (hmem.mpr ⟨hfree,hconnects⟩)]
      exact ⟨fun hw => ⟨hconnects,hw⟩,And.right⟩
    · rw [linked_of_not_attempted h fun hm => hconnects (hmem.mp hm).2]
      exact iff_of_false hfree fun hw => hconnects hw.1

/-- Attempts that all succeed link every node. -/
theorem all_linked (h : Reconnected shape w env t)
    (hworks : ∀ node,shape.Mem node → attemptWorks (nodeAt w node) (env node)=true)
    (hkept : ∀ node,Linked w node → Linked t node) (hm : shape.Mem node) : Linked t node := by
  by_cases hl : Linked w node
  · exact hkept node hl
  · have hmaster : ∀ g∈shape,Linked t g.1 := by
      intro g hg
      by_cases hlg : Linked w g.1
      · exact hkept g.1 hlg
      · exact (h.master g hg hlg).mpr (hworks g.1 ⟨g,hg,.inl rfl⟩)
    obtain ⟨g,hg,rfl|hv⟩ := id hm
    · exact hmaster g hg
    · exact (h.virtual g hg node hv hl).mpr ⟨hmaster g hg,hworks node hm⟩

/-- Nothing is done for a virtual that has a link. -/
theorem reconnectVirtual_linked (hn : t.nodes node=some n) (hl : Linked t node) :
    reconnectVirtual env node t=.ok () t := by
  rw [Linked,nodeAt_of_some hn] at hl
  obtain ⟨link,hlink⟩ := Option.isSome_iff_exists.mp hl
  rw [reconnectVirtual,bind_of_ok (derefNode_of_some hn),hlink]
  rfl

/-- Nothing is done for a master that has a link. -/
theorem reconnectSerial_linked (hn : t.nodes node=some n) (hl : Linked t node) :
    reconnectSerial env node t=.ok true t := by
  rw [Linked,nodeAt_of_some hn] at hl
  obtain ⟨link,hlink⟩ := Option.isSome_iff_exists.mp hl
  rw [reconnectSerial,bind_of_ok (derefNode_of_some hn),hlink]
  rfl

/-- A reconnect of a tree in which every node has a link changes nothing. -/
theorem serialReconnect_linked (ht : Topology t shape) (hl : ∀ node,shape.Mem node → Linked t node)
    (env : NodePtr → ConnectResults) : serialReconnect env t=.ok () t := by
  have hrule := visitMasters_rule (E:=fun _ _ => False) (reconnectMaster env) ht
    (fun _ s => s=t) (fun _ _ hs => hs ▸ .refl t) fun done g todo hsplit => by
      rintro _ rfl
      have hg : g∈shape := hsplit ▸ by simp
      obtain ⟨m,hm,-,-,hchain⟩ := ht.master g hg
      rw [reconnectMaster,bind_of_ok (reconnectSerial_linked hm (hl g.1 ⟨g,hg,.inl rfl⟩)),
        if_pos rfl,bind_of_ok (derefNode_of_some hm)]
      refine visitNodes_rule (E:=fun _ _ => False) (reconnectVirtual env) (fun _ s => s=_)
        (fun _ _ hs => hs ▸ .refl _) (fun vs v rest hvs => ?_) hchain
        (ht.virtuals_length hg) _ rfl
      rintro _ rfl
      have hmem : shape.Mem v := ⟨g,hg,.inr (hvs ▸ by simp)⟩
      obtain ⟨n,hn⟩ := ht.live_of_mem hmem
      rw [reconnectVirtual_linked hn (hl v hmem)]
  simp only [serialReconnect,bind_apply,get_apply]
  cases hx : visitNodes (reconnectMaster env) t.masterHead t with
  | error f s => exact absurd (hrule.of_error rfl hx) id
  | ok _ s => rw [hrule.of_ok rfl hx]

/-- A reconnect returns and touches exactly the nodes it should. If all attempts succeed
then every node is linked, and a second reconnect changes nothing. -/
theorem serialReconnect_contract (hc : Coherent shape w) (env : NodePtr → ConnectResults) :
    ∃ t,serialReconnect env w=.ok () t ∧ Reconnected shape w env t ∧
      ((∀ node,shape.Mem node → attemptWorks (nodeAt w node) (env node)=true) →
        (∀ node,shape.Mem node → Linked t node) ∧
          ∀ env',serialReconnect env' t=.ok () t) := by
  obtain ⟨t,hx,hrun⟩ := serialReconnect_attempts hc env
  have hr := reconnected_of_run hc hrun
  refine ⟨t,hx,hr,fun hworks => ?_⟩
  have hall : ∀ node,shape.Mem node → Linked t node := fun node hm => by
    refine all_linked hr hworks (fun node hl => ?_) hm
    cases hn : w.nodes node with
    | none => simp [Linked,nodeAt,hn,newNode] at hl
    | some n =>
      obtain ⟨link,hlink⟩ := Option.isSome_iff_exists.mp hl
      rw [nodeAt_of_some hn] at hlink
      rw [Linked,nodeAt_of_some (hr.kept node n link hn hlink).1,hlink]
      rfl
  exact ⟨hall,serialReconnect_linked (hrun.growing hc).coherent.topology hall⟩

theorem serialReconnect_contract_boot : ∃ shape,Coherent shape unconnectedBoot ∧
    ∃ t,serialReconnect (fun _ => workingConnect) unconnectedBoot=.ok () t ∧
      Reconnected shape unconnectedBoot (fun _ => workingConnect) t ∧
      ((∀ node,shape.Mem node → attemptWorks (nodeAt unconnectedBoot node) workingConnect=true) →
        (∀ node,shape.Mem node → Linked t node) ∧
          ∀ env',serialReconnect env' t=.ok () t) := by
  obtain ⟨shape,hc⟩ := running_coherent unconnectedBoot_running
  exact ⟨shape,hc,serialReconnect_contract hc fun _ => workingConnect⟩

end Attempted

end SerialProxy.ReconnectContract
