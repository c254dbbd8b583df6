import SerialProxy.LoadedTopology

/-!
# Writers of a loaded master

The callback of the key `writer` only ever adds the writer flag. A section
whose writer entries name two of its virtuals ends up with two writers, both
registered for reading, of which the lookup of the writer finds the one that
was added last. Entries that name one virtual for each section give every
master one writer at most, and then it is the virtual that is registered for
reading, the one the lookup finds and the one whose bytes are written to the
master.
-/

namespace SerialProxy.MasterWriters

open FaultPrograms LinkedCells CText SerialState EventTable SerialNodes SerialLinks SerialConfig
open DeviceConfig NodeTopology ConfigLoading LoadedTopology

/-- A node is registered for reading while it is connected. -/
def ReadableNode (w : World) (node : NodePtr) : Prop := eventFlags w node &&& aeReadable≠0

/-- A master has one writer at most. -/
structure OneWriter (w : World) (g : NodePtr×List NodePtr) : Prop where
  /-- No two of its virtuals have the writer flag. -/
  unique : ∀ u∈g.2,∀ v∈g.2,nodeIsWriter (nodeAt w u)=true → nodeIsWriter (nodeAt w v)=true → u=v
  /-- A virtual registered for reading is the one the lookup finds. -/
  found : ∀ v∈g.2,ReadableNode w v → serialGetVirtualWriterNode g.1 w=.ok (some v) w
  /-- It is the one whose bytes are written to the master, in any state with these devices. -/
  source : ∀ v∈g.2,ReadableNode w v → ∀ t link l result,SameDevices w t → t.links link=some l →
    l.node=some g.1 →
      serialWriteHandler link result t=serialWriteLink (nodeAt t v).link link result t

/-- All writer entries of a section that take effect name the same virtual. -/
def SingleWriters (entries : List ConfigEntry) : Prop :=
  ∀ s t t',EffectiveWriter s t entries → EffectiveWriter s t' entries → t=t'

section Names

variable {s : CString} {entries : List ConfigEntry} {e : ConfigEntry} {tree : DeviceTree}
variable {d d' : MasterDevice} {v : VirtualDevice} {t : CString}

/-- The loop over the tokens only returns when every path fits. -/
theorem fits_of_addTokens {tokens : List CString} (h : tokens.foldlM (addToken s) d=some d')
    (ht : t∈tokens) : (virtualPath s t).length<pathMax := by
  induction tokens generalizing d with
  | nil => simp at ht
  | cons token tokens ih =>
    rw [List.foldlM_cons,Option.bind_eq_bind,Option.bind_eq_some_iff] at h
    obtain ⟨d₁,hadd,hrest⟩ := h
    rcases List.mem_cons.mp ht with rfl|ht
    · obtain ⟨name,hname,-⟩ := Option.map_eq_some_iff.mp hadd
      rw [← serialVirtualName_some hname]
      exact serialVirtualName_lt hname
    · exact ih hrest ht

/-- An accepted virtuals entry names paths that fit. -/
theorem fits_of_updateMaster (hk : e.isVirtuals=true) (h : updateMaster e d=some d')
    (ht : t∈strtokSpace e.value) : (virtualPath e.sectionName t).length<pathMax := by
  rw [updateMaster,if_neg (by simp [not_isBaudrate_of_isVirtuals hk]),if_pos hk] at h
  exact fits_of_addTokens h ht

/-- Every accepted entry was applied to some master. -/
theorem updateMaster_of_applyEntry {tree' : DeviceTree} (h : applyEntry tree e=some tree') :
    ∃ d d',updateMaster e d=some d' := by
  rcases updateSection_some h with ⟨-,d,hd,-⟩|⟨-,d,-,d',-,-,-,hd,-⟩
  · exact ⟨_,d,hd⟩
  · exact ⟨d,d',hd⟩

/-- The paths of all tokens of a described tree fit. -/
theorem fits_of_treeOf (h : treeOf entries=some tree) (ht : t∈tokensOf s entries) :
    (virtualPath s t).length<pathMax := by
  induction entries using List.reverseRecOn generalizing tree with
  | nil => simp [tokensOf] at ht
  | append_singleton entries e ih =>
    rw [treeOf_snoc,Option.bind_eq_some_iff] at h
    obtain ⟨tree₀,h₀,hx⟩ := h
    rw [tokensOf_snoc,List.mem_append] at ht
    rcases ht with ht|ht
    · exact ih h₀ ht
    · split at ht
      · next hk =>
        obtain ⟨d,d',hd⟩ := updateMaster_of_applyEntry hx
        rw [← hk.1]
        exact fits_of_updateMaster hk.2 hd ht
      · simp at ht

/-- A name with room for a suffix is not the cut of a longer one. -/
theorem untruncated_of_length (h : s.length+1<pathMax) : Untruncated s entries := by
  refine ⟨by omega,fun e _ hn => ?_⟩
  have hlen := congrArg List.length hn
  rw [strlcpy,List.length_take] at hlen
  rw [← hn]
  exact (strlcpy_of_lt (by omega)).symm

theorem untruncated_of_fits (h : (virtualPath s t).length<pathMax) : Untruncated s entries := by
  refine untruncated_of_length ?_
  rw [virtualPath,List.length_append,List.length_cons] at h
  omega

/-- Only a section with room for a suffix adds virtuals. -/
theorem length_of_updateMaster (h : updateMaster e d=some d') (hv : v∈d'.virtuals) :
    d.virtuals≠[] ∨ e.sectionName.length+1<pathMax := by
  unfold updateMaster at h
  split at h
  · rw [Option.some.injEq] at h
    subst h
    exact .inl (List.ne_nil_of_mem hv)
  · split at h
    · rcases ((extended_of_tokens h).names v.name).mp ⟨v,hv,rfl⟩ with ⟨u,hu,-⟩|⟨t,ht,-⟩
      · exact .inl (List.ne_nil_of_mem hu)
      · have hfit := fits_of_addTokens h ht
        rw [virtualPath,List.length_append,List.length_cons] at hfit
        exact .inr (by omega)
    · split at h
      · obtain ⟨name,-,rfl⟩ := Option.map_eq_some_iff.mp h
        obtain ⟨u,hu,-⟩ := List.mem_map.mp hv
        exact .inl (List.ne_nil_of_mem hu)
      · rw [Option.some.injEq] at h
        subst h
        exact .inl (List.ne_nil_of_mem hv)

/-- A master with virtuals has a name that leaves room for a suffix. -/
theorem length_of_virtuals (h : treeOf entries=some tree) :
    ∀ d∈tree,d.virtuals≠[] → d.name.length+1<pathMax := by
  refine forall_treeOf (fun e _ d hd hne => ?_) (fun e _ d d' hold hname hd hne => ?_) h
  · obtain ⟨v,hv⟩ := List.exists_mem_of_ne_nil _ hne
    rcases length_of_updateMaster hd hv with hnil|hlen
    · exact absurd rfl hnil
    · rw [updateMaster_name hd]
      exact lt_of_le_of_lt (Nat.add_le_add_right (List.length_take_le' _ _) 1) hlen
  · obtain ⟨v,hv⟩ := List.exists_mem_of_ne_nil _ hne
    rw [updateMaster_name hd]
    rcases length_of_updateMaster hd hv with hne₀|hlen
    · exact hold hne₀
    · rwa [hname]

/-- A master with virtuals is what the entries of its section describe. -/
theorem describedBy_of_virtual (h : treeOf entries=some tree) (hd : d∈tree) (hv : v∈d.virtuals) :
    DescribedBy d.name entries d :=
  (describedBy_of_mem (untruncated_of_length
    (length_of_virtuals h d hd (List.ne_nil_of_mem hv))) h hd).2

/-- The virtual of an effective writer entry is in the tree, marked. -/
theorem virtual_of_effectiveWriter (h : treeOf entries=some tree)
    (he : EffectiveWriter s t entries) : ∃ d∈tree,mastersNamed s tree=[d] ∧
      ∃ v∈d.virtuals,v.name=virtualPath s t ∧ v.writer=true := by
  have hc := configured_treeOf (untruncated_of_fits (fits_of_treeOf h he.mem_tokens)) h
  have hs : s∈entries.map ConfigEntry.sectionName := by
    obtain ⟨before,e,after,rfl,rfl,-⟩ := he
    simp
  rw [Configured,if_pos hs] at hc
  obtain ⟨d,hd,hdesc⟩ := hc
  have hmem : d∈tree := (List.mem_filter.mp (hd ▸ List.mem_cons_self : d∈mastersNamed s tree)).1
  obtain ⟨v,hv,hname⟩ := (hdesc.names _).mpr ⟨t,he.mem_tokens,rfl⟩
  exact ⟨d,hmem,hd,v,hv,hname,(hdesc.writers v hv).mpr ⟨t,hname,he⟩⟩

end Names

section Writers

variable {w : World} {shape : Shape} {tree : DeviceTree} {entries : List ConfigEntry}
variable {g : NodePtr×List NodePtr} {d : MasterDevice}

/-- The virtuals registered for reading are the writers. -/
theorem readableNode_iff (ht : Topology w shape) (hg : g∈shape) {v : NodePtr} (hv : v∈g.2) :
    ReadableNode w v ↔ nodeIsWriter (nodeAt w v)=true := by
  rw [ReadableNode,eventFlags_virtual ht hg hv]
  split
  · next h => exact iff_of_true (by decide) h
  · next h => exact iff_of_false (by decide) h

/-- The write side of a master copies from the writer the lookup finds. -/
theorem serialWriteHandler_master (ht : Topology w shape) (hg : g∈shape) {v : NodePtr}
    (hw : writerOf w g.2=some v) {link : LinkPtr} {l : SerialLink} {result : WriteResult}
    (hl : w.links link=some l) (hnode : l.node=some g.1) :
    serialWriteHandler link result w=serialWriteLink (nodeAt w v).link link result w := by
  obtain ⟨m,hm,hf,-⟩ := ht.master g hg
  obtain ⟨n,hn,-⟩ := ht.virtual g hg v (writerOf_some hw).1
  have hderef : derefLink link w=.ok l w := by simp [derefLink,hl]
  simp only [serialWriteHandler,bind_apply,hderef,hnode,nonNull,pure_apply,derefNode_of_some hm,
    not_nodeIsVirtual_of_flags hf,nodeIsMaster_of_flags hf,Bool.false_eq_true,if_false,if_true,
    serialGetVirtualWriterNode_apply ht hg,hw,derefNode_of_some hn,nodeAt_of_some hn]

/-- A master without two writers has one writer at most, for registration and forwarding alike. -/
theorem oneWriter_of_unique (ht : Topology w shape) (hg : g∈shape)
    (hu : ∀ u∈g.2,∀ v∈g.2,nodeIsWriter (nodeAt w u)=true → nodeIsWriter (nodeAt w v)=true → u=v) :
    OneWriter w g := by
  have hfound : ∀ v∈g.2,ReadableNode w v → writerOf w g.2=some v := by
    intro v hv hr
    have hw := (readableNode_iff ht hg hv).mp hr
    cases hwr : writerOf w g.2 with
    | none => exact absurd hw (by simpa using List.find?_eq_none.mp hwr v hv)
    | some u =>
      obtain ⟨hu',hwu⟩ := writerOf_some hwr
      rw [hu u hu' v hv hwu hw]
  refine ⟨hu,fun v hv hr => ?_,fun v hv hr t link l result hs hl hnode => ?_⟩
  · rw [serialGetVirtualWriterNode_apply ht hg,hfound v hv hr]
  · have hwr : writerOf t g.2=some v := by rw [writerOf_congr hs,hfound v hv hr]
    exact serialWriteHandler_master (hs.topology ht) hg hwr hl hnode

/-- Writers of one master that single writer entries name are the same. -/
theorem unique_of_singleWriters (h : treeOf entries=some tree) (hr : Represents w shape tree)
    (hs : SingleWriters entries) (hg : g∈shape) : ∀ u∈g.2,∀ v∈g.2,
      nodeIsWriter (nodeAt w u)=true → nodeIsWriter (nodeAt w v)=true → u=v := by
  intro u hu v hv hwu hwv
  obtain ⟨d,hd,hdesc⟩ := matched_left hr.described hg
  obtain ⟨du,hdu,hnu,hfu⟩ := matched_left hdesc.2.2 hu
  obtain ⟨dv,hdv,hnv,hfv⟩ := matched_left hdesc.2.2 hv
  have hby := describedBy_of_virtual h hd hdu
  obtain ⟨t,ht,het⟩ := (hby.writers du hdu).mp (hfu ▸ hwu)
  obtain ⟨t',ht',het'⟩ := (hby.writers dv hdv).mp (hfv ▸ hwv)
  have hname : nameAt w u=nameAt w v := by
    rw [nameAt,nameAt,hnu,hnv,ht,ht',hs _ _ _ het het']
  have hnodup : (g.2.map (nameAt w)).Nodup := by
    rw [virtual_names hdesc]
    exact hby.nodup
  exact List.inj_on_of_nodup_map hnodup hu hv hname

/-- Unequal writer entries of a section leave its master with unequal writers. -/
theorem singleWriters_of_unique (h : treeOf entries=some tree) (hr : Represents w shape tree)
    (hu : ∀ g∈shape,OneWriter w g) : SingleWriters entries := by
  intro s t t' het het'
  obtain ⟨d,hd,hnamed,v,hv,hn,hw⟩ := virtual_of_effectiveWriter h het
  obtain ⟨d',-,hnamed',v',hv',hn',hw'⟩ := virtual_of_effectiveWriter h het'
  obtain rfl : d=d' := by simpa using hnamed.symm.trans hnamed'
  obtain ⟨g,hg,hdesc⟩ := matched_right hr.described hd
  obtain ⟨a,ha,hna,hfa⟩ := matched_right hdesc.2.2 hv
  obtain ⟨b,hb,hnb,hfb⟩ := matched_right hdesc.2.2 hv'
  obtain rfl := (hu g hg).unique a ha b hb (hfa.trans hw) (hfb.trans hw')
  exact virtualPath_inj (hn.symm.trans (hna.symm.trans (hnb.trans hn')))

/-- Every loaded master has one writer at most exactly when all writer entries of
a section that take effect name the same virtual. -/
theorem one_writer_iff (h : loadEntries entries World.boot=.ok () w) :
    ∃ shape,Topology w shape ∧ ((∀ g∈shape,OneWriter w g) ↔ SingleWriters entries) := by
  obtain ⟨tree,shape,ht,-,hr⟩ := loadEntries_boot h
  refine ⟨shape,hr.topology,singleWriters_of_unique ht hr,fun hs g hg => ?_⟩
  exact oneWriter_of_unique hr.topology hg (unique_of_singleWriters ht hr hs hg)

theorem one_writer_iff_sample : ∃ w shape,loadEntries sampleEntries World.boot=.ok () w ∧
    Topology w shape ∧ ∀ g∈shape,OneWriter w g := by
  have hload := eq_ok_of_returns (r:=loadEntries sampleEntries World.boot) (by decide +kernel)
  obtain ⟨shape,ht,hiff⟩ := one_writer_iff hload
  refine ⟨_,shape,hload,ht,hiff.mpr ?_⟩
  have hvalue : ∀ e∈sampleEntries,e.isWriter=true → e.value="a".toList := by decide
  rintro s t t' ⟨_,e,_,he,-,hw,rfl,-⟩ ⟨_,e',_,he',-,hw',rfl,-⟩
  rw [hvalue e (he ▸ by simp) hw,hvalue e' (he' ▸ by simp) hw']

/-- One device with two virtuals, both named by writer entries. -/
def overridingEntries : List ConfigEntry :=
  sampleEntries++[⟨"/dev/ttyS5".toList,"writer".toList,"b".toList⟩]

/-- The second writer entry does not take the flag from the first writer. -/
theorem overriding_keeps_both : ∃ w shape g u v,
    loadEntries overridingEntries World.boot=.ok () w ∧ Topology w shape ∧ g∈shape ∧
    u∈g.2 ∧ v∈g.2 ∧ u≠v ∧ nodeIsWriter (nodeAt w u)=true ∧ nodeIsWriter (nodeAt w v)=true ∧
    ReadableNode w u ∧ serialGetVirtualWriterNode g.1 w=.ok (some v) w := by
  obtain ⟨w,hload⟩ : ∃ w,loadEntries overridingEntries World.boot=.ok () w :=
    ⟨_,eq_ok_of_returns (by decide +kernel)⟩
  obtain ⟨tree,shape,ht,-,hr⟩ := loadEntries_boot hload
  obtain rfl : tree=[⟨"/dev/ttyS5".toList,9600,
      [⟨"/dev/ttyS5.b".toList,true⟩,⟨"/dev/ttyS5.a".toList,true⟩]⟩] :=
    Option.some.inj (ht.symm.trans (by decide +kernel))
  obtain ⟨g,hg,-,-,hvs⟩ := matched_right hr.described List.mem_cons_self
  obtain ⟨v,u,hgv,⟨hnv,hwv⟩,hnu,hwu⟩ : ∃ v u,g.2=[v,u] ∧
      DescribesVirtual w v ⟨"/dev/ttyS5.b".toList,true⟩ ∧
      DescribesVirtual w u ⟨"/dev/ttyS5.a".toList,true⟩ := by
    obtain ⟨v,vs,hv,hvs,hcons⟩ := List.forall₂_cons_right_iff.mp hvs
    obtain ⟨u,us,hu,hus,hcons'⟩ := List.forall₂_cons_right_iff.mp hvs
    rw [List.forall₂_nil_right_iff] at hus
    exact ⟨v,u,by rw [hcons,hcons',hus],hv,hu⟩
  have hne : u≠v := by
    rintro rfl
    exact absurd (hnv.symm.trans hnu) (by decide)
  have huin : u∈g.2 := by simp [hgv]
  refine ⟨_,shape,g,u,v,hload,hr.topology,hg,huin,by simp [hgv],hne,hwu,hwv,
    (readableNode_iff hr.topology hg huin).mpr hwu,?_⟩
  rw [serialGetVirtualWriterNode_apply hr.topology hg,writerOf,hgv,
    List.find?_cons_of_pos (p:=fun v => nodeIsWriter (nodeAt w v)) hwv]

end Writers

end SerialProxy.MasterWriters
