import SerialProxy.LoadedTopology
import SerialProxy.HeldSymlinks
import SerialProxy.Teardown

/-!
# Who owns a path

A node creates and removes files at its own path only, so that the paths of the
others are safe as long as no two nodes have the same name. Names of virtuals are
joined with a dot and looked up in the list of one master, so that a section or a
virtual of another section may already have the name.
-/

namespace SerialProxy.PathOwners

open FaultPrograms LinkedCells CText SerialState EventTable SerialNodes SerialLinks SerialConfig
open EventLoop DeviceConfig NodeTopology ConfigLoading LoadedTopology Reconnection Iterations
open StateFrames HeldSymlinks Teardown

/-- The calls that touched a path, and the symbolic link that is there. -/
def atPath (path : CString) (w : World) : List Call×Option CString :=
  (w.trace.filter fun call => touchedPath call=some path,w.symlinks path)

/-- The live nodes still have the names they were loaded with. -/
def SameNames (w t : World) : Prop :=
  ∀ node n,t.nodes node=some n → ∃ m,w.nodes node=some m ∧ m.name=n.name

/-- No two nodes share a path, and no node touches the path of another one. -/
structure PathsOwned (w : World) : Prop where
  /-- Names differ. -/
  distinct : DistinctNames w
  /-- Connecting a node does nothing at the path of another one, in any later state. -/
  connect : ∀ t node other m env,SameNames w t → w.nodes other=some m → other≠node →
    atPath m.name (finalState (serialConnectNode node env t))=atPath m.name t
  /-- Freeing a node does nothing there either. -/
  free : ∀ t node other m remove,SameNames w t → w.nodes other=some m → other≠node →
    atPath m.name (finalState (serialFreeNode node remove t))=atPath m.name t

/-- No section is named like a section followed by a dot and `u` such that the former
section lists `u`, or lists `u.t` where the longer section lists `t`. -/
def Unshadowed (entries : List ConfigEntry) : Prop :=
  ∀ s u,virtualPath s u∈entries.map ConfigEntry.sectionName →
    u∉tokensOf s entries ∧
      ∀ t∈tokensOf (virtualPath s u) entries,virtualPath u t∉tokensOf s entries

section Writes

variable {path : CString} {w t : World} {node : NodePtr} {n : SerialNode}

/-- What is at a path is a part of the files. -/
theorem filePart_atPath (path : CString) : FilePart (atPath path) where
  inside := fun w t htrace _ hsymlinks => by
    rw [atPath,atPath,htrace,hsymlinks]
  calls := fun w call hcall => by
    simp [atPath,List.filter_append,hcall]

/-- Removing another path keeps it. -/
theorem keeps_sysRemove {name : CString} (hne : name≠path) (result : Option Errno) :
    Keeps (atPath path) (sysRemove name result) := by
  have hemit : Keeps (atPath path) (emit (.remove name)) := fun w => by
    simp [emit,atPath,List.filter_append,touchedPath,hne]
  refine hemit.bind fun _ => ?_
  cases result with
  | some errno => exact keeps_setErrno (filePart_atPath path) errno
  | none =>
    refine keeps_modify fun w => ?_
    simp only [atPath,Function.update_of_ne hne.symm]

/-- So does a link at another path. -/
theorem keeps_sysSymlink {name : CString} (hne : name≠path) (target : CString)
    (result : Option Errno) : Keeps (atPath path) (sysSymlink target name result) := by
  have hemit : Keeps (atPath path) (emit (.symlink target name)) := fun w => by
    simp [emit,atPath,List.filter_append,touchedPath,hne]
  have hcheck := keeps_sysCheck (filePart_atPath path) result "symlink".toList
  refine hemit.bind fun _ => Keeps.ite ?_ hcheck
  refine Keeps.bind (keeps_modify fun w => ?_) fun _ => hcheck
  simp only [atPath,Function.update_of_ne hne.symm]

/-- Opening the link of a node touches its own path only. -/
theorem atPath_serialOpenLink (hn : t.nodes node=some n) (hne : n.name≠path) (link : LinkPtr)
    (env : ConnectResults) :
    atPath path (finalState (serialOpenLink node link env t))=atPath path t := by
  have hp := filePart_atPath path
  rw [serialOpenLink,bind_of_ok (derefNode_of_some hn)]
  refine (Keeps.ite ?_ (Keeps.ite ?_ (keeps_pure true)) : Keeps (atPath path) _) t
  · refine (keeps_emit hp rfl).bind fun _ => ?_
    cases env.openPath with
    | error errno => exact keeps_sysCheck hp _ _
    | ok alloc =>
      refine (keeps_sysOpenFd hp alloc).bind fun fd => (keeps_modifyLink hp link _).bind fun _ => ?_
      cases env.isatty with
      | some errno =>
        exact (keeps_setErrno hp errno).bind fun _ =>
          ((keeps_serverLogErrno hp _ _).bind fun _ => keeps_pure false).ite (keeps_pure true)
      | none =>
        exact ((keeps_serverLogErrno hp _ _).bind fun _ => keeps_pure false).ite (keeps_pure true)
  · refine (keeps_emit hp rfl).bind fun _ => ?_
    cases env.openpty with
    | error errno => exact keeps_sysCheck hp _ _
    | ok pty =>
      refine (keeps_sysOpenFd hp _).bind fun fd => (keeps_sysOpenFd hp _).bind fun sfd => ?_
      refine Keeps.bind (keeps_modify fun _ => rfl) fun _ => ?_
      refine (keeps_modifyLink hp link _).bind fun _ => (keeps_sysRemove hne _).bind fun _ => ?_
      exact keeps_get.bind fun w => keeps_sysSymlink hne _ _

/-- Connecting a node of another name keeps it. -/
theorem atPath_serialConfigureLink (hn : t.nodes node=some n) (hne : n.name≠path) (link : LinkPtr)
    (env : ConnectResults) :
    atPath path (finalState (serialConfigureLink node link env t))=atPath path t := by
  have hp := filePart_atPath path
  refine kept_bind (atPath_serialOpenLink hn hne link env) fun opened => ?_
  refine Keeps.ite ((keeps_sysCheck hp _ _).bind fun checked => ?_) (keeps_pure false)
  refine Keeps.ite ((keeps_serialSetSpeed hp node link env).bind fun set => ?_) (keeps_pure false)
  exact (keeps_sysCheck hp _ _).ite (keeps_pure false)

/-- So does the whole attempt. -/
theorem atPath_serialCreateLink (hn : t.nodes node=some n) (hne : n.name≠path)
    (env : ConnectResults) :
    atPath path (finalState (serialCreateLink node env t))=atPath path t := by
  have hp := filePart_atPath path
  have halloc : callocLink t=.ok t.nextLink (finalState (callocLink t)) := rfl
  have hconfigure := atPath_serialConfigureLink (t:=finalState (callocLink t)) hn hne t.nextLink env
  rw [serialCreateLink,bind_of_ok halloc]
  refine (kept_bind hconfigure fun configured => ?_).trans (keeps_callocLink hp t)
  exact (keeps_serialCreateLink_rest hp node _ env).ite
    ((keeps_serialFreeLink hp _).bind fun _ => keeps_pure none)

/-- A connect attempt touches the path of its node only. -/
theorem atPath_serialConnectNode (hn : t.nodes node=some n) (hne : n.name≠path)
    (env : ConnectResults) :
    atPath path (finalState (serialConnectNode node env t))=atPath path t := by
  rw [serialConnectNode,bind_of_ok (derefNode_of_some hn)]
  split
  · rfl
  · exact kept_bind (atPath_serialCreateLink hn hne env) fun _ => keeps_pure _

/-- Freeing a node touches its own path only. -/
theorem atPath_serialFreeNode (hn : t.nodes node=some n) (hne : n.name≠path)
    (remove : Option Errno) :
    atPath path (finalState (serialFreeNode node remove t))=atPath path t := by
  have hp := filePart_atPath path
  rw [serialFreeNode,bind_of_ok (derefNode_of_some hn)]
  refine Keeps.bind (keeps_visitNodes (fun cur => keeps_modifyNode hp cur _) _) (fun _ => ?_) t
  have hrelease := (keeps_modifyNode hp node fun n => {n with virtualHead := none}).bind
    fun _ => keeps_releaseNode hp node
  refine Keeps.ite ((keeps_sysRemove hne remove).bind fun _ => ?_) hrelease
  cases n.virtualof with
  | none => exact hrelease
  | some master => exact (keeps_serialRemoveVirtualNode hp master node).bind fun _ => hrelease

end Writes

section Later

variable {w t u : World} {done : List NodePtr}

/-- Names that stay the same twice stay the same. -/
theorem SameNames.trans (h : SameNames w t) (h' : SameNames t u) : SameNames w u := by
  intro node n hn
  obtain ⟨m,hm,hname⟩ := h' node n hn
  obtain ⟨k,hk,hname'⟩ := h node m hm
  exact ⟨k,hk,hname'.trans hname⟩

/-- The same devices have the same names. -/
theorem sameNames_devices (h : SameDevices w t) : SameNames w t := by
  intro node n hn
  obtain ⟨link,hn'⟩ := h.symm.node hn
  exact ⟨_,hn',rfl⟩

/-- The teardown frees nodes and renames none. -/
theorem sameNames_standing (h : Standing w done t) : SameNames w t := by
  intro node n hn
  rw [h.nodes,nodesAfter] at hn
  split at hn
  · exact absurd hn.symm (Option.some_ne_none n)
  · obtain ⟨m,hm,rfl⟩ := Option.map_eq_some_iff.mp hn
    exact ⟨m,hm,rfl⟩

/-- A run keeps the names of the loaded configuration, and so does the teardown behind it. -/
theorem sameNames_run {entries : List ConfigEntry} {env : NodePtr → ConnectResults}
    {its : List Iteration} (hinit : serialInit entries env World.boot=.ok () t)
    (hrun : Run aeMainStep Admitted t its u) :
    ∃ w,loadEntries entries World.boot=.ok () w ∧ SameNames w u ∧
      ∀ done v,Standing u done v → SameNames w v := by
  obtain ⟨w,shape,-,-,-,-,hc,hload,hconnect⟩ := serialInit_loads hinit
  obtain ⟨t',hx,hg⟩ := serialReconnect_spec hc env
  rw [hconnect,EStateM.Result.ok.injEq] at hx
  obtain ⟨-,rfl⟩ := hx
  have hadvanced := (run_advanced (fun _ _ ha => ha) hg.coherent hrun).2
  have hnames := sameNames_devices (hg.grown.devices.trans hadvanced.devices)
  exact ⟨w,hload,hnames,fun done v hv => hnames.trans (sameNames_standing hv)⟩

/-- Nodes with different names keep out of each other's paths. -/
theorem pathsOwned_iff_distinct : PathsOwned w ↔ DistinctNames w := by
  refine ⟨PathsOwned.distinct,fun h => ⟨h,fun t node other m env hs hm hne => ?_,
    fun t node other m remove hs hm hne => ?_⟩⟩
  all_goals
    cases hn : t.nodes node with
    | none => simp [serialConnectNode,serialFreeNode,derefNode,hn]
    | some n =>
      obtain ⟨k,hk,hname⟩ := hs node n hn
      have hother : n.name≠m.name := fun he => hne (h other node m k hm hk (by rw [hname,he]))
      first
        | exact atPath_serialConnectNode hn hother env
        | exact atPath_serialFreeNode hn hother remove

end Later

section Names

variable {w : World} {shape : Shape} {tree : DeviceTree} {entries : List ConfigEntry}
variable {g g' : NodePtr×List NodePtr} {s s' t t' u : CString}

/-- Two ways to split a path at a dot are the same way, or one section extends the other. -/
theorem virtualPath_cases (h : virtualPath s t=virtualPath s' t') :
    (s=s' ∧ t=t') ∨ (∃ u,s'=virtualPath s u ∧ t=virtualPath u t') ∨
      ∃ u,s=virtualPath s' u ∧ t'=virtualPath u t := by
  rcases List.append_eq_append_iff.mp h with ⟨rest,hs,ht⟩|⟨rest,hs,ht⟩
  · cases rest with
    | nil =>
      rw [List.append_nil] at hs
      exact .inl ⟨hs.symm,(List.cons.inj ht).2⟩
    | cons c u =>
      obtain ⟨rfl,htail⟩ := List.cons.inj ht
      exact .inr (.inl ⟨u,hs,htail⟩)
  · cases rest with
    | nil =>
      rw [List.append_nil] at hs
      exact .inl ⟨hs,(List.cons.inj ht).2.symm⟩
    | cons c u =>
      obtain ⟨rfl,htail⟩ := List.cons.inj ht
      exact .inr (.inr ⟨u,hs,htail⟩)

/-- The path of a virtual is not that of its master. -/
theorem virtualPath_ne (s u : CString) : virtualPath s u≠s := by
  intro h
  have hlength := congrArg List.length h
  rw [virtualPath,List.length_append,List.length_cons] at hlength
  omega

/-- A token belongs to a section of the entries. -/
theorem section_of_token (h : t∈tokensOf s entries) : s∈entries.map ConfigEntry.sectionName := by
  obtain ⟨e,he,-⟩ := List.mem_flatMap.mp h
  obtain ⟨he,hkey⟩ := List.mem_filter.mp he
  rw [Bool.and_eq_true,decide_eq_true_eq] at hkey
  exact List.mem_map.mpr ⟨e,he,hkey.1⟩

variable (hfit : Fits entries) (ht : treeOf entries=some tree) (h : Represents w shape tree)
include hfit ht h

/-- Every section has its master. -/
theorem master_of_section (hs : s∈entries.map ConfigEntry.sectionName) :
    ∃ g∈shape,nameAt w g.1=s := by
  rw [← hfit.mem_names ht,← master_names h.described] at hs
  exact List.mem_map.mp hs

/-- So does a master. -/
theorem section_of_master (hg : g∈shape) : nameAt w g.1∈entries.map ConfigEntry.sectionName := by
  rw [← hfit.mem_names ht,← master_names h.described]
  exact List.mem_map.mpr ⟨g,hg,rfl⟩

/-- Two masters have different names. -/
theorem master_unique (hg : g∈shape) (hg' : g'∈shape) (hname : nameAt w g.1=nameAt w g'.1) :
    g=g' := by
  have hnodup := hfit.names_nodup ht
  rw [← master_names h.described] at hnodup
  exact List.inj_on_of_nodup_map hnodup hg hg' hname

/-- A virtual has the path of a token of its section. -/
theorem token_of_virtual {v : NodePtr} (hg : g∈shape) (hv : v∈g.2) :
    ∃ t∈tokensOf (nameAt w g.1) entries,nameAt w v=virtualPath (nameAt w g.1) t := by
  obtain ⟨d,hd,hdesc⟩ := matched_left h.described hg
  exact (virtual_paths hfit ht hd hdesc _).mp (List.mem_map_of_mem hv)

/-- Each token of a master has its virtual. -/
theorem virtual_of_token (hg : g∈shape) (htoken : t∈tokensOf (nameAt w g.1) entries) :
    ∃ v∈g.2,nameAt w v=virtualPath (nameAt w g.1) t := by
  obtain ⟨d,hd,hdesc⟩ := matched_left h.described hg
  exact List.mem_map.mp ((virtual_paths hfit ht hd hdesc _).mpr ⟨t,htoken,rfl⟩)

/-- Two virtuals of one master have different names. -/
theorem virtual_unique {v v' : NodePtr} (hg : g∈shape) (hv : v∈g.2) (hv' : v'∈g.2)
    (hname : nameAt w v=nameAt w v') : v=v' := by
  obtain ⟨d,hd,hdesc⟩ := matched_left h.described hg
  exact List.inj_on_of_nodup_map (virtuals_once hfit ht hd hdesc) hv hv' hname

/-- A master is shadowed by no virtual. -/
theorem master_ne_virtual_name {v : NodePtr} (hu : Unshadowed entries) (hg : g∈shape)
    (hg' : g'∈shape) (hv : v∈g'.2) : nameAt w g.1≠nameAt w v := by
  intro hname
  obtain ⟨t,htoken,hpath⟩ := token_of_virtual hfit ht h hg' hv
  have hsection := section_of_master hfit ht h hg
  rw [hname,hpath] at hsection
  exact (hu _ t hsection).1 htoken

/-- Virtuals with one name are the same node. -/
theorem virtual_eq {v v' : NodePtr} (hu : Unshadowed entries) (hg : g∈shape) (hg' : g'∈shape)
    (hv : v∈g.2) (hv' : v'∈g'.2) (hname : nameAt w v=nameAt w v') : v=v' := by
  obtain ⟨t,htoken,hpath⟩ := token_of_virtual hfit ht h hg hv
  obtain ⟨t',htoken',hpath'⟩ := token_of_virtual hfit ht h hg' hv'
  have hsection := section_of_master hfit ht h hg
  have hsection' := section_of_master hfit ht h hg'
  rcases virtualPath_cases (hpath.symm.trans (hname.trans hpath')) with
    ⟨hs,-⟩|⟨u,hs,htail⟩|⟨u,hs,htail⟩
  · obtain rfl := master_unique hfit ht h hg hg' hs
    exact virtual_unique hfit ht h hg hv hv' hname
  · rw [hs] at hsection' htoken'
    rw [htail] at htoken
    exact absurd htoken ((hu _ u hsection').2 t' htoken')
  · rw [hs] at hsection htoken
    rw [htail] at htoken'
    exact absurd htoken' ((hu _ u hsection).2 t htoken)

/-- The loaded nodes have different names exactly when no section shadows another. -/
theorem distinctNames_iff : DistinctNames w ↔ Unshadowed entries := by
  constructor
  · intro hd s u hsection
    have hsame : ∀ {a b : NodePtr},shape.Mem a → shape.Mem b → nameAt w a=nameAt w b → a=b := by
      intro a b ha hb hname
      obtain ⟨n,hn⟩ := h.topology.live_of_mem ha
      obtain ⟨m,hm⟩ := h.topology.live_of_mem hb
      rw [nameAt,nameAt,nodeAt_of_some hn,nodeAt_of_some hm] at hname
      exact hd a b n m hn hm hname
    obtain ⟨g,hg,hname⟩ := master_of_section hfit ht h hsection
    refine ⟨fun htoken => ?_,fun t htoken htoken' => ?_⟩
    · obtain ⟨g',hg',rfl⟩ := master_of_section hfit ht h (section_of_token htoken)
      obtain ⟨v,hv,hpath⟩ := virtual_of_token hfit ht h hg' htoken
      exact h.topology.master_ne_virtual hg hg' hv
        (hsame ⟨g,hg,.inl rfl⟩ ⟨g',hg',.inr hv⟩ (hname.trans hpath.symm))
    · obtain ⟨g',hg',rfl⟩ := master_of_section hfit ht h (section_of_token htoken')
      rw [← hname] at htoken
      obtain ⟨v,hv,hpath⟩ := virtual_of_token hfit ht h hg htoken
      obtain ⟨v',hv',hpath'⟩ := virtual_of_token hfit ht h hg' htoken'
      have hsplit : nameAt w v=nameAt w v' := by
        rw [hpath,hpath',hname]
        simp [virtualPath]
      have hv'' := hv'
      rw [← hsame ⟨g,hg,.inr hv⟩ ⟨g',hg',.inr hv'⟩ hsplit] at hv''
      obtain rfl := h.topology.eq_of_virtual hg hg' hv hv''
      exact virtualPath_ne _ u hname.symm
  · intro hu a b n m hn hm hname
    have hnames : nameAt w a=nameAt w b := by
      rw [nameAt,nameAt,nodeAt_of_some hn,nodeAt_of_some hm,hname]
    obtain ⟨g,hg,hga⟩ := h.topology.covered a n hn
    obtain ⟨g',hg',hgb⟩ := h.topology.covered b m hm
    rcases hga with rfl|ha <;> rcases hgb with rfl|hb
    · rw [master_unique hfit ht h hg hg' hnames]
    · exact absurd hnames (master_ne_virtual_name hfit ht h hu hg hg' hb)
    · exact absurd hnames.symm (master_ne_virtual_name hfit ht h hu hg' hg ha)
    · exact virtual_eq hfit ht h hu hg hg' ha hb hnames

omit ht h in
/-- Every node owns its path exactly when no section shadows another. -/
theorem paths_owned_iff : ∃ w,loadEntries entries World.boot=.ok () w ∧
    (PathsOwned w ↔ Unshadowed entries) := by
  obtain ⟨tree,w,shape,ht,hx,hr⟩ := loadEntries_of_fits hfit
  exact ⟨w,hx,pathsOwned_iff_distinct.trans (distinctNames_iff hfit ht hr)⟩

end Names

section Sample

/-- The sample has no path twice. -/
theorem paths_owned_iff_sample : ∃ w,loadEntries sampleEntries World.boot=.ok () w ∧
    (PathsOwned w ↔ Unshadowed sampleEntries) :=
  paths_owned_iff ⟨by decide,by decide,by decide⟩

/-- The virtual `b` of the first device has the path of the second device. -/
def shadowing : List ConfigEntry :=
  [⟨"/dev/a".toList,"virtuals".toList,"b".toList⟩,
    ⟨"/dev/a.b".toList,"baudrate".toList,"9600".toList⟩]

/-- Connecting that virtual removes the path of the second device. -/
theorem shadowed_path_removed : ¬ ∀ entries,Fits entries →
    ∃ w,loadEntries entries World.boot=.ok () w ∧ PathsOwned w := by
  intro h
  obtain ⟨w,hload,howned⟩ := h shadowing ⟨by decide,by decide,by decide⟩
  have hw : w=finalState (loadEntries shadowing World.boot) := by rw [hload,finalState_ok]
  have hnode : w.nodes 2=some (nodeAt w 2) := by
    rw [hw]
    decide +kernel
  have hnames : SameNames w w := fun node n hn => ⟨n,hn,rfl⟩
  have hkept := howned.connect w 1 2 _ workingConnect hnames hnode (by decide)
  rw [hw] at hkept
  exact absurd hkept (by decide +kernel)

end Sample

end SerialProxy.PathOwners
