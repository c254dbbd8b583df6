import SerialProxy.ConfigLoading

/-!
# The topology of a loaded configuration

The masters are the sections of the configuration and the virtuals of a master
the tokens of its section, whatever the order of the entries. A section may
mark several of its virtuals as writers; a master has one writer at most when
all the writer entries of its section that name one of its virtuals name the
same one.
-/

namespace SerialProxy.LoadedTopology

open FaultPrograms LinkedCells CText SerialState EventTable SerialNodes SerialLinks SerialConfig
open DeviceConfig NodeTopology ConfigLoading

/-- The path of a node. -/
def nameAt (w : World) (node : NodePtr) : CString := (nodeAt w node).name

/-- Every writer entry names a suffix that a virtuals entry before it lists for its section. -/
def WritersFollow (entries : List ConfigEntry) : Prop :=
  ∀ before e after,entries=before++e::after → e.isWriter=true →
    e.value∈tokensOf e.sectionName before

/-- A master with its virtuals is what the entries of its section describe. -/
structure LoadedMaster (entries : List ConfigEntry) (w : World) (g : NodePtr×List NodePtr) :
    Prop where
  /-- Its speed is that of the last baudrate entry, or 9600. -/
  baudrate : (nodeAt w g.1).baudrate=baudrateOf (nameAt w g.1) entries
  /-- Its virtuals are those of the tokens. -/
  virtuals : ∀ name,name∈g.2.map (nameAt w) ↔
    ∃ t∈tokensOf (nameAt w g.1) entries,name=virtualPath (nameAt w g.1) t
  /-- Each of them occurs once. -/
  once : (g.2.map (nameAt w)).Nodup
  /-- They point back and have no virtuals of their own. -/
  back : ∀ v∈g.2,(nodeAt w v).virtualof=some g.1 ∧ (nodeAt w v).virtualHead=none
  /-- The list of the virtuals is a finite chain without a repeated node. -/
  acyclic : Chain (nodeNext w) (nodeAt w g.1).virtualHead g.2 ∧ g.2.Nodup

/-- The node lists are what the entries describe. -/
structure Loaded (entries : List ConfigEntry) (w : World) (shape : Shape) : Prop where
  /-- The masters are exactly the sections. -/
  masters : ∀ s,s∈shape.map (fun g => nameAt w g.1) ↔ s∈entries.map ConfigEntry.sectionName
  /-- Each of them occurs once. -/
  once : (shape.map fun g => nameAt w g.1).Nodup
  /-- The list of the masters is a finite chain without a repeated node. -/
  acyclic : Chain (nodeNext w) w.masterHead (shape.map Prod.fst) ∧ (shape.map Prod.fst).Nodup
  /-- Every master is what its section describes. -/
  master : ∀ g∈shape,LoadedMaster entries w g
  /-- A virtual is a writer exactly when a writer entry of its section names it. -/
  writer : ∀ g∈shape,∀ v∈g.2,∀ t,nameAt w v=virtualPath (nameAt w g.1) t →
    (nodeIsWriter (nodeAt w v)=true ↔
      ∃ e∈entries,e.sectionName=nameAt w g.1 ∧ e.isWriter=true ∧ e.value=t)

section Matching

variable {α β γ : Type} {R : α → β → Prop} {f : α → γ} {g : β → γ} {xs : List α} {ys : List β}

/-- Lists matched by a common value have the same values. -/
theorem map_eq_of_forall₂ (h : List.Forall₂ R xs ys) (hr : ∀ x y,R x y → f x=g y) :
    xs.map f=ys.map g := by
  induction h with
  | nil => rfl
  | cons hxy _ ih => rw [List.map_cons,List.map_cons,hr _ _ hxy,ih]

/-- Everything on the left has a partner. -/
theorem matched_left (h : List.Forall₂ R xs ys) {x : α} (hx : x∈xs) : ∃ y∈ys,R x y := by
  induction h with
  | nil => simp at hx
  | cons hxy _ ih =>
    rcases List.mem_cons.mp hx with rfl|hx
    · exact ⟨_,List.mem_cons_self,hxy⟩
    · obtain ⟨y,hy,hr⟩ := ih hx
      exact ⟨y,List.mem_cons_of_mem _ hy,hr⟩

/-- So has everything on the right. -/
theorem matched_right (h : List.Forall₂ R xs ys) {y : β} (hy : y∈ys) : ∃ x∈xs,R x y :=
  matched_left h.flip hy

end Matching

section Described

variable {w : World} {shape : Shape} {tree : DeviceTree} {entries : List ConfigEntry}
variable {g : NodePtr×List NodePtr} {d : MasterDevice} {s t t' : CString}

/-- The masters have the names of the devices, in order. -/
theorem master_names (h : List.Forall₂ (Describes w) shape tree) :
    shape.map (fun g => nameAt w g.1)=tree.map MasterDevice.name :=
  map_eq_of_forall₂ h fun _ _ hd => hd.1

/-- So have the virtuals of each of them. -/
theorem virtual_names (h : Describes w g d) :
    g.2.map (nameAt w)=d.virtuals.map VirtualDevice.name :=
  map_eq_of_forall₂ h.2.2 fun _ _ hv => hv.1

/-- The virtuals of a loaded master have the paths of its tokens. -/
theorem virtual_paths (hfit : Fits entries) (ht : treeOf entries=some tree) (hd : d∈tree)
    (h : Describes w g d) (name : CString) : name∈g.2.map (nameAt w) ↔
      ∃ t∈tokensOf (nameAt w g.1) entries,name=virtualPath (nameAt w g.1) t := by
  have hname : nameAt w g.1=d.name := h.1
  rw [virtual_names h,hname,← (hfit.describedBy ht hd).names name]
  exact List.mem_map

/-- No master has two virtuals of one name. -/
theorem virtuals_once (hfit : Fits entries) (ht : treeOf entries=some tree) (hd : d∈tree)
    (h : Describes w g d) : (g.2.map (nameAt w)).Nodup := by
  rw [virtual_names h]
  exact (hfit.describedBy ht hd).nodup

/-- With the README's order every writer entry takes effect. -/
theorem effectiveWriter_iff (h : WritersFollow entries) : EffectiveWriter s t entries ↔
    ∃ e∈entries,e.sectionName=s ∧ e.isWriter=true ∧ e.value=t := by
  constructor
  · rintro ⟨before,e,after,rfl,hs,hw,hv,-⟩
    exact ⟨e,by simp,hs,hw,hv⟩
  · rintro ⟨e,he,rfl,hw,rfl⟩
    obtain ⟨before,after,hsplit⟩ := List.append_of_mem he
    exact ⟨before,e,after,hsplit,rfl,hw,rfl,h before e after hsplit hw⟩

/-- The node lists that represent the tree of entries that fit. -/
theorem loaded_of_represents (hfit : Fits entries) (hw : WritersFollow entries)
    (ht : treeOf entries=some tree) (h : Represents w shape tree) : Loaded entries w shape where
  masters := fun s => by
    rw [master_names h.described]
    exact hfit.mem_names ht
  once := by
    rw [master_names h.described]
    exact hfit.names_nodup ht
  acyclic := ⟨h.topology.masters,h.topology.masters_nodup⟩
  master := by
    intro g hg
    obtain ⟨d,hd,hdesc⟩ := matched_left h.described hg
    have hby := hfit.describedBy ht hd
    have hname : nameAt w g.1=d.name := hdesc.1
    obtain ⟨m,hm,-,-,hchain⟩ := h.topology.master g hg
    refine ⟨by rw [hname,hdesc.2.1,hby.baudrate],virtual_paths hfit ht hd hdesc,
      virtuals_once hfit ht hd hdesc,fun v hv => ?_,
      by rw [nodeAt_of_some hm]; exact ⟨hchain,h.topology.virtuals_nodup hg⟩⟩
    obtain ⟨n,hn,-,ho,hh⟩ := h.topology.virtual g hg v hv
    rw [nodeAt_of_some hn]
    exact ⟨ho,hh⟩
  writer := by
    intro g hg v hv t hpath
    obtain ⟨d,hd,hdesc⟩ := matched_left h.described hg
    have hby := hfit.describedBy ht hd
    have hname : nameAt w g.1=d.name := hdesc.1
    obtain ⟨vd,hvd,hvn,hvw⟩ := matched_left hdesc.2.2 hv
    rw [hname] at hpath ⊢
    rw [hvw,hby.writers vd hvd,← effectiveWriter_iff hw]
    constructor
    · rintro ⟨t',ht',he⟩
      have hpath' : virtualPath d.name t=virtualPath d.name t' := by
        rw [← hpath,← ht']
        exact hvn
      rwa [virtualPath_inj hpath']
    · intro he
      exact ⟨t,hvn.symm.trans hpath,he⟩

/-- Entries whose paths fit, with every writer behind its virtuals, are loaded exactly. -/
theorem loadEntries_loaded (hfit : Fits entries) (hw : WritersFollow entries) :
    ∃ w shape,loadEntries entries World.boot=.ok () w ∧ Topology w shape ∧
      Loaded entries w shape := by
  obtain ⟨tree,w,shape,ht,hx,hr⟩ := loadEntries_of_fits hfit
  exact ⟨w,shape,hx,hr.topology,loaded_of_represents hfit hw ht hr⟩

/-- The sample loads. -/
theorem loadEntries_loaded_sample : ∃ w shape,loadEntries sampleEntries World.boot=.ok () w ∧
    Topology w shape ∧ Loaded sampleEntries w shape := by
  refine loadEntries_loaded ⟨by decide,by decide,by decide⟩ fun before e after hsplit hw => ?_
  rcases before with _|⟨a,_|⟨b,before⟩⟩
  · obtain ⟨rfl,-⟩ := List.cons.inj hsplit
    exact absurd hw (by decide)
  · obtain ⟨rfl,htail⟩ := List.cons.inj hsplit
    obtain ⟨rfl,-⟩ := List.cons.inj htail
    decide
  · have hlen := congrArg List.length hsplit
    simp [sampleEntries] at hlen

end Described

end SerialProxy.LoadedTopology
