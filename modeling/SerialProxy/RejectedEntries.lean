import SerialProxy.Iterations
import SerialProxy.LoadedTopology

/-!
# Rejected configuration entries

The callback creates the master of a section before it looks at the key. An
entry with an unknown key is reported as not valid, but the first entry of a
section leaves a new master behind, which the daemon opens like any other.
-/

namespace SerialProxy.RejectedEntries

open FaultPrograms LinkedCells CText SerialState EventTable SerialNodes SerialLinks SerialConfig
open DeviceConfig EventLoop NodeTopology ConfigLoading LoadedTopology Iterations

/-- `_serialConfigHandler` has a branch for the key. -/
def KnownKey (e : ConfigEntry) : Prop := e.isBaudrate=true ∨ e.isVirtuals=true ∨ e.isWriter=true

/-- `server.serial` is the same: the list of the masters, and all nodes. -/
structure SameSerial (w t : World) : Prop where
  /-- The head of the list is the same. -/
  masterHead : t.masterHead=w.masterHead
  /-- The nodes are the same. -/
  nodes : t.nodes=w.nodes

/-- A master of the list has this path. -/
def HasMaster (w : World) (s : CString) : Prop :=
  ∃ cells,Chain (nodeNext w) w.masterHead cells ∧ ∃ node∈cells,nameAt w node=s

/-- All entries of a section are rejected. -/
def RejectedSection (entries : List ConfigEntry) (s : CString) : Prop :=
  ∀ e∈entries,e.sectionName=s → ¬ KnownKey e

section Rejected

variable {w : World} {shape : Shape} {tree : DeviceTree} {entries : List ConfigEntry}
variable {e : ConfigEntry} {s : CString}

theorem hasMaster_iff (ht : Topology w shape) :
    HasMaster w s ↔ ∃ node∈shape.map Prod.fst,nameAt w node=s := by
  constructor
  · rintro ⟨cells,hc,node,hnode,hname⟩
    rw [hc.unique ht.masters] at hnode
    exact ⟨node,hnode,hname⟩
  · rintro ⟨node,hnode,hname⟩
    exact ⟨_,ht.masters,node,hnode,hname⟩

/-- A known key is never rejected. -/
theorem not_rejected_of_knownKey (h : KnownKey e) {t : World} :
    serialConfigHandler e w≠.ok false t := by
  intro hx
  obtain ⟨node,u,-,hrest⟩ := bind_ok_iff.mp hx
  split at hrest
  · obtain ⟨_,_,-,hpure⟩ := bind_ok_iff.mp hrest
    cases hpure
  · next hbaudrate =>
    split at hrest
    · obtain ⟨_,_,-,hpure⟩ := bind_ok_iff.mp hrest
      cases hpure
    · next hvirtuals =>
      split at hrest
      · obtain ⟨_,_,-,hpure⟩ := bind_ok_iff.mp hrest
        cases hpure
      · next hwriter =>
        rcases h with h|h|h
        · exact hbaudrate h
        · exact hvirtuals h
        · exact hwriter h

/-- For an unknown key the callback only looks up or creates the master. -/
theorem serialConfigHandler_unknown (h : ¬ KnownKey e) : serialConfigHandler e w=
    (sectionNode e.sectionName >>= fun _ => pure false) w := by
  obtain ⟨hb,hv,hw⟩ : e.isBaudrate=false ∧ e.isVirtuals=false ∧ e.isWriter=false := by
    simpa [KnownKey] using h
  simp only [serialConfigHandler,hb,hv,hw,Bool.false_eq_true,if_false]

/-- A master that is there already is left alone. -/
theorem unknown_of_hasMaster (ht : Topology w shape) (h : ¬ KnownKey e)
    (hm : HasMaster w e.sectionName) : serialConfigHandler e w=.ok false w := by
  obtain ⟨node,hnode,hname⟩ := (hasMaster_iff ht).mp hm
  obtain ⟨found,hfound⟩ : ∃ found,(shape.map Prod.fst).find?
      (fun v => (nodeAt w v).name=e.sectionName)=some found := by
    rw [← Option.isSome_iff_exists,List.find?_isSome]
    exact ⟨node,hnode,decide_eq_true hname⟩
  have hlookup := serialGetNode_apply ht e.sectionName
  rw [hfound] at hlookup
  rw [serialConfigHandler_unknown h,sectionNode]
  simp only [bind_apply,hlookup,pure_apply]

/-- A master that is not there is created and linked. -/
theorem unknown_of_not_hasMaster (ht : Topology w shape) (h : ¬ KnownKey e)
    (hm : ¬ HasMaster w e.sectionName) : serialConfigHandler e w=
      .ok false (withMaster w (masterNode e.sectionName w.masterHead)) := by
  have hnone : (shape.map Prod.fst).find? (fun v => (nodeAt w v).name=e.sectionName)=none := by
    rw [List.find?_eq_none]
    intro node hnode hname
    exact hm ((hasMaster_iff ht).mpr ⟨node,hnode,of_decide_eq_true hname⟩)
  have hlookup := serialGetNode_apply ht e.sectionName
  rw [hnone] at hlookup
  have hnode : sectionNode e.sectionName w=
      .ok w.nextNode (withMaster w (masterNode e.sectionName w.masterHead)) := by
    rw [sectionNode,bind_of_ok hlookup]
    exact createMaster w e.sectionName
  rw [serialConfigHandler_unknown h,bind_of_ok hnode,pure_apply]

/-- Rejecting leaves everything alone exactly when there is nothing to create. -/
theorem unchanged_iff (ht : Topology w shape) (e : ConfigEntry) :
    (∀ t,serialConfigHandler e w=.ok false t → SameSerial w t) ↔
      KnownKey e ∨ HasMaster w e.sectionName := by
  constructor
  · intro h
    by_contra hcon
    obtain ⟨hkey,hm⟩ := not_or.mp hcon
    have hsame := (h _ (unknown_of_not_hasMaster ht hkey hm)).nodes
    have hnew : w.nodes w.nextNode=some (masterNode e.sectionName w.masterHead) := by
      rw [← hsame]
      exact Function.update_self _ _ _
    exact absurd (ht.numbered _ _ hnew) (lt_irrefl _)
  · intro h t hx
    by_cases hkey : KnownKey e
    · exact absurd hx (not_rejected_of_knownKey hkey)
    · rw [unknown_of_hasMaster ht hkey (h.resolve_left hkey),EStateM.Result.ok.injEq] at hx
      rw [← hx.2]
      exact ⟨rfl,rfl⟩

/-- Every entry has a master, up to the size of the name buffer. -/
theorem treeOf_covers (h : treeOf entries=some tree) :
    ∀ e∈entries,∃ d∈tree,d.name=strlcpy e.sectionName pathMax := by
  induction entries using List.reverseRecOn generalizing tree with
  | nil => simp
  | append_singleton entries e ih =>
    have hnames := treeOf_names h
    rw [treeOf_snoc,Option.bind_eq_some_iff] at h
    obtain ⟨tree₀,h₀,hx⟩ := h
    intro e' he'
    rcases updateSection_some hx with ⟨-,d,hd,rfl⟩|⟨before,d,after,d',rfl,-,hname,hd,rfl⟩
    · rcases List.mem_append.mp he' with he'|he'
      · obtain ⟨d',hd',hn'⟩ := ih h₀ e' he'
        exact ⟨d',List.mem_cons_of_mem _ hd',hn'⟩
      · obtain rfl := List.mem_singleton.mp he'
        exact ⟨d,List.mem_cons_self,updateMaster_name hd⟩
    · have hkept : ∀ x∈before++d::after,∃ y∈before++d'::after,y.name=x.name := by
        intro x hx
        rcases List.mem_append.mp hx with hx|hx
        · exact ⟨x,List.mem_append_left _ hx,rfl⟩
        · rcases List.mem_cons.mp hx with rfl|hx
          · exact ⟨d',by simp,updateMaster_name hd⟩
          · exact ⟨x,List.mem_append_right _ (List.mem_cons_of_mem _ hx),rfl⟩
      rcases List.mem_append.mp he' with he'|he'
      · obtain ⟨x,hx,hn⟩ := ih h₀ e' he'
        obtain ⟨y,hy,hyn⟩ := hkept x hx
        exact ⟨y,hy,hyn.trans hn⟩
      · obtain rfl := List.mem_singleton.mp he'
        have hd' : d'∈before++d'::after := by simp
        obtain ⟨e'',-,hcut⟩ := hnames d' hd'
        have hself : d'.name=e'.sectionName := (updateMaster_name hd).trans hname
        refine ⟨d',hd',?_⟩
        rw [hself,strlcpy_of_lt]
        rw [← hself,hcut]
        exact strlcpy_length_lt _ (by decide)

/-- The loaded masters are the sections of all entries, rejected or not. -/
theorem hasMaster_of_loaded (h : loadEntries entries World.boot=.ok () w) (s : CString) :
    HasMaster w s ↔ ∃ e∈entries,strlcpy e.sectionName pathMax=s := by
  obtain ⟨tree,shape,ht,-,hr⟩ := loadEntries_boot h
  have hnames : HasMaster w s ↔ ∃ d∈tree,d.name=s := by
    rw [hasMaster_iff hr.topology]
    have hmap := master_names hr.described
    constructor
    · rintro ⟨node,hnode,hname⟩
      obtain ⟨g,hg,rfl⟩ := List.mem_map.mp hnode
      have hmem : s∈tree.map MasterDevice.name := hmap ▸ List.mem_map.mpr ⟨g,hg,hname⟩
      exact List.mem_map.mp hmem
    · rintro ⟨d,hd,rfl⟩
      have hmem : d.name∈shape.map fun g => nameAt w g.1 := hmap ▸ List.mem_map_of_mem hd
      obtain ⟨g,hg,hname⟩ := List.mem_map.mp hmem
      exact ⟨g.1,List.mem_map_of_mem hg,hname⟩
  rw [hnames]
  constructor
  · rintro ⟨d,hd,rfl⟩
    obtain ⟨e,he,hname⟩ := treeOf_names ht d hd
    exact ⟨e,he,hname.symm⟩
  · rintro ⟨e,he,rfl⟩
    exact treeOf_covers ht e he

/-- A section whose entries are all rejected has no master exactly when its path is too long. -/
theorem rejectedSection_iff (h : loadEntries entries World.boot=.ok () w) :
    (∀ e∈entries,RejectedSection entries e.sectionName → ¬ HasMaster w e.sectionName) ↔
      ∀ e∈entries,e.sectionName.length<pathMax → ¬ RejectedSection entries e.sectionName := by
  constructor
  · intro hnone e he hlt hrejected
    refine hnone e he hrejected ((hasMaster_of_loaded h _).mpr ⟨e,he,strlcpy_of_lt hlt⟩)
  · intro hshort e he hrejected hm
    obtain ⟨e',-,hcut⟩ := (hasMaster_of_loaded h _).mp hm
    refine hshort e he ?_ hrejected
    rw [← hcut]
    exact strlcpy_length_lt _ (by decide)

/-- In every loader state, rejecting an entry leaves the node lists alone exactly when the key is
known, so that the entry is not rejected, or the section has its master already. The sections of a
file whose entries are all rejected get no master exactly when there are none that fit. -/
theorem rejected_unchanged_iff (h : loadEntries entries World.boot=.ok () w) :
    (∀ e,(∀ t,serialConfigHandler e w=.ok false t → SameSerial w t) ↔
      KnownKey e ∨ HasMaster w e.sectionName) ∧
    ((∀ e∈entries,RejectedSection entries e.sectionName → ¬ HasMaster w e.sectionName) ↔
      ∀ e∈entries,e.sectionName.length<pathMax → ¬ RejectedSection entries e.sectionName) := by
  obtain ⟨tree,shape,-,-,hr⟩ := loadEntries_boot h
  exact ⟨unchanged_iff hr.topology,rejectedSection_iff h⟩

theorem rejected_unchanged_iff_sample : ∃ w,loadEntries sampleEntries World.boot=.ok () w ∧
    (∀ e,(∀ t,serialConfigHandler e w=.ok false t → SameSerial w t) ↔
      KnownKey e ∨ HasMaster w e.sectionName) ∧
    ((∀ e∈sampleEntries,RejectedSection sampleEntries e.sectionName →
        ¬ HasMaster w e.sectionName) ↔
      ∀ e∈sampleEntries,e.sectionName.length<pathMax →
        ¬ RejectedSection sampleEntries e.sectionName) := by
  have hload := eq_ok_of_returns (r:=loadEntries sampleEntries World.boot) (by decide +kernel)
  exact ⟨_,hload,rejected_unchanged_iff hload⟩

/-- An entry with a misspelled key, the only one of its section. -/
def misspelledEntry : ConfigEntry := ⟨"/dev/ttyS5".toList,"baudrat".toList,"9600".toList⟩

/-- The misspelled entry is rejected, but leaves a master, whose path the daemon then opens. -/
theorem rejected_creates_master : ∃ t,serialConfigHandler misspelledEntry World.boot=.ok false t ∧
    ¬ SameSerial World.boot t ∧ HasMaster t "/dev/ttyS5".toList ∧
    .openPath 0 "/dev/ttyS5".toList∈
      (finalState (serialInit [misspelledEntry] (fun _ => workingConnect) World.boot)).trace := by
  have hbaudrate : misspelledEntry.isBaudrate=false := by decide
  have hvirtuals : misspelledEntry.isVirtuals=false := by decide
  have hwriter : misspelledEntry.isWriter=false := by decide
  have hkey : ¬ KnownKey misspelledEntry := by simp [KnownKey,hbaudrate,hvirtuals,hwriter]
  have hm : ¬ HasMaster World.boot misspelledEntry.sectionName := by
    rw [hasMaster_iff represents_boot.topology]
    simp
  refine ⟨_,unknown_of_not_hasMaster represents_boot.topology hkey hm,fun hsame => ?_,?_,
    by decide +kernel⟩
  · exact absurd hsame.masterHead (by decide)
  · exact ⟨[0],⟨rfl,none,rfl,rfl⟩,0,List.mem_singleton_self 0,by decide⟩

end Rejected

end SerialProxy.RejectedEntries
