import SerialProxy.KeyOrder
import SerialProxy.KeyedFolds

/-!
# Sections of the device configuration

The entries of a section make its device as if they stood alone in the file:
what other sections say, and how their entries come in between, makes no
difference, and a file is rejected exactly if one of its sections is.
-/

namespace SerialProxy.SectionOrder

open FaultPrograms CText SerialState SerialConfig DeviceConfig NodeTopology ConfigLoading
open LoadedTopology KeyOrder KeyedFolds

/-- The entries of a section. -/
def entriesOf (s : CString) (entries : List ConfigEntry) : List ConfigEntry :=
  itemsOf ConfigEntry.sectionName s entries

/-- The section name fits into the name of a node. -/
def SectionFits (e : ConfigEntry) : Prop := e.sectionName.length<pathMax

section Trees

variable {s : CString} {e : ConfigEntry} {tree tree' : DeviceTree} {d : MasterDevice}
variable {entries entries' : List ConfigEntry}

/-- Without a master of this name there is none. -/
theorem mastersNamed_nil (h : ∀ x∈tree,x.name≠s) : mastersNamed s tree=[] :=
  List.filter_eq_nil_iff.mpr fun x hx => by simpa using h x hx

/-- A first master of this name is the first of them. -/
theorem mastersNamed_cons (h : d.name=s) : mastersNamed s (d::tree)=d::mastersNamed s tree :=
  List.filter_cons_of_pos (by simpa using h)

/-- An entry does to the masters of its section what it does to the tree. -/
theorem applyEntry_named (h : SectionFits e) (tree : DeviceTree) :
    applyEntry (mastersNamed e.sectionName tree) e=
      (applyEntry tree e).map (mastersNamed e.sectionName) := by
  by_cases hnew : ∀ x∈tree,x.name≠e.sectionName
  · rw [mastersNamed_nil hnew,applyEntry,applyEntry,updateSection_new _ hnew,
      updateSection_new _ (by simp)]
    cases hd : updateMaster e (newMaster e.sectionName) with
    | none => rfl
    | some d =>
      have hname : d.name=e.sectionName := (updateMaster_name hd).trans (strlcpy_of_lt h)
      simp only [Option.map_some,mastersNamed_cons hname,mastersNamed_nil hnew]
  · obtain ⟨before,d,after,-,hbefore,hnone|⟨hname,rfl⟩⟩ :=
      updateSection_focus e.sectionName tree
    · exact absurd hnone.2 hnew
    have hsplit : ∀ x : MasterDevice,x.name=e.sectionName →
        mastersNamed e.sectionName (before++x::after)=
          x::mastersNamed e.sectionName after := fun x hx => by
      rw [mastersNamed,List.filter_append,← mastersNamed,mastersNamed_nil hbefore,List.nil_append]
      exact mastersNamed_cons hx
    have hfront : updateSection e.sectionName (updateMaster e)
        ([]++d::mastersNamed e.sectionName after)=
          (updateMaster e d).map fun d' => []++d'::mastersNamed e.sectionName after :=
      updateSection_found _ (by simp) hname
    rw [hsplit d hname,applyEntry,applyEntry,updateSection_found _ hbefore hname]
    rw [List.nil_append] at hfront
    rw [hfront]
    cases hd : updateMaster e d with
    | none => rfl
    | some d' =>
      simp only [Option.map_some,List.nil_append,hsplit d' ((updateMaster_name hd).trans hname)]

/-- Entries act on the masters of their section. -/
theorem applyEntry_acts : ActsByKey ConfigEntry.sectionName mastersNamed applyEntry SectionFits where
  own := fun tree _ h => applyEntry_named h tree
  other := fun _ _ _ _ h hs hx =>
    mastersNamed_of_other (fun hs' => (strlcpy_of_lt h).symm.trans hs') hs hx

/-- Trees with the same masters of every path have the same masters. -/
theorem perm_of_mastersNamed (h : ∀ s,mastersNamed s tree=mastersNamed s tree') :
    tree.Perm tree' := by
  refine List.perm_iff_count.mpr fun d => ?_
  have hcount : ∀ tree : DeviceTree,tree.count d=(mastersNamed d.name tree).count d := fun tree =>
    (List.count_filter (by simp)).symm
  calc tree.count d=(mastersNamed d.name tree).count d := hcount tree
    _=(mastersNamed d.name tree').count d := by rw [h]
    _=tree'.count d := (hcount tree').symm

end Trees

section Loading

variable {s : CString} {entries entries' : List ConfigEntry} {w : World} {shape : Shape}

/-- Loading returns exactly if the entries describe a tree of devices. -/
theorem returns_loadEntries (entries : List ConfigEntry) :
    returns (loadEntries entries World.boot)=(treeOf entries).isSome := by
  have hload := loadEntries_refines entries represents_boot
  rw [treeOf]
  split at hload
  · rename_i tree htree
    obtain ⟨w,shape,hw,-⟩ := hload
    rw [hw,htree]
    rfl
  · rename_i htree
    obtain ⟨w,hw⟩ := hload
    rw [hw,htree]
    rfl

/-- The devices of a section are those of its masters. -/
theorem devices_named (s : CString) (tree : DeviceTree) :
    devices (mastersNamed s tree)=(devices tree).filter fun d => d.1=s := by
  rw [devices,devices,mastersNamed,Multiset.filter_map,Multiset.filter_coe]
  rfl

/-- A configuration is accepted exactly if the entries of each section alone are, and then each
section has the devices that its entries alone make. -/
theorem sections_apart (h : ∀ e∈entries,SectionFits e) :
    (returns (loadEntries entries World.boot)=true ↔
      ∀ s,returns (loadEntries (entriesOf s entries) World.boot)=true) ∧
    ∀ w shape s,loadEntries entries World.boot=.ok () w → Topology w shape →
      ∃ w' shape',loadEntries (entriesOf s entries) World.boot=.ok () w' ∧
        Topology w' shape' ∧ devicesAt w' shape'=(devicesAt w shape).filter fun d => d.1=s := by
  have hparts := foldlM_parts applyEntry_acts h []
  rw [show entries.foldlM applyEntry []=treeOf entries from rfl] at hparts
  refine ⟨?_,fun w shape s hw ht => ?_⟩
  · simp only [returns_loadEntries]
    cases hx : treeOf entries with
    | none =>
      rw [hx] at hparts
      obtain ⟨s,hs⟩ := hparts
      refine iff_of_false Bool.false_ne_true fun hall => ?_
      have hnone : treeOf (entriesOf s entries)=none := hs
      have hsome := hall s
      rw [hnone] at hsome
      exact Bool.false_ne_true hsome
    | some tree =>
      rw [hx] at hparts
      refine iff_of_true rfl fun s => ?_
      have hsome : treeOf (entriesOf s entries)=some (mastersNamed s tree) := hparts s
      rw [hsome]
      rfl
  · obtain ⟨tree,shape₀,htree,-,hrep⟩ := loadEntries_boot hw
    rw [htree] at hparts
    have hsome : (entriesOf s entries).foldlM applyEntry []=some (mastersNamed s tree) := hparts s
    have hload := loadEntries_refines (entriesOf s entries) represents_boot
    rw [hsome] at hload
    obtain ⟨w',shape',hw',-,hrep'⟩ := hload
    refine ⟨w',shape',hw',hrep'.topology,?_⟩
    rw [devicesAt_of_represents hrep',topology_unique ht hrep.topology,
      devicesAt_of_represents hrep,devices_named]

/-- Two configurations in which every section has the same entries in the same order, however the
sections are interleaved, are both rejected or make the same devices. -/
theorem sections_interleave (h : ∀ e∈entries,SectionFits e)
    (hsame : ∀ s,entriesOf s entries=entriesOf s entries') :
    SameOutcome (loadEntries entries World.boot) (loadEntries entries' World.boot) := by
  have h' : ∀ e∈entries',SectionFits e := by
    intro e he
    have hin : e∈entriesOf e.sectionName entries' := List.mem_filter.mpr ⟨he,by simp⟩
    rw [← hsame] at hin
    exact h e (List.mem_of_mem_filter hin)
  have htrees := foldlM_interleave applyEntry_acts h h' hsame []
  rw [sameOutcome_iff represents_boot]
  cases hx : entries.foldlM applyEntry [] with
  | none =>
    rw [hx] at htrees
    cases hx' : entries'.foldlM applyEntry [] with
    | none => rfl
    | some tree' => rw [hx'] at htrees; exact htrees.elim
  | some tree =>
    rw [hx] at htrees
    cases hx' : entries'.foldlM applyEntry [] with
    | none => rw [hx'] at htrees; exact htrees.elim
    | some tree' =>
      rw [hx'] at htrees
      have hperm := perm_of_mastersNamed htrees
      rw [Option.map_some,Option.map_some,devices,devices,Multiset.coe_eq_coe.mpr hperm]

/-- Two sections, one after the other. -/
def twoSections : List ConfigEntry :=
  [⟨"/dev/ttyS0".toList,"virtuals".toList,"a".toList⟩,
    ⟨"/dev/ttyS0".toList,"writer".toList,"a".toList⟩,
    ⟨"/dev/ttyS1".toList,"virtuals".toList,"a b".toList⟩,
    ⟨"/dev/ttyS1".toList,"baudrate".toList,"115200".toList⟩]

/-- The same, with the sections taking turns. -/
def mixedSections : List ConfigEntry :=
  [⟨"/dev/ttyS1".toList,"virtuals".toList,"a b".toList⟩,
    ⟨"/dev/ttyS0".toList,"virtuals".toList,"a".toList⟩,
    ⟨"/dev/ttyS1".toList,"baudrate".toList,"115200".toList⟩,
    ⟨"/dev/ttyS0".toList,"writer".toList,"a".toList⟩]

/-- The names of the sample fit. -/
theorem twoSections_fit : ∀ e∈twoSections,SectionFits e := by
  intro e he
  have hshort : e.sectionName.length≤10 := by
    revert e
    decide
  exact hshort.trans_lt (by decide)

/-- Both sections of the sample load, and so does the file. -/
theorem sections_apart_two : returns (loadEntries twoSections World.boot)=true ↔
    ∀ s,returns (loadEntries (entriesOf s twoSections) World.boot)=true :=
  (sections_apart twoSections_fit).1

/-- The sample loads alike with its sections mixed. -/
theorem sections_interleave_mixed : SameOutcome (loadEntries twoSections World.boot)
    (loadEntries mixedSections World.boot) := by
  refine sections_interleave twoSections_fit fun s => ?_
  by_cases h₀ : s="/dev/ttyS0".toList
  · subst h₀
    decide
  by_cases h₁ : s="/dev/ttyS1".toList
  · subst h₁
    decide
  have hnone : ∀ entries : List ConfigEntry,
      (∀ e∈entries,e.sectionName="/dev/ttyS0".toList ∨ e.sectionName="/dev/ttyS1".toList) →
      entriesOf s entries=[] := by
    intro entries hall
    refine List.filter_eq_nil_iff.mpr fun e he hs => ?_
    rcases hall e he with h|h
    · exact h₀ ((of_decide_eq_true hs).symm.trans h)
    · exact h₁ ((of_decide_eq_true hs).symm.trans h)
  rw [hnone twoSections (by decide),hnone mixedSections (by decide)]

end Loading

end SerialProxy.SectionOrder
