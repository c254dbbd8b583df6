import SerialProxy.MasterWriters
import Mathlib.Data.Multiset.Basic

/-!
# The order of the keys of a section

Two keys of a section act on its virtuals: one creates them and the other only
looks one up. The order of the keys does not matter unless the writer names a
virtual that the same section has yet to create, which is lost when the writer
comes first.
-/

namespace SerialProxy.KeyOrder

open FaultPrograms LinkedCells CText SerialState EventTable SerialNodes SerialLinks SerialConfig
open DeviceConfig NodeTopology ConfigLoading LoadedTopology MasterWriters

/-- A virtuals entry lists a suffix that a writer entry names, all its paths fit, and the master
has no virtual of that path yet. -/
def Loses (s : CString) (d : MasterDevice) (e e' : ConfigEntry) : Prop :=
  e.isVirtuals=true ∧ e'.isWriter=true ∧ e'.value∈strtokSpace e.value ∧
    (∀ t∈strtokSpace e.value,(virtualPath s t).length<pathMax) ∧
    ∀ v∈d.virtuals,v.name≠virtualPath s e'.value

/-- The entries of one section commute on its master. -/
structure Independent (s : CString) (d : MasterDevice) (e e' : ConfigEntry) : Prop where
  /-- They are of the section. -/
  sections : e.sectionName=s ∧ e'.sectionName=s
  /-- Not both of them set the speed. -/
  baudrates : ¬ (e.isBaudrate=true ∧ e'.isBaudrate=true)
  /-- Not both of them list virtuals. -/
  virtuals : ¬ (e.isVirtuals=true ∧ e'.isVirtuals=true)
  /-- Not both of them name a writer. -/
  writers : ¬ (e.isWriter=true ∧ e'.isWriter=true)
  /-- Neither order loses a writer. -/
  kept : ¬ Loses s d e e' ∧ ¬ Loses s d e' e

/-- Mark the virtual of a name as writer in a master. -/
def markIn (name : CString) (d : MasterDevice) : MasterDevice :=
  {d with virtuals := d.virtuals.map (markWriter name)}

section Commuting

variable {s name n : CString} {d d' : MasterDevice} {e e' : ConfigEntry} {tokens : List CString}

/-- What the key `baudrate` does. -/
theorem updateMaster_of_isBaudrate (h : e.isBaudrate=true) :
    updateMaster e d=some {d with baudrate := atoi e.value} := by
  rw [updateMaster,if_pos h]

/-- What the key `virtuals` does. -/
theorem updateMaster_of_isVirtuals (h : e.isVirtuals=true) :
    updateMaster e d=(strtokSpace e.value).foldlM (addToken e.sectionName) d := by
  rw [updateMaster,if_neg (by simp [not_isBaudrate_of_isVirtuals h]),if_pos h]

/-- What the key `writer` does. -/
theorem updateMaster_of_isWriter (h : e.isWriter=true) : updateMaster e d=
    (serialVirtualName e.sectionName e.value pathMax).map fun name => markIn name d := by
  rw [updateMaster,if_neg (by simp [not_isBaudrate_of_isWriter h]),
    if_neg (by simp [not_isVirtuals_of_isWriter h]),if_pos h]
  rfl

/-- Another key does nothing. -/
theorem updateMaster_unknown (hb : e.isBaudrate≠true) (hv : e.isVirtuals≠true)
    (hw : e.isWriter≠true) : updateMaster e d=some d := by
  rw [updateMaster,if_neg hb,if_neg hv,if_neg hw]

/-- Marking a writer keeps the names. -/
theorem markIn_any : (markIn name d).virtuals.any (·.name=n)=d.virtuals.any (·.name=n) := by
  rw [markIn,List.any_map]
  congr 1
  funext v
  simp only [Function.comp_apply,markWriter]
  split <;> rfl

/-- Inserting another virtual, or one that is there, commutes with marking. -/
theorem insertVirtual_markIn (h : n=name → ∃ v∈d.virtuals,v.name=name) :
    insertVirtual n (markIn name d)=markIn name (insertVirtual n d) := by
  unfold insertVirtual
  rw [markIn_any]
  split
  · rfl
  · next hany =>
    have hne : n≠name := by
      intro he
      obtain ⟨v,hv,hn⟩ := h he
      exact hany (List.any_eq_true.mpr ⟨v,hv,by simpa [he] using hn⟩)
    simp only [markIn,List.map_cons,markWriter,if_neg hne]

/-- The token loop commutes with marking a virtual that it does not add. -/
theorem addTokens_markIn (h : ∀ t∈tokens,virtualPath s t=name → ∃ v∈d.virtuals,v.name=name) :
    tokens.foldlM (addToken s) (markIn name d)=
      (tokens.foldlM (addToken s) d).map (markIn name) := by
  induction tokens generalizing d with
  | nil => rfl
  | cons t tokens ih =>
    simp only [List.foldlM_cons,Option.bind_eq_bind,addToken]
    cases hfit : serialVirtualName s t pathMax with
    | none => rfl
    | some path =>
      obtain rfl := serialVirtualName_some hfit
      simp only [Option.map_some,Option.bind_some]
      rw [insertVirtual_markIn fun he => h t List.mem_cons_self he]
      refine ih fun t' ht' he => ?_
      exact insertVirtual_names.mpr (.inl (h t' (List.mem_cons_of_mem _ ht') he))

/-- The token loop does not look at the speed. -/
theorem addTokens_baudrate {b : ℤ} : tokens.foldlM (addToken s) {d with baudrate := b}=
    (tokens.foldlM (addToken s) d).map fun d' => {d' with baudrate := b} := by
  induction tokens generalizing d with
  | nil => rfl
  | cons t tokens ih =>
    simp only [List.foldlM_cons,Option.bind_eq_bind,addToken]
    cases serialVirtualName s t pathMax with
    | none => rfl
    | some path =>
      simp only [Option.map_some,Option.bind_some]
      have hinsert : insertVirtual path {d with baudrate := b}=
          {insertVirtual path d with baudrate := b} := by
        unfold insertVirtual
        dsimp only
        split <;> rfl
      rw [hinsert,ih]

/-- A token that does not fit ends the loop, whatever the master. -/
theorem addTokens_none {t : CString} (ht : t∈tokens) (hlong : ¬ (virtualPath s t).length<pathMax) :
    tokens.foldlM (addToken s) d=none := by
  cases hx : tokens.foldlM (addToken s) d with
  | none => rfl
  | some d' => exact absurd (fits_of_addTokens hx ht) hlong

/-- Setting the speed commutes with the other keys. -/
theorem updateMaster_baudrate (b : ℤ) (hb : e.isBaudrate≠true) :
    updateMaster e {d with baudrate := b}=
      (updateMaster e d).map fun d' => {d' with baudrate := b} := by
  by_cases hv : e.isVirtuals=true
  · rw [updateMaster_of_isVirtuals hv,updateMaster_of_isVirtuals hv]
    exact addTokens_baudrate
  · by_cases hw : e.isWriter=true
    · rw [updateMaster_of_isWriter hw,updateMaster_of_isWriter hw,Option.map_map]
      rfl
    · rw [updateMaster_unknown hb hv hw,updateMaster_unknown hb hv hw,Option.map_some]

/-- Listing virtuals commutes with naming a writer that is not lost. -/
theorem virtuals_writer_comm (hs : e.sectionName=s) (hs' : e'.sectionName=s)
    (hv : e.isVirtuals=true) (hw : e'.isWriter=true) (hkept : ¬ Loses s d e e') :
    (updateMaster e d).bind (updateMaster e')=(updateMaster e' d).bind (updateMaster e) := by
  have hleft : ∀ x : Option MasterDevice,x.bind (updateMaster e')=
      (serialVirtualName s e'.value pathMax).bind fun name => x.map (markIn name) := by
    intro x
    cases x with
    | none => cases serialVirtualName s e'.value pathMax <;> rfl
    | some d =>
      rw [Option.bind_some,updateMaster_of_isWriter hw,hs']
      cases serialVirtualName s e'.value pathMax <;> rfl
  rw [hleft,updateMaster_of_isWriter hw,hs',updateMaster_of_isVirtuals hv,hs]
  cases hname : serialVirtualName s e'.value pathMax with
  | none => rfl
  | some name =>
    obtain rfl := serialVirtualName_some hname
    simp only [Option.bind_some,Option.map_some]
    rw [updateMaster_of_isVirtuals hv,hs]
    by_cases hfit : ∀ t∈strtokSpace e.value,(virtualPath s t).length<pathMax
    · refine (addTokens_markIn fun t ht he => ?_).symm
      by_contra hnone
      rw [virtualPath_inj he] at ht
      exact hkept ⟨hv,hw,ht,hfit,fun v hv' hn => hnone ⟨v,hv',hn⟩⟩
    · obtain ⟨t,ht,hlong⟩ : ∃ t∈strtokSpace e.value,¬ (virtualPath s t).length<pathMax := by
        simpa using hfit
      rw [addTokens_none ht hlong,addTokens_none ht hlong,Option.map_none]

/-- A speed commutes with the other keys. -/
theorem baudrate_comm (hb : e.isBaudrate=true) (hb' : e'.isBaudrate≠true) :
    (updateMaster e d).bind (updateMaster e')=(updateMaster e' d).bind (updateMaster e) := by
  rw [updateMaster_of_isBaudrate hb,Option.bind_some,updateMaster_baudrate _ hb']
  cases updateMaster e' d with
  | none => rfl
  | some d' => rw [Option.map_some,Option.bind_some,updateMaster_of_isBaudrate hb]

/-- So does an unknown key. -/
theorem unknown_comm (hb : e.isBaudrate≠true) (hv : e.isVirtuals≠true) (hw : e.isWriter≠true) :
    (updateMaster e d).bind (updateMaster e')=(updateMaster e' d).bind (updateMaster e) := by
  have hid : ∀ d,updateMaster e d=some d := fun d => updateMaster_unknown hb hv hw
  rw [hid,Option.bind_some]
  cases updateMaster e' d with
  | none => rfl
  | some d' => rw [Option.bind_some,hid]

/-- Independent entries commute. -/
theorem updateMaster_comm (h : Independent s d e e') :
    (updateMaster e d).bind (updateMaster e')=(updateMaster e' d).bind (updateMaster e) := by
  obtain ⟨⟨hs,hs'⟩,hbaud,hvirt,hwrite,hkept,hkept'⟩ := h
  by_cases hb : e.isBaudrate=true
  · exact baudrate_comm hb fun hb' => hbaud ⟨hb,hb'⟩
  by_cases hb' : e'.isBaudrate=true
  · exact (baudrate_comm hb' hb).symm
  by_cases hv : e.isVirtuals=true
  · by_cases hw' : e'.isWriter=true
    · exact virtuals_writer_comm hs hs' hv hw' hkept
    · exact (unknown_comm hb' (fun hv' => hvirt ⟨hv,hv'⟩) hw').symm
  by_cases hw : e.isWriter=true
  · by_cases hv' : e'.isVirtuals=true
    · exact (virtuals_writer_comm hs' hs hv' hw hkept').symm
    · exact (unknown_comm hb' hv' fun hw' => hwrite ⟨hw,hw'⟩).symm
  exact unknown_comm hb hv hw

/-- Entries only ever add virtuals. -/
theorem names_of_updateMaster (hx : updateMaster e d=some d') (h : ∃ v∈d.virtuals,v.name=n) :
    ∃ v∈d'.virtuals,v.name=n := by
  unfold updateMaster at hx
  split at hx
  · rw [Option.some.injEq] at hx
    exact hx ▸ h
  · split at hx
    · exact ((extended_of_tokens hx).names n).mpr (.inl h)
    · split at hx
      · obtain ⟨name,-,rfl⟩ := Option.map_eq_some_iff.mp hx
        obtain ⟨v,hv,hn⟩ := h
        refine ⟨markWriter name v,List.mem_map_of_mem hv,?_⟩
        rw [← hn,markWriter]
        split <;> rfl
      · rw [Option.some.injEq] at hx
        exact hx ▸ h

/-- What no order loses now is not lost later. -/
theorem not_loses_of_updateMaster {c : ConfigEntry} (hx : updateMaster c d=some d')
    (h : ¬ Loses s d e e') : ¬ Loses s d' e e' := by
  rintro ⟨hv,hw,ht,hfit,hnone⟩
  refine h ⟨hv,hw,ht,hfit,fun v hv' hn => ?_⟩
  obtain ⟨v',hv'',hn'⟩ := names_of_updateMaster hx ⟨v,hv',hn⟩
  exact hnone v' hv'' hn'

/-- Independence has no order. -/
theorem Independent.symm (h : Independent s d e e') : Independent s d e' e :=
  ⟨h.sections.symm,fun hb => h.baudrates hb.symm,fun hv => h.virtuals hv.symm,
    fun hw => h.writers hw.symm,h.kept.symm⟩

/-- It stays behind another entry. -/
theorem Independent.step {c : ConfigEntry} (hx : updateMaster c d=some d')
    (h : Independent s d e e') : Independent s d' e e' :=
  {h with kept := h.kept.imp (not_loses_of_updateMaster hx) (not_loses_of_updateMaster hx)}

end Commuting

/-- The entries of one section, one after another, on its master. -/
def updateAll (entries : List ConfigEntry) (d : MasterDevice) : Option MasterDevice :=
  entries.foldlM (fun d e => updateMaster e d) d

/-- Each of the keys that the callback knows occurs once at most. -/
structure KeysOnce (entries : List ConfigEntry) : Prop where
  /-- Speed. -/
  baudrate : entries.countP ConfigEntry.isBaudrate≤1
  /-- Virtuals. -/
  virtuals : entries.countP ConfigEntry.isVirtuals≤1
  /-- Writer. -/
  writer : entries.countP ConfigEntry.isWriter≤1

section Permuted

variable {s : CString} {d : MasterDevice} {entries entries' : List ConfigEntry}
variable {e e' : ConfigEntry} {tree : DeviceTree}

/-- Without a lost writer the entries of a section may come in any order. -/
theorem updateAll_perm (hs : ∀ e∈entries,e.sectionName=s) (hk : KeysOnce entries)
    (hkept : ∀ e∈entries,∀ e'∈entries,¬ Loses s d e e') (h : entries.Perm entries') :
    updateAll entries d=updateAll entries' d := by
  have hcomm : ∀ d e e',Independent s d e e' →
      (updateMaster e d).bind (fun d => updateMaster e' d)=
        (updateMaster e' d).bind (fun d => updateMaster e d) := fun _ _ _ => updateMaster_comm
  unfold updateAll
  refine foldlM_perm (R:=Independent s) (fun _ _ _ => .symm) (fun _ _ _ _ _ => .step) hcomm h d ?_
  have hpairs := (pairwise_of_countP hk.baudrate).and
    ((pairwise_of_countP hk.virtuals).and (pairwise_of_countP hk.writer))
  refine hpairs.imp_of_mem fun {e e'} he he' hne => ?_
  exact ⟨⟨hs e he,hs e' he'⟩,hne.1,hne.2.1,hne.2.2,hkept e he e' he',hkept e' he' e he⟩

/-- The first entry is applied first. -/
theorem updateAll_cons : updateAll (e::entries) d=
    (updateMaster e d).bind (updateAll entries) := by
  rw [updateAll,List.foldlM_cons]
  rfl

/-- Entries without virtuals and writers leave the virtuals alone. -/
theorem updateAll_plain (h : ∀ e∈entries,e.isVirtuals≠true ∧ e.isWriter≠true) :
    ∃ d',updateAll entries d=some d' ∧ d'.virtuals=d.virtuals := by
  induction entries generalizing d with
  | nil => exact ⟨d,rfl,rfl⟩
  | cons e entries ih =>
    obtain ⟨hv,hw⟩ := h e List.mem_cons_self
    obtain ⟨d₁,hx,hsame⟩ : ∃ d₁,updateMaster e d=some d₁ ∧ d₁.virtuals=d.virtuals := by
      by_cases hb : e.isBaudrate=true
      · exact ⟨_,updateMaster_of_isBaudrate hb,rfl⟩
      · exact ⟨d,updateMaster_unknown hb hv hw,rfl⟩
    obtain ⟨d',hrest,hsame'⟩ := ih (d:=d₁) fun e' he' => h e' (List.mem_cons_of_mem _ he')
    exact ⟨d',by rw [updateAll_cons,hx,Option.bind_some,hrest],hsame'.trans hsame⟩

/-- The two entries of a lost writer may stand in front, in either order. -/
theorem perm_front (hk : KeysOnce entries) (he : e∈entries) (he' : e'∈entries)
    (hv : e.isVirtuals=true) (hw : e'.isWriter=true) : ∃ rest,entries.Perm (e::e'::rest) ∧
      ∀ x∈rest,x.isVirtuals≠true ∧ x.isWriter≠true := by
  have hne : e'≠e := by
    rintro rfl
    rw [not_isVirtuals_of_isWriter hw] at hv
    exact Bool.noConfusion hv
  have hperm : entries.Perm (e::e'::(entries.erase e).erase e') :=
    (List.perm_cons_erase he).trans
      ((List.perm_cons_erase ((List.mem_erase_of_ne hne).mpr he')).cons e)
  refine ⟨_,hperm,fun x hx => ⟨fun hxv => ?_,fun hxw => ?_⟩⟩
  · have hcount := hk.virtuals
    have hpos := List.countP_pos_iff.mpr ⟨x,hx,hxv⟩
    rw [hperm.countP_eq,List.countP_cons_of_pos hv,List.countP_cons] at hcount
    omega
  · have hcount := hk.writer
    have hpos := List.countP_pos_iff.mpr ⟨x,hx,hxw⟩
    rw [hperm.countP_eq,List.countP_cons,List.countP_cons_of_pos hw] at hcount
    omega

/-- A writer that may be lost is one in one order and none in another. -/
theorem updateAll_lost (hs : ∀ e∈entries,e.sectionName=s) (hk : KeysOnce entries)
    (he : e∈entries) (he' : e'∈entries) (hl : Loses s d e e') :
    ∃ entries₁ entries₂ d₁ d₂,entries.Perm entries₁ ∧ entries.Perm entries₂ ∧
      updateAll entries₁ d=some d₁ ∧ updateAll entries₂ d=some d₂ ∧
      (∃ v∈d₁.virtuals,v.name=virtualPath s e'.value ∧ v.writer=true) ∧
      ∀ v∈d₂.virtuals,v.name=virtualPath s e'.value → v.writer=false := by
  obtain ⟨hv,hw,ht,hfit,hnone⟩ := hl
  obtain ⟨rest,hperm,hrest⟩ := perm_front hk he he' hv hw
  have hmark : ∀ d,updateMaster e' d=some (markIn (virtualPath s e'.value) d) := by
    intro d
    rw [updateMaster_of_isWriter hw,hs e' he',serialVirtualName_of_lt (hfit _ ht),Option.map_some]
  have htokens : ∀ d,∃ d',updateMaster e d=some d' ∧ Extended s (strtokSpace e.value) d d' := by
    intro d
    obtain ⟨d',hx⟩ := addTokens_isSome (d:=d) hfit
    exact ⟨d',by rw [updateMaster_of_isVirtuals hv,hs e he,hx],extended_of_tokens hx⟩
  obtain ⟨d₁,hx₁,hext₁⟩ := htokens d
  obtain ⟨d₂,hx₂,hext₂⟩ := htokens (markIn (virtualPath s e'.value) d)
  obtain ⟨u₁,hu₁,hsame₁⟩ := updateAll_plain (d:=markIn (virtualPath s e'.value) d₁) hrest
  obtain ⟨u₂,hu₂,hsame₂⟩ := updateAll_plain (d:=d₂) hrest
  refine ⟨e::e'::rest,e'::e::rest,u₁,u₂,hperm,hperm.trans (.swap _ _ _),?_,?_,?_,?_⟩
  · rw [updateAll_cons,hx₁,Option.bind_some,updateAll_cons,hmark,Option.bind_some,hu₁]
  · rw [updateAll_cons,hmark,Option.bind_some,updateAll_cons,hx₂,Option.bind_some,hu₂]
  · obtain ⟨v,hv',hname⟩ := (hext₁.names _).mpr (.inr ⟨_,ht,rfl⟩)
    rw [hsame₁]
    refine ⟨markWriter (virtualPath s e'.value) v,List.mem_map_of_mem hv',?_⟩
    rw [markWriter,if_pos hname]
    exact ⟨hname,rfl⟩
  · intro v hv' hname
    rw [hsame₂] at hv'
    rcases hext₂.writers v hv' with hold|⟨hfalse,-⟩
    · obtain ⟨u,hu,rfl⟩ := List.mem_map.mp hold
      by_cases hun : u.name=virtualPath s e'.value
      · exact absurd hun (hnone u hu)
      · rw [markWriter,if_neg hun] at hname
        exact absurd hname hun
    · exact hfalse

end Permuted

/-- A master with its virtuals, whatever their order. -/
def view (d : MasterDevice) : CString×ℤ×Multiset VirtualDevice := (d.name,d.baudrate,↑d.virtuals)

/-- The masters of a tree with their virtuals, whatever the order of the lists. -/
def devices (tree : DeviceTree) : Multiset (CString×ℤ×Multiset VirtualDevice) :=
  (tree : Multiset MasterDevice).map view

section Trees

variable {s : CString} {d : MasterDevice} {entries entries' : List ConfigEntry}
variable {e e' : ConfigEntry} {tree before after : DeviceTree}
variable {f g : MasterDevice → Option MasterDevice}

/-- The updates of a section all work on the same master, a new one or the first of its name. -/
theorem updateSection_focus (s : CString) (tree : DeviceTree) : ∃ before d after,
    (∀ f,updateSection s f tree=(f d).map fun d' => before++d'::after) ∧
      (∀ x∈before,x.name≠s) ∧
      (d=newMaster s ∧ (∀ x∈tree,x.name≠s) ∨ d.name=s ∧ tree=before++d::after) := by
  by_cases hnone : ∀ x∈tree,x.name≠s
  · exact ⟨[],newMaster s,tree,fun f => updateSection_new f hnone,by simp,.inl ⟨rfl,hnone⟩⟩
  · have hfind : (tree.find? fun x => x.name=s).isSome=true := by
      rw [List.find?_isSome]
      simpa using hnone
    obtain ⟨d,hd⟩ := Option.isSome_iff_exists.mp hfind
    obtain ⟨hname,before,after,rfl,hbefore⟩ := List.find?_eq_some_iff_append.mp hd
    have hb : ∀ x∈before,x.name≠s := fun x hx => by simpa using hbefore x hx
    have hn : d.name=s := by simpa using hname
    exact ⟨before,d,after,fun f => updateSection_found f hb hn,hb,.inr ⟨hn,rfl⟩⟩

/-- Two updates of a section are one. -/
theorem updateSection_bind (hu : s.length<pathMax) (hf : ∀ d d',f d=some d' → d'.name=d.name) :
    (updateSection s f tree).bind (updateSection s g)=
      updateSection s (fun d => (f d).bind g) tree := by
  obtain ⟨before,d,after,hup,hb,hd⟩ := updateSection_focus s tree
  have hname : d.name=s := by
    rcases hd with ⟨rfl,-⟩|⟨hn,-⟩
    · exact strlcpy_of_lt hu
    · exact hn
  rw [hup,hup]
  cases hx : f d with
  | none => rfl
  | some d' =>
    rw [Option.map_some,Option.bind_some,Option.bind_some]
    exact updateSection_found g hb ((hf d d' hx).trans hname)

/-- The entries of a section that fits are one update of its master. -/
theorem foldlM_section (hu : s.length<pathMax) (hs : ∀ e∈entries,e.sectionName=s)
    (hne : entries≠[]) :
    entries.foldlM applyEntry tree=updateSection s (updateAll entries) tree := by
  induction entries generalizing tree with
  | nil => exact absurd rfl hne
  | cons e entries ih =>
    have happly : ∀ tree,applyEntry tree e=updateSection s (updateMaster e) tree := by
      intro tree
      rw [applyEntry,hs e List.mem_cons_self]
    have hsplit : updateAll (e::entries)=fun d => (updateMaster e d).bind (updateAll entries) :=
      funext fun d => updateAll_cons
    rw [List.foldlM_cons,Option.bind_eq_bind,happly,hsplit]
    rcases eq_or_ne entries [] with rfl|hrest
    · have hone : (fun d => (updateMaster e d).bind (updateAll []))=updateMaster e := by
        funext d
        exact Option.bind_fun_some _
      rw [hone]
      exact Option.bind_fun_some _
    · rw [← updateSection_bind hu fun d d' => updateMaster_name]
      congr 1
      funext tree
      exact ih (fun e' he' => hs e' (List.mem_cons_of_mem _ he')) hrest

/-- Where two trees look alike that differ in one device at most, this device looks alike. -/
theorem devices_focus {d₁ d₂ : MasterDevice}
    (h : devices (before++d₁::after)=devices (before++d₂::after)) : view d₁=view d₂ := by
  simp only [devices,Multiset.map_coe,List.map_append,List.map_cons,Multiset.coe_eq_coe] at h
  rw [List.perm_append_left_iff,← Multiset.coe_eq_coe,← Multiset.cons_coe,← Multiset.cons_coe,
    Multiset.cons_inj_left] at h
  exact h

/-- In a section that fits, every order gives the same devices exactly when no order loses a
writer of its master. -/
theorem devices_perm_iff (hu : s.length<pathMax) (hs : ∀ e∈entries,e.sectionName=s)
    (hk : KeysOnce entries) (hup : ∀ f,updateSection s f tree=
      (f d).map fun d' => before++d'::after) :
    (∀ entries',entries.Perm entries' → (entries.foldlM applyEntry tree).map devices=
      (entries'.foldlM applyEntry tree).map devices) ↔
      ∀ e∈entries,∀ e'∈entries,¬ Loses s d e e' := by
  have hfold : ∀ l,entries≠[] → entries.Perm l → l.foldlM applyEntry tree=
      (updateAll l d).map fun d' => before++d'::after := by
    intro l hne hl
    have hlne : l≠[] := by
      rintro rfl
      exact hne hl.eq_nil
    rw [foldlM_section hu (fun e he => hs e (hl.mem_iff.mpr he)) hlne,hup]
  constructor
  · intro h e he e' he' hl
    have hne : entries≠[] := List.ne_nil_of_mem he
    obtain ⟨l₁,l₂,d₁,d₂,hp₁,hp₂,hx₁,hx₂,⟨v,hv,hn,hw⟩,hnone⟩ := updateAll_lost hs hk he he' hl
    have hsame := (h l₁ hp₁).symm.trans (h l₂ hp₂)
    rw [hfold l₁ hne hp₁,hfold l₂ hne hp₂,hx₁,hx₂] at hsame
    have hview := devices_focus (Option.some.inj hsame)
    have hvirtuals : (d₁.virtuals : Multiset VirtualDevice)=d₂.virtuals :=
      congrArg (fun x => x.2.2) hview
    have hv₂ : v∈d₂.virtuals := (Multiset.coe_eq_coe.mp hvirtuals).mem_iff.mp hv
    rw [hnone v hv₂ hn] at hw
    exact Bool.noConfusion hw
  · intro hkept entries' hp
    rcases eq_or_ne entries [] with rfl|hne
    · rw [hp.nil_eq]
    · rw [hfold entries hne (.refl _),hfold entries' hne hp,updateAll_perm hs hk hkept hp]

/-- A section that does not fit gets another master at every entry. -/
def addLong (s : CString) (masters : Multiset MasterDevice) (e : ConfigEntry) :
    Option (Multiset MasterDevice) :=
  (updateMaster e (newMaster s)).map (· ::ₘ masters)

/-- Entries of a section that is too long add a device each. -/
theorem foldlM_long (hlong : pathMax ≤ s.length) (hs : ∀ e∈entries,e.sectionName=s)
    (hnames : ∀ d∈tree,d.name≠s) :
    (entries.foldlM applyEntry tree).map Multiset.ofList=entries.foldlM (addLong s) ↑tree := by
  induction entries generalizing tree with
  | nil => rfl
  | cons e entries ih =>
    have happly : applyEntry tree e=(updateMaster e (newMaster s)).map fun d => d::tree := by
      rw [applyEntry,hs e List.mem_cons_self]
      exact updateSection_new _ hnames
    simp only [List.foldlM_cons,Option.bind_eq_bind,happly,addLong]
    cases hx : updateMaster e (newMaster s) with
    | none => rfl
    | some d =>
      have hcut : d.name≠s := by
        rw [updateMaster_name hx]
        intro hself
        have hlt := strlcpy_length_lt s (show 0<pathMax by decide)
        rw [show strlcpy s pathMax=s from hself] at hlt
        omega
      simp only [Option.map_some,Option.bind_some]
      refine ih (fun e' he' => hs e' (List.mem_cons_of_mem _ he')) fun x hx' => ?_
      rcases List.mem_cons.mp hx' with rfl|hx'
      · exact hcut
      · exact hnames x hx'

/-- The masters of a section that does not fit may come in any order. -/
theorem devices_long (hlong : pathMax ≤ s.length) (hs : ∀ e∈entries,e.sectionName=s)
    (hnames : ∀ d∈tree,d.name≠s) (h : entries.Perm entries') :
    (entries.foldlM applyEntry tree).map devices=(entries'.foldlM applyEntry tree).map devices := by
  have hdevices : ∀ x : Option DeviceTree,x.map devices=
      (x.map Multiset.ofList).map (Multiset.map view) := by
    intro x
    rw [Option.map_map]
    rfl
  have hcomm : ∀ masters e e',(addLong s masters e).bind (fun m => addLong s m e')=
      (addLong s masters e').bind (fun m => addLong s m e) := by
    intro masters e e'
    unfold addLong
    cases updateMaster e (newMaster s) with
    | none => cases updateMaster e' (newMaster s) <;> rfl
    | some d =>
      cases updateMaster e' (newMaster s) with
      | none => rfl
      | some d' => exact congrArg some (Multiset.cons_swap _ _ _)
  rw [hdevices,hdevices,foldlM_long hlong hs hnames,
    foldlM_long hlong (fun e he => hs e (h.mem_iff.mpr he)) hnames]
  exact congrArg (Option.map _) (foldlM_perm (R:=fun _ _ _ => True) (fun _ _ _ => id)
    (fun _ _ _ _ _ _ => id) (fun m e e' _ => hcomm m e e') h _
    (List.pairwise_of_forall fun _ _ => trivial))

end Trees

/-- The devices in the node lists of a state, whatever their order. -/
def devicesAt (w : World) (shape : Shape) : Multiset (CString×ℤ×Multiset VirtualDevice) :=
  (shape : Multiset (NodePtr×List NodePtr)).map fun g => (nameAt w g.1,(nodeAt w g.1).baudrate,
    ((g.2.map fun v => ⟨nameAt w v,nodeIsWriter (nodeAt w v)⟩ : List VirtualDevice) :
      Multiset VirtualDevice))

/-- The masters, virtuals, speeds and writers of two states are the same, up to the order of the
lists. -/
def SameTopology (w t : World) : Prop :=
  ∃ shape shape',Topology w shape ∧ Topology t shape' ∧ devicesAt w shape=devicesAt t shape'

/-- Two loads give the same topology, or both end the process in the same way. -/
def SameOutcome : EStateM.Result Fault World Unit → EStateM.Result Fault World Unit → Prop
  | .ok _ w,.ok _ t => SameTopology w t
  | .error f _,.error f' _ => f=f'
  | _,_ => False

/-- The master of a section has a virtual of this path. -/
def HasVirtual (w : World) (s name : CString) : Prop :=
  ∃ shape,Topology w shape ∧ ∃ g∈shape,nameAt w g.1=s ∧ name∈g.2.map (nameAt w)

/-- A writer entry names a suffix of a virtuals entry whose paths fit, and the section has no
virtual of that path yet. -/
def MayLoseWriter (w : World) (s : CString) (entries : List ConfigEntry) : Prop :=
  ∃ e∈entries,∃ e'∈entries,e.isVirtuals=true ∧ e'.isWriter=true ∧
    e'.value∈strtokSpace e.value ∧ (∀ t∈strtokSpace e.value,(virtualPath s t).length<pathMax) ∧
    ¬ HasVirtual w s (virtualPath s e'.value)

section Loading

variable {w t : World} {shape shape' : Shape} {tree tree' : DeviceTree} {s name : CString}
variable {loaded entries entries' : List ConfigEntry}

/-- The devices of a world are those of the tree it represents. -/
theorem devicesAt_of_represents (h : Represents w shape tree) :
    devicesAt w shape=devices tree := by
  simp only [devicesAt,devices,Multiset.map_coe]
  refine congrArg _ (map_eq_of_forall₂ h.described fun g d hd => ?_)
  obtain ⟨hname,hbaud,hvirtuals⟩ := hd
  have hlist : (g.2.map fun v => ⟨nameAt w v,nodeIsWriter (nodeAt w v)⟩ : List VirtualDevice)=
      d.virtuals := by
    have hmap := map_eq_of_forall₂ (g:=id) hvirtuals fun v vd (hv : DescribesVirtual w v vd) =>
      show (⟨nameAt w v,nodeIsWriter (nodeAt w v)⟩ : VirtualDevice)=id vd by
        rw [nameAt,hv.1,hv.2]
        rfl
    rwa [List.map_id] at hmap
  rw [view,hlist,nameAt,hname,hbaud]

/-- The node lists of a state have one shape. -/
theorem topology_unique (h : Topology w shape) (h' : Topology w shape') : shape=shape' := by
  have hmasters := h.masters.unique h'.masters
  have hlen : shape.length=shape'.length := by
    have := congrArg List.length hmasters
    rwa [List.length_map,List.length_map] at this
  refine List.ext_getElem hlen fun i hi hi' => ?_
  have hfst : shape[i].1=shape'[i].1 := by
    have hget := congrArg (·[i]?) hmasters
    simpa [hi,hi'] using hget
  obtain ⟨m,hm,-,-,hchain⟩ := h.master _ (List.getElem_mem hi)
  obtain ⟨m',hm',-,-,hchain'⟩ := h'.master _ (List.getElem_mem hi')
  rw [← hfst,hm,Option.some.injEq] at hm'
  subst hm'
  exact Prod.ext hfst (hchain.unique hchain')

/-- Worlds are alike when their trees are. -/
theorem sameTopology_iff (h : Represents w shape tree) (h' : Represents t shape' tree') :
    SameTopology w t ↔ devices tree=devices tree' := by
  constructor
  · rintro ⟨a,b,ha,hb,hsame⟩
    rw [topology_unique ha h.topology,topology_unique hb h'.topology,
      devicesAt_of_represents h,devicesAt_of_represents h'] at hsame
    exact hsame
  · intro hsame
    refine ⟨shape,shape',h.topology,h'.topology,?_⟩
    rw [devicesAt_of_represents h,devicesAt_of_represents h',hsame]

/-- Outcomes of loads are compared on the trees. -/
theorem sameOutcome_iff (h : Represents w shape tree) :
    SameOutcome (loadEntries entries w) (loadEntries entries' w) ↔
      (entries.foldlM applyEntry tree).map devices=
        (entries'.foldlM applyEntry tree).map devices := by
  have hl := loadEntries_refines entries h
  have hl' := loadEntries_refines entries' h
  cases hx : entries.foldlM applyEntry tree with
  | none =>
    rw [hx] at hl
    obtain ⟨t,ht⟩ := hl
    cases hx' : entries'.foldlM applyEntry tree with
    | none =>
      rw [hx'] at hl'
      obtain ⟨t',ht'⟩ := hl'
      rw [ht,ht']
      exact iff_of_true rfl rfl
    | some tree' =>
      rw [hx'] at hl'
      obtain ⟨t',_,ht',-⟩ := hl'
      rw [ht,ht']
      exact iff_of_false id (by simp)
  | some tree₁ =>
    rw [hx] at hl
    obtain ⟨t,_,ht,-,hr⟩ := hl
    cases hx' : entries'.foldlM applyEntry tree with
    | none =>
      rw [hx'] at hl'
      obtain ⟨t',ht'⟩ := hl'
      rw [ht,ht']
      exact iff_of_false id (by simp)
    | some tree₂ =>
      rw [hx'] at hl'
      obtain ⟨t',_,ht',-,hr'⟩ := hl'
      rw [ht,ht',Option.map_some,Option.map_some,Option.some.injEq]
      exact sameTopology_iff hr hr'

/-- A virtual of the world is one of the tree. -/
theorem hasVirtual_iff (h : Represents w shape tree) :
    HasVirtual w s name ↔ ∃ d∈tree,d.name=s ∧ ∃ v∈d.virtuals,v.name=name := by
  constructor
  · rintro ⟨shape',ht,g,hg,hs,hname⟩
    rw [topology_unique ht h.topology] at hg
    obtain ⟨d,hd,hdesc⟩ := matched_left h.described hg
    rw [virtual_names hdesc] at hname
    exact ⟨d,hd,hdesc.1.symm.trans hs,List.mem_map.mp hname⟩
  · rintro ⟨d,hd,hs,hv⟩
    obtain ⟨g,hg,hdesc⟩ := matched_right h.described hd
    refine ⟨shape,h.topology,g,hg,hdesc.1.trans hs,?_⟩
    rw [virtual_names hdesc]
    exact List.mem_map.mpr hv

/-- The master that a section updates is the only one of its name. -/
theorem virtual_of_focus {d : MasterDevice} {before after : DeviceTree} {t : CString}
    (htree : treeOf loaded=some tree) (hfit : (virtualPath s t).length<pathMax)
    (hd : d=newMaster s ∧ (∀ x∈tree,x.name≠s) ∨ d.name=s ∧ tree=before++d::after) :
    (∃ d∈tree,d.name=s ∧ ∃ v∈d.virtuals,v.name=name) ↔ ∃ v∈d.virtuals,v.name=name := by
  constructor
  · rintro ⟨x,hx,hn,hv⟩
    rcases hd with ⟨-,hnone⟩|⟨rfl,rfl⟩
    · exact absurd hn (hnone x hx)
    · have hmem : d∈before++d::after := by simp
      have honly := (describedBy_of_mem (untruncated_of_fits hfit) htree hmem).1
      have hx' : x∈mastersNamed d.name (before++d::after) :=
        List.mem_filter.mpr ⟨hx,by simpa using hn⟩
      rw [honly,List.mem_singleton] at hx'
      exact hx' ▸ hv
  · rintro ⟨v,hv,hn⟩
    rcases hd with ⟨rfl,-⟩|⟨hname,rfl⟩
    · exact absurd hv (by simp [newMaster])
    · exact ⟨d,by simp,hname,v,hv,hn⟩

/-- From every loader state, all orders of the entries of a section give the same outcome exactly
when no writer entry names a virtual that the same entries have yet to create. -/
theorem keyOrder_iff (h : loadEntries loaded World.boot=.ok () w)
    (hs : ∀ e∈entries,e.sectionName=s) (hk : KeysOnce entries) :
    (∀ entries',entries.Perm entries' →
      SameOutcome (loadEntries entries w) (loadEntries entries' w)) ↔
      ¬ MayLoseWriter w s entries := by
  obtain ⟨tree,shape,htree,-,hr⟩ := loadEntries_boot h
  simp only [sameOutcome_iff hr]
  by_cases hlong : pathMax ≤ s.length
  · have hnames : ∀ d∈tree,d.name≠s := by
      rintro d hd rfl
      obtain ⟨e,-,hcut⟩ := treeOf_names htree d hd
      have hlt := strlcpy_length_lt e.sectionName (show 0<pathMax by decide)
      rw [← hcut] at hlt
      omega
    refine iff_of_true (fun entries' hp => devices_long hlong hs hnames hp) ?_
    rintro ⟨e,-,e',-,-,-,ht,hfit,-⟩
    have hlt := hfit _ ht
    rw [virtualPath,List.length_append] at hlt
    omega
  · obtain ⟨before,d,after,hup,-,hd⟩ := updateSection_focus s tree
    rw [devices_perm_iff (by omega) hs hk hup]
    have hvirtual : ∀ t name,(virtualPath s t).length<pathMax →
        (HasVirtual w s name ↔ ∃ v∈d.virtuals,v.name=name) := fun t name hfit =>
      (hasVirtual_iff hr).trans (virtual_of_focus htree hfit hd)
    constructor
    · rintro hkept ⟨e,he,e',he',hv,hw,ht,hfit,hnone⟩
      refine hkept e he e' he' ⟨hv,hw,ht,hfit,fun v hv' hn => hnone ?_⟩
      exact (hvirtual _ _ (hfit _ ht)).mpr ⟨v,hv',hn⟩
    · rintro hmay e he e' he' ⟨hv,hw,ht,hfit,hnone⟩
      refine hmay ⟨e,he,e',he',hv,hw,ht,hfit,fun hhas => ?_⟩
      obtain ⟨v,hv',hn⟩ := (hvirtual _ _ (hfit _ ht)).mp hhas
      exact hnone v hv' hn

/-- The sample may be loaded in any order, or may lose its writer. -/
theorem keyOrder_iff_sample : (∀ entries',sampleEntries.Perm entries' →
      SameOutcome (loadEntries sampleEntries World.boot) (loadEntries entries' World.boot)) ↔
      ¬ MayLoseWriter World.boot "/dev/ttyS5".toList sampleEntries :=
  keyOrder_iff (show loadEntries [] World.boot=.ok () World.boot from rfl) (by decide)
    ⟨by decide,by decide,by decide⟩

/-- With the writer in front of the virtuals, the section has no writer. -/
theorem writer_first_lost : sampleEntries.Perm sampleEntries.reverse ∧ KeysOnce sampleEntries ∧
    ¬ SameOutcome (loadEntries sampleEntries World.boot)
      (loadEntries sampleEntries.reverse World.boot) := by
  refine ⟨(List.reverse_perm _).symm,⟨by decide,by decide,by decide⟩,?_⟩
  rw [sameOutcome_iff represents_boot]
  decide +kernel

end Loading

end SerialProxy.KeyOrder
