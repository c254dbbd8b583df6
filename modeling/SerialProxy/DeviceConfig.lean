import SerialProxy.SerialConfig

/-!
# Device trees described by configuration entries

The purpose of the loader, without a heap: a configuration is a list of
masters, each with a speed and a list of virtuals of which some may write. An
entry creates the master of its section if there is none and then updates it.
The resulting tree is described by the entries of each section alone.
-/

namespace SerialProxy.DeviceConfig

open CText SerialState SerialNodes SerialConfig

/-- A virtual of a master. -/
structure VirtualDevice where
  /-- Path of the virtual. -/
  name : CString
  /-- It may write to the master. -/
  writer : Bool
  deriving DecidableEq

/-- A master with its virtuals. -/
structure MasterDevice where
  /-- Path of the master. -/
  name : CString
  /-- Requested speed. -/
  baudrate : ℤ
  /-- Its virtuals. -/
  virtuals : List VirtualDevice
  deriving DecidableEq

/-- The masters of a configuration. -/
abbrev DeviceTree := List MasterDevice

/-- The master a section starts with. -/
def newMaster (sectionName : CString) : MasterDevice :=
  ⟨strlcpy sectionName pathMax,9600,[]⟩

/-- Add a virtual, unless there is one of that name. -/
def insertVirtual (name : CString) (d : MasterDevice) : MasterDevice :=
  if d.virtuals.any (·.name=name) then d else {d with virtuals := ⟨name,false⟩::d.virtuals}

/-- Add the virtual of one token; nothing if its name does not fit. -/
def addToken (sectionName : CString) (d : MasterDevice) (token : CString) : Option MasterDevice :=
  (serialVirtualName sectionName token pathMax).map fun name => insertVirtual name d

/-- Mark the virtual of a name as writer. -/
def markWriter (name : CString) (v : VirtualDevice) : VirtualDevice :=
  if v.name=name then {v with writer := true} else v

/-- What an entry does to the master of its section. -/
def updateMaster (e : ConfigEntry) (d : MasterDevice) : Option MasterDevice :=
  if e.isBaudrate then some {d with baudrate := atoi e.value}
  else if e.isVirtuals then (strtokSpace e.value).foldlM (addToken e.sectionName) d
  else if e.isWriter then
    (serialVirtualName e.sectionName e.value pathMax).map fun name =>
      {d with virtuals := d.virtuals.map (markWriter name)}
  else some d

/-- Update the first master of a name, or a new one in front. -/
def updateSection (sectionName : CString) (f : MasterDevice → Option MasterDevice)
    (tree : DeviceTree) : Option DeviceTree :=
  match tree.dropWhile (·.name≠sectionName) with
  | [] => (f (newMaster sectionName)).map fun d => d::tree
  | d::after => (f d).map fun d => tree.takeWhile (·.name≠sectionName)++d::after

/-- The tree after one more entry. -/
def applyEntry (tree : DeviceTree) (e : ConfigEntry) : Option DeviceTree :=
  updateSection e.sectionName (updateMaster e) tree

/-- The tree of a list of entries; nothing when the process ends instead. -/
def treeOf (entries : List ConfigEntry) : Option DeviceTree := entries.foldlM applyEntry []

/-- The tokens of the virtuals entries of a section, in order. -/
def tokensOf (s : CString) (entries : List ConfigEntry) : List CString :=
  (entries.filter fun e => e.sectionName=s && e.isVirtuals).flatMap fun e => strtokSpace e.value

/-- The speed a section asks for: that of its last baudrate entry. -/
def baudrateOf (s : CString) (entries : List ConfigEntry) : ℤ :=
  (((entries.filter fun e => e.sectionName=s && e.isBaudrate).getLast?).map
    fun e => atoi e.value).getD 9600

/-- A writer entry of the section names a suffix that an earlier virtuals entry
of the section has. -/
def EffectiveWriter (s suffix : CString) (entries : List ConfigEntry) : Prop :=
  ∃ before e after,entries=before++e::after ∧ e.sectionName=s ∧ e.isWriter=true ∧ e.value=suffix ∧
    suffix∈tokensOf s before

/-- The path of the virtual with a suffix. -/
def virtualPath (s suffix : CString) : CString := s++ '.'::suffix

/-- A master is what the entries of its section describe. -/
structure DescribedBy (s : CString) (entries : List ConfigEntry) (d : MasterDevice) : Prop where
  /-- Its speed is the last one given. -/
  baudrate : d.baudrate=baudrateOf s entries
  /-- Its virtuals are those of the tokens. -/
  names : ∀ name,(∃ v∈d.virtuals,v.name=name) ↔ ∃ t∈tokensOf s entries,name=virtualPath s t
  /-- Each of them occurs once. -/
  nodup : (d.virtuals.map VirtualDevice.name).Nodup
  /-- The writers are those that writer entries name. -/
  writers : ∀ v∈d.virtuals,v.writer=true ↔
    ∃ t,v.name=virtualPath s t ∧ EffectiveWriter s t entries

/-- No other section is cut to this name. -/
def Untruncated (s : CString) (entries : List ConfigEntry) : Prop :=
  s.length<pathMax ∧ ∀ e∈entries,strlcpy e.sectionName pathMax=s → e.sectionName=s

section Keys

variable {e : ConfigEntry}

/-- A key matches only one of two different words. -/
theorem strcaseEq_exclusive {a b c : CString} (h : strcaseEq a b=true)
    (hne : b.map Char.toLower≠c.map Char.toLower) : strcaseEq a c=false := by
  simp only [strcaseEq,decide_eq_true_eq] at h
  simp only [strcaseEq,decide_eq_false_iff_not,h]
  exact hne

/-- The key `virtuals` is not the key `baudrate`. -/
theorem not_isBaudrate_of_isVirtuals (h : e.isVirtuals=true) : e.isBaudrate=false :=
  strcaseEq_exclusive h (by decide)

/-- Neither is the key `writer`. -/
theorem not_isBaudrate_of_isWriter (h : e.isWriter=true) : e.isBaudrate=false :=
  strcaseEq_exclusive h (by decide)

/-- Nor is it the key `virtuals`. -/
theorem not_isVirtuals_of_isWriter (h : e.isWriter=true) : e.isVirtuals=false :=
  strcaseEq_exclusive h (by decide)

/-- Nor the other way round. -/
theorem not_isWriter_of_isVirtuals (h : e.isVirtuals=true) : e.isWriter=false :=
  strcaseEq_exclusive h (by decide)

end Keys

section Entries

variable {s : CString} {entries : List ConfigEntry} {e : ConfigEntry}

/-- Only virtuals entries of the section add tokens. -/
theorem tokensOf_snoc : tokensOf s (entries++[e])=
    tokensOf s entries++if e.sectionName=s ∧ e.isVirtuals=true then strtokSpace e.value else [] := by
  simp only [tokensOf,List.filter_append,List.flatMap_append,List.append_cancel_left_eq]
  by_cases h : e.sectionName=s ∧ e.isVirtuals=true
  · rw [if_pos h,List.filter_cons_of_pos (by simp [h])]
    simp
  · rw [if_neg h,List.filter_cons_of_neg (by simpa using h)]
    rfl

/-- Only baudrate entries of the section change its speed. -/
theorem baudrateOf_snoc : baudrateOf s (entries++[e])=
    if e.sectionName=s ∧ e.isBaudrate=true then atoi e.value else baudrateOf s entries := by
  simp only [baudrateOf,List.filter_append]
  by_cases h : e.sectionName=s ∧ e.isBaudrate=true
  · rw [if_pos h,List.filter_cons_of_pos (by simp [h])]
    simp
  · rw [if_neg h,List.filter_cons_of_neg (by simpa using h)]
    simp

/-- The last entry adds a writer when it names a token seen before. -/
theorem effectiveWriter_snoc {t : CString} : EffectiveWriter s t (entries++[e]) ↔
    EffectiveWriter s t entries ∨
      e.sectionName=s ∧ e.isWriter=true ∧ e.value=t ∧ t∈tokensOf s entries := by
  constructor
  · rintro ⟨before,e',after,hsplit,hs,hw,hv,ht⟩
    rcases List.eq_nil_or_concat after with rfl|⟨after,e'',rfl⟩
    · obtain ⟨rfl,he⟩ := List.append_inj' hsplit rfl
      rw [List.cons.injEq] at he
      obtain ⟨rfl,-⟩ := he
      exact .inr ⟨hs,hw,hv,ht⟩
    · rw [List.concat_eq_append,← List.cons_append,← List.append_assoc] at hsplit
      obtain ⟨rfl,-⟩ := List.append_inj' hsplit rfl
      exact .inl ⟨before,e',after,rfl,hs,hw,hv,ht⟩
  · rintro (⟨before,e',after,rfl,h⟩|⟨hs,hw,hv,ht⟩)
    · exact ⟨before,e',after++[e],by simp,h⟩
    · exact ⟨entries,e,[],rfl,hs,hw,hv,ht⟩

/-- A writer always names one of the tokens. -/
theorem EffectiveWriter.mem_tokens {t : CString} (h : EffectiveWriter s t entries) :
    t∈tokensOf s entries := by
  obtain ⟨before,e,after,rfl,-,-,-,ht⟩ := h
  rw [tokensOf] at ht ⊢
  rw [List.filter_append,List.flatMap_append]
  exact List.mem_append_left _ ht

/-- One more entry is applied to the tree of those before it. -/
theorem treeOf_snoc : treeOf (entries++[e])=(treeOf entries).bind fun tree => applyEntry tree e := by
  simp [treeOf,List.foldlM_append]

/-- Two tokens of a section with the same path are the same. -/
theorem virtualPath_inj {t t' : CString} (h : virtualPath s t=virtualPath s t') : t=t' := by
  simpa [virtualPath] using h

/-- A name that fits is the path of the virtual. -/
theorem serialVirtualName_some {t name : CString}
    (h : serialVirtualName s t pathMax=some name) : name=virtualPath s t := by
  unfold serialVirtualName at h
  dsimp only at h
  split at h
  · simpa [virtualPath] using h.symm
  · exact absurd h (by simp)

/-- It is shorter than its buffer. -/
theorem serialVirtualName_lt {t name : CString}
    (h : serialVirtualName s t pathMax=some name) : name.length<pathMax := by
  unfold serialVirtualName at h
  dsimp only at h
  split at h
  · next hlt =>
    rw [Option.some.injEq] at h
    rwa [← h]
  · exact absurd h (by simp)

end Entries

section Virtuals

variable {name : CString} {d d' : MasterDevice}

/-- Inserting a virtual adds its name to those of the master. -/
theorem insertVirtual_names {n : CString} :
    (∃ v∈(insertVirtual name d).virtuals,v.name=n) ↔ (∃ v∈d.virtuals,v.name=n) ∨ n=name := by
  unfold insertVirtual
  split
  · next h =>
    rw [List.any_eq_true] at h
    obtain ⟨v,hv,hn⟩ := h
    have hn : v.name=name := by simpa using hn
    constructor
    · exact .inl
    · rintro (h|rfl)
      · exact h
      · exact ⟨v,hv,hn⟩
  · simp only [List.mem_cons,exists_eq_or_imp]
    constructor
    · rintro (rfl|h)
      · exact .inr rfl
      · exact .inl h
    · rintro (h|rfl)
      · exact .inr h
      · exact .inl rfl

/-- An inserted virtual has a name of its own. -/
theorem insertVirtual_nodup (h : (d.virtuals.map VirtualDevice.name).Nodup) :
    ((insertVirtual name d).virtuals.map VirtualDevice.name).Nodup := by
  unfold insertVirtual
  split
  · exact h
  · next hn =>
    rw [List.map_cons,List.nodup_cons]
    refine ⟨fun hm => hn ?_,h⟩
    obtain ⟨v,hv,he⟩ := List.mem_map.mp hm
    exact List.any_eq_true.mpr ⟨v,hv,by simpa using he⟩

/-- Inserting a virtual makes no new writer. -/
theorem insertVirtual_writers {v : VirtualDevice} (h : v∈(insertVirtual name d).virtuals) :
    v∈d.virtuals ∨ v=⟨name,false⟩ ∧ ∀ u∈d.virtuals,u.name≠name := by
  unfold insertVirtual at h
  split at h
  · exact .inl h
  · next hn =>
    rcases List.mem_cons.mp h with rfl|h
    · refine .inr ⟨rfl,fun u hu he => hn (List.any_eq_true.mpr ⟨u,hu,by simpa using he⟩)⟩
    · exact .inl h

end Virtuals

/-- A master after the tokens of one virtuals entry. -/
structure Extended (s : CString) (tokens : List CString) (d d' : MasterDevice) : Prop where
  /-- Its path is the same. -/
  name : d'.name=d.name
  /-- Its speed is the same. -/
  baudrate : d'.baudrate=d.baudrate
  /-- The virtuals of the tokens were added. -/
  names : ∀ n,(∃ v∈d'.virtuals,v.name=n) ↔
    (∃ v∈d.virtuals,v.name=n) ∨ ∃ t∈tokens,n=virtualPath s t
  /-- No virtual occurs twice. -/
  nodup : (d.virtuals.map VirtualDevice.name).Nodup → (d'.virtuals.map VirtualDevice.name).Nodup
  /-- New virtuals are no writers. -/
  writers : ∀ v∈d'.virtuals,v∈d.virtuals ∨ v.writer=false ∧ ∀ u∈d.virtuals,u.name≠v.name

section Update

variable {s : CString} {entries : List ConfigEntry} {e : ConfigEntry} {d d' : MasterDevice}

/-- The loop over the tokens of one virtuals entry. -/
theorem extended_of_tokens {tokens : List CString}
    (h : tokens.foldlM (addToken s) d=some d') : Extended s tokens d d' := by
  induction tokens generalizing d with
  | nil =>
    rw [List.foldlM_nil,Option.pure_def,Option.some.injEq] at h
    subst h
    exact ⟨rfl,rfl,by simp,id,fun v hv => .inl hv⟩
  | cons t tokens ih =>
    rw [List.foldlM_cons,Option.bind_eq_bind,Option.bind_eq_some_iff] at h
    obtain ⟨d₁,hadd,hrest⟩ := h
    rw [addToken,Option.map_eq_some_iff] at hadd
    obtain ⟨name,hname,rfl⟩ := hadd
    rw [serialVirtualName_some hname] at hrest
    have hx := ih hrest
    have hfield : (insertVirtual (virtualPath s t) d).name=d.name ∧
        (insertVirtual (virtualPath s t) d).baudrate=d.baudrate := by
      unfold insertVirtual
      split <;> exact ⟨rfl,rfl⟩
    refine ⟨hx.name.trans hfield.1,hx.baudrate.trans hfield.2,fun n => ?_,
      fun hn => hx.nodup (insertVirtual_nodup hn),fun v hv => ?_⟩
    · rw [hx.names,insertVirtual_names]
      simp only [List.mem_cons,exists_eq_or_imp,or_assoc]
    · rcases hx.writers v hv with hv|⟨hw,hne⟩
      · rcases insertVirtual_writers hv with hv|⟨rfl,hne⟩
        · exact .inl hv
        · exact .inr ⟨rfl,hne⟩
      · refine .inr ⟨hw,fun u hu he => ?_⟩
        obtain ⟨u',hu',he'⟩ := insertVirtual_names.mpr (.inl ⟨u,hu,he⟩)
        exact hne u' hu' he'

/-- The key `virtuals` adds its tokens to the description. -/
theorem DescribedBy.of_virtuals (h : DescribedBy s entries d) (hs : e.sectionName=s)
    (hk : e.isVirtuals=true) (hx : Extended s (strtokSpace e.value) d d') :
    DescribedBy s (entries++[e]) d' where
  baudrate := by
    rw [baudrateOf_snoc,if_neg (by simp [not_isBaudrate_of_isVirtuals hk]),hx.baudrate,h.baudrate]
  names := by
    intro n
    rw [hx.names,h.names,tokensOf_snoc,if_pos ⟨hs,hk⟩]
    simp only [List.mem_append,or_and_right,exists_or]
  nodup := hx.nodup h.nodup
  writers := by
    intro v hv
    have heff : ∀ t,EffectiveWriter s t (entries++[e]) ↔ EffectiveWriter s t entries := by
      intro t
      rw [effectiveWriter_snoc]
      simp [not_isWriter_of_isVirtuals hk]
    simp only [heff]
    rcases hx.writers v hv with hv|⟨hw,hne⟩
    · exact h.writers v hv
    · constructor
      · intro hw'
        rw [hw] at hw'
        exact absurd hw' (by simp)
      · rintro ⟨t,ht,he⟩
        obtain ⟨u,hu,hun⟩ := (h.names v.name).mpr ⟨t,he.mem_tokens,ht⟩
        exact absurd hun (hne u hu)

/-- A mark renames nothing. -/
@[simp] theorem markWriter_name (name : CString) (v : VirtualDevice) :
    (markWriter name v).name=v.name := by
  unfold markWriter
  split <;> rfl

/-- Nor do the marks of several virtuals. -/
theorem markWriter_names (name : CString) (ds : List VirtualDevice) :
    (ds.map (markWriter name)).map VirtualDevice.name=ds.map VirtualDevice.name := by
  rw [List.map_map]
  exact List.map_congr_left fun v _ => markWriter_name name v

/-- The key `writer` marks the virtual it names. -/
theorem DescribedBy.of_writer (h : DescribedBy s entries d) (hs : e.sectionName=s)
    (hk : e.isWriter=true) : DescribedBy s (entries++[e])
      {d with virtuals := d.virtuals.map (markWriter (virtualPath s e.value))} where
  baudrate := by
    rw [baudrateOf_snoc,if_neg (by simp [not_isBaudrate_of_isWriter hk]),h.baudrate]
  names := by
    intro n
    rw [tokensOf_snoc,if_neg (by simp [not_isVirtuals_of_isWriter hk]),List.append_nil,← h.names]
    simp only [List.mem_map,exists_exists_and_eq_and,markWriter_name]
  nodup := by
    rw [markWriter_names]
    exact h.nodup
  writers := by
    intro v' hv'
    obtain ⟨v,hv,rfl⟩ := List.mem_map.mp hv'
    have hname := markWriter_name (virtualPath s e.value) v
    have hflag : (markWriter (virtualPath s e.value) v).writer=true ↔
        v.writer=true ∨ v.name=virtualPath s e.value := by
      unfold markWriter
      split
      · next hv => simp [hv]
      · next hv => simp [hv]
    rw [hflag,hname,h.writers v hv]
    simp only [effectiveWriter_snoc,hs,hk,true_and]
    constructor
    · rintro (⟨t,ht,he⟩|he)
      · exact ⟨t,ht,.inl he⟩
      · obtain ⟨t,ht,hn⟩ := (h.names v.name).mp ⟨v,hv,rfl⟩
        obtain rfl := virtualPath_inj (he.symm.trans hn)
        exact ⟨e.value,he,.inr ⟨rfl,ht⟩⟩
    · rintro ⟨t,ht,he|⟨rfl,-⟩⟩
      · exact .inl ⟨t,ht,he⟩
      · exact .inr ht

/-- The key `baudrate` sets the speed. -/
theorem DescribedBy.of_baudrate (h : DescribedBy s entries d) (hs : e.sectionName=s)
    (hk : e.isBaudrate=true) :
    DescribedBy s (entries++[e]) {d with baudrate := atoi e.value} where
  baudrate := by rw [baudrateOf_snoc,if_pos ⟨hs,hk⟩]
  names := by
    intro n
    have hv : ¬ (e.sectionName=s ∧ e.isVirtuals=true) := fun hv =>
      absurd (not_isBaudrate_of_isVirtuals hv.2) (by simp [hk])
    rw [tokensOf_snoc,if_neg hv,List.append_nil,← h.names]
  nodup := h.nodup
  writers := by
    intro v hv
    have hw : ¬ e.isWriter=true := fun hw => absurd (not_isBaudrate_of_isWriter hw) (by simp [hk])
    rw [h.writers v hv]
    simp only [effectiveWriter_snoc,hw,false_and,and_false,or_false,Bool.false_eq_true]

/-- Entries of other sections, and entries with another key, describe nothing new. -/
theorem DescribedBy.of_other (h : DescribedBy s entries d)
    (hk : e.sectionName=s → e.isBaudrate=false ∧ e.isVirtuals=false ∧ e.isWriter=false) :
    DescribedBy s (entries++[e]) d where
  baudrate := by
    rw [baudrateOf_snoc,if_neg,h.baudrate]
    rintro ⟨hs,hb⟩
    rw [(hk hs).1] at hb
    exact absurd hb (by simp)
  names := by
    intro n
    rw [tokensOf_snoc,if_neg,List.append_nil,← h.names]
    rintro ⟨hs,hv⟩
    rw [(hk hs).2.1] at hv
    exact absurd hv (by simp)
  nodup := h.nodup
  writers := by
    intro v hv
    rw [h.writers v hv]
    refine exists_congr fun t => and_congr_right fun _ => ?_
    rw [effectiveWriter_snoc]
    constructor
    · exact .inl
    · rintro (he|⟨hs,hw,-⟩)
      · exact he
      · rw [(hk hs).2.2] at hw
        exact absurd hw (by simp)

/-- No entry renames a master. -/
theorem updateMaster_name (hx : updateMaster e d=some d') : d'.name=d.name := by
  unfold updateMaster at hx
  split at hx
  · rw [Option.some.injEq] at hx
    exact hx ▸ rfl
  · split at hx
    · exact (extended_of_tokens hx).name
    · split at hx
      · obtain ⟨name,-,rfl⟩ := Option.map_eq_some_iff.mp hx
        rfl
      · rw [Option.some.injEq] at hx
        exact hx ▸ rfl

/-- The master of a section stays what its entries describe. -/
theorem DescribedBy.step (h : DescribedBy s entries d) (hs : e.sectionName=s)
    (hx : updateMaster e d=some d') : DescribedBy s (entries++[e]) d' := by
  unfold updateMaster at hx
  split at hx
  · next hk =>
    rw [Option.some.injEq] at hx
    exact hx ▸ h.of_baudrate hs hk
  · next hb =>
    split at hx
    · next hk => exact h.of_virtuals hs hk (hs ▸ extended_of_tokens hx)
    · next hv =>
      split at hx
      · next hk =>
        obtain ⟨name,hname,rfl⟩ := Option.map_eq_some_iff.mp hx
        rw [serialVirtualName_some hname,hs]
        exact h.of_writer hs hk
      · next hw =>
        rw [Option.some.injEq] at hx
        subst hx
        exact h.of_other fun _ => ⟨by simpa using hb,by simpa using hv,by simpa using hw⟩

end Update

/-- The masters of a tree with a path. -/
def mastersNamed (s : CString) (tree : DeviceTree) : List MasterDevice :=
  tree.filter fun d => d.name=s

/-- The tree has one master for a section with entries, as they describe it,
and none for a section without. -/
def Configured (s : CString) (entries : List ConfigEntry) (tree : DeviceTree) : Prop :=
  if s∈entries.map ConfigEntry.sectionName then
    ∃ d,mastersNamed s tree=[d] ∧ DescribedBy s entries d
  else mastersNamed s tree=[]

section Trees

variable {s : CString} {entries : List ConfigEntry} {e : ConfigEntry} {tree tree' : DeviceTree}

/-- A section without entries describes a new master. -/
theorem describedBy_newMaster (h : s∉entries.map ConfigEntry.sectionName) :
    DescribedBy s entries (newMaster s) := by
  have hnone : ∀ p : ConfigEntry → Bool,
      (entries.filter fun e => e.sectionName=s && p e)=[] := by
    intro p
    rw [List.filter_eq_nil_iff]
    intro e he hp
    exact h (List.mem_map.mpr ⟨e,he,by simpa using (Bool.and_eq_true_iff.mp hp).1⟩)
  have htokens : tokensOf s entries=[] := by rw [tokensOf,hnone]; rfl
  refine ⟨by rw [baudrateOf,hnone]; rfl,fun n => ?_,List.nodup_nil,
    fun v hv => absurd hv (by simp [newMaster])⟩
  rw [htokens]
  simp [newMaster]

/-- An update of a section finds its master or starts a new one. -/
theorem updateSection_some {f : MasterDevice → Option MasterDevice}
    (h : updateSection s f tree=some tree') :
    (∀ d∈tree,d.name≠s) ∧ (∃ d,f (newMaster s)=some d ∧ tree'=d::tree) ∨
    ∃ before d after d',tree=before++d::after ∧ (∀ x∈before,x.name≠s) ∧ d.name=s ∧
      f d=some d' ∧ tree'=before++d'::after := by
  have hcut := List.takeWhile_append_dropWhile (p:=fun d : MasterDevice => d.name≠s) (l:=tree)
  have hbefore : ∀ x∈tree.takeWhile (fun d : MasterDevice => d.name≠s),x.name≠s := by
    intro x hx
    simpa using List.all_eq_true.mp List.all_takeWhile x hx
  have hhead := List.head?_dropWhile_not (fun d : MasterDevice => d.name≠s) tree
  rw [updateSection] at h
  generalize tree.takeWhile (fun d : MasterDevice => d.name≠s)=before at hcut hbefore h
  cases hdrop : tree.dropWhile (fun d : MasterDevice => d.name≠s) with
  | nil =>
    rw [hdrop] at h hcut
    obtain ⟨d,hd,rfl⟩ := Option.map_eq_some_iff.mp h
    rw [List.append_nil] at hcut
    exact .inl ⟨hcut ▸ hbefore,d,hd,rfl⟩
  | cons d after =>
    rw [hdrop] at h hcut hhead
    obtain ⟨d',hd,rfl⟩ := Option.map_eq_some_iff.mp h
    exact .inr ⟨before,d,after,d',hcut.symm,hbefore,by simpa using hhead,hd,rfl⟩

/-- Entries of other sections leave the masters of a section alone. -/
theorem mastersNamed_of_other (hu : strlcpy e.sectionName pathMax=s → e.sectionName=s)
    (hs : e.sectionName≠s) (hx : applyEntry tree e=some tree') :
    mastersNamed s tree'=mastersNamed s tree := by
  rcases updateSection_some hx with ⟨-,d,hd,rfl⟩|⟨before,d,after,d',rfl,-,hd,hd',rfl⟩
  · have hne : d.name≠s := by
      rw [updateMaster_name hd]
      exact fun h => hs (hu h)
    rw [mastersNamed,List.filter_cons_of_neg (by simpa using hne),mastersNamed]
  · have hne : d.name≠s := fun h => hs (hd.symm.trans h)
    have hne' : d'.name≠s := by rw [updateMaster_name hd']; exact hne
    simp only [mastersNamed,List.filter_append]
    rw [List.filter_cons_of_neg (a:=d) (by simpa using hne),
      List.filter_cons_of_neg (a:=d') (by simpa using hne')]

/-- An entry of a section updates its only master. -/
theorem mastersNamed_of_section (hu : s.length<pathMax) (hs : e.sectionName=s)
    (hx : applyEntry tree e=some tree') :
    (mastersNamed s tree=[] → ∃ d,updateMaster e (newMaster s)=some d ∧ mastersNamed s tree'=[d]) ∧
    ∀ d,mastersNamed s tree=[d] → ∃ d',updateMaster e d=some d' ∧ mastersNamed s tree'=[d'] := by
  have hnil : ∀ l : DeviceTree,(∀ x∈l,x.name≠s) → mastersNamed s l=[] := by
    intro l hl
    exact List.filter_eq_nil_iff.mpr fun x hx => by simpa using hl x hx
  rw [applyEntry,hs] at hx
  rcases updateSection_some hx with ⟨hnone,d,hd,rfl⟩|⟨before,d,after,d',rfl,hb,hd,hd',rfl⟩
  · have hname : d.name=s := (updateMaster_name hd).trans (strlcpy_of_lt hu)
    have htree := hnil tree hnone
    refine ⟨fun _ => ⟨d,hd,?_⟩,fun d' h => ?_⟩
    · rw [mastersNamed,List.filter_cons_of_pos (by simpa using hname)]
      exact congrArg (d::·) htree
    · rw [htree] at h
      exact absurd h (by simp)
  · have hname : d'.name=s := (updateMaster_name hd').trans hd
    have hsplit : ∀ x : MasterDevice,x.name=s →
        mastersNamed s (before++x::after)=x::mastersNamed s after := by
      intro x hx
      rw [mastersNamed,List.filter_append,List.filter_cons_of_pos (by simpa using hx)]
      exact congrArg (·++x::mastersNamed s after) (hnil before hb)
    rw [hsplit d hd,hsplit d' hname]
    refine ⟨fun h => absurd h (by simp),fun x h => ?_⟩
    rw [List.cons.injEq] at h
    exact ⟨d',h.1 ▸ hd',by rw [h.2]⟩

/-- The tree of any entries has exactly the masters that its sections describe. -/
theorem configured_treeOf (hu : Untruncated s entries) (h : treeOf entries=some tree) :
    Configured s entries tree := by
  induction entries using List.reverseRecOn generalizing tree with
  | nil =>
    rw [treeOf,List.foldlM_nil,Option.pure_def,Option.some.injEq] at h
    exact h ▸ rfl
  | append_singleton entries e ih =>
    rw [treeOf_snoc,Option.bind_eq_some_iff] at h
    obtain ⟨tree₀,h₀,hx⟩ := h
    have hc := ih ⟨hu.1,fun e' he' => hu.2 e' (List.mem_append_left _ he')⟩ h₀
    have hmem : s∈(entries++[e]).map ConfigEntry.sectionName ↔
        s∈entries.map ConfigEntry.sectionName ∨ e.sectionName=s := by
      simp [eq_comm]
    unfold Configured at hc ⊢
    by_cases hs : e.sectionName=s
    · obtain ⟨hnew,hold⟩ := mastersNamed_of_section hu.1 hs hx
      rw [if_pos (hmem.mpr (.inr hs))]
      split at hc
      · obtain ⟨d,hd,hdesc⟩ := hc
        obtain ⟨d',hd',hm⟩ := hold d hd
        exact ⟨d',hm,hdesc.step hs hd'⟩
      · next hnot =>
        obtain ⟨d,hd,hm⟩ := hnew hc
        exact ⟨d,hm,(describedBy_newMaster hnot).step hs hd⟩
    · have hm := mastersNamed_of_other (hu.2 e (List.mem_append_right _ (by simp))) hs hx
      rw [hm]
      split at hc
      · next hin =>
        obtain ⟨d,hd,hdesc⟩ := hc
        rw [if_pos (hmem.mpr (.inl hin))]
        exact ⟨d,hd,hdesc.of_other fun h => absurd h hs⟩
      · next hnot =>
        rw [if_neg fun h => (hmem.mp h).elim hnot hs]
        exact hc

/-- What one entry gives to the master it starts or updates, all masters of the next tree have
if all of the last one had it. -/
theorem forall_applyEntry {P : MasterDevice → Prop}
    (hnew : ∀ d,updateMaster e (newMaster e.sectionName)=some d → P d)
    (hstep : ∀ d d',P d → d.name=e.sectionName → updateMaster e d=some d' → P d')
    (hx : applyEntry tree e=some tree') (hold : ∀ d∈tree,P d) : ∀ d∈tree',P d := by
  intro d hd
  rcases updateSection_some hx with ⟨-,d',hd',rfl⟩|⟨before,d₀,after,d',rfl,-,hname,hd',rfl⟩
  · rcases List.mem_cons.mp hd with rfl|hd
    · exact hnew d hd'
    · exact hold d hd
  · rcases List.mem_append.mp hd with hd|hd
    · exact hold d (List.mem_append_left _ hd)
    · rcases List.mem_cons.mp hd with rfl|hd
      · exact hstep d₀ d (hold d₀ (List.mem_append_right _ List.mem_cons_self)) hname hd'
      · exact hold d (List.mem_append_right _ (List.mem_cons_of_mem _ hd))

/-- The same for the tree of any entries. -/
theorem forall_treeOf {P : MasterDevice → Prop}
    (hnew : ∀ e∈entries,∀ d,updateMaster e (newMaster e.sectionName)=some d → P d)
    (hstep : ∀ e∈entries,∀ d d',P d → d.name=e.sectionName → updateMaster e d=some d' → P d')
    (h : treeOf entries=some tree) : ∀ d∈tree,P d := by
  induction entries using List.reverseRecOn generalizing tree with
  | nil =>
    rw [treeOf,List.foldlM_nil,Option.pure_def,Option.some.injEq] at h
    subst h
    simp
  | append_singleton entries e ih =>
    rw [treeOf_snoc,Option.bind_eq_some_iff] at h
    obtain ⟨tree₀,h₀,hx⟩ := h
    have hlast : e∈entries++[e] := List.mem_append_right _ List.mem_cons_self
    refine forall_applyEntry (hnew e hlast) (hstep e hlast) hx (ih ?_ ?_ h₀)
    · exact fun e' he' => hnew e' (List.mem_append_left _ he')
    · exact fun e' he' => hstep e' (List.mem_append_left _ he')

/-- Every master is named by a section, up to the size of the name buffer. -/
theorem treeOf_names (h : treeOf entries=some tree) :
    ∀ d∈tree,∃ e∈entries,d.name=strlcpy e.sectionName pathMax := by
  refine forall_treeOf (fun e he d hd => ?_) (fun e _ d d' hold _ hd => ?_) h
  · exact ⟨e,he,updateMaster_name hd⟩
  · rw [updateMaster_name hd]
    exact hold

end Trees

/-- No path of these entries reaches the size of the name buffer. -/
structure Fits (entries : List ConfigEntry) : Prop where
  /-- Sections fit. -/
  sections : ∀ e∈entries,e.sectionName.length<pathMax
  /-- The virtuals they name fit. -/
  virtuals : ∀ e∈entries,e.isVirtuals=true → ∀ t∈strtokSpace e.value,
    (virtualPath e.sectionName t).length<pathMax
  /-- The writers they name fit. -/
  writers : ∀ e∈entries,e.isWriter=true → (virtualPath e.sectionName e.value).length<pathMax

section Fits

variable {s : CString} {entries : List ConfigEntry} {e : ConfigEntry} {tree : DeviceTree}

/-- A short path fits. -/
theorem serialVirtualName_of_lt {t : CString} (h : (virtualPath s t).length<pathMax) :
    serialVirtualName s t pathMax=some (virtualPath s t) := if_pos h

/-- Tokens with short paths can be added. -/
theorem addTokens_isSome {tokens : List CString} {d : MasterDevice}
    (h : ∀ t∈tokens,(virtualPath s t).length<pathMax) :
    ∃ d',tokens.foldlM (addToken s) d=some d' := by
  induction tokens generalizing d with
  | nil => exact ⟨d,rfl⟩
  | cons t tokens ih =>
    obtain ⟨d',hd'⟩ := ih (d:=insertVirtual (virtualPath s t) d)
      fun t' ht' => h t' (List.mem_cons_of_mem _ ht')
    refine ⟨d',?_⟩
    rw [List.foldlM_cons,addToken,serialVirtualName_of_lt (h t List.mem_cons_self)]
    exact hd'

/-- An entry with short paths can be applied. -/
theorem updateMaster_isSome (d : MasterDevice)
    (hv : e.isVirtuals=true → ∀ t∈strtokSpace e.value,(virtualPath e.sectionName t).length<pathMax)
    (hw : e.isWriter=true → (virtualPath e.sectionName e.value).length<pathMax) :
    ∃ d',updateMaster e d=some d' := by
  unfold updateMaster
  split
  · exact ⟨_,rfl⟩
  · split
    · next hk => exact addTokens_isSome (hv hk)
    · split
      · next hk => exact ⟨_,by rw [serialVirtualName_of_lt (hw hk)]; rfl⟩
      · exact ⟨_,rfl⟩

/-- Entries whose paths fit always describe a tree. -/
theorem treeOf_isSome (h : Fits entries) : ∃ tree,treeOf entries=some tree := by
  induction entries using List.reverseRecOn with
  | nil => exact ⟨[],rfl⟩
  | append_singleton entries e ih =>
    have hmem : ∀ {e'},e'∈entries → e'∈entries++[e] := fun he' => List.mem_append_left _ he'
    have he : e∈entries++[e] := List.mem_append_right _ (by simp)
    obtain ⟨tree,ht⟩ := ih ⟨fun e' he' => h.sections e' (hmem he'),
      fun e' he' => h.virtuals e' (hmem he'),fun e' he' => h.writers e' (hmem he')⟩
    have hsome := fun d => updateMaster_isSome (e:=e) d (h.virtuals e he) (h.writers e he)
    rw [treeOf_snoc,ht,Option.bind_some,applyEntry,updateSection]
    split
    · obtain ⟨d,hd⟩ := hsome (newMaster e.sectionName)
      exact ⟨_,by rw [hd]; rfl⟩
    · next d after _ =>
      obtain ⟨d',hd⟩ := hsome d
      exact ⟨_,by rw [hd]; rfl⟩

/-- Fitting entries are not cut. -/
theorem Fits.untruncated (h : Fits entries) (hs : s.length<pathMax) : Untruncated s entries :=
  ⟨hs,fun e he hn => by rwa [strlcpy_of_lt (h.sections e he)] at hn⟩

/-- The masters are exactly the sections. -/
theorem Fits.mem_names (h : Fits entries) (ht : treeOf entries=some tree) :
    s∈tree.map MasterDevice.name ↔ s∈entries.map ConfigEntry.sectionName := by
  constructor
  · intro hs
    obtain ⟨d,hd,rfl⟩ := List.mem_map.mp hs
    obtain ⟨e,he,hn⟩ := treeOf_names ht d hd
    rw [strlcpy_of_lt (h.sections e he)] at hn
    exact List.mem_map.mpr ⟨e,he,hn.symm⟩
  · intro hs
    obtain ⟨e,he,rfl⟩ := List.mem_map.mp hs
    have hc := configured_treeOf (h.untruncated (h.sections e he)) ht
    rw [Configured,if_pos hs] at hc
    obtain ⟨d,hd,-⟩ := hc
    have hmem : d∈mastersNamed e.sectionName tree := hd ▸ List.mem_cons_self
    rw [mastersNamed,List.mem_filter] at hmem
    exact List.mem_map.mpr ⟨d,hmem.1,by simpa using hmem.2⟩

/-- A master is the only one of its name, and its section describes it. -/
theorem describedBy_of_mem {d : MasterDevice} (hu : Untruncated d.name entries)
    (ht : treeOf entries=some tree) (hd : d∈tree) :
    mastersNamed d.name tree=[d] ∧ DescribedBy d.name entries d := by
  have hmem : d∈mastersNamed d.name tree := List.mem_filter.mpr ⟨hd,by simp⟩
  have hc := configured_treeOf hu ht
  unfold Configured at hc
  split at hc
  · obtain ⟨d',hm,hdesc⟩ := hc
    rw [hm,List.mem_singleton] at hmem
    subst hmem
    exact ⟨hm,hdesc⟩
  · rw [hc] at hmem
    exact absurd hmem (by simp)

/-- So every device is described by the entries of its section. -/
theorem Fits.describedBy (h : Fits entries) (ht : treeOf entries=some tree) {d : MasterDevice}
    (hd : d∈tree) : DescribedBy d.name entries d := by
  obtain ⟨e,he,hs⟩ := List.mem_map.mp ((h.mem_names ht).mp (List.mem_map.mpr ⟨d,hd,rfl⟩))
  exact (describedBy_of_mem (h.untruncated (hs ▸ h.sections e he)) ht hd).2

/-- No two masters have the same name. -/
theorem Fits.names_nodup (h : Fits entries) (ht : treeOf entries=some tree) :
    (tree.map MasterDevice.name).Nodup := by
  rw [List.nodup_iff_count_le_one]
  intro s
  by_cases hs : s∈entries.map ConfigEntry.sectionName
  · obtain ⟨e,he,rfl⟩ := List.mem_map.mp hs
    have hc := configured_treeOf (h.untruncated (h.sections e he)) ht
    rw [Configured,if_pos hs] at hc
    obtain ⟨d,hd,-⟩ := hc
    have hcount := congrArg List.length hd
    rw [mastersNamed,← List.countP_eq_length_filter] at hcount
    rw [List.count,List.countP_map]
    exact (hcount.le.trans' (List.countP_mono_left fun x _ hx => by simpa using hx))
  · rw [List.count_eq_zero_of_not_mem (fun hm => hs ((h.mem_names ht).mp hm))]
    exact Nat.zero_le 1

end Fits

end SerialProxy.DeviceConfig
