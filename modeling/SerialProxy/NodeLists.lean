import SerialProxy.NodeTopology

/-!
# The node lists and the lists they stand for

`serialAddNode` and `serialDelNode` on the master list, `serialAddVirtualNode`
and `serialRemoveVirtualNode` on the virtuals of a node, next to lists in which
an addition conses and a removal erases. A removal keeps the two together only
when the node is absent or alone: `prev` never moves on in the loop, so that the
head is cleared wherever the node was.
-/

namespace SerialProxy.NodeLists

open FaultPrograms LinkedCells CText SerialState SerialNodes NodeTopology

/-- The master list at `none`, and the virtuals of a node at its address. -/
abbrev AbstractLists := Option NodePtr → List NodePtr

/-- The head pointer of a list. -/
def listHead (w : World) : Option NodePtr → Option NodePtr
  | none => w.masterHead
  | some master => (w.nodes master).bind SerialNode.virtualHead

/-- The pointers of a state that the lists depend on. -/
structure Pointers where
  /-- The link to the next node of each live node. -/
  next : NodePtr → Option (Option NodePtr)
  /-- The head of each list. -/
  head : Option NodePtr → Option NodePtr
  /-- Number of nodes ever allocated. -/
  created : ℕ

/-- The pointers of a heap. -/
def pointers (w : World) : Pointers := ⟨nodeNext w,listHead w,w.nextNode⟩

/-- The operations on node lists. -/
inductive ListOp
  /-- `serialCreateNode`. -/
  | create (nodename : CString) (flags : UInt32)
  /-- `serialAddNode`, or `serialAddVirtualNode` to a master. -/
  | add (owner : Option NodePtr) (node : NodePtr)
  /-- `serialDelNode`, or `serialRemoveVirtualNode` from a master. -/
  | remove (owner : Option NodePtr) (node : NodePtr)

/-- The code of an operation. -/
def ListOp.code : ListOp → Prog Unit
  | .create nodename flags => do
    let _ ← serialCreateNode nodename flags
    pure ()
  | .add none node => serialAddNode node
  | .add (some master) node => serialAddVirtualNode master node
  | .remove none node => serialDelNode node
  | .remove (some master) node => serialRemoveVirtualNode master node

/-- What an operation does to the abstract lists. -/
def ListOp.apply : ListOp → AbstractLists → AbstractLists
  | .create _ _,lists => lists
  | .add owner node,lists => Function.update lists owner (node::lists owner)
  | .remove owner node,lists => Function.update lists owner ((lists owner).erase node)

/-- The code and the abstract lists, side by side. -/
def ListOp.perform (op : ListOp) : EStateM Fault (World×AbstractLists) Unit := fun s =>
  match op.code s.1 with
  | .ok _ w => .ok () (w,op.apply s.2)
  | .error f w => .error f (w,s.2)

/-- A list that exists: that of the masters, or of the virtuals of a live node. -/
def Exists (w : World) (owner : Option NodePtr) : Prop :=
  ∀ master,owner=some master → (w.nodes master).isSome

/-- A node is added when it is live and in no list; any node may be removed. -/
def Admits (s : World×AbstractLists) : ListOp → Prop
  | .create _ _ => True
  | .add owner node => Exists s.1 owner ∧ (s.1.nodes node).isSome ∧ ∀ other,node∉s.2 other
  | .remove owner _ => Exists s.1 owner

/-- The operation removes a node that is not in the list. -/
def ListOp.Absent (lists : AbstractLists) : ListOp → Prop
  | .remove owner node => node∉lists owner
  | _ => False

/-- A removed node is absent from its list, or the only one in it. -/
def Sole (lists : AbstractLists) : ListOp → Prop
  | .remove owner node => node∈lists owner → lists owner=[node]
  | _ => True

/-- The pointers implement the abstract lists. -/
structure Implements (p : Pointers) (lists : AbstractLists) : Prop where
  /-- Each list is the finite chain behind its head. -/
  chains : ∀ owner,Chain p.next (p.head owner) (lists owner)
  /-- A node in no list links to nothing. -/
  detached : ∀ node rest,p.next node=some rest → (∀ owner,node∉lists owner) → rest=none

/-- The lists hold live nodes, and none of them twice. -/
structure Apart (p : Pointers) (lists : AbstractLists) : Prop where
  /-- Listed nodes are live. -/
  live : ∀ owner,∀ node∈lists owner,(p.next node).isSome
  /-- A node is in one list at most. -/
  one : ∀ owner other node,node∈lists owner → node∈lists other → owner=other
  /-- Nodes are numbered in the order of allocation. -/
  numbered : ∀ node,(p.next node).isSome → node<p.created

/-- A state in which the code has kept to the abstract lists and will return
from the next operation, without effect when it removes an absent node. -/
structure Faithful (s : World×AbstractLists) : Prop where
  /-- The heap implements the lists. -/
  implements : Implements (pointers s.1) s.2
  /-- The next operation returns. -/
  returns : ∀ op,Admits s op → ∃ t,op.perform s=.ok () t ∧ (op.Absent s.2 → t=s)

section Walks

variable {u : World} {v : NodePtr} {cells : List NodePtr} {head : Option NodePtr}
variable {clearHead : Prog Unit} {bound : ℕ}

/-- The walk of `unlinkNode` without a previous node ends at the node it looks for. -/
theorem unlinkNode_chain (hc : Chain (nodeNext u) head cells) (hv : v∈cells)
    (hb : cells.length≤bound) : unlinkNode clearHead v none bound head u=
      (clearHead >>= fun _ => modifyNode v fun n => {n with next := none}) u := by
  induction cells generalizing head bound with
  | nil => simp at hv
  | cons a cells ih =>
    obtain ⟨rfl,rest,hn,hc⟩ := hc
    obtain ⟨bound,rfl⟩ : ∃ k,bound=k+1 := ⟨bound-1,by simp at hb; omega⟩
    rcases eq_or_ne v a with rfl|hne
    · rw [unlinkNode,if_pos rfl]
    · obtain ⟨c,hcell,hnext⟩ := Option.map_eq_some_iff.mp hn
      rw [unlinkNode,if_neg hne,bind_of_ok (derefNode_of_some hcell),hnext]
      exact ih hc ((List.mem_cons.mp hv).resolve_left hne) (by simpa using hb)

/-- The walk past a list without the node changes nothing. -/
theorem unlinkNode_absent (hc : Chain (nodeNext u) head cells) (hv : v∉cells)
    (hb : cells.length≤bound) : unlinkNode clearHead v none bound head u=.ok () u := by
  induction cells generalizing head bound with
  | nil =>
    rw [show head=none from hc]
    cases bound <;> rfl
  | cons a cells ih =>
    obtain ⟨rfl,rest,hn,hc⟩ := hc
    obtain ⟨bound,rfl⟩ : ∃ k,bound=k+1 := ⟨bound-1,by simp at hb; omega⟩
    obtain ⟨c,hcell,hnext⟩ := Option.map_eq_some_iff.mp hn
    have hne : v≠a := List.ne_of_not_mem_cons hv
    rw [unlinkNode,if_neg hne,bind_of_ok (derefNode_of_some hcell),hnext]
    exact ih hc (fun hm => hv (List.mem_cons_of_mem _ hm)) (by simpa using hb)

end Walks

section Effects

variable {w : World} {v master : NodePtr} {n m : SerialNode} {rest : Option NodePtr}

/-- The pointer of a live node. -/
theorem nodeNext_eq_some : nodeNext w v=some rest ↔ ∃ n,w.nodes v=some n ∧ n.next=rest :=
  Option.map_eq_some_iff

/-- The list of a live master. -/
theorem listHead_some (h : w.nodes master=some m) : listHead w (some master)=m.virtualHead := by
  rw [listHead,h]
  rfl

/-- Writing a node shows in its link and in the head of its virtuals. -/
theorem pointers_update (w : World) (v : NodePtr) (n : SerialNode) :
    pointers {w with nodes := Function.update w.nodes v (some n)}=
      {pointers w with
        next := Function.update (nodeNext w) v (some n.next)
        head := Function.update (listHead w) (some v) n.virtualHead} := by
  simp only [pointers,Pointers.mk.injEq,and_true]
  constructor
  · funext node
    rcases eq_or_ne node v with rfl|hne
    · simp [nodeNext]
    · simp [nodeNext,hne]
  · funext owner
    cases owner with
    | none => simp [listHead]
    | some node =>
      rcases eq_or_ne node v with rfl|hne
      · simp [listHead]
      · simp [listHead,hne]

/-- A write that keeps the head of the virtuals shows in the link only. -/
theorem pointers_next (hn : w.nodes v=some n) (m : SerialNode) (hh : m.virtualHead=n.virtualHead) :
    pointers {w with nodes := Function.update w.nodes v (some m)}=
      {pointers w with next := Function.update (nodeNext w) v (some m.next)} := by
  have hsame : listHead w (some v)=m.virtualHead := by
    rw [listHead,hn,hh]
    rfl
  rw [pointers_update,← hsame,Function.update_eq_self]
  rfl

/-- A write that keeps the link shows in the head of the virtuals only. -/
theorem pointers_head (hn : w.nodes v=some n) (m : SerialNode) (hh : m.next=n.next) :
    pointers {w with nodes := Function.update w.nodes v (some m)}=
      {pointers w with head := Function.update (listHead w) (some v) m.virtualHead} := by
  have hsame : nodeNext w v=some m.next := by
    rw [nodeNext,hn,hh]
    rfl
  rw [pointers_update,← hsame,Function.update_eq_self]
  rfl

/-- A new first master changes the first head only. -/
theorem pointers_masterHead (w : World) (head : Option NodePtr) :
    pointers {w with masterHead := head}=
      {pointers w with head := Function.update (listHead w) none head} := by
  simp only [pointers,Pointers.mk.injEq,and_true]
  refine ⟨rfl,?_⟩
  funext owner
  cases owner with
  | none => rfl
  | some node => rfl

/-- Writing `next` changes one pointer. -/
theorem setNext_pointers (hv : nodeNext w v=some rest) (next : Option NodePtr) :
    ∃ u,modifyNode v (fun n => {n with next := next}) w=.ok () u ∧
      pointers u={pointers w with next := Function.update (nodeNext w) v (some next)} := by
  obtain ⟨n,hn,-⟩ := nodeNext_eq_some.mp hv
  exact ⟨_,modifyNode_of_some hn _,pointers_next hn {n with next := next} rfl⟩

/-- Writing `virtual_head` changes one head. -/
theorem setVirtualHead_pointers (hv : nodeNext w v=some rest) (head : Option NodePtr) :
    ∃ u,modifyNode v (fun n => {n with virtualHead := head}) w=.ok () u ∧
      pointers u={pointers w with head := Function.update (listHead w) (some v) head} := by
  obtain ⟨n,hn,-⟩ := nodeNext_eq_some.mp hv
  exact ⟨_,modifyNode_of_some hn _,pointers_head hn {n with virtualHead := head} rfl⟩

/-- Writing `virtualof` changes no pointer. -/
theorem setVirtualof_pointers (hv : nodeNext w v=some rest) (master : NodePtr) :
    ∃ u,modifyNode v (fun n => {n with virtualof := some master}) w=.ok () u ∧
      pointers u=pointers w := by
  obtain ⟨n,hn,hnext⟩ := nodeNext_eq_some.mp hv
  refine ⟨_,modifyNode_of_some hn _,?_⟩
  have hsame : nodeNext w v=some n.next := by rw [hv,hnext]
  rw [pointers_next hn {n with virtualof := some master} rfl,← hsame,Function.update_eq_self]
  rfl

end Effects

section Operations

variable {w : World} {owner : Option NodePtr} {v : NodePtr} {cells : List NodePtr}

/-- A new node points nowhere. -/
theorem create_pointers (hnew : nodeNext w w.nextNode=none) (nodename : CString) (flags : UInt32) :
    ∃ u,(ListOp.create nodename flags).code w=.ok () u ∧ pointers u=
      ⟨Function.update (nodeNext w) w.nextNode (some none),listHead w,w.nextNode+1⟩ := by
  refine ⟨_,rfl,?_⟩
  have hhead : listHead w (some w.nextNode)=none := by
    rw [listHead,Option.map_eq_none_iff.mp hnew]
    rfl
  have h := pointers_update w w.nextNode (newNode nodename flags)
  rw [show (newNode nodename flags).virtualHead=listHead w (some w.nextNode) from hhead.symm,
    Function.update_eq_self] at h
  exact congrArg (fun p => ({p with created := w.nextNode+1} : Pointers)) h

/-- The first statement of both additions, with what follows it. -/
theorem linkBehind_pointers (head : Option NodePtr) (hv : nodeNext w v=some none) :
    ∃ u,pointers u={pointers w with next := Function.update (nodeNext w) v (some head)} ∧
      ∀ rest : Unit → Prog Unit,(match head with
        | some head => modifyNode v (fun n => {n with next := some head}) >>= rest
        | none => rest ()) w=rest () u := by
  cases head with
  | none =>
    refine ⟨w,?_,fun rest => rfl⟩
    rw [← hv,Function.update_eq_self]
    rfl
  | some head =>
    obtain ⟨u,hu,hp⟩ := setNext_pointers hv (some head)
    exact ⟨u,hp,fun rest => bind_of_ok hu rest⟩

/-- The pointers of a world are read off its record. -/
theorem next_of_pointers {u : World} {p : Pointers} (h : pointers u=p) : nodeNext u=p.next :=
  congrArg Pointers.next h

/-- So are its heads. -/
theorem head_of_pointers {u : World} {p : Pointers} (h : pointers u=p) : listHead u=p.head :=
  congrArg Pointers.head h

/-- An added node links to the old head and becomes the new one. -/
theorem add_pointers (he : Exists w owner) (hv : nodeNext w v=some none) :
    ∃ u,(ListOp.add owner v).code w=.ok () u ∧ pointers u={pointers w with
      next := Function.update (nodeNext w) v (some (listHead w owner))
      head := Function.update (listHead w) owner (some v)} := by
  obtain ⟨s,hps,hs⟩ := linkBehind_pointers (listHead w owner) hv
  cases owner with
  | none =>
    refine ⟨{s with masterHead := some v},hs _,?_⟩
    rw [pointers_masterHead,head_of_pointers hps,hps]
    rfl
  | some master =>
    obtain ⟨m,hm⟩ := Option.isSome_iff_exists.mp (he master rfl)
    obtain ⟨rest,hrest⟩ : ∃ rest,nodeNext s master=some rest := by
      rw [next_of_pointers hps]
      rcases eq_or_ne master v with rfl|hne
      · exact ⟨_,Function.update_self _ _ _⟩
      · exact ⟨m.next,by simp [nodeNext,hne,hm]⟩
    obtain ⟨t,ht,hpt⟩ := setVirtualHead_pointers hrest (some v)
    have hv' : nodeNext t v=some (listHead w (some master)) := by
      rw [next_of_pointers hpt,hps]
      exact Function.update_self _ _ _
    obtain ⟨u,hu,hpu⟩ := setVirtualof_pointers hv' master
    refine ⟨u,?_,?_⟩
    · change serialAddVirtualNode master v w=_
      rw [serialAddVirtualNode,bind_of_ok (derefNode_of_some hm),← listHead_some hm]
      exact (hs _).trans ((bind_of_ok ht _).trans hu)
    · rw [hpu,hpt,head_of_pointers hps,hps]
      rfl

/-- A removed node that is in the list leaves the list without a head. -/
theorem remove_pointers (he : Exists w owner) (hc : Chain (nodeNext w) (listHead w owner) cells)
    (hv : v∈cells) (hb : cells.length≤w.nextNode) :
    ∃ u,(ListOp.remove owner v).code w=.ok () u ∧ pointers u={pointers w with
      next := Function.update (nodeNext w) v (some none)
      head := Function.update (listHead w) owner none} := by
  obtain ⟨rest,hrest⟩ := hc.allocated hv
  cases owner with
  | none =>
    have hp := pointers_masterHead w none
    obtain ⟨u,hu,hpu⟩ := setNext_pointers (w:={w with masterHead := none}) hrest none
    refine ⟨u,(unlinkNode_chain hc hv hb).trans hu,?_⟩
    rw [hpu,hp]
    rfl
  | some master =>
    obtain ⟨m,hm⟩ := Option.isSome_iff_exists.mp (he master rfl)
    have hhead := listHead_some hm
    obtain ⟨t,ht,hpt⟩ := setVirtualHead_pointers (v:=master) (w:=w)
      (nodeNext_eq_some.mpr ⟨m,hm,rfl⟩) none
    have hrest' : nodeNext t v=some rest := by
      rw [next_of_pointers hpt]
      exact hrest
    obtain ⟨u,hu,hpu⟩ := setNext_pointers hrest' none
    refine ⟨u,?_,?_⟩
    · change serialRemoveVirtualNode master v w=_
      rw [serialRemoveVirtualNode,bind_of_ok (derefNode_of_some hm),bind_of_ok (get_apply w),
        unlinkNode_chain (hhead ▸ hc) hv hb,bind_of_ok ht]
      exact hu
    · rw [hpu,next_of_pointers hpt,hpt]
      rfl

/-- Removing a node that is not in the list does nothing. -/
theorem remove_absent (he : Exists w owner) (hc : Chain (nodeNext w) (listHead w owner) cells)
    (hv : v∉cells) (hb : cells.length≤w.nextNode) : (ListOp.remove owner v).code w=.ok () w := by
  cases owner with
  | none => exact unlinkNode_absent hc hv hb
  | some master =>
    obtain ⟨m,hm⟩ := Option.isSome_iff_exists.mp (he master rfl)
    have hhead := listHead_some hm
    change serialRemoveVirtualNode master v w=_
    rw [serialRemoveVirtualNode,bind_of_ok (derefNode_of_some hm),bind_of_ok (get_apply w)]
    exact unlinkNode_absent (hhead ▸ hc) hv hb

end Operations

section Refinement

variable {p : Pointers} {lists : AbstractLists} {owner other : Option NodePtr} {v : NodePtr}

/-- A list does not see the link of a node outside it. -/
theorem Implements.chain_outside (h : Implements p lists) (hv : v∉lists owner)
    (rest : Option (Option NodePtr)) :
    Chain (Function.update p.next v rest) (p.head owner) (lists owner) :=
  (h.chains owner).congr fun _ ha =>
    Function.update_of_ne (ne_of_mem_of_not_mem ha hv) _ _

/-- The next node to be created is in no list. -/
theorem Apart.not_fresh (h : Apart p lists) : p.created∉lists owner := fun hm =>
  absurd (h.numbered _ (h.live owner _ hm)) (lt_irrefl _)

/-- It has no pointer yet. -/
theorem Apart.next_fresh (h : Apart p lists) : p.next p.created=none := by
  by_contra hne
  exact absurd (h.numbered _ (Option.isSome_iff_ne_none.mpr hne)) (lt_irrefl _)

/-- A list is no longer than there are nodes. -/
theorem Apart.length_le (h : Apart p lists) (hi : Implements p lists) :
    (lists owner).length≤p.created :=
  (hi.chains owner).length_le fun a ha => h.numbered a (h.live owner a ha)

/-- A new node leaves all lists as they are. -/
theorem Implements.create (hi : Implements p lists) (ha : Apart p lists) :
    Implements ⟨Function.update p.next p.created (some none),p.head,p.created+1⟩ lists where
  chains owner := hi.chain_outside ha.not_fresh _
  detached node rest hr hout := by
    dsimp only at hr
    rcases eq_or_ne node p.created with rfl|hne
    · rw [Function.update_self,Option.some.injEq] at hr
      exact hr.symm
    · rw [Function.update_of_ne hne] at hr
      exact hi.detached node rest hr hout

/-- It is in none of them. -/
theorem Apart.create (ha : Apart p lists) :
    Apart ⟨Function.update p.next p.created (some none),p.head,p.created+1⟩ lists where
  live owner node hm := by
    dsimp only
    rw [Function.update_of_ne (ne_of_mem_of_not_mem hm ha.not_fresh)]
    exact ha.live owner node hm
  one := ha.one
  numbered node hn := by
    dsimp only at hn ⊢
    rcases eq_or_ne node p.created with rfl|hne
    · exact Nat.lt_succ_self _
    · rw [Function.update_of_ne hne] at hn
      exact Nat.lt_succ_of_lt (ha.numbered node hn)

/-- Membership after an addition. -/
theorem mem_add {node : NodePtr} :
    node∈Function.update lists owner (v::lists owner) other ↔
      node∈lists other ∨ (other=owner ∧ node=v) := by
  rcases eq_or_ne other owner with rfl|hne
  · rw [Function.update_self,List.mem_cons]
    tauto
  · rw [Function.update_of_ne hne]
    tauto

/-- An added node comes first. -/
theorem Implements.add (hi : Implements p lists) (hout : ∀ other,v∉lists other) :
    Implements {p with
      next := Function.update p.next v (some (p.head owner))
      head := Function.update p.head owner (some v)}
      (Function.update lists owner (v::lists owner)) where
  chains other := by
    dsimp only
    rcases eq_or_ne other owner with rfl|hne
    · rw [Function.update_self,Function.update_self]
      exact .cons (Function.update_self _ _ _) (hi.chain_outside (hout _) _)
    · rw [Function.update_of_ne hne,Function.update_of_ne hne]
      exact hi.chain_outside (hout _) _
  detached node rest hr hnot := by
    have hne : node≠v := fun he => hnot owner (mem_add.mpr (.inr ⟨rfl,he⟩))
    dsimp only at hr
    rw [Function.update_of_ne hne] at hr
    exact hi.detached node rest hr fun other hm => hnot other (mem_add.mpr (.inl hm))

/-- Writing the link of a live node keeps the same nodes live. -/
theorem isSome_update {next : NodePtr → Option (Option NodePtr)} (hv : (next v).isSome)
    (rest : Option NodePtr) (node : NodePtr) :
    (Function.update next v (some rest) node).isSome ↔ (next node).isSome := by
  rcases eq_or_ne node v with rfl|hne
  · rw [Function.update_self]
    exact iff_of_true rfl hv
  · rw [Function.update_of_ne hne]

/-- It was in no other list. -/
theorem Apart.add (ha : Apart p lists) (hv : (p.next v).isSome) (hout : ∀ other,v∉lists other)
    (rest : Option NodePtr) (head : Option NodePtr → Option NodePtr) :
    Apart ⟨Function.update p.next v (some rest),head,p.created⟩
      (Function.update lists owner (v::lists owner)) where
  live other node hm := by
    refine (isSome_update hv rest node).mpr ?_
    rcases mem_add.mp hm with h|⟨-,rfl⟩
    · exact ha.live other node h
    · exact hv
  one other other' node hm hm' := by
    rcases mem_add.mp hm with h|⟨rfl,rfl⟩
    · rcases mem_add.mp hm' with h'|⟨rfl,rfl⟩
      · exact ha.one _ _ node h h'
      · exact absurd h (hout _)
    · rcases mem_add.mp hm' with h'|⟨rfl,-⟩
      · exact absurd h' (hout _)
      · rfl
  numbered node hn := ha.numbered node ((isSome_update hv rest node).mp hn)

/-- Removing the only node of a list leaves it empty. -/
theorem Implements.remove (hi : Implements p lists) (ha : Apart p lists) (hs : lists owner=[v]) :
    Implements {p with
      next := Function.update p.next v (some none)
      head := Function.update p.head owner none} (Function.update lists owner []) where
  chains other := by
    dsimp only
    rcases eq_or_ne other owner with rfl|hne
    · rw [Function.update_self,Function.update_self]
      exact .nil
    · rw [Function.update_of_ne hne,Function.update_of_ne hne]
      refine hi.chain_outside (fun hm => hne (ha.one _ _ v hm ?_)) _
      rw [hs]
      exact List.mem_singleton_self v
  detached node rest hr hnot := by
    dsimp only at hr
    rcases eq_or_ne node v with rfl|hv
    · rw [Function.update_self,Option.some.injEq] at hr
      exact hr.symm
    · rw [Function.update_of_ne hv] at hr
      refine hi.detached node rest hr fun other hm => ?_
      rcases eq_or_ne other owner with rfl|hne
      · rw [hs,List.mem_singleton] at hm
        exact hv hm
      · exact hnot other (by rwa [Function.update_of_ne hne])

/-- A removed node is in no list. -/
theorem Apart.remove (ha : Apart p lists) (hv : (p.next v).isSome)
    (head : Option NodePtr → Option NodePtr) :
    Apart ⟨Function.update p.next v (some none),head,p.created⟩
      (Function.update lists owner ((lists owner).erase v)) := by
  have hsub : ∀ other node,node∈Function.update lists owner ((lists owner).erase v) other →
      node∈lists other := by
    intro other node hm
    rcases eq_or_ne other owner with rfl|hne
    · rw [Function.update_self] at hm
      exact List.mem_of_mem_erase hm
    · rwa [Function.update_of_ne hne] at hm
  refine ⟨fun other node hm => ?_,fun _ _ node hm hm' => ha.one _ _ node (hsub _ _ hm) (hsub _ _ hm'),
    fun node hn => ?_⟩
  · exact (isSome_update hv none node).mpr (ha.live other node (hsub other node hm))
  · exact ha.numbered node ((isSome_update hv none node).mp hn)

/-- A list without a head is empty, so that the removed node was its only one. -/
theorem Implements.sole (hv : v∈lists owner) (hh : p.head owner=none)
    (hi : Implements p (Function.update lists owner ((lists owner).erase v))) : lists owner=[v] := by
  have hc := hi.chains owner
  rw [hh,Function.update_self,chain_none] at hc
  rw [List.perm_singleton.mp ((List.perm_cons_erase hv).trans (by rw [hc]))]

end Refinement

section Steps

variable {s t : World×AbstractLists} {op : ListOp}

/-- The code and the list go on together. -/
theorem perform_of_code {u : World} (h : op.code s.1=.ok () u) :
    op.perform s=.ok () (u,op.apply s.2) := by
  rw [ListOp.perform,h]

/-- What one operation does when the code has kept to the lists so far. -/
theorem perform_spec (hi : Implements (pointers s.1) s.2) (ha : Apart (pointers s.1) s.2)
    (hadm : Admits s op) : ∃ t,op.perform s=.ok () t ∧ (op.Absent s.2 → t=s) ∧
      Apart (pointers t.1) t.2 ∧ (Implements (pointers t.1) t.2 ↔ Sole s.2 op) := by
  obtain ⟨w,lists⟩ := s
  cases op with
  | create nodename flags =>
    obtain ⟨u,hu,hp⟩ := create_pointers ha.next_fresh nodename flags
    refine ⟨_,perform_of_code hu,False.elim,?_,?_⟩
    · rw [hp]
      exact ha.create
    · rw [hp]
      exact iff_of_true (hi.create ha) trivial
  | add owner v =>
    obtain ⟨he,hlive,hout⟩ := hadm
    obtain ⟨n,hn⟩ := Option.isSome_iff_exists.mp hlive
    have hnext : nodeNext w v=some n.next := nodeNext_eq_some.mpr ⟨n,hn,rfl⟩
    have hv : nodeNext w v=some none := by
      rw [hnext,hi.detached v n.next hnext hout]
    obtain ⟨u,hu,hp⟩ := add_pointers he hv
    refine ⟨_,perform_of_code hu,False.elim,?_,?_⟩
    · rw [hp]
      exact ha.add (Option.isSome_iff_exists.mpr ⟨_,hv⟩) hout _ _
    · rw [hp]
      exact iff_of_true (hi.add hout) trivial
  | remove owner v =>
    by_cases hv : v∈lists owner
    · obtain ⟨u,hu,hp⟩ := remove_pointers hadm (hi.chains owner) hv (ha.length_le hi)
      refine ⟨_,perform_of_code hu,fun hnot => absurd hv hnot,?_,?_⟩
      · rw [hp]
        exact ha.remove (ha.live owner v hv) _
      · rw [hp]
        constructor
        · intro hafter _
          exact hafter.sole hv (Function.update_self _ _ _)
        · intro hsole
          have hone : lists owner=[v] := hsole hv
          have hempty : (lists owner).erase v=[] := by rw [hone,List.erase_cons_head]
          rw [ListOp.apply,hempty]
          exact hi.remove ha hone
    · have hsame : (ListOp.remove owner v).apply lists=lists := by
        rw [ListOp.apply,List.erase_of_not_mem hv,Function.update_eq_self]
      have hcode := remove_absent hadm (hi.chains owner) hv (ha.length_le hi)
      refine ⟨_,perform_of_code hcode,fun _ => by rw [hsame],?_,?_⟩
      · rw [hsame]
        exact ha
      · rw [hsame]
        exact iff_of_true hi fun hm => absurd hm hv

/-- The code keeps to the lists in a state exactly when its pointers do. -/
theorem faithful_iff (ha : Apart (pointers s.1) s.2) :
    Faithful s ↔ Implements (pointers s.1) s.2 := by
  refine ⟨Faithful.implements,fun hi => ⟨hi,fun op hadm => ?_⟩⟩
  obtain ⟨t,ht,habsent,-⟩ := perform_spec hi ha hadm
  exact ⟨t,ht,habsent⟩

/-- At the start all lists are empty. -/
theorem boot_apart : Apart (pointers World.boot) fun _ => [] where
  live _ _ h := absurd h List.not_mem_nil
  one _ _ _ h := absurd h List.not_mem_nil
  numbered _ h := Bool.noConfusion h

/-- The heads say so. -/
theorem boot_implements : Implements (pointers World.boot) fun _ => [] where
  chains owner := by cases owner <;> exact .nil
  detached _ _ h := by cases h

/-- Along a run of operations the heap lists are the abstract ones, and the next
operation returns, exactly when no step removes a node from among others. -/
theorem lists_faithful_iff {ops : List ListOp}
    (h : Run ListOp.perform Admits (World.boot,fun _ => []) ops s) :
    (∀ done todo t,ops=done++todo →
      Run ListOp.perform Admits (World.boot,fun _ => []) done t → Faithful t) ↔
      Run ListOp.perform (fun s op => Admits s op ∧ Sole s.2 op) (World.boot,fun _ => []) ops s := by
  refine h.kept_iff (J:=fun s => Apart (pointers s.1) s.2) (fun s op t hf ha hadm hx => ?_)
    ((faithful_iff boot_apart).mpr boot_implements) boot_apart
  obtain ⟨t',ht,-,hat,hiff⟩ := perform_spec hf.implements ha hadm
  rw [hx,EStateM.Result.ok.injEq] at ht
  obtain ⟨-,rfl⟩ := ht
  exact ⟨hat,(faithful_iff hat).trans hiff⟩

end Steps

section Sample

/-- Two masters are added, and the one added last is removed. -/
def removal : List ListOp :=
  [.create "/dev/ttyS0".toList serialFlagMaster,.create "/dev/ttyS1".toList serialFlagMaster,
    .add none 0,.add none 1,.remove none 1]

/-- The state after some operations. -/
def performed (ops : List ListOp) : World×AbstractLists :=
  finalState (ops.forM ListOp.perform (World.boot,fun _ => []))

/-- The sample runs. -/
theorem removal_run : Run ListOp.perform Admits (World.boot,fun _ => []) removal
    (performed removal) := by
  have hempty : ∀ other,1∉Function.update (fun _ => [] : AbstractLists) none [0] other := by
    intro other
    rcases eq_or_ne other none with rfl|hne
    · decide
    · rw [Function.update_of_ne hne]
      exact List.not_mem_nil
  refine .cons trivial (eq_ok_of_returns (by decide +kernel)) ?_
  refine .cons trivial (eq_ok_of_returns (by decide +kernel)) ?_
  refine .cons ⟨nofun,by decide +kernel,fun _ => List.not_mem_nil⟩
    (eq_ok_of_returns (by decide +kernel)) ?_
  refine .cons ⟨nofun,by decide +kernel,hempty⟩
    (eq_ok_of_returns (by decide +kernel)) ?_
  exact .cons nofun (eq_ok_of_returns (by decide +kernel)) (.nil _)

/-- The sample removes a node that is not alone in its list. -/
theorem lists_faithful_iff_removal :
    (∀ done todo t,removal=done++todo →
      Run ListOp.perform Admits (World.boot,fun _ => []) done t → Faithful t) ↔
      Run ListOp.perform (fun s op => Admits s op ∧ Sole s.2 op) (World.boot,fun _ => []) removal
        (performed removal) :=
  lists_faithful_iff removal_run

/-- Removing one of two masters loses the other one. -/
theorem removal_loses_nodes : ¬ ∀ ops s,
    Run ListOp.perform Admits (World.boot,fun _ => []) ops s → Implements (pointers s.1) s.2 := by
  intro h
  have hchain := (h _ _ removal_run).chains none
  have hhead : (pointers (performed removal).1).head none=none := by decide +kernel
  have hlist : (performed removal).2 none=[0] := by decide +kernel
  rw [hhead,chain_none,hlist] at hchain
  exact List.cons_ne_nil _ _ hchain

end Sample

end SerialProxy.NodeLists
