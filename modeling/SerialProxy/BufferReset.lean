import SerialProxy.HandlerEffects

/-!
# The reset of the receive buffers before the poll

`serialBeforeSleep` empties the buffer of every live link and changes nothing
else, because every live link is held by a node of the tree.
-/

namespace SerialProxy.BufferReset

open FaultPrograms LinkedCells CText SerialState EventTable SerialNodes SerialLinks NodeTopology
open LinkEffects LinkCoherence HandlerEffects

/-- The link of a node, if it has one, has received nothing. -/
def Emptied (w : World) (node : NodePtr) : Prop :=
  ∀ link l,(nodeAt w node).link=some link → w.links link=some l → l.recvbuflen=0

/-- The state in the middle of a reset that started in `w` and is done with
the nodes of a set. -/
structure Resetting (w : World) (done : NodePtr → Prop) (t : World) : Prop where
  /-- Only buffers differ. -/
  same : SameExceptBuffers w t
  /-- Nothing left the program. -/
  trace : t.trace=w.trace
  /-- `errno` keeps its value. -/
  errno : t.errno=w.errno
  /-- The handled nodes have empty buffers. -/
  emptied : ∀ node,done node → Emptied t node

section Reset

variable {w : World} {shape : Shape} {done : NodePtr → Prop} {node : NodePtr}

theorem Resetting.congr {done' : NodePtr → Prop} {t : World} (h : Resetting w done t)
    (he : ∀ node,done' node → done node) : Resetting w done' t :=
  ⟨h.same,h.trace,h.errno,fun node hn => h.emptied node (he node hn)⟩

/-- The reset of one buffer adds its node to the handled ones. -/
theorem resetBuffer_rule (hc : Coherent shape w) (hm : shape.Mem node) :
    Ensures (Resetting w done) (resetBuffer node)
      (fun _ => Resetting w fun n => done n ∨ n=node) fun _ _ => False := by
  intro t ht
  have hct := ht.same.coherent hc
  obtain ⟨n,hn⟩ := hct.topology.live_of_mem hm
  rw [resetBuffer,bind_of_ok (derefNode_of_some hn)]
  cases hlink : n.link with
  | none =>
    refine ⟨ht.same,ht.trace,ht.errno,fun node' hd => ?_⟩
    rcases hd with hd|rfl
    · exact ht.emptied node' hd
    · intro link l h
      rw [nodeAt_of_some hn,hlink] at h
      exact absurd h (by simp)
  | some link =>
    obtain ⟨l,hl,-⟩ := hct.linked node n link hn hlink
    dsimp only
    rw [modifyLink_of_some hl]
    have hu := SameExceptBuffers.update hl l.recvbuf 0
    refine ⟨ht.same.trans hu,ht.trace,ht.errno,fun node' hd link' l' hlink' hl' => ?_⟩
    change (nodeAt t node').link=some link' at hlink'
    rcases eq_or_ne link' link with rfl|hne
    · have he := (Function.update_self link' _ t.links).symm.trans hl'
      rw [Option.some.injEq] at he
      rw [← he]
    · have he := (Function.update_of_ne hne _ t.links).symm.trans hl'
      rcases hd with hd|rfl
      · exact ht.emptied node' hd link' l' hlink' he
      · rw [nodeAt_of_some hn,hlink,Option.some.injEq] at hlink'
        exact absurd hlink'.symm hne

/-- The reset of a master and its virtuals. -/
theorem resetMaster_rule (hc : Coherent shape w) {g : NodePtr×List NodePtr} (hg : g∈shape) :
    Ensures (Resetting w done) (resetMaster g.1)
      (fun _ => Resetting w fun n => done n ∨ n=g.1 ∨ n∈g.2) fun _ _ => False := by
  refine (resetBuffer_rule hc ⟨g,hg,.inl rfl⟩).bind fun _ t ht => ?_
  obtain ⟨m,hm,-,-,hchain⟩ := (ht.same.coherent hc).topology.master g hg
  have htop := (ht.same.coherent hc).topology
  rw [bind_of_ok (derefNode_of_some hm)]
  have hwalk := visitNodes_rule (E:=fun _ _ => False) resetBuffer
    (fun vs => Resetting w fun n => (done n ∨ n=g.1) ∨ n∈vs)
    (fun _ u hu => (ht.same.symm.trans hu.same).devices) (fun vs v rest hsplit => ?_) hchain
    (htop.virtuals_length hg)
  · refine (hwalk.mono (fun u hu => hu) (fun _ u hu => ?_) fun _ _ h => h) t
      (ht.congr fun n hn => by simpa using hn)
    exact hu.congr fun n hn => by simpa only [or_assoc] using hn
  · have hv : v∈g.2 := hsplit ▸ by simp
    refine (resetBuffer_rule hc ⟨g,hg,.inr hv⟩).mono (fun u hu => hu) (fun _ u hu => ?_)
      fun _ _ h => h
    exact hu.congr fun n hn => by simpa only [List.mem_append,List.mem_singleton,or_assoc] using hn

/-- `serialBeforeSleep` returns with every buffer empty and nothing else changed. -/
theorem serialBeforeSleep_spec (hc : Coherent shape w) : ∃ w',
    serialBeforeSleep w=.ok () w' ∧ SameExceptBuffers w w' ∧
      transfers w'.trace=transfers w.trace ∧ w'.errno=w.errno ∧
      ∀ link l,w'.links link=some l → l.recvbuflen=0 := by
  have hwalk := visitMasters_rule (E:=fun _ _ => False) resetMaster hc.topology
    (fun gs => Resetting w fun n => Shape.Mem gs n)
    (fun _ u hu => hu.same.devices) fun gs g rest hsplit => ?_
  · have hstart : Resetting w (fun n => Shape.Mem [] n) w :=
      ⟨.refl w,rfl,rfl,fun n ⟨g,hg,_⟩ => absurd hg (by simp)⟩
    have hend := hwalk w hstart
    simp only [serialBeforeSleep,bind_apply,get_apply]
    cases hx : visitNodes resetMaster w.masterHead w with
    | error f t => exact absurd (hwalk.of_error hstart hx) id
    | ok _ t =>
      have ht := hwalk.of_ok hstart hx
      have hs : SameExceptBuffers t {t with trace := t.trace++[.usleep 1000000]} :=
        SameExceptBuffers.record t t.errno [.usleep 1000000]
      have hct := ht.same.coherent hc
      refine ⟨_,rfl,ht.same.trans hs,?_,ht.errno,fun link l hl => ?_⟩
      · change transfers (t.trace++_)=_
        rw [transfers_append,ht.trace]
        exact List.append_nil _
      · obtain ⟨node,n,hnode,hn,hlink⟩ := hct.node_live hl
        exact ht.emptied node (hct.topology.covered node n hn) link l
          (by rw [nodeAt_of_some hn,hlink]) hl
  · have hg : g∈shape := hsplit ▸ by simp
    refine (resetMaster_rule hc hg).mono (fun u hu => hu) (fun _ u hu => ?_) fun _ _ h => h
    refine hu.congr fun n ⟨g',hg',hn⟩ => ?_
    rcases List.mem_append.mp hg' with hg'|hg'
    · exact .inl ⟨g',hg',hn⟩
    · rw [List.mem_singleton] at hg'
      exact .inr (hg' ▸ hn)

end Reset

end SerialProxy.BufferReset
