import SerialProxy.Forwarding
import SerialProxy.Relays

/-!
# The proxy as a relay

The ports are the nodes, linked while they hold a link, and a round is an
iteration of the event loop. Seen this way every iteration, however it ends,
is a run of a relay in which masters feed their virtuals and the first writer
of a master feeds the master: reads are blocks taken, accepted writes parts
given, and closed links dropped ports. So what a device or a client is sent
over any number of iterations, lost links and reconnects is made of front
parts of the blocks that its own source sent, in the order they were read.
-/

namespace SerialProxy.ProxyRelay

open FaultPrograms SerialState EventTable SerialNodes SerialLinks EventLoop NodeTopology
open LinkEffects LinkCoherence HandlerEffects DispatchPasses Reconnection Iterations
open TransferOrigins Forwarding Relays

/-- The block that the link of a node holds. -/
def blockOf (w : World) (node : NodePtr) : List UInt8 :=
  match (nodeAt w node).link with
  | some link => received w link
  | none => []

/-- The nodes of a state as ports. -/
def ports (w : World) : Ports NodePtr UInt8 where
  linked := {node | (nodeAt w node).link≠none}
  held := blockOf w
  empty := by
    intro node hnode
    have hnone : (nodeAt w node).link=none := by_contra hnode
    rw [blockOf,hnone]

/-- A read or an accepted write as an event of the nodes that hold the links in this state. -/
def moveOf (w : World) : Call → Option (Event NodePtr UInt8)
  | .read link _ (.data block) => some (.take (nodeOf w link) block.bytes)
  | .write link source _ data (.accepted count _) =>
    some (.give (nodeOf w source) (nodeOf w link) (data.take count))
  | _ => none

/-- The data moved by iterations, one after another, between the nodes that hold the links. -/
def history : World → List Iteration → List (Event NodePtr UInt8)
  | _,[] => []
  | w,it::its =>
    let v := finalState (aeMainStep it w)
    (moved w v).filterMap (moveOf w)++history v its

section Ports

variable {w t u : World} {shape : Shape} {it : Iteration} {e : AeFiredEvent} {link : LinkPtr}
variable {node source : NodePtr} {mask event : EventMask} {env : CallResults}
variable {calls : List Call}

theorem blockOf_of_link (h : (nodeAt w node).link=some link) : blockOf w node=received w link := by
  rw [blockOf,h]

theorem linked_nodeOf (ha : Attached w link) : nodeOf w link∈(ports w).linked := by
  change (nodeAt w (nodeOf w link)).link≠none
  rw [ha.back]
  exact Option.some_ne_none link

theorem held_nodeOf (ha : Attached w link) : (ports w).held (nodeOf w link)=received w link :=
  blockOf_of_link ha.back

theorem supplies_of_feeds (ht : Topology w shape) (h : Feeds shape w source node) :
    Supplies w source node := by
  obtain ⟨g,hg,⟨hv,rfl⟩|⟨rfl,hw⟩⟩ := h
  · obtain ⟨n,hn,hflags,hof,-⟩ := ht.virtual g hg node hv
    have hn' := nodeAt_of_some hn
    exact .inl ⟨hn' ▸ nodeIsVirtual_of_flags hflags,hn' ▸ hof⟩
  · obtain ⟨n,hn,hflags,-⟩ := ht.master g hg
    refine .inr ⟨nodeAt_of_some hn ▸ nodeIsMaster_of_flags hflags,?_⟩
    rw [serialGetVirtualWriterNode_apply ht hg,hw]

theorem supplies_mem (ht : Topology w shape) (h : Supplies w source node) : shape.Mem node := by
  cases hn : w.nodes node with
  | none =>
    rcases h with ⟨hv,-⟩|⟨hm,-⟩
    · rw [nodeAt,hn] at hv
      exact absurd hv (by decide)
    · rw [nodeAt,hn] at hm
      exact absurd hm (by decide)
  | some n => exact ht.covered node n hn

theorem supplies_congr (ht : Topology w shape) (hs : SameDevices w t)
    (h : Supplies t source node) : Supplies w source node := by
  have ht' := hs.topology ht
  exact supplies_of_feeds ht ((feeds_of_supplies ht' (supplies_mem ht' h) h).congr hs.symm)

/-- A node is fed by one node at most. -/
theorem supplies_unique (ht : Topology w shape) {other : NodePtr} (h : Supplies w source node)
    (h' : Supplies w other node) : other=source := by
  have hmem := supplies_mem ht h
  have hboth : nodeIsVirtual (nodeAt w node)=true → ¬ nodeIsMaster (nodeAt w node)=true := by
    intro hv hm
    obtain ⟨g,hg,hin⟩ := ht.owner_of_virtual hmem hv
    obtain ⟨g',hg',he⟩ := ht.group_of_master hmem hm
    exact ht.master_ne_virtual hg' hg hin he
  rcases h with ⟨hv,ho⟩|⟨hm,hw⟩
  · rcases h' with ⟨-,ho'⟩|⟨hm,-⟩
    · exact Option.some.inj (ho'.symm.trans ho)
    · exact absurd hm (hboth hv)
  · rcases h' with ⟨hv,-⟩|⟨-,hw'⟩
    · exact absurd hm (hboth hv)
    · have heq := hw'.symm.trans hw
      rw [EStateM.Result.ok.injEq] at heq
      exact Option.some.inj heq.1

/-- The node of a link is the one that holds it. -/
theorem node_holding (hc : Coherent shape w) (h : (nodeAt w node).link=some link) :
    Attached w link ∧ nodeOf w link=node := by
  obtain ⟨n,hn,hlink⟩ := node_of_link h
  exact hc.attached_of_node hn hlink

/-- Other nodes keep their blocks under a callback. -/
theorem blockOf_other (hc : Coherent shape t) (h : Confined t link u) (hne : node≠nodeOf t link) :
    (nodeAt u node).link=(nodeAt t node).link ∧ blockOf u node=blockOf t node := by
  have hnode : nodeAt u node=nodeAt t node := by rw [nodeAt,nodeAt,h.nodes node hne]
  refine ⟨by rw [hnode],?_⟩
  rw [blockOf,blockOf,hnode]
  split
  · rename_i other hother
    have hlink : other≠link := fun he => hne (he ▸ (node_holding hc hother).2).symm
    rw [received,received,linkAt,linkAt,h.links other hlink]
  · rfl

/-- The node of a link that was closed has none. -/
theorem node_dropped (hc : Coherent shape t) (ha : Attached t link)
    (he : Effect shape t link calls none u) : (nodeAt u (nodeOf t link)).link=none := by
  by_contra hne
  obtain ⟨other,hother⟩ := Option.ne_none_iff_exists'.mp hne
  obtain ⟨hattached,hnode⟩ := node_holding he.coherent hother
  have hlive := hattached.live
  have hlink : other≠link := by
    intro heq
    rw [heq,he.own] at hlive
    exact absurd hlive (by simp)
  have hother' := he.confined.links other hlink
  have hsame : nodeOf t other=nodeOf u other := by rw [nodeOf,nodeOf,linkAt,linkAt,hother']
  have hback := (hc.attached (hother' ▸ hlive)).back
  rw [hsame,hnode,ha.back] at hback
  exact hlink (Option.some.inj hback).symm

/-- A callback that closes its link drops its node. -/
theorem ports_dropped (hc : Coherent shape t) (ha : Attached t link)
    (he : Effect shape t link calls none u) : ports u=(ports t).drop (nodeOf t link) := by
  have hnone := node_dropped hc ha he
  ext1
  · ext node
    change (nodeAt u node).link≠none ↔ (nodeAt t node).link≠none ∧ node≠nodeOf t link
    by_cases hn : node=nodeOf t link
    · simp [hn,hnone]
    · simp [hn,(blockOf_other hc he.confined hn).1]
  · funext node
    by_cases hn : node=nodeOf t link
    · rw [hn,Ports.drop_held_self]
      change blockOf u (nodeOf t link)=[]
      rw [blockOf,hnone]
    · rw [Ports.drop_held_of_ne hn]
      exact (blockOf_other hc he.confined hn).2

/-- A callback that keeps its link open leaves its node with the block in the buffer. -/
theorem ports_kept {l : SerialLink} (hc : Coherent shape t) (ha : Attached t link)
    (he : Effect shape t link calls (some l) u) : ports u=
      (ports t).take (nodeOf t link) (l.recvbuf.take l.recvbuflen) (linked_nodeOf ha) := by
  have hattached := he.coherent.attached he.own
  obtain ⟨hnode,-,hlink⟩ := he.same_link
  have hback := hnode ▸ hattached.back
  ext1
  · ext node
    change (nodeAt u node).link≠none ↔ (nodeAt t node).link≠none
    by_cases hn : node=nodeOf t link
    · rw [hn,hback,ha.back]
    · rw [(blockOf_other hc he.confined hn).1]
  · funext node
    by_cases hn : node=nodeOf t link
    · rw [hn,Ports.take_held_self]
      change blockOf u (nodeOf t link)=_
      rw [blockOf_of_link hback,received,hlink]
    · rw [Ports.take_held_of_ne _ hn]
      exact (blockOf_other hc he.confined hn).2

/-- The ports behind the read of a callback, before its write. -/
structure HalfDone (t : World) (link : LinkPtr) (mask : EventMask) (env : CallResults)
    (ha : Attached t link) (s : Ports NodePtr UInt8) : Prop where
  /-- The same ports are linked. -/
  linked : s.linked=(ports t).linked
  /-- Other ports hold what they held. -/
  others : ∀ node,node≠nodeOf t link → s.held node=(ports t).held node
  /-- They differ in the own port only. -/
  dropped : s.drop (nodeOf t link)=(ports t).drop (nodeOf t link)
  /-- The own port holds what the callback leaves in its buffer. -/
  own : ∀ l,eventLink t link mask env=some l →
    s=(ports t).take (nodeOf t link) (l.recvbuf.take l.recvbuflen) (linked_nodeOf ha)

/-- The read of a callback is an event of its node. -/
theorem read_simulates (ha : Attached t link)
    (hempty : mask &&& aeReadable≠0 → received t link=[]) : ∃ s,HalfDone t link mask env ha s ∧
      Steps (Supplies t) (ports t)
        ((if mask &&& aeReadable≠0 then [Call.read link (linkAt t link).fd env.read]
          else []).filterMap (moveOf t)) s := by
  have hsame : (∀ l,eventLink t link mask env=some l → l=linkAt t link) →
      HalfDone t link mask env ha (ports t) := by
    intro hkept
    refine ⟨rfl,fun _ _ => rfl,rfl,fun l hl => ?_⟩
    rw [hkept l hl]
    exact ((held_nodeOf ha) ▸ Ports.take_self (linked_nodeOf ha)).symm
  by_cases hr : mask &&& aeReadable≠0
  · rw [if_pos hr]
    have hquiet : (∀ block,env.read≠.data block) → HalfDone t link mask env ha (ports t) :=
      fun hnot => hsame fun l hl => (eventLink_cases hl).resolve_right fun ⟨_,block,hblock,_⟩ =>
        hnot block hblock
    cases hread : env.read with
    | data block =>
      have htake : Step (Supplies t) (ports t) (.take (nodeOf t link) block.bytes)
          ((ports t).take (nodeOf t link) block.bytes (linked_nodeOf ha)) :=
        .take (linked_nodeOf ha) ((held_nodeOf ha).trans (hempty hr)) block.nonempty
      refine ⟨(ports t).take (nodeOf t link) block.bytes (linked_nodeOf ha),⟨rfl,
        fun _ hne => Ports.take_held_of_ne _ hne,Ports.drop_take _,fun l hl => ?_⟩,.single htake⟩
      rw [eventLink_data hr hread hl]
      simp only [filled_received]
    | eof => exact ⟨_,hquiet fun _ h => by rw [hread] at h; exact absurd h (by simp),.nil _⟩
    | fail errno => exact ⟨_,hquiet fun _ h => by rw [hread] at h; exact absurd h (by simp),.nil _⟩
  · rw [if_neg hr]
    exact ⟨_,hsame fun l hl => eventLink_unread (not_not.mp hr) hl,.nil _⟩

/-- The write of a callback gives its node a part of the block that its source holds. -/
theorem write_simulates (hc : Coherent shape t) (ha : Attached t link)
    (hfull : ∀ source,offering t (nodeOf t link)=some source → received t source≠[])
    {s : Ports NodePtr UInt8} (hs : HalfDone t link mask env ha s) (result : WriteResult) :
    Steps (Supplies t) s ((writeCalls t link result).filterMap (moveOf t)) s := by
  rw [writeCalls]
  cases hoffer : offering t (nodeOf t link) with
  | none => exact .nil s
  | some source =>
    obtain ⟨hsource,-⟩ := Option.filter_eq_some_iff.mp hoffer
    obtain ⟨hattached,hfeeds⟩ := source_attached hc (ha.mem hc.topology) hsource
    have hne := (hfeeds.mem hc.topology).2.2
    cases result with
    | accepted count pos =>
      refine .single (.give ?_ ?_ (supplies_of_feeds hc.topology hfeeds) ?_ ?_)
      · rw [hs.linked]
        exact linked_nodeOf hattached
      · rw [hs.linked]
        exact linked_nodeOf ha
      · rw [Ne,List.take_eq_nil_iff,not_or]
        exact ⟨Nat.ne_of_gt pos,hfull source hoffer⟩
      · rw [hs.others _ hne,held_nodeOf hattached]
        exact List.take_prefix _ _
    | zero => exact .nil s
    | fail errno => exact .nil s

/-- A callback is a run of events of its node: what it moved, then the loss of its link if the
callback closes it. -/
theorem callback_simulates (hc : Coherent shape t) (ha : Attached t link)
    (he : Effect shape t link (eventCalls t link mask env) (eventLink t link mask env) u)
    (hempty : mask &&& aeReadable≠0 → received t link=[])
    (hfull : ∀ source,offering t (nodeOf t link)=some source → received t source≠[]) :
    ∃ drops,Steps (Supplies t) (ports t)
        ((eventCalls t link mask env).filterMap (moveOf t)++drops) (ports u) ∧
      drops.filter Event.moves=[] ∧ drops.countP Event.starts=0 := by
  obtain ⟨s,hs,hread⟩ : ∃ s,HalfDone t link mask env ha s ∧ _ := read_simulates ha hempty
  have hwrite : Steps (Supplies t) s ((if mask &&& aeWritable≠0 ∧ ¬ UsesFreed t mask env then
      writeCalls t link env.write else []).filterMap (moveOf t)) s := by
    split
    · exact write_simulates hc ha hfull hs env.write
    · exact .nil s
  have hmoved : Steps (Supplies t) (ports t)
      ((eventCalls t link mask env).filterMap (moveOf t)) s := by
    rw [eventCalls,List.filterMap_append]
    exact hread.append hwrite
  cases hown : eventLink t link mask env with
  | none =>
    rw [hown] at he
    refine ⟨[.drop (nodeOf t link)],?_,rfl,rfl⟩
    rw [ports_dropped hc ha he,← hs.dropped]
    exact hmoved.append (.single (.drop (hs.linked ▸ linked_nodeOf ha)))
  | some l =>
    rw [hown] at he
    refine ⟨[],?_,rfl,rfl⟩
    rw [ports_kept hc ha he,← hs.own l hown,List.append_nil]
    exact hmoved

/-- The reset of the buffers starts a round. -/
theorem ports_polled {s : World} (hs : Polled shape w it s) : ports s=(ports w).forget := by
  ext1
  · ext node
    change (nodeAt s node).link≠none ↔ (nodeAt w node).link≠none
    rw [nodeAt,nodeAt,hs.same.nodes]
  · funext node
    change blockOf s node=[]
    rw [blockOf]
    split
    · rename_i link _
      rw [received,linkAt]
      cases hl : s.links link with
      | none => rfl
      | some l => rw [Option.getD_some,hs.empty link l hl,List.take_zero]
    · rfl

/-- Nodes keep their links and blocks while others are connected. -/
theorem linked_kept {works : Prop} (ht : Coherent shape t) (hu : Coherent shape u)
    (hg : Grown works t u) (h : (nodeAt t node).link=some link) :
    (nodeAt u node).link=some link ∧ blockOf u node=blockOf t node := by
  obtain ⟨ha,hnode⟩ := node_holding ht h
  have hlive := hg.links link _ ha.live
  have hlink : linkAt u link=linkAt t link := linkAt_of_some hlive
  have hback := (hu.attached hlive).back
  have hsame : nodeOf u link=node := by rw [nodeOf,hlink,← nodeOf,hnode]
  rw [hsame] at hback
  exact ⟨hback,by rw [blockOf_of_link hback,blockOf_of_link h,received,received,hlink]⟩

/-- Nodes that are connected anew hold no block. -/
theorem linked_new {works : Prop} (ht : Coherent shape t) (hu : Coherent shape u)
    (hg : Grown works t u) (h : (nodeAt t node).link=none) : blockOf u node=[] := by
  rw [blockOf]
  split
  · rename_i link hlink
    obtain ⟨ha,hnode⟩ := node_holding hu hlink
    rcases hg.new link _ ha.live with hold|⟨-,hlen⟩
    · have hnode' : nodeOf t link=node := by
        rw [nodeOf,linkAt_of_some hold,← nodeOf,hnode]
      have hback := (ht.attached hold).back
      rw [hnode',h] at hback
      exact absurd hback (by simp)
    · rw [received,hlen,List.take_zero]
  · rfl

/-- A reconnect links ports one after another. -/
theorem reconnect_simulates {works : Prop} (ht : Coherent shape t) (hu : Coherent shape u)
    (hg : Grown works t u) :
    ∃ ps : List NodePtr,Steps (Supplies w) (ports t) (ps.map Event.link) (ports u) := by
  let ps := (shape.flatMap fun g => g.1::g.2).filter fun node =>
    (nodeAt t node).link.isNone && (nodeAt u node).link.isSome
  have hps : ∀ node∈ps,(nodeAt t node).link=none := fun node hnode => by
    have hboth := (List.mem_filter.mp hnode).2
    rw [Bool.and_eq_true,Option.isNone_iff_eq_none] at hboth
    exact hboth.1
  have hend : ports u=ps.foldl Ports.link (ports t) := by
    ext1
    · rw [Ports.links_linked]
      ext node
      change (nodeAt u node).link≠none ↔ node∈ps ∨ (nodeAt t node).link≠none
      constructor
      · intro hlinked
        by_cases hnone : (nodeAt t node).link=none
        · obtain ⟨link,hlink⟩ := Option.ne_none_iff_exists'.mp hlinked
          obtain ⟨n,hn,-⟩ := node_of_link hlink
          obtain ⟨g,hgm,hin⟩ := hu.topology.covered node n hn
          refine .inl (List.mem_filter.mpr ⟨List.mem_flatMap.mpr ⟨g,hgm,List.mem_cons.mpr hin⟩,?_⟩)
          rw [hnone,hlink]
          rfl
        · exact .inr hnone
      · rintro (hin|hlinked)
        · have hboth := (List.mem_filter.mp hin).2
          rw [Bool.and_eq_true] at hboth
          exact Option.isSome_iff_ne_none.mp hboth.2
        · obtain ⟨link,hlink⟩ := Option.ne_none_iff_exists'.mp hlinked
          rw [(linked_kept ht hu hg hlink).1]
          exact Option.some_ne_none link
    · rw [Ports.links_held]
      funext node
      change blockOf u node=blockOf t node
      cases hlink : (nodeAt t node).link with
      | none => rw [linked_new ht hu hg hlink,blockOf,hlink]
      | some link => exact (linked_kept ht hu hg hlink).2
  rw [hend]
  exact ⟨ps,.links ps (ht.topology.nodes_nodup.filter _) fun node hnode hin => hin (hps node hnode)⟩

/-- Since the start of an iteration from `w` the ports went through one round of events that
move the data of these calls. -/
def Simulates (w : World) (calls : List Call) (t : World) : Prop :=
  ∃ es,Steps (Supplies w) (ports w) (.round::es) (ports t) ∧
    es.filter Event.moves=calls.filterMap (moveOf w) ∧ es.countP Event.starts=0

theorem moveOf_kind {call : Call} {m : Event NodePtr UInt8} (h : moveOf w call=some m) :
    m.moves=true ∧ m.starts=false := by
  unfold moveOf at h
  split at h
  · rw [← Option.some.inj h]
    exact ⟨rfl,rfl⟩
  · rw [← Option.some.inj h]
    exact ⟨rfl,rfl⟩
  · exact absurd h (by simp)

theorem filter_moves (w : World) (calls : List Call) :
    (calls.filterMap (moveOf w)).filter Event.moves=calls.filterMap (moveOf w) ∧
      (calls.filterMap (moveOf w)).countP Event.starts=0 := by
  have hkind : ∀ m∈calls.filterMap (moveOf w),m.moves=true ∧ m.starts=false := fun m hm => by
    obtain ⟨call,-,hcall⟩ := List.mem_filterMap.mp hm
    exact moveOf_kind hcall
  refine ⟨List.filter_eq_self.mpr fun m hm => (hkind m hm).1,List.countP_eq_zero.mpr ?_⟩
  intro m hm
  rw [(hkind m hm).2]
  exact Bool.false_ne_true

/-- The links of a callback belong to the nodes they belonged to at the start. -/
theorem moves_congr (hc : Coherent shape t) (ha : Attached t link)
    (hsame : ∀ link l,t.links link=some l → nodeOf w link=nodeOf t link) :
    (eventCalls t link mask env).filterMap (moveOf t)=
      (eventCalls t link mask env).filterMap (moveOf w) := by
  refine List.filterMap_congr fun call hcall => ?_
  have hlink := hsame link _ ha.live
  rcases List.mem_append.mp hcall with hin|hin
  · split at hin
    · rw [List.mem_singleton.mp hin]
      cases env.read <;> simp only [moveOf,hlink]
    · exact absurd hin List.not_mem_nil
  · split at hin
    · rw [writeCalls] at hin
      split at hin
      · exact absurd hin List.not_mem_nil
      · rename_i source hoffer
        obtain ⟨hsource,-⟩ := Option.filter_eq_some_iff.mp hoffer
        obtain ⟨hattached,-⟩ := source_attached hc (ha.mem hc.topology) hsource
        rw [List.mem_singleton.mp hin]
        cases env.write <;> simp only [moveOf,hlink,hsame source _ hattached.live]
    · exact absurd hin List.not_mem_nil

/-- A callback continues the round. -/
theorem Simulates.callback (h : Simulates w calls t) (hw : Coherent shape w)
    (hcall : Calling shape t event e env link u) (hc : Coherent shape t)
    (hdevices : SameDevices w t)
    (hsame : ∀ link l,t.links link=some l → nodeOf w link=nodeOf t link)
    (hempty : e.mask &&& aeReadable≠0 → received t link=[])
    (hfull : ∀ source,offering t (nodeOf t link)=some source → received t source≠[]) :
    Simulates w (calls++eventCalls t link e.mask env) u := by
  obtain ⟨es,hes,hmoves,hstarts⟩ := h
  obtain ⟨drops,hsteps,hdrops,hnone⟩ :=
    callback_simulates hc hcall.attached hcall.effect hempty hfull
  have hsteps' := hsteps.mono fun _ _ => supplies_congr hw.topology hdevices
  obtain ⟨hfilter,hcount⟩ := filter_moves t (eventCalls t link e.mask env)
  refine ⟨es++((eventCalls t link e.mask env).filterMap (moveOf t)++drops),?_,?_,?_⟩
  · exact hes.append hsteps'
  · rw [List.filter_append,List.filter_append,hmoves,hfilter,hdrops,List.append_nil,
      moves_congr hc hcall.attached hsame,List.filterMap_append]
  · rw [List.countP_append,List.countP_append,hstarts,hcount,hnone]

/-- A link that offers holds a block. -/
theorem offering_full (hh : Held calls t) (hc : Coherent shape t) (ha : Attached t link)
    {source : LinkPtr} (h : offering t (nodeOf t link)=some source) : received t source≠[] := by
  obtain ⟨hsource,hlen⟩ := Option.filter_eq_some_iff.mp h
  obtain ⟨hattached,-⟩ := source_attached hc (ha.mem hc.topology) hsource
  obtain ⟨block,hblock,-⟩ := hh source _ hattached.live (of_decide_eq_true hlen)
  rw [received,hblock]
  exact block.nonempty

/-- A link that is about to read in the first pass holds no block. -/
theorem reading_empty (ha : Admitted w it) {done todo : List AeFiredEvent}
    (hd : fired it=done++e::todo) (ht : Reading shape w it done t)
    (hcall : Calling shape t event e env link u) : received t link=[] := by
  obtain ⟨s,hs,hturn⟩ := ht
  obtain ⟨l,hl,hfd,-⟩ := hturn.mid.links link _ hcall.attached.live
  have hnew : l.fd∉done.map AeFiredEvent.fd := by
    rw [← hfd,hcall.fd]
    exact fd_not_done (fired_nodup ha) hd
  rw [received,linkAt_of_some (hturn.mid.later link l hl hnew),hs.empty link l hl,List.take_zero]

/-- One iteration, however it ends, is one round of the relay. -/
theorem aeMainStep_simulates (hw : Coherent shape w) (ha : Admitted w it) :
    Simulates w (moved w (finalState (aeMainStep it w))) (finalState (aeMainStep it w)) := by
  let I := fun (_ : List AeFiredEvent) t => ∃ calls,Logged w it calls t ∧ Simulates w calls t
  have hend : ∀ {calls t},Logged w it calls t → Simulates w calls t →
      Simulates w (moved w t) t := fun hl hs => by rwa [moved_of_append hl.moves]
  refine (aeMainStep_rule hw ha I I (fun t => Simulates w (moved w t) t)
    (fun _ t => Simulates w (moved w t) t) (fun s hs => ?_) (fun _ _ _ _ _ _ h _ => h) ?_
    (fun _ _ h => h) (fun _ _ _ _ _ _ _ h _ => h) ?_ ?_).at_finalState rfl
  · refine ⟨[],.start hs,[],?_,rfl,rfl⟩
    rw [ports_polled hs]
    exact .single (.round _)
  · rintro done e todo t link u hd ht ⟨calls,hl,hsim⟩ hcall
    have hmid : Midpass shape _ _ t := ht.choose_spec.2.mid
    have hlog := hl.step (serves_first (ht.firstCall hd hcall.fires) hcall rfl) hcall.effect
    have hround : Simulates w (calls++eventCalls t link e.mask e.first) u := by
      refine hsim.callback hw hcall hmid.coherent (reading_devices ht) ?_
        (fun _ => reading_empty ha hd ht hcall)
        fun source hs => offering_full hl.held hmid.coherent hcall.attached hs
      intro other l hother
      obtain ⟨l₀,hl₀,-,hnode,-⟩ := reading_link ht hother
      rw [nodeOf,nodeOf,linkAt_of_some hl₀,linkAt_of_some hother,hnode]
    split
    · exact hend hlog hround
    · exact ⟨_,hlog,hround⟩
  · rintro r done e todo t link u hd ht ⟨calls,hl,hsim⟩ hcall
    have hmid := ht.turn.mid
    have hunread := not_readable_of_remaining (mem_of_split hd)
    refine ⟨_,hl.step (serves_second (ht.secondTurn hd) hcall rfl) hcall.effect,?_⟩
    refine hsim.callback hw hcall hmid.coherent (writing_devices ht) ?_ (fun h => absurd hunread h)
      fun source hs => offering_full hl.held hmid.coherent hcall.attached hs
    intro other l hother
    obtain ⟨l₀,hl₀,-,hnode,-⟩ := writing_link ht hother
    rw [nodeOf,nodeOf,linkAt_of_some hl₀,linkAt_of_some hother,hnode]
  · rintro r t u ht ⟨calls,hl,es,hes,hmoves,hstarts⟩ hu hg
    obtain ⟨ps,hps⟩ := reconnect_simulates (w:=w) ht.turn.mid.coherent hu hg
    have hquiet : moved w u=calls := moved_of_append (hg.transfers.trans hl.moves)
    refine ⟨es++ps.map Event.link,?_,?_,?_⟩
    · exact hes.append hps
    · rw [hquiet,List.filter_append,hmoves,List.filter_eq_nil_iff.mpr,List.append_nil]
      intro e he
      obtain ⟨p,-,rfl⟩ := List.mem_map.mp he
      exact Bool.false_ne_true
    · rw [List.countP_append,hstarts,List.countP_eq_zero.mpr]
      intro e he
      obtain ⟨p,-,rfl⟩ := List.mem_map.mp he
      exact Bool.false_ne_true

end Ports

section Runs

variable {w u : World} {it : Iteration} {its : List Iteration} {source node : NodePtr}

/-- Any number of iterations, the last one however it ends, are a run of the relay, with one
round for each iteration, that moves the data which the calls of the iterations move. -/
theorem run_simulates (h : Running w) (hrun : Run aeMainStep Admitted w its u)
    (ha : Admitted u it) : ∃ es,
      Steps (Supplies w) (ports w) (.round::es) (ports (finalState (aeMainStep it u))) ∧
      es.filter Event.moves=history w (its++[it]) ∧ es.countP Event.starts=its.length := by
  obtain ⟨shape,hc⟩ := running_coherent h
  clear h
  induction hrun with
  | nil w =>
    obtain ⟨es,hes,hmoves,hstarts⟩ := aeMainStep_simulates hc ha
    exact ⟨es,hes,hmoves.trans (List.append_nil _).symm,hstarts⟩
  | @cons w v u first its hadm hstep hrun ih =>
    have hfinal : finalState (aeMainStep first w)=v := by rw [hstep]; rfl
    have hsim := aeMainStep_simulates hc hadm
    rw [hfinal] at hsim
    obtain ⟨es,hes,hmoves,hstarts⟩ := hsim
    obtain ⟨es',hes',hmoves',hstarts'⟩ := ih ha (aeMainStep_coherent hc hadm hstep)
    have hdevices := (aeMainStep_advanced hc hadm hstep).devices
    refine ⟨es++.round::es',?_,?_,?_⟩
    · exact hes.append (hes'.mono fun _ _ => supplies_congr hc.topology hdevices)
    · have hfirst : (Event.round::es').filter Event.moves=es'.filter Event.moves := rfl
      rw [List.filter_append,hfirst,hmoves,hmoves',List.cons_append,history,hfinal]
    · rw [List.countP_append,hstarts,List.countP_cons_of_pos rfl,hstarts',Nat.zero_add,
        List.length_cons]

/-- Over any number of iterations, with links lost and nodes connected again, the writes accepted
by a node carry front parts of the blocks read from the node that supplies it, in the order
in which they were read. -/
theorem streams_in_order (h : Running w) (hrun : Run aeMainStep Admitted w its u)
    (ha : Admitted u it) (hs : Supplies w source node) :
    Draws (taken source (history w (its++[it]))) (given node (history w (its++[it]))) := by
  obtain ⟨shape,hc⟩ := running_coherent h
  obtain ⟨es,hes,hmoves,-⟩ := run_simulates h hrun ha
  have hdraws := hes.draws_round fun other hother => supplies_unique hc.topology hs hother
  rwa [← taken_moves,← given_moves,hmoves] at hdraws

theorem run_simulates_exchange : ∃ es,
    Steps (Supplies sampleBoot) (ports sampleBoot) (.round::es)
      (ports (finalState (aeMainStep exchange sampleBoot))) ∧
    es.filter Event.moves=history sampleBoot [exchange] ∧ es.countP Event.starts=0 := by
  have hsim := run_simulates sampleBoot_running (.nil _) exchange_admitted
  rwa [List.nil_append] at hsim

theorem exchange_history :
    history sampleBoot [exchange]=[.take 0 [7],.give 0 2 [7]] := by
  have hnodes : nodeOf sampleBoot 0=0 ∧ nodeOf sampleBoot 1=2 := by decide +kernel
  rw [history,history]
  simp only [exchange_moved,List.append_nil,List.filterMap,moveOf,hnodes.1,hnodes.2]
  rfl

/-- The virtual of the sample device is given the byte read from the device. -/
theorem streams_in_order_exchange :
    given 2 (history sampleBoot [exchange])=[[7]] ∧ Draws (taken 0 (history sampleBoot [exchange]))
      (given 2 (history sampleBoot [exchange])) := by
  have hs : Supplies sampleBoot 0 2 := .inl ⟨by decide +kernel,by decide +kernel⟩
  have hdraws := streams_in_order sampleBoot_running (.nil _) exchange_admitted hs
  rw [List.nil_append] at hdraws
  refine ⟨?_,hdraws⟩
  rw [exchange_history]
  rfl

end Runs

end SerialProxy.ProxyRelay
