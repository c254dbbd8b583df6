import SerialProxy.Iterations

/-!
# Where the data of an iteration comes from

Every read and every write of an iteration is made by a callback for its own
link. A write carries the block that its source link holds, and that block was
read on the descriptor of the source link earlier in the same iteration. Only
masters feed their virtuals, and only writers feed their master.
-/

namespace SerialProxy.TransferOrigins

open FaultPrograms SerialState EventTable SerialNodes SerialLinks EventLoop NodeTopology
open LinkEffects LinkCoherence HandlerEffects DispatchPasses ConnectEffects Reconnection Iterations

/-- The reads and writes made between two states of a run. -/
def moved (w v : World) : List Call := (transfers v.trace).drop (transfers w.trace).length

/-- What a part has moved is what it adds to the transfers. -/
theorem moved_of_append {w v : World} {calls : List Call}
    (h : transfers v.trace=transfers w.trace++calls) : moved w v=calls := by
  rw [moved,h,List.drop_left]

/-- It depends on the transfers only. -/
theorem moved_congr {w t u : World} (h : transfers u.trace=transfers t.trace) :
    moved w u=moved w t := by
  rw [moved,moved,h]

/-- More calls extend what has moved. -/
theorem moved_append {w t u : World} {calls : List Call}
    (h : transfers t.trace=transfers w.trace++moved w t)
    (hu : transfers u.trace=transfers t.trace++calls) :
    transfers u.trace=transfers w.trace++moved w u ∧ moved w u=moved w t++calls := by
  have hx : transfers u.trace=transfers w.trace++(moved w t++calls) := by
    rw [hu,h,moved_of_append h,List.append_assoc]
  have hm := moved_of_append hx
  exact ⟨by rw [hm,hx],hm⟩

/-- Every block in a buffer was read by one of these calls. -/
def Held (calls : List Call) (t : World) : Prop :=
  ∀ link l,t.links link=some l → 0<l.recvbuflen →
    ∃ block,l.recvbuf.take l.recvbuflen=block.bytes ∧ Call.read link l.fd (.data block)∈calls

/-- A callback of an iteration from `w`, called in state `t` for this link. -/
structure Serves (w : World) (it : Iteration) (t : World) (e : AeFiredEvent) (env : CallResults)
    (link : LinkPtr) : Prop where
  /-- The callback is called. -/
  call : HandlerCall w it t e env
  /-- It gets this link. -/
  client : (t.events e.fd).clientData=some link
  /-- The link is attached. -/
  attached : Attached t link
  /-- Its descriptor is the fired one. -/
  fd : (linkAt t link).fd=e.fd

/-- A read or write is made by a callback, when every block in a buffer had been
read before. -/
def Origin (w : World) (it : Iteration) (before : List Call) (call : Call) : Prop :=
  ∃ t e env link,Serves w it t e env link ∧ call∈eventCalls t link e.mask env ∧ Held before t

/-- The reads and writes between `w` and `v` all have their origin in an iteration from `w`. -/
structure Explained (w : World) (it : Iteration) (v : World) : Prop where
  /-- They come behind the earlier ones. -/
  moves : transfers v.trace=transfers w.trace++moved w v
  /-- Each comes from a callback. -/
  origin : ∀ before call after,moved w v=before++call::after → Origin w it before call

/-- An iteration from `w` has made these reads and writes so far. -/
structure Logged (w : World) (it : Iteration) (calls : List Call) (t : World) : Prop where
  /-- They are the new ones. -/
  moves : transfers t.trace=transfers w.trace++calls
  /-- Each comes from a callback. -/
  origin : ∀ before call after,calls=before++call::after → Origin w it before call
  /-- The buffers hold blocks that were read. -/
  held : Held calls t

section Origins

variable {w s t u v : World} {shape : Shape} {it : Iteration} {e : AeFiredEvent}
variable {calls calls' : List Call} {link : LinkPtr} {env : CallResults} {mask : EventMask}

/-- What is held stays held behind later calls. -/
theorem Held.append (h : Held calls t) (calls' : List Call) : Held (calls++calls') t :=
  fun link l hl hlen =>
    let ⟨block,hb,hm⟩ := h link l hl hlen
    ⟨block,hb,List.mem_append_left _ hm⟩

/-- The buffer of a link that a read left open is as before, or holds the block read. -/
theorem linkAfterRead_cases {result : ReadResult} {l : SerialLink}
    (h : linkAfterRead t link result=some l) :
    l=linkAt t link ∨ ∃ block,result=.data block ∧ l=filled (linkAt t link) block := by
  have hkeep : (if readCloses t.errno result then none else some (linkAt t link))=some l →
      l=linkAt t link := by
    intro h
    split at h
    · exact absurd h (by simp)
    · exact (Option.some.inj h).symm
  cases result with
  | data block => exact .inr ⟨block,rfl,(Option.some.inj h).symm⟩
  | eof => exact .inl (hkeep h)
  | fail errno => exact .inl (hkeep h)

/-- The buffer of the own link after a callback is as before, or holds what it read. -/
theorem eventLink_cases {l : SerialLink} (h : eventLink t link mask env=some l) :
    l=linkAt t link ∨ mask &&& aeReadable≠0 ∧ ∃ block,env.read=.data block ∧
      l=filled (linkAt t link) block := by
  rw [eventLink] at h
  split at h
  · exact absurd h (by simp)
  · split at h
    · rename_i hr
      exact (linkAfterRead_cases h).imp_right fun hb => ⟨hr,hb⟩
    · exact .inl (Option.some.inj h).symm

/-- A callback that reads makes its read first. -/
theorem read_mem_eventCalls (t : World) (link : LinkPtr) (env : CallResults)
    (hr : mask &&& aeReadable≠0) :
    Call.read link (linkAt t link).fd env.read∈eventCalls t link mask env := by
  rw [eventCalls,if_pos hr]
  exact List.mem_append_left _ List.mem_cons_self

/-- A callback keeps track of the blocks in the buffers. -/
theorem Held.step (h : Held calls t) (ha : Attached t link)
    (he : Effect shape t link (eventCalls t link mask env) (eventLink t link mask env) u) :
    Held (calls++eventCalls t link mask env) u := by
  intro other l hl hlen
  rcases eq_or_ne other link with rfl|hne
  · rw [he.own] at hl
    rcases eventLink_cases hl with rfl|⟨hr,block,hread,rfl⟩
    · exact h.append _ other _ ha.live hlen
    · refine ⟨block,filled_received _ block,List.mem_append_right _ ?_⟩
      have hm := read_mem_eventCalls t other env hr
      rwa [hread] at hm
  · rw [he.confined.links other hne] at hl
    exact h.append _ other l hl hlen

/-- A callback extends the log by its own reads and writes. -/
theorem Logged.step (h : Logged w it calls t) (hs : Serves w it t e env link)
    (he : Effect shape t link (eventCalls t link e.mask env) (eventLink t link e.mask env) u) :
    Logged w it (calls++eventCalls t link e.mask env) u where
  moves := by rw [he.transfers,h.moves,List.append_assoc]
  held := h.held.step hs.attached he
  origin := by
    intro before call after hsplit
    rcases List.append_eq_append_iff.mp hsplit with ⟨mid,hb,hc⟩|⟨mid,hb,hc⟩
    · exact ⟨t,e,env,link,hs,by rw [hc]; simp,hb ▸ h.held.append mid⟩
    · cases mid with
      | nil =>
        rw [List.append_nil] at hb
        rw [List.nil_append] at hc
        exact ⟨t,e,env,link,hs,by rw [← hc]; simp,hb ▸ h.held⟩
      | cons c mid =>
        rw [List.cons_append,List.cons.injEq] at hc
        obtain ⟨rfl,-⟩ := hc
        exact h.origin before call mid hb

/-- Transfers are explained when each of them has its origin. -/
theorem Explained.of_calls (h : transfers v.trace=transfers w.trace++calls)
    (ho : ∀ before call after,calls=before++call::after → Origin w it before call) :
    Explained w it v := by
  have hm := moved_of_append h
  exact ⟨by rw [hm,h],by rw [hm]; exact ho⟩

/-- Nothing has moved when an iteration starts to dispatch. -/
theorem Logged.start (hs : Polled shape w it s) : Logged w it [] s where
  moves := by rw [hs.transfers,List.append_nil]
  origin := fun before _ _ h => absurd h (by cases before <;> simp)
  held := fun link l hl hlen => absurd (hs.empty link l hl) (Nat.ne_of_gt hlen)

/-- A call of the first pass serves its link. -/
theorem serves_first (hd : FirstCall w it t e) (hc : Calling shape t aeReadable e env link u)
    (henv : env=e.first) : Serves w it t e env link :=
  ⟨henv ▸ .first hd,hc.client,hc.attached,hc.fd⟩

/-- So does one of the second pass. -/
theorem serves_second (hd : SecondTurn w it t e) (hc : Calling shape t aeWritable e env link u)
    (henv : env=e.second) : Serves w it t e env link :=
  ⟨henv ▸ .second hd hc.fires,hc.client,hc.attached,hc.fd⟩

/-- Every callback of an iteration is called for an attached link. -/
theorem handlerCall_serves (hc : Coherent shape w) (ha : Admitted w it)
    (h : HandlerCall w it t e env) : Coherent shape t ∧ ∃ link,Serves w it t e env link := by
  cases h with
  | first h =>
    obtain ⟨done,todo,hd,s,hs,ht⟩ := reading_of_firstCall hc ha h
    obtain ⟨link,u,hcall⟩ := calling_of_fires ht.mid.coherent
      (let ⟨_,_,_,_,_,_,hf⟩ := h; hf) e.first
    exact ⟨ht.mid.coherent,link,serves_first h hcall rfl⟩
  | second h hf =>
    obtain ⟨r,done,todo,hd,hw⟩ := writing_of_secondTurn hc ha h
    obtain ⟨link,u,hcall⟩ := calling_of_fires hw.turn.mid.coherent hf e.second
    exact ⟨hw.turn.mid.coherent,link,serves_second h hcall rfl⟩

/-- The reads and writes of an iteration, however it ends. -/
theorem aeMainStep_explained (hc : Coherent shape w) (ha : Admitted w it) :
    Explained w it (finalState (aeMainStep it w)) := by
  have hrule := aeMainStep_rule hc ha (fun _ t => ∃ calls,Logged w it calls t)
    (fun _ t => ∃ calls,Logged w it calls t) (Explained w it) (fun _ => Explained w it)
    (fun s hs => ⟨[],.start hs⟩) (fun _ _ _ _ _ _ h _ => h) ?_ (fun _ _ h => h)
    (fun _ _ _ _ _ _ _ h _ => h) ?_ ?_
  · exact hrule.at_finalState rfl
  · rintro done e todo t link u hd ht ⟨calls,hl⟩ hcall
    have hlog := hl.step (serves_first (ht.firstCall hd hcall.fires) hcall rfl) hcall.effect
    split
    · exact .of_calls hlog.moves hlog.origin
    · exact ⟨_,hlog⟩
  · rintro r done e todo t link u hd ht ⟨calls,hl⟩ hcall
    exact ⟨_,hl.step (serves_second (ht.secondTurn hd) hcall rfl) hcall.effect⟩
  · rintro r t u ht ⟨calls,hl⟩ hu hg
    exact .of_calls (by rw [hg.transfers,hl.moves]) hl.origin

/-- The sample reads a block from the master and writes it to the virtual. -/
theorem exchange_moved : moved sampleBoot (finalState (aeMainStep exchange sampleBoot))=
    [.read 0 4 (.data (sampleBlock 7 [] (by decide))),
      .write 1 0 5 [7] (.accepted 1 (by decide))] := by
  decide +kernel

end Origins

end SerialProxy.TransferOrigins
