import SerialProxy.TransferOrigins

/-!
# What decides whether a read closes its link

`_serialReadHandler` looks at the global `errno` after every read without data,
and a `read` that returns 0 leaves the value of some earlier call there. An end of
file behind a read that would block is taken for one that would block too.
-/

namespace SerialProxy.ReadVerdicts

open FaultPrograms SerialState EventTable SerialNodes SerialLinks EventLoop NodeTopology
open LinkEffects LinkCoherence HandlerEffects DispatchPasses Iterations TransferOrigins

/-- In an iteration from `w`, the first pass calls the read handler of a link in
state `t`, and its `read` has this result. -/
structure ReadCall (w : World) (it : Iteration) (t : World) (link : LinkPtr)
    (result : ReadResult) : Prop where
  /-- The daemon is running. -/
  running : Running w
  /-- The kernel may serve the iteration. -/
  admitted : Admitted w it
  /-- A fired event is called back with this link and this result. -/
  call : ∃ e,FirstCall w it t e ∧ (t.events e.fd).clientData=some link ∧ e.first.read=result

/-- The read handler of a link closes it. -/
def ReadCloses (t : World) (link : LinkPtr) (result : ReadResult) : Prop :=
  (finalState (serialReadHandler link result t)).links link=none

section Verdicts

variable {w w' : World} {it it' : Iteration} {t t' : World} {link link' : LinkPtr}
variable {result : ReadResult}

/-- The handler closes its link when the `errno` it finds says so. -/
theorem readCloses_iff (h : ReadCall w it t link result) :
    ReadCloses t link result ↔ readCloses t.errno result=true := by
  obtain ⟨shape,hc⟩ := running_coherent h.running
  obtain ⟨e,hcall,hclient,-⟩ := h.call
  obtain ⟨hct,own,hs⟩ := handlerCall_serves hc h.admitted (.first hcall)
  obtain rfl : own=link := Option.some.inj (hs.client.symm.trans hclient)
  have heffect := (afterRead_effect hct hs.attached result).own
  rw [ReadCloses,serialReadHandler_apply hct.topology hs.attached result,finalState_ok,heffect]
  exact linkAfterRead_eq_none

/-- Values of `errno` that agree on `EAGAIN` give the same verdict, and so does any
value for a read with data or an error of its own. -/
theorem readCloses_congr {e e' : Errno} (h : result=.eof → (e=eagain ↔ e'=eagain)) :
    readCloses e result=readCloses e' result := by
  cases result with
  | data block => rfl
  | eof => simp [readCloses,h rfl]
  | fail own => rfl

/-- Two calls whose reads have the same result agree on closing their links, and
close them at an end of file, exactly when neither finds `EAGAIN` left from another call
at an end of file. -/
theorem closes_alike_iff (h : ReadCall w it t link result) (h' : ReadCall w' it' t' link' result) :
    ((ReadCloses t link result ↔ ReadCloses t' link' result) ∧
      (result=.eof → ReadCloses t link result ∧ ReadCloses t' link' result)) ↔
      ¬ (result=.eof ∧ (t.errno=eagain ∨ t'.errno=eagain)) := by
  rw [readCloses_iff h,readCloses_iff h']
  constructor
  · rintro ⟨-,hall⟩ ⟨rfl,heagain⟩
    obtain ⟨hc,hc'⟩ := hall rfl
    rcases heagain with he|he
    · rw [he] at hc
      exact absurd hc (by decide)
    · rw [he] at hc'
      exact absurd hc' (by decide)
  · intro hnot
    have hagain : result=.eof → t.errno≠eagain ∧ t'.errno≠eagain := fun he =>
      not_or.mp fun hor => hnot ⟨he,hor⟩
    refine ⟨by rw [readCloses_congr fun he => iff_of_false (hagain he).1 (hagain he).2],?_⟩
    rintro rfl
    exact ⟨by simpa [readCloses] using (hagain rfl).1,by simpa [readCloses] using (hagain rfl).2⟩

end Verdicts

section Hangup

/-- The writer `a` is read with this result. -/
def writerRead (result : ReadResult) : PollEntry :=
  ⟨7,true,false,false,false,⟨result,.zero⟩,⟨.eof,.zero⟩⟩

/-- The device has hung up. -/
def masterRead : PollEntry := ⟨4,true,false,false,false,⟨.eof,.zero⟩,⟨.eof,.zero⟩⟩

/-- The device has hung up, and the writer is read before it. -/
def hangupAfter (result : ReadResult) : Iteration := ⟨.ok [writerRead result,masterRead],none⟩

/-- The state in which the device is read. -/
def afterWriter (result : ReadResult) : World :=
  finalState (readPass [(writerRead result).fired] (finalState (serialBeforeSleep sampleBoot)))

/-- The device is read after the writer. -/
theorem hangup_readCall {result : ReadResult} (ha : Admitted sampleBoot (hangupAfter result))
    (hreturns : returns (readPass [(writerRead result).fired]
      (finalState (serialBeforeSleep sampleBoot)))=true)
    (hfires : Fires (afterWriter result) aeReadable masterRead.fired)
    (hclient : ((afterWriter result).events 4).clientData=some 0) :
    ReadCall sampleBoot (hangupAfter result) (afterWriter result) 0 .eof := by
  have hsleep : serialBeforeSleep sampleBoot=.ok () (finalState (serialBeforeSleep sampleBoot)) :=
    eq_ok_of_returns (by decide +kernel)
  obtain ⟨done',hread⟩ := exists_ok_of_returns hreturns
  have hpolls : Polls sampleBoot (hangupAfter result)
      ([(writerRead result).fired]++masterRead.fired::[])
      (finalState (serialBeforeSleep sampleBoot)) := ⟨_,hsleep,rfl⟩
  exact ⟨sampleBoot_running,ha,masterRead.fired,⟨_,_,_,done',hpolls,hread,hfires⟩,hclient,rfl⟩

/-- The writer has nothing to read. -/
theorem idle_readCall : ReadCall sampleBoot (hangupAfter (.fail eagain))
    (afterWriter (.fail eagain)) 0 .eof :=
  hangup_readCall ⟨by decide +kernel,by decide +kernel,by decide +kernel,by decide +kernel⟩
    (by decide +kernel) (by decide +kernel) (by decide +kernel)

/-- The writer sends a byte. -/
def sending : ReadResult := .data (sampleBlock 8 [] nil_lt_bufsiz)

theorem sending_readCall : ReadCall sampleBoot (hangupAfter sending) (afterWriter sending) 0 .eof :=
  hangup_readCall ⟨by decide +kernel,by decide +kernel,by decide +kernel,by decide +kernel⟩
    (by decide +kernel) (by decide +kernel) (by decide +kernel)

theorem closes_alike_iff_hangup :
    ((ReadCloses (afterWriter (.fail eagain)) 0 .eof ↔ ReadCloses (afterWriter sending) 0 .eof) ∧
      (ReadResult.eof=.eof → ReadCloses (afterWriter (.fail eagain)) 0 .eof ∧
        ReadCloses (afterWriter sending) 0 .eof)) ↔
      ¬ (ReadResult.eof=.eof ∧ ((afterWriter (.fail eagain)).errno=eagain ∨
        (afterWriter sending).errno=eagain)) :=
  closes_alike_iff idle_readCall sending_readCall

/-- Behind a writer with nothing to read, the hang-up of the device is not noticed. -/
theorem hangup_missed : ¬ ∀ w w' it it' t t' link result,ReadCall w it t link result →
    ReadCall w' it' t' link result → (ReadCloses t link result ↔ ReadCloses t' link result) := by
  intro h
  have hkept : (finalState (serialReadHandler 0 .eof (afterWriter (.fail eagain)))).links 0≠none := by
    decide +kernel
  have hclosed : (finalState (serialReadHandler 0 .eof (afterWriter sending))).links 0=none := by
    decide +kernel
  exact hkept ((h _ _ _ _ _ _ 0 .eof idle_readCall sending_readCall).mpr hclosed)

end Hangup

end SerialProxy.ReadVerdicts
