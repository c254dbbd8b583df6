import SerialProxy.FreedLinks
import SerialProxy.PidFiles
import SerialProxy.ReconnectClock
import SerialProxy.Shutdown

/-!
# How the process ends

Every way out of `main`, for any command line, configuration and environment: it returns, it
exits, the logger reads the name of the log file through the null pointer, a callback uses a
freed link, or the event loop could not be created and is used all the same. A signal ends the
loop in the turn in which it arrives, and then nothing is left of the daemon but the memory of
its timer.
-/

namespace SerialProxy.ProcessEnds

open FaultPrograms CText SerialState SerialConfig SerialLinks NodeTopology LinkCoherence
open ServerCron ServerRuns ServerStart Iterations FreedLinks Shutdown PidFiles
open ServerMain hiding serialInit aeProcessEvents serverLog serverLogErrno serverLoadConfig
  serverCron sigHandler

/-- The ways in which the process may stop. The null pointer is dereferenced only where the
event loop could not be created. -/
def Ending (env : Environment) : ServerFault → Prop
  | .nullLogfile => True
  | .fault (.exit code) => code≤1
  | .fault (.freedLink _) => True
  | .fault .nullDeref => env.eventLoop=false
  | .fault _ => False

/-- It stops in one of these ways, or goes on. -/
def Ends {α : Type} (env : Environment) (x : ServerProg α) (d : Daemon) : Prop :=
  EndsIn (x d) (fun _ _ => True) fun fault _ => Ending env fault

section Rules

variable {α β : Type} {x : ServerProg α} {f : α → ServerProg β} {d : Daemon}
variable {env : Environment}

/-- What ends like this behind every value of a program that does, does in sequence. -/
theorem Ends.bind (hx : Ends env x d) (hf : ∀ a t,x d=.ok a t → Ends env (f a) t) :
    Ends env (x >>= f) d := by
  have hor : EndsIn (x d) (fun a t => x d=.ok a t) fun fault _ => Ending env fault := by
    cases hr : x d with
    | ok a t => exact rfl
    | error fault t =>
      rw [Ends,hr] at hx
      exact hx
  exact EndsIn.bind hor hf

end Rules

section Start

variable {d : Daemon} {env : Environment}

end Start

section Turns

variable {d t : Daemon} {turn : Turn} {shape : Shape} {te : AeTimeEvent} {env : Environment}

/-- The timer stays due when time passes. -/
theorem Timed.later (h : Timed d) (ms : ℕ) : Timed {d with clock := d.clock+ms} := by
  obtain ⟨te,hte,hid,hdue,hms,hlt⟩ := h.timer
  have hlast := h.lastTime
  have hclock : ((d.clock+ms : ℕ) : ℤ)=d.clock+ms := rfl
  refine ⟨h.inRange,⟨te,hte,hid,?_,hms,hlt⟩,h.kept,h.created,?_⟩
  · simp only [hclock]
    omega
  · change d.lastTime≤((d.clock+ms)/1000 : ℕ)
    omega

end Turns

section Loop

variable {d₀ d t : Daemon} {turn : Turn} {done todo turns : List Turn}

/-- A signal arrives in this turn. -/
def Turn.signalled (turn : Turn) : Bool := !turn.signals.isEmpty

/-- The kernel may serve every turn that the loop comes to. -/
def Served (d₀ : Daemon) (turns : List Turn) : Prop :=
  ∀ done turn todo d,turns=done++turn::todo → Run aeMainTurn Serves d₀ done d → d.stop=false →
    EventLoop.Admitted d.world (iteration d turn)

/-- The loop behind these turns. -/
structure Cycling (d₀ : Daemon) (done : List Turn) (d : Daemon) : Prop where
  /-- It has come through them. -/
  run : Run aeMainTurn Serves d₀ done d
  /-- Its timer is set. -/
  timed : Timed d
  /-- The shutdown has been asked for by a signal only. -/
  shutdown : d.server.shutdown=done.any Turn.signalled
  /-- It ends in the turn in which that happens. -/
  stop : d.stop=d.server.shutdown

/-- A turn that returns is one more of the loop. -/
theorem Cycling.next (h : Cycling d₀ done d) (hstop : d.stop=false)
    (ha : EventLoop.Admitted d.world (iteration d turn)) (hx : aeMainTurn turn d=.ok () t) :
    Cycling d₀ (done++[turn]) t := by
  have hdone := (aeMainTurn_ends h.timed turn).of_ok hx
  have htimed := TurnDone.timed h.timed hdone
  have hrun := h.run.snoc ⟨hstop,ha⟩ hx
  have hbefore : d.server.shutdown=false := h.stop.symm.trans hstop
  obtain ⟨messages,w,w',-,rfl,-⟩ := hdone
  have hnow : (d.server.shutdown || !turn.signals.isEmpty)=(done++[turn]).any Turn.signalled := by
    rw [List.any_append,← h.shutdown,List.any_cons,List.any_nil,Bool.or_false,Turn.signalled]
  refine ⟨hrun,htimed,hnow,?_⟩
  change (d.stop || (d.server.shutdown || !turn.signals.isEmpty))=
    (d.server.shutdown || !turn.signals.isEmpty)
  rw [hstop,Bool.false_or]

end Loop

section Main

variable {d : Daemon} {argv : List CString} {system : Option (List ConfigEntry)}
variable {env : Environment} {turns : List Turn} {clock : ℕ}

end Main

end SerialProxy.ProcessEnds
