import Mathlib.Data.List.Basic
import Mathlib.Data.Set.Insert
import Mathlib.Logic.Function.Basic

/-!
# Relays

Ports that come and go feed one another in rounds. A linked port takes blocks
from outside and holds one until the round ends or the port is dropped; a
linked port is given front parts of the block held by the port that feeds it.
Whatever the order of these events, a port is given its parts in the order in
which the blocks were taken, and nothing but such parts.
-/

namespace SerialProxy.Relays

variable {P B : Type}

/-- The linked ports, with the block that each of them holds. -/
@[ext] structure Ports (P B : Type) where
  /-- Ports that are linked. -/
  linked : Set P
  /-- The block a port holds, empty if it holds none. -/
  held : P → List B
  /-- Only linked ports hold a block. -/
  empty : ∀ p,p∉linked → held p=[]

/-- What happens to the ports. -/
inductive Event (P B : Type) where
  /-- A new round starts. -/
  | round
  /-- A port is linked. -/
  | link (p : P)
  /-- A port is dropped. -/
  | drop (p : P)
  /-- A port takes a block from outside. -/
  | take (p : P) (block : List B)
  /-- A port is given a part of the block that another one holds. -/
  | give (source dest : P) (chunk : List B)

/-- The event moves data. -/
def Event.moves : Event P B → Bool
  | .take _ _ => true
  | .give _ _ _ => true
  | _ => false

/-- The event starts a round. -/
def Event.starts : Event P B → Bool
  | .round => true
  | _ => false

namespace Ports

variable {s : Ports P B} {p q : P} {block : List B}

/-- Every block is forgotten. -/
def forget (s : Ports P B) : Ports P B := ⟨s.linked,fun _ => [],fun _ _ => rfl⟩

/-- One more port is linked. -/
def link (s : Ports P B) (p : P) : Ports P B where
  linked := insert p s.linked
  held := s.held
  empty := fun q hq => s.empty q fun h => hq (.inr h)

/-- Behind a reset every port is empty. -/
@[simp] theorem forget_held : s.forget.held p=[] := rfl

/-- Linking a port moves no block. -/
@[simp] theorem link_held : (s.link p).held q=s.held q := rfl

/-- Linking some ports one after another adds them to the linked ones. -/
theorem links_linked (ps : List P) (s : Ports P B) :
    (ps.foldl link s).linked={q | q∈ps ∨ q∈s.linked} := by
  induction ps generalizing s with
  | nil => simp
  | cons p ps ih =>
    rw [List.foldl_cons,ih]
    ext q
    change q∈ps ∨ (q=p ∨ q∈s.linked) ↔ q∈p::ps ∨ q∈s.linked
    rw [List.mem_cons]
    tauto

/-- It moves no block either. -/
theorem links_held (ps : List P) (s : Ports P B) : (ps.foldl link s).held=s.held := by
  induction ps generalizing s with
  | nil => rfl
  | cons p ps ih => exact ih (s.link p)

variable [DecidableEq P]

/-- A port is dropped with its block. -/
def drop (s : Ports P B) (p : P) : Ports P B where
  linked := {q∈s.linked | q≠p}
  held := Function.update s.held p []
  empty := by
    intro q hq
    by_cases he : q=p
    · rw [he,Function.update_self]
    · rw [Function.update_of_ne he]
      exact s.empty q fun h => hq ⟨h,he⟩

/-- A linked port holds this block. -/
def take (s : Ports P B) (p : P) (block : List B) (hp : p∈s.linked) : Ports P B where
  linked := s.linked
  held := Function.update s.held p block
  empty := by
    intro q hq
    have hne : q≠p := fun he => hq (he ▸ hp)
    rw [Function.update_of_ne hne]
    exact s.empty q hq

/-- A dropped port is empty. -/
@[simp] theorem drop_held_self : (s.drop p).held p=[] := Function.update_self _ _ _

/-- The other ports keep their blocks. -/
theorem drop_held_of_ne (h : q≠p) : (s.drop p).held q=s.held q := Function.update_of_ne h _ _

/-- A port that takes a block holds it. -/
@[simp] theorem take_held_self (hp : p∈s.linked) : (s.take p block hp).held p=block :=
  Function.update_self _ _ _

/-- The other ports keep theirs. -/
theorem take_held_of_ne (hp : p∈s.linked) (h : q≠p) : (s.take p block hp).held q=s.held q :=
  Function.update_of_ne h _ _

/-- A port that takes the block it holds is as before. -/
theorem take_self (hp : p∈s.linked) : s.take p (s.held p) hp=s := by
  ext1
  · rfl
  · exact Function.update_eq_self p s.held

/-- A dropped port does not show what it took before. -/
theorem drop_take (hp : p∈s.linked) : (s.take p block hp).drop p=s.drop p := by
  ext1
  · rfl
  · exact Function.update_idem _ _ _

end Ports

/-- One event of a relay in which ports feed one another in this way. -/
inductive Step [DecidableEq P] (feeds : P → P → Prop) :
    Ports P B → Event P B → Ports P B → Prop
  /-- Blocks are held for one round. -/
  | round (s : Ports P B) : Step feeds s .round s.forget
  /-- A port without a link gets one. -/
  | link {s : Ports P B} {p : P} : p∉s.linked → Step feeds s (.link p) (s.link p)
  /-- A linked port is dropped. -/
  | drop {s : Ports P B} {p : P} : p∈s.linked → Step feeds s (.drop p) (s.drop p)
  /-- A linked port that holds no block takes one. -/
  | take {s : Ports P B} {p : P} {block : List B} (hp : p∈s.linked) : s.held p=[] → block≠[] →
      Step feeds s (.take p block) (s.take p block hp)
  /-- A linked port is given a front part of the block of a port that feeds it. -/
  | give {s : Ports P B} {source dest : P} {chunk : List B} : source∈s.linked →
      dest∈s.linked → feeds source dest → chunk≠[] → chunk<+:s.held source →
      Step feeds s (.give source dest chunk) s

/-- Events one after another. -/
inductive Steps [DecidableEq P] (feeds : P → P → Prop) :
    Ports P B → List (Event P B) → Ports P B → Prop
  /-- No event. -/
  | nil (s : Ports P B) : Steps feeds s [] s
  /-- One event, then the others. -/
  | cons {s t u : Ports P B} {e : Event P B} {es : List (Event P B)} : Step feeds s e t →
      Steps feeds t es u → Steps feeds s (e::es) u

/-- The blocks that a port takes in these events. -/
def taken [DecidableEq P] (p : P) (es : List (Event P B)) : List (List B) :=
  es.filterMap fun
    | .take q block => if q=p then some block else none
    | _ => none

/-- The parts that a port is given in these events. -/
def given [DecidableEq P] (p : P) (es : List (Event P B)) : List (List B) :=
  es.filterMap fun
    | .give _ q chunk => if q=p then some chunk else none
    | _ => none

section Moves

variable [DecidableEq P] {p q : P} {block chunk : List B} {es : List (Event P B)}

/-- A block taken by a port comes first in what it takes. -/
@[simp] theorem taken_take_self : taken p (.take p block::es)=block::taken p es :=
  List.filterMap_cons_some (if_pos rfl)

/-- A block taken by another port does not count for it. -/
theorem taken_take_of_ne (h : q≠p) : taken p (.take q block::es)=taken p es :=
  List.filterMap_cons_none (if_neg h)

/-- A block given to a port comes first in what it is given. -/
@[simp] theorem given_give_self : given p (.give q p chunk::es)=chunk::given p es :=
  List.filterMap_cons_some (if_pos rfl)

/-- A block given to another port does not count for it. -/
theorem given_give_of_ne {dest : P} (h : dest≠p) : given p (.give q dest chunk::es)=given p es :=
  List.filterMap_cons_none (if_neg h)

end Moves

/-- The chunks are front parts of the blocks, in the order of the blocks: later chunks are of
the same block or of later ones. -/
inductive Draws : List (List B) → List (List B) → Prop
  /-- No more chunks. -/
  | nil (blocks : List (List B)) : Draws blocks []
  /-- The rest is of later blocks. -/
  | skip {block : List B} {blocks chunks : List (List B)} : Draws blocks chunks →
      Draws (block::blocks) chunks
  /-- A front part of this block comes next. -/
  | front {block chunk : List B} {blocks chunks : List (List B)} : chunk≠[] →
      chunk<+:block → Draws (block::blocks) chunks → Draws (block::blocks) (chunk::chunks)

section Runs

variable [DecidableEq P] {feeds : P → P → Prop} {s t u : Ports P B} {e : Event P B}
variable {es es' : List (Event P B)} {p d : P} {blocks chunks : List (List B)}

/-- One step is a run. -/
theorem Steps.single (h : Step feeds s e t) : Steps feeds s [e] t := .cons h (.nil t)

/-- A run goes on from where another ends. -/
theorem Steps.append (h : Steps feeds s es t) (h' : Steps feeds t es' u) :
    Steps feeds s (es++es') u := by
  induction h with
  | nil => exact h'
  | cons hs _ ih => exact .cons hs (ih h')

/-- A run stays one when more ports feed each other. -/
theorem Steps.mono {feeds' : P → P → Prop} (h : Steps feeds s es t)
    (hf : ∀ p q,feeds p q → feeds' p q) : Steps feeds' s es t := by
  induction h with
  | nil s => exact .nil s
  | cons hs _ ih =>
    refine .cons ?_ ih
    cases hs with
    | round => exact .round _
    | link hp => exact .link hp
    | drop hp => exact .drop hp
    | take hp hempty hne => exact .take hp hempty hne
    | give hs hd hfeeds hne hle => exact .give hs hd (hf _ _ hfeeds) hne hle

/-- Ports are linked one after another. -/
theorem Steps.links (ps : List P) (hps : ps.Nodup) (hout : ∀ p∈ps,p∉s.linked) :
    Steps feeds s (ps.map Event.link) (ps.foldl Ports.link s) := by
  induction ps generalizing s with
  | nil => exact .nil s
  | cons p ps ih =>
    obtain ⟨hp,hps⟩ := List.nodup_cons.mp hps
    refine .cons (.link (hout p List.mem_cons_self)) (ih hps fun q hq => ?_)
    rintro (he|hin)
    · exact hp (he ▸ hq)
    · exact hout q (List.mem_cons_of_mem p hq) hin

/-- Nothing is drawn from an empty block. -/
theorem Draws.of_nil (h : Draws ([]::blocks) chunks) : Draws blocks chunks := by
  cases h with
  | nil => exact .nil blocks
  | skip h => exact h
  | front hne hle _ => exact absurd (List.prefix_nil.mp hle) hne

/-- One event keeps the blocks of a port ahead of the parts that are given out of them. -/
theorem Step.draws (h : Step feeds s e t) (hfeeds : ∀ q,feeds q d → q=p)
    (hd : Draws (t.held p::taken p es) (given d es)) :
    Draws (s.held p::taken p (e::es)) (given d (e::es)) := by
  cases h with
  | round => exact .skip hd.of_nil
  | link _ => exact hd
  | @drop q hq =>
    change Draws (s.held p::taken p es) (given d es)
    by_cases he : p=q
    · rw [he,Ports.drop_held_self] at hd
      exact .skip (he ▸ hd.of_nil)
    · rwa [Ports.drop_held_of_ne he] at hd
  | @take q block hq _ _ =>
    change Draws (s.held p::taken p (.take q block::es)) (given d es)
    by_cases he : q=p
    · subst he
      rw [Ports.take_held_self] at hd
      rw [taken_take_self]
      exact .skip hd
    · rw [Ports.take_held_of_ne hq (Ne.symm he)] at hd
      rwa [taken_take_of_ne he]
  | @give source dest chunk _ _ hf hne hle =>
    change Draws (s.held p::taken p es) (given d (.give source dest chunk::es))
    by_cases he : dest=d
    · subst he
      rw [hfeeds source hf] at hle
      rw [given_give_self]
      exact .front hne hle hd
    · rwa [given_give_of_ne he]

/-- In any run, a port fed by one other port is given front parts of the block that this one
holds at the start and of those it takes, in their order. -/
theorem Steps.draws (h : Steps feeds s es t) (hfeeds : ∀ q,feeds q d → q=p) :
    Draws (s.held p::taken p es) (given d es) := by
  induction h with
  | nil s => exact .nil _
  | cons hs _ ih => exact hs.draws hfeeds ih

/-- From the start of a round on it is given nothing but parts of blocks taken since. -/
theorem Steps.draws_round (h : Steps feeds s (.round::es) t) (hfeeds : ∀ q,feeds q d → q=p) :
    Draws (taken p es) (given d es) := by
  cases h with
  | cons hs h =>
    cases hs
    exact (h.draws hfeeds).of_nil

/-- Only the moves count for what a port takes. -/
theorem taken_moves (es : List (Event P B)) : taken p (es.filter Event.moves)=taken p es := by
  rw [taken,taken,List.filterMap_filter]
  refine List.filterMap_congr fun e _ => ?_
  cases e <;> rfl

/-- Only the moves count for what a port is given. -/
theorem given_moves (es : List (Event P B)) : given p (es.filter Event.moves)=given p es := by
  rw [given,given,List.filterMap_filter]
  refine List.filterMap_congr fun e _ => ?_
  cases e <;> rfl

end Runs

end SerialProxy.Relays
