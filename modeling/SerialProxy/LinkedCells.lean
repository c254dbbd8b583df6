import SerialProxy.FaultPrograms
import Mathlib.Data.Finset.Card
import Mathlib.Data.Finset.Range
import Mathlib.Logic.Function.Basic

/-!
# Singly linked cells and loops that follow their links

A heap is seen through the link of each allocated cell. A chain is the finite
list of cells reached from a head pointer; it determines itself, has no
repeated cell, and survives every change made outside its cells. The two loop
forms of C over such a list, a search with an early exit and a visit of every
cell, carry a bound on their turns, and are equal to the corresponding
operations on the chain when the bound covers it.
-/

namespace SerialProxy.LinkedCells

open FaultPrograms

variable {α β ε σ : Type}

/-- The cells reached from `head`: every cell is allocated and links to the
rest, and the last one links to nothing. -/
def Chain (next : α → Option (Option α)) : Option α → List α → Prop
  | head,[] => head=none
  | head,a::cells => head=some a ∧ ∃ rest,next a=some rest ∧ Chain next rest cells

section Chains

variable {next next' : α → Option (Option α)} {head rest : Option α} {a : α} {cells : List α}

theorem Chain.nil : Chain next none [] := rfl

theorem Chain.cons (ha : next a=some rest) (h : Chain next rest cells) :
    Chain next (some a) (a::cells) := ⟨rfl,rest,ha,h⟩

theorem chain_none : Chain next none cells ↔ cells=[] := by
  cases cells with
  | nil => simp [Chain]
  | cons b cells => simp [Chain]

/-- A nonempty chain starts with its head cell and continues behind it. -/
theorem chain_some : Chain next (some a) cells ↔
    ∃ rest tail,cells=a::tail ∧ next a=some rest ∧ Chain next rest tail := by
  cases cells with
  | nil => simp [Chain]
  | cons b cells =>
    simp only [Chain,Option.some.injEq,List.cons.injEq]
    constructor
    · rintro ⟨rfl,rest,hn,hc⟩
      exact ⟨rest,cells,⟨rfl,rfl⟩,hn,hc⟩
    · rintro ⟨rest,tail,⟨rfl,rfl⟩,hn,hc⟩
      exact ⟨rfl,rest,hn,hc⟩

/-- The links determine the chain of a head pointer. -/
theorem Chain.unique {cells' : List α} (h : Chain next head cells)
    (h' : Chain next head cells') : cells=cells' := by
  induction cells generalizing head cells' with
  | nil =>
    rw [show head=none from h,chain_none] at h'
    exact h'.symm
  | cons a cells ih =>
    obtain ⟨rfl,rest,hn,hc⟩ := h
    obtain ⟨rest',tail,rfl,hn',hc'⟩ := chain_some.mp h'
    rw [hn,Option.some.injEq] at hn'
    rw [ih hc (hn' ▸ hc')]

/-- Links that agree on the cells of a chain have the same chain. -/
theorem Chain.congr (h : Chain next head cells) (he : ∀ a∈cells,next' a=next a) :
    Chain next' head cells := by
  induction cells generalizing head with
  | nil => exact h
  | cons a cells ih =>
    obtain ⟨rfl,rest,hn,hc⟩ := h
    exact .cons ((he a (List.mem_cons_self)).trans hn)
      (ih hc fun b hb => he b (List.mem_cons_of_mem _ hb))

/-- Every cell of a chain is allocated. -/
theorem Chain.allocated (h : Chain next head cells) {a : α} (ha : a∈cells) :
    ∃ rest,next a=some rest := by
  induction cells generalizing head with
  | nil => simp at ha
  | cons b cells ih =>
    obtain ⟨-,rest,hn,hc⟩ := h
    rcases List.mem_cons.mp ha with rfl|hb
    · exact ⟨rest,hn⟩
    · exact ih hc hb

/-- From any cell of a chain its links lead to a proper end part of it. -/
theorem Chain.from_mem (h : Chain next head cells) {a : α} (ha : a∈cells) :
    ∃ tail,Chain next (some a) (a::tail) ∧ (a::tail).length≤cells.length := by
  induction cells generalizing head with
  | nil => simp at ha
  | cons b cells ih =>
    obtain ⟨-,rest,hn,hc⟩ := h
    rcases List.mem_cons.mp ha with rfl|hb
    · exact ⟨cells,.cons hn hc,le_rfl⟩
    · obtain ⟨tail,ht,hl⟩ := ih hc hb
      exact ⟨tail,ht,hl.trans (by simp)⟩

/-- No cell occurs twice: a repeated cell would make the chain longer than itself. -/
theorem Chain.nodup (h : Chain next head cells) : cells.Nodup := by
  induction cells generalizing head with
  | nil => exact List.nodup_nil
  | cons a cells ih =>
    obtain ⟨-,rest,hn,hc⟩ := h
    refine List.nodup_cons.mpr ⟨fun ha => ?_,ih hc⟩
    obtain ⟨tail,ht,hl⟩ := hc.from_mem ha
    have he := ht.unique (Chain.cons hn hc)
    rw [he,List.length_cons] at hl
    omega

/-- Cells numbered below a bound make a chain no longer than that bound. -/
theorem Chain.length_le {next : ℕ → Option (Option ℕ)} {head : Option ℕ} {cells : List ℕ} {n : ℕ}
    (h : Chain next head cells) (hb : ∀ a∈cells,a<n) : cells.length≤n := by
  have hs : cells.toFinset⊆Finset.range n := by
    intro a ha
    exact Finset.mem_range.mpr (hb a (List.mem_toFinset.mp ha))
  have hc := Finset.card_le_card hs
  rwa [List.toFinset_card_of_nodup h.nodup,Finset.card_range] at hc

/-- A list without repetition splits at an element in one way. -/
theorem front_unique {front back front' back' : List α} (hn : (front++a::back).Nodup)
    (h : front++a::back=front'++a::back') : front=front' := by
  have hfront : a∉front := fun hm => List.disjoint_of_nodup_append hn hm List.mem_cons_self
  have hback : a∉back := (List.nodup_cons.mp hn.of_append_right).1
  exact ((List.append_cons_inj_of_notMem hfront hback).mp h).1

/-- The head pointer leads to the first cell. -/
theorem Chain.eq_head (h : Chain next head cells) : head=cells.head? := by
  cases cells with
  | nil => exact h
  | cons a cells => exact h.1

/-- The links lead from any cell to the one behind it. -/
theorem Chain.next_mem {front back : List α} (h : Chain next head (front++a::back)) :
    next a=some back.head? ∧ Chain next back.head? back := by
  induction front generalizing head with
  | nil =>
    have hc : Chain next head (a::back) := h
    obtain ⟨-,rest,hn,hc⟩ := hc
    have hrest := hc.eq_head
    exact ⟨hrest ▸ hn,hrest ▸ hc⟩
  | cons b front ih =>
    have hc : Chain next head (b::(front++a::back)) := h
    obtain ⟨-,rest,-,hc⟩ := hc
    exact ih hc

/-- A cell is taken out by linking the one before it to the one behind it. -/
theorem Chain.unlink [DecidableEq α] {front back : List α} {p : α}
    (h : Chain next head (front++p::a::back)) :
    Chain (Function.update next p (some back.head?)) head (front++p::back) := by
  have hnodup := h.nodup
  induction front generalizing head with
  | nil =>
    have hp : p∉back := fun hm => (List.nodup_cons.mp hnodup).1 (List.mem_cons_of_mem _ hm)
    have hc : Chain next head ([p]++a::back) := h
    have hback := hc.next_mem.2
    have hkept : Chain (Function.update next p (some back.head?)) back.head? back :=
      hback.congr fun b hb => Function.update_of_ne (ne_of_mem_of_not_mem hb hp) _ _
    rw [hc.1]
    exact .cons (Function.update_self _ _ _) hkept
  | cons b front ih =>
    have hc : Chain next head (b::(front++p::a::back)) := h
    obtain ⟨hb,rest,hn,hc⟩ := hc
    have hbp : b≠p := fun he => (List.nodup_cons.mp hnodup).1 (by simp [he])
    have hrest := ih hc (List.nodup_cons.mp hnodup).2
    rw [hb]
    exact .cons ((Function.update_of_ne hbp _ _).trans hn) hrest

end Chains

/-- `while (cur) { if (test(cur)) { found = cur; break; } cur = cur->next; }`,
faulting with `out` when the bound on the turns is used up. -/
def scan (load : α → EStateM ε σ β) (next : β → Option α) (test : β → Bool) (out : ε) :
    ℕ → Option α → EStateM ε σ (Option α)
  | _,none => pure none
  | 0,some _ => throw out
  | bound+1,some a => do
    let cell ← load a
    if test cell then pure (some a) else scan load next test out bound (next cell)

/-- `while (cur) { body(cur); cur = cur->next; }`, with the same bound. -/
def visit (load : α → EStateM ε σ β) (next : β → Option α) (body : α → EStateM ε σ Unit)
    (out : ε) : ℕ → Option α → EStateM ε σ Unit
  | _,none => pure ()
  | 0,some _ => throw out
  | bound+1,some a => do
    body a
    let cell ← load a
    visit load next body out bound (next cell)

section Loops

variable {load : α → EStateM ε σ β} {next : β → Option α} {out : ε}
variable {head : Option α} {cells : List α} {bound : ℕ} {s : σ}

/-- A search over a chain whose cells load without effect finds the first
cell that passes the test, and leaves the state alone. -/
theorem scan_chain {test : β → Bool} {cell : α → β}
    (hload : ∀ a∈cells,load a s=.ok (cell a) s)
    (hc : Chain (fun a => some (next (cell a))) head cells) (hb : cells.length≤bound) :
    scan load next test out bound head s=.ok (cells.find? (test ∘ cell)) s := by
  induction cells generalizing head bound with
  | nil =>
    rw [show head=none from hc]
    cases bound <;> rfl
  | cons a cells ih =>
    obtain ⟨rfl,rest,hn,hc⟩ := hc
    obtain ⟨bound,rfl⟩ : ∃ k,bound=k+1 := ⟨bound-1,by simp at hb; omega⟩
    have hrest : next (cell a)=rest := Option.some.inj hn
    simp only [scan,bind_apply,hload a (List.mem_cons_self),List.find?_cons,Function.comp_apply]
    cases test (cell a) with
    | true => rfl
    | false =>
      rw [hrest]
      exact ih (fun b hb => hload b (List.mem_cons_of_mem _ hb)) hc (by simpa using hb)

/-- A visit of a chain handles its cells in order: the invariant is indexed by
the cells already visited, and the links of the chain stay as they are. -/
theorem visit_rule {body : α → EStateM ε σ Unit} {E : ε → σ → Prop} (links : α → Option α)
    (I : List α → σ → Prop)
    (hload : ∀ done t,I done t → ∀ a∈cells,∃ cell,load a t=.ok cell t ∧ next cell=links a)
    (hbody : ∀ done a todo,cells=done++a::todo →
      Ensures (I done) (body a) (fun _ => I (done++[a])) E)
    (hc : Chain (fun a => some (links a)) head cells) (hb : cells.length≤bound) :
    Ensures (I []) (visit load next body out bound head) (fun _ => I cells) E := by
  suffices hgen : ∀ todo done head bound,cells=done++todo →
      Chain (fun a => some (links a)) head todo → todo.length≤bound →
      Ensures (I done) (visit load next body out bound head) (fun _ => I cells) E from
    hgen cells [] head bound rfl hc hb
  intro todo
  induction todo with
  | nil =>
    intro done head bound hsplit hc _
    rw [show head=none from hc,hsplit,List.append_nil]
    cases bound with
    | zero => exact Ensures.pure fun _ hs => hs
    | succ bound => exact Ensures.pure fun _ hs => hs
  | cons a todo ih =>
    intro done head bound hsplit hc hb
    obtain ⟨rfl,rest,hn,hc⟩ := hc
    obtain ⟨bound,rfl⟩ : ∃ k,bound=k+1 := ⟨bound-1,by simp at hb; omega⟩
    refine (hbody done a todo hsplit).bind fun _ t ht => ?_
    obtain ⟨cell,hl,hnext⟩ := hload _ t ht a (by simp [hsplit])
    rw [bind_of_ok hl,hnext.trans (Option.some.inj hn)]
    exact ih (done++[a]) rest bound (by simp [hsplit]) hc (by simpa using hb) t ht

/-- A search keeps what loading a cell keeps. -/
theorem keeps_scan {γ : Type} {part : σ → γ} (hload : ∀ a,Keeps part (load a)) (test : β → Bool)
    (bound : ℕ) (head : Option α) : Keeps part (scan load next test out bound head) := by
  induction bound generalizing head with
  | zero =>
    cases head with
    | none => exact keeps_pure none
    | some a => exact keeps_throw out
  | succ bound ih =>
    cases head with
    | none => exact keeps_pure none
    | some a => exact (hload a).bind fun cell => (keeps_pure (some a)).ite (ih _)

/-- A visit keeps what loading a cell and its body keep. -/
theorem keeps_visit {γ : Type} {part : σ → γ} {body : α → EStateM ε σ Unit}
    (hload : ∀ a,Keeps part (load a)) (hbody : ∀ a,Keeps part (body a)) (bound : ℕ)
    (head : Option α) : Keeps part (visit load next body out bound head) := by
  induction bound generalizing head with
  | zero =>
    cases head with
    | none => exact keeps_pure ()
    | some a => exact keeps_throw out
  | succ bound ih =>
    cases head with
    | none => exact keeps_pure ()
    | some a => exact (hbody a).bind fun _ => (hload a).bind fun cell => ih _

end Loops

end SerialProxy.LinkedCells
