import Mathlib.Data.List.Basic

/-!
# Folds over keyed items

Items with keys change a state that has a part for every key. When an item
changes the part of its key as it changes the whole, and leaves the parts of
other keys alone, a list of items makes of every part what the items of this
key alone make of it, and it fails exactly if the items of some key fail.
-/

namespace SerialProxy.KeyedFolds

variable {α κ σ : Type}

/-- Items change nothing but the part of their key, and that as if it were the whole. -/
structure ActsByKey (key : α → κ) (part : κ → σ → σ) (step : σ → α → Option σ)
    (admits : α → Prop) : Prop where
  /-- On the part of its key an item does what it does on the whole. -/
  own : ∀ s a,admits a → step (part (key a) s) a=(step s a).map (part (key a))
  /-- It leaves the other parts alone. -/
  other : ∀ s t a k,admits a → key a≠k → step s a=some t → part k t=part k s

variable [DecidableEq κ]

/-- The items of a key, in their order. -/
def itemsOf (key : α → κ) (k : κ) (items : List α) : List α := items.filter fun a => key a=k

section Parts

variable {key : α → κ} {part : κ → σ → σ} {step : σ → α → Option σ} {admits : α → Prop}
variable {items items' : List α} {a : α} {k : κ}

/-- An item of the key stays. -/
theorem itemsOf_own (key : α → κ) (a : α) (items : List α) :
    itemsOf key (key a) (a::items)=a::itemsOf key (key a) items :=
  List.filter_cons_of_pos (decide_eq_true rfl)

/-- An item of another key is dropped. -/
theorem itemsOf_other (h : key a≠k) : itemsOf key k (a::items)=itemsOf key k items :=
  List.filter_cons_of_neg (by simpa using h)

/-- The items of each key make its part, or those of one key fail. -/
theorem foldlM_parts (h : ActsByKey key part step admits) (hitems : ∀ a∈items,admits a) (s : σ) :
    match items.foldlM step s with
    | some t => ∀ k,(itemsOf key k items).foldlM step (part k s)=some (part k t)
    | none => ∃ k,(itemsOf key k items).foldlM step (part k s)=none := by
  induction items generalizing s with
  | nil => exact fun k => rfl
  | cons a items ih =>
    have ha := hitems a List.mem_cons_self
    have hown := h.own s a ha
    rw [List.foldlM_cons]
    cases hs : step s a with
    | none =>
      refine ⟨key a,?_⟩
      rw [itemsOf_own,List.foldlM_cons,hown,hs]
      rfl
    | some s' =>
      rw [hs] at hown
      -- the rest starts from the parts that the first item leaves
      have hfirst : ∀ k,(itemsOf key k (a::items)).foldlM step (part k s)=
          (itemsOf key k items).foldlM step (part k s') := by
        intro k
        by_cases hk : key a=k
        · subst hk
          rw [itemsOf_own,List.foldlM_cons,hown]
          rfl
        · rw [itemsOf_other hk,h.other s s' a k ha hk hs]
      simp only [hfirst]
      exact ih (fun b hb => hitems b (List.mem_cons_of_mem a hb)) s'

/-- How the items of different keys come between each other makes no difference to a part. -/
theorem foldlM_interleave (h : ActsByKey key part step admits) (hitems : ∀ a∈items,admits a)
    (hitems' : ∀ a∈items',admits a) (hsame : ∀ k,itemsOf key k items=itemsOf key k items')
    (s : σ) :
    match items.foldlM step s,items'.foldlM step s with
    | some t,some t' => ∀ k,part k t=part k t'
    | none,none => True
    | _,_ => False := by
  have hparts := foldlM_parts h hitems s
  have hparts' := foldlM_parts h hitems' s
  cases hx : items.foldlM step s with
  | none =>
    rw [hx] at hparts
    obtain ⟨k,hk⟩ := hparts
    cases hx' : items'.foldlM step s with
    | none => trivial
    | some t' =>
      rw [hx'] at hparts'
      rw [hsame k,hparts' k] at hk
      exact absurd hk (by simp)
  | some t =>
    rw [hx] at hparts
    cases hx' : items'.foldlM step s with
    | none =>
      rw [hx'] at hparts'
      obtain ⟨k,hk⟩ := hparts'
      rw [← hsame k,hparts k] at hk
      exact absurd hk (by simp)
    | some t' =>
      rw [hx'] at hparts'
      intro k
      have hk := hparts k
      rw [hsame k,hparts' k,Option.some.injEq] at hk
      exact hk.symm

end Parts

end SerialProxy.KeyedFolds
