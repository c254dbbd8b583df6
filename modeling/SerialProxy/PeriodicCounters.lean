import Mathlib.Data.Int.Notation
import Mathlib.Data.Nat.Notation
import Mathlib.Tactic.Ring

/-!
# Multiples of a period on a counter that wraps

A counter starts at zero, is incremented at every turn and wraps around a range
of which one half is negative. The turns at which it stands at a multiple of a
period follow each other in steps of the period, up to the wrap. Behind the wrap
they do so as well exactly when the period divides the range.
-/

namespace SerialProxy.PeriodicCounters

/-- The counter at a turn. -/
def counterAt (half i : ℕ) : ℤ := (i : ℤ).bmod (2*half)

/-- At this turn the counter is a multiple of the period. -/
def Hits (half period i : ℕ) : Prop := (period : ℤ) ∣ counterAt half i

/-- The first turn behind the wrap at which the counter is a multiple of the period. -/
def resumesAt (half period : ℕ) : ℕ := 2*half-period*(half/period)

/-- Neighbours among the turns with a property are one period apart. -/
def Spaced (p : ℕ → Prop) (period bound : ℕ) : Prop :=
  ∀ i j,i<j → j<bound → p i → p j → (∀ k,i<k → k<j → ¬ p k) → j=i+period

/-- No turn without a property is further behind the last turn with it than is allowed. -/
def Prompt (p : ℕ → Prop) (bound : ℕ) (allowed : ℕ → Prop) : Prop :=
  ∀ i j,i<j → j<bound → p i → ¬ p j → (∀ k,i<k → k<j → ¬ p k) → allowed (j-i)

section Spacing

variable {p q : ℕ → Prop} {period bound i j : ℕ}

/-- Spacing depends on the turns before the bound only. -/
theorem Spaced.congr (h : Spaced p period bound) (he : ∀ i<bound,(q i ↔ p i)) :
    Spaced q period bound := by
  intro i j hij hj hi hqj hgap
  refine h i j hij hj ((he i (hij.trans hj)).mp hi) ((he j hj).mp hqj) fun k hik hkj hk => ?_
  exact hgap k hik hkj ((he k (hkj.trans hj)).mpr hk)

/-- Multiples of the period that go on until the last one are spaced by it. -/
theorem spaced_of_multiples (hmul : ∀ i<bound,p i → period ∣ i)
    (hfull : ∀ i j,i<j → j<bound → p j → period ∣ i → p i) : Spaced p period bound := by
  intro i j hij hj hi hpj hgap
  have hdi := hmul i (hij.trans hj) hi
  have hdj := hmul j hj hpj
  have hle : period≤j-i := Nat.le_of_dvd (by omega) (Nat.dvd_sub hdj hdi)
  by_contra hne
  have hlt : i+period<j := by omega
  have hpos : 0<period := by
    rcases Nat.eq_zero_or_pos period with rfl|hpos
    · have := Nat.eq_zero_of_zero_dvd hdj
      omega
    · exact hpos
  have hnext := hfull (i+period) j hlt hj hpj (Nat.dvd_add hdi (Nat.dvd_refl _))
  exact hgap (i+period) (by omega) hlt hnext

/-- The longest wait is that of the last turn before the second multiple, or of the last turn. -/
theorem prompt_multiples_iff {allowed : ℕ → Prop} (hpos : 0<period) (hzero : allowed 0)
    (hdown : ∀ m n,m≤n → allowed n → allowed m) :
    Prompt (period ∣ ·) bound allowed ↔ allowed (min bound period-1) := by
  constructor
  · intro h
    rcases Nat.eq_zero_or_pos (min bound period-1) with hnone|hlast
    · rw [hnone]
      exact hzero
    · have hbound : min bound period-1<bound := by omega
      have hperiod : min bound period-1<period := by omega
      refine h 0 (min bound period-1) hlast hbound (Nat.dvd_zero _) (fun hdvd => ?_)
        fun k hk hlt hdvd => ?_
      · exact absurd (Nat.le_of_dvd hlast hdvd) (not_le.mpr hperiod)
      · exact absurd (Nat.le_of_dvd hk hdvd) (not_le.mpr (hlt.trans hperiod))
  · intro h i j hij hj hi hnot hgap
    have hnear : j< i+period := by
      by_contra hfar
      have hnext : period ∣ i+period := Nat.dvd_add hi (Nat.dvd_refl _)
      rcases Nat.lt_or_ge (i+period) j with hlt|hge
      · exact hgap _ (by omega) hlt hnext
      · obtain rfl : i+period=j := by omega
        exact hnot hnext
    exact hdown _ _ (by omega) h

end Spacing

section Counter

variable {half period i n : ℕ}

theorem counterAt_of_lt (h : i<half) : counterAt half i=i := by
  apply Int.bmod_eq_of_le <;> omega

/-- Behind the wrap the counter is negative. -/
theorem counterAt_behind (hi : half ≤ i) (hlt : i<2*half) :
    counterAt half i=(i : ℤ)-(2*half : ℕ) := by
  have hrem : (i : ℤ)%((2*half : ℕ) : ℤ)=i := Int.emod_eq_of_lt (by omega) (by omega)
  rw [counterAt,Int.bmod_neg _ _ (by omega),hrem]

/-- The increment of the counter wraps to its value at the next turn. -/
theorem counterAt_succ (half i : ℕ) : (counterAt half i+1).bmod (2*half)=counterAt half (i+1) := by
  rw [counterAt,Int.bmod_add_bmod,counterAt]
  push_cast
  rfl

theorem hits_of_lt (h : i<half) : Hits half period i ↔ period ∣ i := by
  rw [Hits,counterAt_of_lt h,Int.natCast_dvd_natCast]

/-- A period that divides the range does not see the wrap. -/
theorem hits_of_dvd (h : period ∣ 2*half) : Hits half period i ↔ period ∣ i := by
  have hsplit := Int.bmod_add_bdiv (i : ℤ) (2*half)
  have hrange : (period : ℤ) ∣ ((2*half : ℕ) : ℤ)*(i : ℤ).bdiv (2*half) :=
    Dvd.dvd.mul_right (Int.natCast_dvd_natCast.mpr h) _
  rw [Hits,counterAt,← Int.natCast_dvd_natCast (m:=period) (n:=i)]
  constructor
  · intro hb
    rw [← hsplit]
    exact Int.dvd_add hb hrange
  · intro hi
    rw [← hsplit] at hi
    exact (Int.dvd_add_left hrange).mp hi

/-- The first multiple behind the wrap is in the negative half. -/
theorem resumesAt_bounds (hpos : 0<period) (hle : period≤half) :
    half≤resumesAt half period ∧ resumesAt half period<2*half := by
  have hmul : period*(half/period)≤half := Nat.mul_div_le half period
  have hquot : 0<half/period := Nat.div_pos hle hpos
  have hprod := Nat.mul_pos hpos hquot
  unfold resumesAt
  omega

theorem hits_resumesAt (hpos : 0<period) (hle : period≤half) :
    Hits half period (resumesAt half period) := by
  obtain ⟨hlow,hhigh⟩ := resumesAt_bounds hpos hle
  have hmul : period*(half/period)≤half := Nat.mul_div_le half period
  rw [Hits,counterAt_behind hlow hhigh]
  have hvalue : (resumesAt half period : ℤ)-(2*half : ℕ)=-((period*(half/period) : ℕ) : ℤ) := by
    unfold resumesAt
    omega
  rw [hvalue,Int.dvd_neg,Int.natCast_dvd_natCast]
  exact Nat.dvd_mul_right _ _

/-- There is no multiple between the wrap and the first one behind it. -/
theorem not_hits_of_lt_resumesAt (hpos : 0<period) (hle : period≤half) (hi : half ≤ i)
    (hlt : i<resumesAt half period) : ¬ Hits half period i := by
  have hhigh := (resumesAt_bounds hpos hle).2
  rw [Hits,counterAt_behind hi (by omega)]
  intro hdvd
  have hback : period ∣ 2*half-i := by
    rw [← Int.natCast_dvd_natCast,Int.natCast_sub (by omega),← Int.dvd_neg,Int.neg_sub]
    exact hdvd
  obtain ⟨c,hc⟩ := hback
  have hmul : period*(half/period)<period*c := by
    unfold resumesAt at hlt
    omega
  have hquot : half/period<c := Nat.lt_of_mul_lt_mul_left hmul
  have hnext := Nat.lt_mul_of_div_lt hquot hpos
  rw [Nat.mul_comm] at hnext
  omega

/-- The last multiple before the wrap. -/
theorem last_hit (hpos : 0<period) (hhalf : 0<half) :
    Hits half period (period*((half-1)/period)) ∧ period*((half-1)/period)<half ∧
      ∀ k,period*((half-1)/period)<k → k<half → ¬ Hits half period k := by
  have hmul : period*((half-1)/period)≤half-1 := Nat.mul_div_le (half-1) period
  refine ⟨(hits_of_lt (by omega)).mpr (Nat.dvd_mul_right _ _),by omega,fun k hk hlt hhit => ?_⟩
  obtain ⟨c,rfl⟩ := (hits_of_lt hlt).mp hhit
  have hquot : (half-1)/period<c := Nat.lt_of_mul_lt_mul_left hk
  have hnext := Nat.lt_mul_of_div_lt hquot hpos
  rw [Nat.mul_comm] at hnext
  omega

/-- The multiples before a bound are spaced by the period exactly when it divides the range or
the bound leaves out the first multiple behind the wrap. -/
theorem spaced_hits_iff (hpos : 0<period) (hle : period≤half) :
    Spaced (Hits half period) period n ↔ period ∣ 2*half ∨ n≤resumesAt half period := by
  obtain ⟨hlow,-⟩ := resumesAt_bounds hpos hle
  constructor
  · intro h
    by_contra hcon
    obtain ⟨hrange,hn⟩ := not_or.mp hcon
    have hhalf : 0<half := hpos.trans_le hle
    obtain ⟨hlast,hlt,hnone⟩ := last_hit hpos hhalf
    have hgap : ∀ k,period*((half-1)/period)<k → k<resumesAt half period →
        ¬ Hits half period k := by
      intro k hk hkr
      rcases Nat.lt_or_ge k half with hkh|hkh
      · exact hnone k hk hkh
      · exact not_hits_of_lt_resumesAt hpos hle hkh hkr
    have hjump := h _ _ (by omega) (by omega) hlast (hits_resumesAt hpos hle) hgap
    have hmul : period*(half/period)≤half := Nat.mul_div_le half period
    refine hrange ⟨half/period+(half-1)/period+1,?_⟩
    unfold resumesAt at hjump
    rw [Nat.mul_add,Nat.mul_add,Nat.mul_one]
    omega
  · rintro (hrange|hn)
    · refine spaced_of_multiples (fun i _ hi => (hits_of_dvd hrange).mp hi) ?_
      exact fun i j _ _ _ hi => (hits_of_dvd hrange).mpr hi
    · have hbefore : ∀ i<n,Hits half period i → i<half := by
        intro i hi hhit
        by_contra hge
        exact not_hits_of_lt_resumesAt hpos hle (by omega) (by omega) hhit
      refine spaced_of_multiples (fun i hi hhit => (hits_of_lt (hbefore i hi hhit)).mp hhit) ?_
      intro i j hij hj hhit hi
      have hjh := hbefore j hj hhit
      exact (hits_of_lt (by omega)).mpr hi

end Counter

end SerialProxy.PeriodicCounters
