import Cleave.Solver.Search
import Mathlib.Algebra.Order.Archimedean.Basic
import Mathlib.Algebra.Order.Field.Rat
import Mathlib.Data.Nat.Find

/-!
# Restart schedules

That a search ends depends on its restart schedule only in one way: the
intervals between restarts have to exceed some bound sooner or later. So a
schedule is taken here as any state with a function that counts a conflict and
says whether a restart is due. It *outgrows* a bound if from some conflict on two
restarts are further apart than that (`Outgrows`).

A schedule that waits for one interval after the other outgrows what its intervals
come to exceed (`outgrows_countdown`). With intervals that grow by an exact factor
above one that is every bound (`outgrows_geometric`). The schedule that the options
ask for multiplies floating-point numbers instead, and outgrows what these
exceed (`RestartSchedule.outgrows`); a conversion that overflows ends that
somewhere.
-/

namespace Cleave

section

variable {σ τ : Type} (tick : σ → Bool × σ) (start : σ)

/-- The schedule after a number of conflicts. -/
def scheduleAfter : Nat → σ
  | 0 => start
  | n + 1 => (tick (scheduleAfter n)).2

/-- Whether a restart is due at a conflict; the first one has number 0. -/
def RestartsAt (n : Nat) : Prop := (tick (scheduleAfter tick start n)).1 = true

/-- **A schedule that outgrows a bound**: from some conflict on, there are more
conflicts than that between two restarts. -/
def Outgrows (bound : Nat) : Prop :=
  ∃ m, ∀ i j, m ≤ i → i < j → RestartsAt tick start i → RestartsAt tick start j → i + bound < j

variable {tick start}

theorem scheduleAfter_add (m n : Nat) :
    scheduleAfter tick start (m + n) = scheduleAfter tick (scheduleAfter tick start m) n := by
  induction n with
  | zero => rfl
  | succ n ih => exact congrArg (fun r => (tick r).2) ih

theorem restartsAt_add {m n : Nat} :
    RestartsAt tick start (m + n) ↔ RestartsAt tick (scheduleAfter tick start m) n := by
  unfold RestartsAt
  rw [scheduleAfter_add]

/-- It is enough if a schedule outgrows the bound later on. -/
theorem Outgrows.of_later {m bound : Nat} (h : Outgrows tick (scheduleAfter tick start m) bound) :
    Outgrows tick start bound := by
  obtain ⟨m', h⟩ := h
  refine ⟨m + m', fun i j hi hij hri hrj => ?_⟩
  obtain ⟨i, rfl⟩ := Nat.exists_eq_add_of_le (Nat.le_of_add_right_le hi)
  obtain ⟨j, rfl⟩ := Nat.exists_eq_add_of_le (show m ≤ j by omega)
  have := h i j (by omega) (by omega) (restartsAt_add.mp hri) (restartsAt_add.mp hrj)
  omega

theorem scheduleAfter_map {tick' : τ → Bool × τ} {f : τ → σ}
    (hf : ∀ r, tick (f r) = ((tick' r).1, f (tick' r).2)) (r : τ) (n : Nat) :
    scheduleAfter tick (f r) n = f (scheduleAfter tick' r n) := by
  induction n with
  | zero => rfl
  | succ n ih =>
    show (tick (scheduleAfter tick (f r) n)).2 = _
    rw [ih, hf]
    rfl

/-- **The same schedule in another form** restarts at the same conflicts. -/
theorem restartsAt_map {tick' : τ → Bool × τ} {f : τ → σ}
    (hf : ∀ r, tick (f r) = ((tick' r).1, f (tick' r).2)) (r : τ) (n : Nat) :
    RestartsAt tick (f r) n ↔ RestartsAt tick' r n := by
  unfold RestartsAt
  rw [scheduleAfter_map hf, hf]

/-- The first restart that is due. -/
theorem exists_first_restart {n : Nat} (hn : RestartsAt tick start n) :
    ∃ m, RestartsAt tick start m ∧ m ≤ n ∧ ∀ i < m, ¬ RestartsAt tick start i := by
  classical
  have hany : ∃ m, RestartsAt tick start m := ⟨n, hn⟩
  exact ⟨Nat.find hany, Nat.find_spec hany, Nat.find_min' hany hn, fun i hi => Nat.find_min hany hi⟩

end

/-! ## One interval after the other -/

section

/-- **Waiting for intervals.** The state is how many conflicts there were since the
last restart and how many restarts; `reached` says whether so many conflicts reach
the interval with a number. -/
def countdown (reached : Nat → Nat → Bool) (r : Nat × Nat) : Bool × (Nat × Nat) :=
  if reached r.2 (r.1 + 1) then (true, (0, r.2 + 1)) else (false, (r.1 + 1, r.2))

variable {reached : Nat → Nat → Bool} {bound k : Nat} {r : Nat × Nat}

theorem countdown_of_due (h : (countdown reached r).1 = true) :
    reached r.2 (r.1 + 1) = true ∧ (countdown reached r).2 = (0, r.2 + 1) := by
  unfold countdown at *
  by_cases hreached : reached r.2 (r.1 + 1) = true
  · exact ⟨hreached, by rw [if_pos hreached]⟩
  · rw [if_neg hreached] at h
    cases h

theorem countdown_of_not_due (h : ¬ (countdown reached r).1 = true) :
    (countdown reached r).2 = (r.1 + 1, r.2) := by
  unfold countdown at *
  by_cases hreached : reached r.2 (r.1 + 1) = true
  · rw [if_pos hreached] at h
    exact absurd rfl h
  · rw [if_neg hreached]

/-- Restarts are never taken back. -/
theorem le_scheduleAfter (reached : Nat → Nat → Bool) (r : Nat × Nat) (n : Nat) :
    r.2 ≤ (scheduleAfter (countdown reached) r n).2 := by
  induction n with
  | zero => exact Nat.le_refl _
  | succ n ih =>
    show _ ≤ (countdown reached (scheduleAfter (countdown reached) r n)).2.2
    by_cases hdue : (countdown reached (scheduleAfter (countdown reached) r n)).1 = true
    · rw [(countdown_of_due hdue).2]
      exact Nat.le_succ_of_le ih
    · rw [countdown_of_not_due hdue]
      exact ih

/-- As long as no restart is due, conflicts are counted. -/
theorem scheduleAfter_of_calm (n : Nat) (hcalm : ∀ i < n, ¬ RestartsAt (countdown reached) r i) :
    scheduleAfter (countdown reached) r n = (r.1 + n, r.2) := by
  induction n with
  | zero => rfl
  | succ n ih =>
    have heq := ih fun i hi => hcalm i (Nat.lt_succ_of_lt hi)
    have hstep := countdown_of_not_due (hcalm n (Nat.lt_succ_self n))
    show (countdown reached (scheduleAfter (countdown reached) r n)).2 = _
    rw [hstep, heq]
    rfl

/-- **Intervals that exceed a bound throughout** keep restarts apart. -/
theorem lt_of_restartsAt (h : ∀ k, r.2 ≤ k → ∀ n ≤ bound, reached k n = false) {i j : Nat}
    (hij : i < j) (hi : RestartsAt (countdown reached) r i)
    (hj : RestartsAt (countdown reached) r j) : i + bound < j := by
  -- the next restart after the one at `i`
  obtain ⟨d, rfl⟩ := Nat.exists_eq_add_of_le hij
  obtain ⟨n, hn, hle, hcalm⟩ := exists_first_restart (restartsAt_add.mp hj)
  have hreset : scheduleAfter (countdown reached) r (i + 1) = _ := (countdown_of_due hi).2
  have hstate := scheduleAfter_of_calm n hcalm
  have hreached := (countdown_of_due hn).1
  rw [hstate, hreset] at hreached
  have hlong : ¬ 0 + n + 1 ≤ bound := fun hb => by
    rw [h _ (Nat.le_succ_of_le (le_scheduleAfter reached r i)) _ hb] at hreached
    cases hreached
  omega

/-- **A schedule outgrows what its intervals exceed** from some number on, by
induction on the restarts until then. -/
theorem outgrows_countdown (h : ∀ j, k ≤ j → ∀ n ≤ bound, reached j n = false) :
    Outgrows (countdown reached) r bound := by
  obtain ⟨d, hd⟩ : ∃ d, k ≤ r.2 + d := ⟨k, Nat.le_add_left _ _⟩
  induction d generalizing r with
  | zero =>
    exact ⟨0, fun i j _ hij hi hj =>
      lt_of_restartsAt (fun j hj => h j (Nat.le_trans hd hj)) hij hi hj⟩
  | succ d ih =>
    by_cases hany : ∃ n, RestartsAt (countdown reached) r n
    · -- behind the first restart there is one interval less to wait for
      obtain ⟨_, hdue⟩ := hany
      obtain ⟨n, hn, -, hcalm⟩ := exists_first_restart hdue
      have hreset : scheduleAfter (countdown reached) r (n + 1) = _ := (countdown_of_due hn).2
      rw [scheduleAfter_of_calm n hcalm] at hreset
      refine Outgrows.of_later (m := n + 1) ?_
      rw [hreset]
      exact ih (by show k ≤ r.2 + 1 + d; omega)
    · exact ⟨0, fun i _ _ _ hi _ => absurd ⟨i, hi⟩ hany⟩

/-- **Intervals that grow by a factor above one** come to exceed every bound. -/
theorem outgrows_geometric {interval growth : ℚ} (hinterval : 0 < interval) (hgrowth : 1 < growth)
    (bound : Nat) :
    Outgrows (countdown fun k n => decide (interval * growth ^ k ≤ n)) r bound := by
  obtain ⟨k, hk⟩ := pow_unbounded_of_one_lt ((bound : ℚ) / interval) hgrowth
  refine outgrows_countdown (k := k) fun j hj n hn => decide_eq_false (not_le.mpr ?_)
  calc (n : ℚ) ≤ bound := by exact_mod_cast hn
    _ < growth ^ k * interval := (div_lt_iff₀ hinterval).mp hk
    _ ≤ growth ^ j * interval :=
      mul_le_mul_of_nonneg_right (pow_le_pow_right₀ hgrowth.le hj) hinterval.le
    _ = interval * growth ^ j := mul_comm _ _

end

/-! ## The schedule of the options -/

namespace RestartSchedule

/-- The interval after a number of restarts. -/
def intervalAfter (r : RestartSchedule) : Nat → Float
  | 0 => r.interval
  | k + 1 => r.intervalAfter k * r.growth

/-- An interval that so many conflicts do not reach. -/
def Exceeds (interval : Float) (bound : Nat) : Prop := ∀ n ≤ bound, ¬ n.toFloat ≥ interval

instance (interval : Float) (bound : Nat) : Decidable (Exceeds interval bound) :=
  inferInstanceAs (Decidable (∀ n ≤ bound, ¬ n.toFloat ≥ interval))

/-- A schedule waits for its intervals one after the other. -/
theorem tick_countdown (r : RestartSchedule) (n k : Nat) :
    tick ⟨n, r.intervalAfter k, r.growth⟩
      = ((countdown (fun k n => decide (n.toFloat ≥ r.intervalAfter k)) (n, k)).1,
        let next := (countdown (fun k n => decide (n.toFloat ≥ r.intervalAfter k)) (n, k)).2
        ⟨next.1, r.intervalAfter next.2, r.growth⟩) := by
  unfold tick countdown
  simp only [decide_eq_true_iff]
  by_cases hdue : (n + 1).toFloat ≥ r.intervalAfter k
  · rw [if_pos hdue, if_pos hdue]
    rfl
  · rw [if_neg hdue, if_neg hdue]

/-- **The schedule of the options outgrows what its intervals exceed.** -/
theorem outgrows {r : RestartSchedule} {k bound : Nat}
    (h : ∀ j, k ≤ j → Exceeds (r.intervalAfter j) bound) : Outgrows tick r bound := by
  obtain ⟨m, hm⟩ : Outgrows (countdown fun k n => decide (n.toFloat ≥ r.intervalAfter k))
      (r.counter, 0) bound :=
    outgrows_countdown fun j hj n hn => decide_eq_false (h j hj n hn)
  have hsame : ∀ n, RestartsAt tick r n
      ↔ RestartsAt (countdown fun k n => decide (n.toFloat ≥ r.intervalAfter k)) (r.counter, 0) n :=
    restartsAt_map (fun x => r.tick_countdown x.1 x.2) (r.counter, 0)
  exact ⟨m, fun i j hi hij hri hrj => hm i j hi hij ((hsame i).mp hri) ((hsame j).mp hrj)⟩

end RestartSchedule

end Cleave
