import Cleave.Proofs.Tables
import Mathlib.Logic.Function.Iterate

/-!
# What happened to marks

Whatever calls marks have seen, the marked variables are those that were marked
after the last clear and not unmarked since. This is read off the calls alone
(`Marks.Standing`). A call changes which variables are marked just as it changes
which of them have a mark that stands (`Marks.Wf.isMarked_after`,
`Marks.standing_cons`), so both agree after any history
(`Marks.History.marked_standing`).

A history may be longer than there are stamps. Clearing goes through all of them
but the reserved one, and then starts again: after `0xffffffff` clears the current
stamp is the one it was (`Marks.Wf.current_clears`). By then the table was wiped
on the way, and no variable has that stamp.
-/

namespace Cleave.Marks

/-- A call on marks. -/
inductive Call where
  /-- Makes room for `count` variables. -/
  | resize (count : Nat)
  /-- Forgets all marks. -/
  | clear
  /-- Marks a variable. -/
  | mark (v : Var)
  /-- Removes the mark of a variable. -/
  | unmark (v : Var)
  /-- Asks whether a variable is marked. -/
  | isMarked (v : Var)

/-- The marks after a call. -/
def after (m : Marks) : Call → Marks
  | .resize count => m.resize count
  | .clear => m.clear
  | .mark v => (m.mark v).2
  | .unmark v => m.unmark v
  | .isMarked _ => m

/-- **The calls that marks admit**: room only grows, and variables are known. -/
def Admits (m : Marks) : Call → Prop
  | .resize count => m.stamps.size ≤ count
  | .clear => True
  | .mark v | .unmark v | .isMarked v => v.index < m.stamps.size

/-- **A history of marks**: room is made for `count` variables, then come the
calls. The last one stands first. -/
inductive History (count : Nat) : List Call → Marks → Prop
  | start : History count [] (empty.resize count)
  | call {calls : List Call} {m : Marks} {c : Call} :
      History count calls m → m.Admits c → History count (c :: calls) (m.after c)

/-- **A mark that stands**: the variable was marked, and since then neither were
all marks forgotten nor was its own one removed. -/
def Standing (calls : List Call) (v : Var) : Prop :=
  ∃ since before, calls = since ++ .mark v :: before ∧ .clear ∉ since ∧ .unmark v ∉ since

variable {m : Marks} {c : Call} {calls : List Call} {v : Var} {count : Nat}

/-! ## Marks that stand, call by call -/

theorem not_standing_nil : ¬ Standing [] v := fun ⟨since, before, heq, _⟩ =>
  List.append_ne_nil_of_right_ne_nil since (List.cons_ne_nil _ before) heq.symm

/-- **One more call** leaves a mark if it makes it, or if the mark stood and is not
taken away. -/
theorem standing_cons : Standing (c :: calls) v
    ↔ c = .mark v ∨ c ≠ .clear ∧ c ≠ .unmark v ∧ Standing calls v := by
  constructor
  · rintro ⟨since, before, heq, hclear, hunmark⟩
    cases since with
    | nil => exact Or.inl (List.cons.inj heq).1
    | cons d since =>
      obtain ⟨rfl, hcalls⟩ := List.cons.inj heq
      rw [List.mem_cons, not_or] at hclear hunmark
      exact Or.inr ⟨Ne.symm hclear.1, Ne.symm hunmark.1, since, before, hcalls, hclear.2,
        hunmark.2⟩
  · rintro (rfl | ⟨hclear, hunmark, since, before, rfl, hclears, hunmarks⟩)
    · exact ⟨[], calls, rfl, List.not_mem_nil, List.not_mem_nil⟩
    · exact ⟨c :: since, before, rfl, List.not_mem_cons_of_ne_of_not_mem (Ne.symm hclear) hclears,
        List.not_mem_cons_of_ne_of_not_mem (Ne.symm hunmark) hunmarks⟩

/-- Behind a clear no mark stands. -/
theorem not_standing_clear : ¬ Standing (.clear :: calls) v := fun h =>
  (standing_cons.mp h).elim Call.noConfusion fun hleft => hleft.1 rfl

/-! ## Marks, call by call -/

/-- **Every call keeps the stamps in order.** -/
theorem Wf.after (h : m.Wf) (hc : m.Admits c) : (m.after c).Wf := by
  cases c with
  | resize count => exact h.resize hc
  | clear => exact h.clear
  | mark v => exact h.mark v
  | unmark v => exact h.unmark v
  | isMarked v => exact h

/-- **What a call does to the marked variables**: it adds the one it marks, and
keeps every other one unless it unmarks it or forgets all. -/
theorem Wf.isMarked_after (h : m.Wf) (hc : m.Admits c) (v : Var) :
    (m.after c).isMarked v = true
      ↔ c = .mark v ∨ c ≠ .clear ∧ c ≠ .unmark v ∧ m.isMarked v = true := by
  cases c with
  | resize count => simp [Marks.after, h.isMarked_resize hc]
  | clear => simp [Marks.after, h.isMarked_clear]
  | mark w =>
    have hmark : (m.after (.mark w)).isMarked v = _ := isMarked_mark hc
    rw [hmark, Bool.or_eq_true, decide_eq_true_iff, or_comm, eq_comm]
    simp
  | unmark w =>
    have hunmark : (m.after (.unmark w)).isMarked v = _ := isMarked_unmark hc h.current
    rw [hunmark, Bool.and_eq_true, decide_eq_true_iff, and_comm, ne_comm]
    simp
  | isMarked w => simp [Marks.after]

/-- No call takes room away. -/
theorem size_le_after (hc : m.Admits c) : m.stamps.size ≤ (m.after c).stamps.size := by
  cases c with
  | resize count => exact Nat.le_trans hc (Nat.le_of_eq (VarTable.size_resize m.stamps hc).symm)
  | clear => exact Nat.le_of_eq (size_clear m).symm
  | mark v => exact Nat.le_of_eq (size_mark m v).symm
  | unmark v => exact Nat.le_of_eq (size_unmark m v).symm
  | isMarked v => exact Nat.le_refl _

/-! ## More clears than stamps -/

theorem toNat_current_clear (m : Marks) :
    m.clear.current.toNat = m.current.toNat % 0xffffffff + 1 := by
  have hmax := m.current.toNat_lt
  unfold clear
  split
  · rename_i hlast
    rw [hlast]
    rfl
  · rename_i hlast
    have hroom : m.current.toNat ≠ 0xffffffff := fun heq => hlast (UInt32.toNat_inj.mp heq)
    show (m.current + 1).toNat = _
    rw [UInt32.toNat_add, show (1 : UInt32).toNat = 1 from rfl]
    omega

/-- **Clearing goes round** through all stamps but the reserved one. -/
theorem Wf.toNat_current_clears (h : m.Wf) (n : Nat) : (Marks.clear^[n] m).current.toNat
    = (m.current.toNat - 1 + n) % 0xffffffff + 1 := by
  induction n with
  | zero =>
    have hmax := m.current.toNat_lt
    have hcurrent := h.toNat_current_ne_zero
    show m.current.toNat = _
    omega
  | succ n ih =>
    rw [Function.iterate_succ_apply', toNat_current_clear, ih]
    omega

/-- **The current stamp comes back** after as many clears as there are stamps to go through. -/
theorem Wf.current_clears (h : m.Wf) : (Marks.clear^[0xffffffff] m).current = m.current := by
  have hmax := m.current.toNat_lt
  have hcurrent := h.toNat_current_ne_zero
  refine UInt32.toNat_inj.mp ((h.toNat_current_clears 0xffffffff).trans ?_)
  omega

/-! ## Histories -/

namespace History

theorem wf (hist : History count calls m) : m.Wf := by
  induction hist with
  | start => exact wf_empty_resize count
  | call _ hc ih => exact ih.after hc

theorem le_size (hist : History count calls m) : count ≤ m.stamps.size := by
  induction hist with
  | start => exact Nat.le_of_eq (VarTable.size_resize empty.stamps (Nat.zero_le count)).symm
  | call _ hc ih => exact Nat.le_trans ih (size_le_after hc)

theorem clears (hist : History count calls m) (n : Nat) :
    History count (List.replicate n .clear ++ calls) (Marks.clear^[n] m) := by
  induction n with
  | zero => exact hist
  | succ n ih =>
    rw [Function.iterate_succ_apply']
    exact ih.call (c := .clear) trivial

/-- **The marked variables are those with a mark that stands**, call by call. -/
theorem isMarked_iff (hist : History count calls m) (v : Var) :
    m.isMarked v = true ↔ Standing calls v := by
  induction hist with
  | start =>
    rw [isMarked_empty_resize]
    exact iff_of_false Bool.false_ne_true not_standing_nil
  | call hist hc ih => rw [hist.wf.isMarked_after hc, standing_cons, ih]

/-- **Marks are a set of variables**, after any history of any length: a variable
is marked exactly if it was marked after the last clear and not unmarked since, and
marking it says that it is new exactly if it is not marked. -/
theorem marked_standing (hist : History count calls m) (v : Var) :
    (m.isMarked v = true ↔ Standing calls v)
      ∧ ((m.mark v).1 = true ↔ ¬ Standing calls v) := by
  have hmarked := hist.isMarked_iff v
  refine ⟨hmarked, ?_⟩
  rw [mark_fst, ← hmarked, Bool.not_eq_true', Bool.not_eq_true]

/-- The stamp of the first mark is current again when the second one is made. -/
theorem marked_standing_round : ∃ m,
    History 2 (.mark ⟨1⟩ :: (List.replicate 0xffffffff .clear ++ [.mark ⟨0⟩])) m
      ∧ m.current = (empty.resize 2).current
      ∧ (m.isMarked ⟨1⟩ = true ∧ (m.mark ⟨1⟩).1 = false)
      ∧ (m.isMarked ⟨0⟩ = false ∧ (m.mark ⟨0⟩).1 = true) := by
  -- the number of clears is kept as a variable, so that nobody counts up to it
  obtain ⟨n, hn⟩ : ∃ n, n = 0xfffffffe := ⟨_, rfl⟩
  rw [show 0xffffffff = n + 1 by omega]
  have hmark : History 2 [.mark ⟨0⟩] ((empty.resize 2).mark ⟨0⟩).2 :=
    start.call (c := .mark ⟨0⟩) (Nat.lt_of_lt_of_le Nat.zero_lt_two start.le_size)
  have hclears := hmark.clears (n + 1)
  have hist := hclears.call (c := .mark ⟨1⟩) hclears.le_size
  obtain ⟨hmarked₁, hnew₁⟩ := marked_standing hist ⟨1⟩
  obtain ⟨hmarked₀, hnew₀⟩ := marked_standing hist ⟨0⟩
  have hsecond : Standing (.mark ⟨1⟩ :: (List.replicate (n + 1) .clear ++ [.mark ⟨0⟩])) ⟨1⟩ :=
    standing_cons.mpr (Or.inl rfl)
  have hfirst : ¬ Standing (.mark ⟨1⟩ :: (List.replicate (n + 1) .clear ++ [.mark ⟨0⟩])) ⟨0⟩ :=
    fun h => (standing_cons.mp h).elim (by simp) fun hleft => not_standing_clear hleft.2.2
  refine ⟨_, hist, ?_, ⟨hmarked₁.mpr hsecond, ?_⟩, ?_, hnew₀.mpr hfirst⟩
  · have hround := hmark.wf.current_clears
    rw [show 0xffffffff = n + 1 by omega] at hround
    exact (current_mark _ _).trans (hround.trans (current_mark _ _))
  · exact Bool.eq_false_iff.mpr (mt hnew₁.mp (not_not_intro hsecond))
  · exact Bool.eq_false_iff.mpr (mt hmarked₀.mp hfirst)

end History

end Cleave.Marks
