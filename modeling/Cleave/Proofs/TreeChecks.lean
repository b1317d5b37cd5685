import Cleave.Proofs.DisjointSets
import Cleave.Proofs.Tables

/-!
# What the checks of tree decompositions ask for

`TreeDecomposition.verify` passes exactly if the tree edges can be joined one
by one and every vertex and edge passes its own check (`verify_eq_ok_iff`).
Edges that all lead upwards, from every bag at most one, can always be joined:
the bag an edge starts from is still a root when its turn comes
(`checkForest_upward`).
-/

namespace Cleave

/-! ## Joining upward edges -/

namespace TreeDecomposition

/-- **Upward edges form a forest**, by induction on the edges left: every set
has a root further up, and the bags they start from are roots. -/
theorem checkForest_upward {size : Nat} {f : Forest} {rank rep : Nat → Nat}
    {edges : List (Nat × Nat)} (h : Forest.Represents f rank rep) (hsize : f.size = size)
    (hstarts : edges.Pairwise (·.1 < ·.1)) (hedges : ∀ e ∈ edges, e.1 < e.2 ∧ e.2 < size)
    (hup : ∀ i, i ≤ rep i) (hroots : ∀ e ∈ edges, rep e.1 = e.1) :
    ∃ f', checkForest size f edges = .ok f' := by
  induction edges generalizing f rank rep with
  | nil => exact ⟨f, rfl⟩
  | cons e edges ih =>
    obtain ⟨a, b⟩ := e
    obtain ⟨hlater, hstarts⟩ := List.pairwise_cons.mp hstarts
    obtain ⟨hab, hb⟩ : a < b ∧ b < size := hedges (a, b) List.mem_cons_self
    have ha : rep a = a := hroots (a, b) List.mem_cons_self
    have hbrep := hup b
    unfold checkForest
    rw [if_neg (by omega), if_neg (by omega)]
    rcases h.join?_spec (a := a) (b := b) (by omega) (by omega)
      with ⟨hsame, -⟩ | ⟨-, f', rank', hjoin, hsize', h'⟩
    · omega
    · rw [hjoin]
      refine ih h' (hsize'.trans hsize) hstarts (fun e he => hedges e (List.mem_cons_of_mem _ he))
        (fun i => ?_) fun e he => ?_
      · have hi := hup i
        split <;> omega
      · have hlt : a < e.1 := hlater e he
        have hroot := hroots e (List.mem_cons_of_mem _ he)
        rw [if_neg (by omega)]
        exact hroot

/-! ## The checks one by one -/

variable {d : TreeDecomposition} {v w : Var}

/-- A bag is listed for a variable if it holds it. -/
theorem mem_bagsOf {i : Nat} : i ∈ d.bagsOf v ↔ i < d.bags.size ∧ v ∈ d.bag i := by
  unfold bagsOf
  rw [List.mem_flatMap]
  constructor
  · rintro ⟨j, hj, hi⟩
    obtain ⟨hcount, rfl⟩ := List.mem_replicate.mp hi
    refine ⟨List.mem_range.mp hj, ?_⟩
    obtain ⟨u, hu, heq⟩ := List.countP_pos_iff.mp (Nat.pos_of_ne_zero hcount)
    exact of_decide_eq_true heq ▸ hu
  · rintro ⟨hi, hv⟩
    refine ⟨i, List.mem_range.mpr hi, List.mem_replicate.mpr ⟨?_, rfl⟩⟩
    exact Nat.ne_of_gt (List.countP_pos_iff.mpr ⟨v, hv, decide_eq_true rfl⟩)

/-- Without repetitions, every bag is listed once. -/
theorem bagsOf_of_nodup (hnodup : ∀ i, (d.bag i).Nodup) :
    d.bagsOf v = (List.range d.bags.size).filter fun i => (d.bag i).contains v := by
  have honce : ∀ i, List.replicate ((d.bag i).countP (· = v)) i
      = if (d.bag i).contains v then [i] else [] := fun i => by
    have hcount : (d.bag i).countP (· = v) = (d.bag i).count v :=
      List.countP_congr fun u _ => by simp
    rw [hcount, (hnodup i).count]
    by_cases hv : v ∈ d.bag i
    · rw [if_pos hv, if_pos (List.contains_iff_mem.mpr hv)]
      rfl
    · rw [if_neg hv, if_neg (mt List.contains_iff_mem.mp hv)]
      rfl
  unfold bagsOf
  simp only [honce]
  induction List.range d.bags.size with
  | nil => rfl
  | cons i rest ih =>
    rw [List.flatMap_cons, ih, List.filter_cons]
    split <;> rfl

/-- A loop that goes on or fails passes if it goes on everywhere. -/
theorem forIn_eq_ok_iff {α : Type} {l : List α}
    {body : α → PUnit → Except DecompositionFault (ForInStep PUnit)}
    (hbody : ∀ x ∈ l, body x ⟨⟩ = .ok (.yield ⟨⟩) ∨ ∃ e, body x ⟨⟩ = .error e) :
    forIn l PUnit.unit body = .ok ⟨⟩ ↔ ∀ x ∈ l, body x ⟨⟩ = .ok (.yield ⟨⟩) := by
  induction l with
  | nil => exact iff_of_true rfl fun _ hx => absurd hx List.not_mem_nil
  | cons x l ih =>
    rw [List.forIn_cons, List.forall_mem_cons]
    rcases hbody x List.mem_cons_self with hx | ⟨e, hx⟩
    · rw [hx, ← ih fun y hy => hbody y (List.mem_cons_of_mem _ hy)]
      exact ⟨fun h => ⟨rfl, h⟩, fun h => h.2⟩
    · rw [hx]
      exact iff_of_false (fun h => nomatch h) fun h => nomatch h.1

/-- One check: it throws if something is wrong. -/
theorem check_cases (wrong : Bool) (fault : DecompositionFault) :
    let check : Except DecompositionFault (ForInStep PUnit) :=
      if wrong = true then do
        throw fault
        pure (ForInStep.yield PUnit.unit)
      else pure (ForInStep.yield PUnit.unit)
    (check = .ok (.yield ⟨⟩) ∨ ∃ e, check = .error e) ∧ (check = .ok (.yield ⟨⟩) ↔ wrong = false) := by
  cases wrong with
  | true => exact ⟨Or.inr ⟨fault, rfl⟩, iff_of_false (fun h => nomatch h) Bool.noConfusion⟩
  | false => exact ⟨Or.inl rfl, iff_of_true rfl rfl⟩

theorem bind_unit_eq_ok {x : Except DecompositionFault PUnit} {y : Except DecompositionFault Unit} :
    (x >>= fun _ => y) = .ok () ↔ x = .ok ⟨⟩ ∧ y = .ok () := by
  rw [Except.bind_eq_ok]
  exact ⟨fun ⟨_, hx, hy⟩ => ⟨hx, hy⟩, fun ⟨hx, hy⟩ => ⟨⟨⟩, hx, hy⟩⟩

/-- A loop inside a loop. -/
theorem goesOn_cases (r : Except DecompositionFault PUnit.{1}) :
    let whole : Except DecompositionFault (ForInStep PUnit.{1}) :=
      r >>= fun _ => pure (ForInStep.yield ⟨⟩)
    (whole = .ok (.yield ⟨⟩) ∨ ∃ e, whole = .error e) ∧ (whole = .ok (.yield ⟨⟩) ↔ r = .ok ⟨⟩) := by
  cases r with
  | error e => exact ⟨Or.inr ⟨e, rfl⟩, iff_of_false (fun h => nomatch h) fun h => nomatch h⟩
  | ok u => exact ⟨Or.inl rfl, iff_of_true rfl rfl⟩

/-- The checks of the edges at a vertex. -/
theorem edgeChecks_cases (d : TreeDecomposition) (v : Var) (bags : List Nat) (ws : List Var) :
    let checks : Except DecompositionFault (ForInStep PUnit.{1}) := do
      forIn ws PUnit.unit fun w _ =>
        if (decide (v.index < w.index) && !d.covers bags w) = true then do
          throw (DecompositionFault.uncoveredEdge v w)
          pure (ForInStep.yield PUnit.unit)
        else pure (ForInStep.yield PUnit.unit)
      pure (ForInStep.yield PUnit.unit)
    (checks = .ok (.yield ⟨⟩) ∨ ∃ e, checks = .error e)
      ∧ (checks = .ok (.yield ⟨⟩) ↔ ∀ w ∈ ws, v.index < w.index → d.covers bags w = true) := by
  intro checks
  let check (w : Var) (_ : PUnit.{1}) : Except DecompositionFault (ForInStep PUnit.{1}) :=
    if (decide (v.index < w.index) && !d.covers bags w) = true then do
      throw (DecompositionFault.uncoveredEdge v w)
      pure (ForInStep.yield PUnit.unit)
    else pure (ForInStep.yield PUnit.unit)
  have hloop : forIn ws PUnit.unit check = .ok ⟨⟩ ↔ ∀ w ∈ ws, check w ⟨⟩ = .ok (.yield ⟨⟩) :=
    forIn_eq_ok_iff fun w _ => (check_cases _ _).1
  have hall : (∀ w ∈ ws, v.index < w.index → d.covers bags w = true)
      ↔ ∀ w ∈ ws, (decide (v.index < w.index) && !d.covers bags w) = false :=
    forall₂_congr fun w _ => by
      cases d.covers bags w <;> simp
  have hpass := hloop.trans ((forall₂_congr fun w _ => (check_cases _ _).2).trans hall.symm)
  exact ⟨(goesOn_cases _).1, (goesOn_cases _).2.trans hpass⟩

/-- **What verifying asks for.** -/
theorem verify_eq_ok_iff {g : Graph} : d.verify g = .ok () ↔
    (∃ f, checkForest d.bags.size (Forest.singletons d.bags.size) d.edges = .ok f)
      ∧ (∀ v ∈ g.vertices, d.bagsOf v ≠ [])
      ∧ (∀ v ∈ g.vertices, ∀ w ∈ g.neighbours v, v.index < w.index →
          d.covers (d.bagsOf v) w = true)
      ∧ ∀ v ∈ g.vertices, d.connects (d.bagsOf v) = true := by
  have hbagged : ∀ {P : Var × List Nat → Prop},
      (∀ x ∈ g.vertices.map fun v => (v, d.bagsOf v), P x) ↔ ∀ v ∈ g.vertices, P (v, d.bagsOf v) :=
    List.forall_mem_map
  unfold verify
  rw [Except.bind_eq_ok, ← exists_and_right]
  refine exists_congr fun f => and_congr_right fun _ => ?_
  simp only
  rw [bind_unit_eq_ok, bind_unit_eq_ok, bind_unit_eq_ok,
    forIn_eq_ok_iff fun x _ => (check_cases _ _).1,
    forIn_eq_ok_iff fun x _ => (edgeChecks_cases d _ _ _).1,
    forIn_eq_ok_iff fun x _ => (check_cases _ _).1, hbagged, hbagged, hbagged]
  refine and_congr (forall₂_congr fun v _ => ?_) (and_congr (forall₂_congr fun v _ => ?_)
    ((and_iff_left rfl).trans (forall₂_congr fun v _ => ?_)))
  · exact (check_cases _ _).2.trans List.isEmpty_eq_false_iff
  · exact (edgeChecks_cases d v _ _).2
  · exact (check_cases _ _).2.trans (by simp)

end TreeDecomposition

end Cleave
