import Cleave.Clause

/-!
# Incremental SAT procedures

The engine that computes backbones with assumptions does not care which SAT
procedure answers its questions, as long as the procedure is incremental:
variables and clauses are added one by one, each question asks for a model of all
clauses in which some literals are assumed, and the model that was found can be read
afterwards. `SatProcedure` is that interface. The literals are the procedure's own.

`splitting` is a procedure: it assigns the literals of unit clauses, and else
splits on a literal of a shortest clause.
-/

namespace Cleave

/-- An incremental SAT procedure. -/
structure SatProcedure where
  /-- What the procedure remembers. -/
  State : Type
  /-- The literals of its variables. -/
  Literal : Type
  [decEq : DecidableEq Literal]
  /-- The opposite of a literal. -/
  neg : Literal → Literal
  neg_neg : ∀ x, neg (neg x) = x
  neg_ne : ∀ x, neg x ≠ x
  /-- No variables and no clauses. -/
  start : State
  /-- Makes a variable, with its positive literal. -/
  addVariable : State → Literal × State
  /-- Adds a clause. -/
  addClause : State → List Literal → State
  /-- Tells whether the clauses have a model in which the given literals are true.
  A procedure may fail, with a reason. -/
  solve : State → List Literal → Except String (Bool × State)
  /-- The literals of the model found last, if there is one to read. -/
  model : State → Option (List Literal)

instance (P : SatProcedure) : DecidableEq P.Literal := P.decEq

/-! ## Splitting -/

namespace Splitting

/-- What is left of clauses once a literal is true: the clauses with it are
satisfied, its opposite is dropped from the others. -/
def assume (l : Lit) (cs : List Clause) : List Clause :=
  (cs.filter fun c => !c.contains l).map fun c => c.filter (· ≠ l.neg)

/-- The number of literals in all clauses. -/
def weight (cs : List Clause) : Nat := cs.foldr (fun c n => c.length + n) 0

/-- A shortest clause. -/
def shortest? : List Clause → Option Clause
  | [] => none
  | c :: rest => some (rest.foldl (fun best c => if c.length < best.length then c else best) c)

theorem weight_map_filter_le (p : Lit → Bool) (cs : List Clause) :
    weight (cs.map fun c => c.filter p) ≤ weight cs := by
  induction cs with
  | nil => simp [weight]
  | cons c rest ih =>
    have := List.length_filter_le p c
    simp [weight] at *
    omega

theorem weight_filter_le (p : Clause → Bool) (cs : List Clause) :
    weight (cs.filter p) ≤ weight cs := by
  induction cs with
  | nil => simp [weight]
  | cons c rest ih =>
    by_cases h : p c <;> simp [weight, h] at * <;> omega

/-- Assuming a literal never makes the clauses heavier. -/
theorem weight_assume_le (l : Lit) (cs : List Clause) : weight (assume l cs) ≤ weight cs :=
  Nat.le_trans (weight_map_filter_le _ _) (weight_filter_le _ _)

theorem length_filter_lt {l : Lit} {c : Clause} (h : l ∈ c) :
    (c.filter (· ≠ l)).length < c.length := by
  induction c with
  | nil => cases h
  | cons a rest ih =>
    by_cases ha : a = l
    · have := List.length_filter_le (fun x => decide (x ≠ l)) rest
      simp [ha] at *; omega
    · have hmem : l ∈ rest := by
        cases h with
        | head => exact absurd rfl ha
        | tail _ h => exact h
      have := ih hmem
      simp [ha] at *; omega

/-- Assuming a literal of a clause, or its opposite, makes the clauses
lighter. -/
theorem weight_assume_lt {l : Lit} {c : Clause} {cs : List Clause} (hc : c ∈ cs) (hl : l ∈ c) :
    weight (assume l cs) < weight cs ∧ weight (assume l.neg cs) < weight cs := by
  induction cs with
  | nil => cases hc
  | cons d rest ih =>
    have hle := weight_assume_le l rest
    have hle' := weight_assume_le l.neg rest
    have hcons : weight (d :: rest) = d.length + weight rest := by simp [weight]
    have step : ∀ m : Lit, weight (assume m (d :: rest)) =
        (if m ∈ d then 0 else (d.filter (· ≠ m.neg)).length) + weight (assume m rest) := by
      intro m
      by_cases hm : m ∈ d <;> simp [assume, weight, hm]
    rw [step l, step l.neg, hcons]
    have bound : ∀ m : Lit, (if m ∈ d then 0 else (d.filter (· ≠ m.neg)).length) ≤ d.length := by
      intro m
      split
      · omega
      · exact List.length_filter_le _ _
    rcases List.mem_cons.mp hc with heq | hc
    · subst heq
      have hpos : 0 < c.length := List.length_pos_of_mem hl
      have h1 : (if l ∈ c then 0 else (c.filter (· ≠ l.neg)).length) < c.length := by
        simp [hl, hpos]
      have h2 : (if l.neg ∈ c then 0 else (c.filter (· ≠ l.neg.neg)).length) < c.length := by
        split
        · exact hpos
        · rw [Lit.neg_neg]; exact length_filter_lt hl
      omega
    · have := ih hc
      have := bound l
      have := bound l.neg
      omega

theorem shortest?_mem {cs : List Clause} {c : Clause} (h : shortest? cs = some c) : c ∈ cs := by
  cases cs with
  | nil => cases h
  | cons d rest =>
    simp only [shortest?, Option.some.injEq] at h
    subst h
    have : ∀ (rest : List Clause) (d : Clause),
        rest.foldl (fun best c => if c.length < best.length then c else best) d ∈ d :: rest := by
      intro rest
      induction rest with
      | nil => intro d; simp
      | cons e rest ih =>
        intro d
        simp only [List.foldl_cons]
        split
        · exact List.mem_cons_of_mem _ (ih e)
        · have := ih d
          simp only [List.mem_cons] at this ⊢
          rcases this with h | h
          · exact Or.inl h
          · exact Or.inr (Or.inr h)
    exact this rest d

/-- A model of some clauses, as the literals assigned on the way. -/
def solve (cs : List Clause) : Option (List Lit) :=
  match h : shortest? cs with
  | none => some []
  | some [] => none
  | some (l :: rest) =>
    have := weight_assume_lt (shortest?_mem h) (List.mem_cons_self (a := l) (l := rest))
    match solve (assume l cs) with
    | some model => some (l :: model)
    | none =>
      -- a unit clause leaves no other choice
      if rest.isEmpty then none else (solve (assume l.neg cs)).map (l.neg :: ·)
termination_by weight cs
decreasing_by
  · exact this.1
  · exact this.2

/-- Gives a value to every literal's variable that has none yet. -/
def complete (lits model : List Lit) : List Lit :=
  lits.foldl (fun model l => if model.any (·.var = l.var) then model else l.var.pos :: model) model

/-- What splitting remembers. -/
structure State where
  /-- The clauses, latest first. -/
  clauses : List Clause := []
  /-- The number of variables. -/
  varCount : Nat := 0
  /-- The model found last. -/
  model : Option (List Lit) := none

/-- Looks for a model in which some literals are true. -/
def search (st : State) (assumptions : List Lit) : Option (List Lit) :=
  (solve (assumptions.map (fun l => [l]) ++ st.clauses)).map
    (complete (assumptions ++ st.clauses.flatten))

end Splitting

/-- The procedure that splits on literals of shortest clauses. -/
def splitting : SatProcedure where
  State := Splitting.State
  Literal := Lit
  neg := Lit.neg
  neg_neg := Lit.neg_neg
  neg_ne l h := absurd (congrArg Lit.positive h) (by simp [Lit.neg])
  start := {}
  addVariable st := (Var.pos ⟨st.varCount⟩, { st with varCount := st.varCount + 1 })
  addClause st c := { st with clauses := c :: st.clauses }
  solve st assumptions :=
    let model := Splitting.search st assumptions
    .ok (model.isSome, { st with model := model })
  model st := st.model

end Cleave
