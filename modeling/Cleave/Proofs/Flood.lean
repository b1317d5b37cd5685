import Cleave.Component.Decompose
import Cleave.Graph.Primal
import Cleave.Proofs.Invariant

/-!
# The flood fill reaches a connected piece

Two open variables of a component are linked if an active clause of the
component or a given binary clause has both (`Solver.Linked`), and connected
if a chain of links leads from one to the other (`Solver.Connected`).

A fill takes variables and clauses off the tables of what is still awaited.
`Solver.Fills` says what it has at any moment: everything that is not awaited
any more, once each, and only variables connected with the root. A variable
that left the stack has been followed (`Solver.Followed`), so once the stack is
empty the piece is a whole one (`Solver.fillFrom_spec`). It does not matter
which index lists the clauses of a variable: no clause is misfiled
(`Solver.Sound.filedLits_eq`), so either traversal comes through.
-/

namespace Cleave

namespace Solver

variable {F : List Clause} {s : Solver} {c : Component} {root v w : Var} {id : ClauseId}

/-! ## Links -/

/-- An open variable of a component. -/
def OpenIn (s : Solver) (c : Component) (v : Var) : Prop :=
  v ∈ c.vars ∧ s.trail.isAssigned v = false

/-- An active clause of a component, one that is not satisfied. -/
def ActiveIn (s : Solver) (c : Component) (id : ClauseId) : Prop :=
  id ∈ c.clauses ∧ s.isSatisfied id = false

/-- A long clause mentions a variable. -/
def Mentions (s : Solver) (id : ClauseId) (v : Var) : Prop := ∃ l ∈ s.store.lits id, l.var = v

/-- **Linked variables** of a component are open, and share an active clause or
a given binary clause. -/
inductive Linked (s : Solver) (c : Component) (v w : Var) : Prop where
  | long (hv : s.OpenIn c v) (hw : s.OpenIn c w) {id : ClauseId} (hid : s.ActiveIn c id)
      (hmv : s.Mentions id v) (hmw : s.Mentions id w)
  | binary (hv : s.OpenIn c v) (hw : s.OpenIn c w) {l m : Lit} (hl : l.var = v) (hm : m.var = w)
      (hpair : m ∈ s.store.partners l)

/-- **Connected variables**: a chain of links leads from one to the other. -/
def Connected (s : Solver) (c : Component) : Var → Var → Prop :=
  Relation.ReflTransGen (s.Linked c)

theorem Linked.right (h : s.Linked c v w) : s.OpenIn c w := by
  cases h with
  | long _ hw _ _ _ => exact hw
  | binary _ hw _ _ _ => exact hw

theorem Linked.symm (hs : Sound F s) (h : s.Linked c v w) : s.Linked c w v := by
  cases h with
  | long hv hw hid hmv hmw => exact .long hw hv hid hmw hmv
  | binary hv hw hl hm hpair => exact .binary hw hv hm hl (hs.store.symmetric _ _ hpair)

theorem Connected.symm (hs : Sound F s) (h : s.Connected c v w) : s.Connected c w v := by
  induction h with
  | refl => exact .refl
  | tail _ hlink ih => exact .head (hlink.symm hs) ih

theorem Connected.openIn (h : s.Connected c v w) (hv : s.OpenIn c v) : s.OpenIn c w := by
  cases h with
  | refl => exact hv
  | tail _ hlink => exact hlink.right

/-! ## What a fill still awaits -/

namespace Fill

variable {f f' f'' : Fill}

/-- A variable is still awaited. -/
def Awaits (f : Fill) (v : Var) : Prop := f.pendingVars[v] = true

/-- A clause is still awaited. -/
def AwaitsClause (f : Fill) (id : ClauseId) : Prop := f.pendingClauses.getD id false = true

theorem awaits_reachVar (f : Fill) (v w : Var) :
    (f.reachVar v).Awaits w ↔ f.Awaits w ∧ w ≠ v := by
  unfold reachVar Awaits
  split
  · rename_i hv
    have hlt : v.index < f.pendingVars.size := by
      by_contra hge
      rw [VarTable.get_of_size_le _ (Nat.le_of_not_lt hge)] at hv
      cases hv
    show (f.pendingVars.set v false)[w] = true ↔ _
    rw [VarTable.get_set]
    by_cases hvw : v = w
    · simp [hvw, hvw ▸ hlt]
    · simp [hvw, Ne.symm hvw]
  · rename_i hv
    exact ⟨fun hw => ⟨hw, fun he => hv (he ▸ hw)⟩, And.left⟩

/-- Reaching a variable is reaching no clause. -/
theorem reachVar_clauses (f : Fill) (v : Var) : (f.reachVar v).clauses = f.clauses := by
  unfold reachVar
  split <;> rfl

theorem awaitsClause_takeClause (f : Fill) (id j : ClauseId) :
    (f.takeClause id).AwaitsClause j ↔ f.AwaitsClause j ∧ j ≠ id := by
  have hget := getD_setIfInBounds f.pendingClauses id j false
  unfold AwaitsClause
  show (f.pendingClauses.setIfInBounds id false).getD j default = true ↔ _
  rw [hget]
  by_cases hj : id = j
  · subst hj
    by_cases hlt : id < f.pendingClauses.size
    · simp [hlt]
    · simp [hlt]
  · simp [hj, Ne.symm hj]

/-- **A fill goes on**: less is awaited, and what is new on the list of
variables is on the stack. -/
structure Onward (f f' : Fill) : Prop where
  awaits : ∀ v, f'.Awaits v → f.Awaits v
  awaitsClause : ∀ id, f'.AwaitsClause id → f.AwaitsClause id
  vars : ∀ v ∈ f.vars, v ∈ f'.vars
  stack : ∀ v ∈ f'.vars, v ∈ f.vars ∨ v ∈ f'.stack
  kept : ∀ v ∈ f.stack, v ∈ f'.stack
  /-- As many variables have left the stack as before. -/
  length : f'.vars.length + f.stack.length = f.vars.length + f'.stack.length

namespace Onward

theorem refl (f : Fill) : Onward f f :=
  ⟨fun _ h => h, fun _ h => h, fun _ h => h, fun _ h => Or.inl h, fun _ h => h, rfl⟩

theorem trans (h : Onward f f') (h' : Onward f' f'') : Onward f f'' where
  awaits := fun v hv => h.awaits v (h'.awaits v hv)
  awaitsClause := fun id hid => h.awaitsClause id (h'.awaitsClause id hid)
  vars := fun v hv => h'.vars v (h.vars v hv)
  stack := fun v hv => (h'.stack v hv).elim
    (fun hv => (h.stack v hv).imp_right (h'.kept v)) Or.inr
  kept := fun v hv => h'.kept v (h.kept v hv)
  length := by
    have := h.length
    have := h'.length
    omega

theorem reachVar (f : Fill) (v : Var) : Onward f (f.reachVar v) := by
  have hawaits : ∀ w, (f.reachVar v).Awaits w → f.Awaits w := fun w hw =>
    ((awaits_reachVar f v w).mp hw).1
  unfold Fill.reachVar at hawaits ⊢
  split
  · rename_i hv
    rw [if_pos hv] at hawaits
    refine ⟨hawaits, fun _ h => h, fun w hw => List.mem_cons_of_mem _ hw, fun w hw => ?_,
      fun w hw => List.mem_cons_of_mem _ hw, ?_⟩
    · rcases List.mem_cons.mp hw with rfl | hw
      · exact Or.inr List.mem_cons_self
      · exact Or.inl hw
    · simp only [List.length_cons]
      omega
  · exact .refl f

theorem takeClause (f : Fill) (id : ClauseId) : Onward f (f.takeClause id) :=
  ⟨fun _ hv => hv, fun j hj => ((awaitsClause_takeClause f id j).mp hj).1, fun _ hv => hv,
    fun _ hv => Or.inl hv, fun _ hv => hv, rfl⟩

end Onward

end Fill

/-! ## A piece under way -/

/-- **A fill from a root** that started where `f₀` was: it has what is not
awaited any more, each once, and all of it is connected with the root. -/
structure Fills (s : Solver) (c : Component) (root : Var) (f₀ f : Fill) : Prop where
  vars : ∀ v, f₀.Awaits v ↔ f.Awaits v ∨ v ∈ f.vars
  varsApart : ∀ v ∈ f.vars, ¬ f.Awaits v
  varsNodup : f.vars.Nodup
  clauses : ∀ id, f₀.AwaitsClause id ↔ f.AwaitsClause id ∨ id ∈ f.clauses
  clausesApart : ∀ id ∈ f.clauses, ¬ f.AwaitsClause id
  clausesNodup : f.clauses.Nodup
  stack : ∀ v ∈ f.stack, v ∈ f.vars
  connected : ∀ v ∈ f.vars, s.Connected c root v
  touched : ∀ id ∈ f.clauses, ∃ v ∈ f.vars, s.Mentions id v

theorem Fills.awaits_iff {f₀ f : Fill} (h : Fills s c root f₀ f) :
    f.Awaits v ↔ f₀.Awaits v ∧ v ∉ f.vars := by
  rw [h.vars]
  constructor
  · exact fun hv => ⟨Or.inl hv, fun hin => h.varsApart v hin hv⟩
  · exact fun ⟨hv, hno⟩ => hv.resolve_right hno

/-- The variables of all clauses reached are reached. -/
def Rounded (s : Solver) (f : Fill) : Prop :=
  ∀ id ∈ f.clauses, ∀ v, s.Mentions id v → ¬ f.Awaits v

/-- **The tables before a piece**: open variables and active clauses are awaited,
and links do not lead from what is awaited to what is not. -/
structure Untouched (s : Solver) (c : Component) (f : Fill) : Prop where
  openIn : ∀ v, f.Awaits v → s.OpenIn c v
  activeIn : ∀ id, f.AwaitsClause id → s.ActiveIn c id
  linked : ∀ v w, s.Linked c v w → f.Awaits v → f.Awaits w
  mentioned : ∀ id v, s.ActiveIn c id → s.Mentions id v → s.OpenIn c v →
    (f.AwaitsClause id ↔ f.Awaits v)

namespace Fills

variable {f₀ f : Fill}

/-- **Reaching a variable** that is connected with the root, if it is still
awaited. -/
theorem reachVar (h : Fills s c root f₀ f) (hv : f.Awaits v → s.Connected c root v) :
    Fills s c root f₀ (f.reachVar v) := by
  have hawaits := Fill.awaits_reachVar f v
  unfold Fill.reachVar at hawaits ⊢
  split
  · rename_i hpending
    rw [if_pos hpending] at hawaits
    have hawaited : f.Awaits v := hpending
    have hnew : v ∉ f.vars := fun hin => h.varsApart v hin hawaited
    refine ⟨fun w => ?_, fun w hw => ?_, List.nodup_cons.mpr ⟨hnew, h.varsNodup⟩, h.clauses,
      h.clausesApart, h.clausesNodup, fun w hw => ?_, fun w hw => ?_, fun id hid => ?_⟩
    · rw [hawaits, h.vars, List.mem_cons]
      by_cases hwv : w = v
      · simp [hwv, hawaited]
      · simp [hwv]
    · rw [hawaits]
      rcases List.mem_cons.mp hw with rfl | hw
      · exact fun hc => hc.2 rfl
      · exact fun hc => h.varsApart w hw hc.1
    · rcases List.mem_cons.mp hw with rfl | hw
      · exact List.mem_cons_self
      · exact List.mem_cons_of_mem _ (h.stack w hw)
    · rcases List.mem_cons.mp hw with rfl | hw
      · exact hv hawaited
      · exact h.connected w hw
    · obtain ⟨w, hw, hm⟩ := h.touched id hid
      exact ⟨w, List.mem_cons_of_mem _ hw, hm⟩
  · exact h

/-- **Reaching variables**, one after the other. -/
theorem reachVars (ls : List Lit) (h : Fills s c root f₀ f)
    (hls : ∀ l ∈ ls, f.Awaits l.var → s.Connected c root l.var) :
    Fills s c root f₀ (ls.foldl (fun f l => f.reachVar l.var) f)
      ∧ f.Onward (ls.foldl (fun f l => f.reachVar l.var) f)
      ∧ (∀ l ∈ ls, ¬ (ls.foldl (fun f l => f.reachVar l.var) f).Awaits l.var)
      ∧ (ls.foldl (fun f l => f.reachVar l.var) f).clauses = f.clauses := by
  induction ls generalizing f with
  | nil => exact ⟨h, .refl f, fun l hl => absurd hl List.not_mem_nil, rfl⟩
  | cons l rest ih =>
    have honward := Fill.Onward.reachVar f l.var
    obtain ⟨h', honward', hreached, hclauses⟩ :=
      ih (h.reachVar (hls l List.mem_cons_self)) fun m hm hw =>
        hls m (List.mem_cons_of_mem _ hm) (honward.awaits _ hw)
    refine ⟨h', honward.trans honward', fun m hm => ?_,
      hclauses.trans (Fill.reachVar_clauses f l.var)⟩
    rcases List.mem_cons.mp hm with rfl | hm
    · exact fun hw => ((Fill.awaits_reachVar f m.var m.var).mp (honward'.awaits _ hw)).2 rfl
    · exact hreached m hm

/-- Taking an awaited clause of a variable of the piece off the table. -/
theorem takeClause (h : Fills s c root f₀ f) (hid : f.AwaitsClause id) (hv : v ∈ f.vars)
    (hm : s.Mentions id v) : Fills s c root f₀ (f.takeClause id) := by
  have htaken := Fill.awaitsClause_takeClause f id
  have hnew : id ∉ f.clauses := fun hin => h.clausesApart id hin hid
  refine { h with
    clauses := fun j => ?_
    clausesApart := fun j hj => ?_
    clausesNodup := List.nodup_cons.mpr ⟨hnew, h.clausesNodup⟩
    touched := fun j hj => ?_ }
  · rw [htaken, h.clauses]
    by_cases hj : j = id
    · simp [Fill.takeClause, hj, hid]
    · simp [Fill.takeClause, hj]
  · rw [htaken]
    rcases List.mem_cons.mp hj with rfl | hj
    · exact fun hc => hc.2 rfl
    · exact fun hc => h.clausesApart j hj hc.1
  · rcases List.mem_cons.mp hj with rfl | hj
    · exact ⟨v, hv, hm⟩
    · exact h.touched j hj

variable (hf₀ : Untouched s c f₀)
include hf₀

/-- What is in the piece or awaited is open. -/
theorem openIn (h : Fills s c root f₀ f) (hv : v ∈ f.vars ∨ f.Awaits v) : s.OpenIn c v :=
  hf₀.openIn v ((h.vars v).mpr hv.symm)

/-- **Reaching a clause** with a variable of the piece, and so all its
variables. -/
theorem reachClause {filed : Option Nat × ClauseId} (h : Fills s c root f₀ f)
    (hround : s.Rounded f) (hv : v ∈ f.vars) (hm : s.Mentions filed.2 v)
    (hlits : s.filedLits filed = .ok (s.store.lits filed.2)) :
    ∃ f', s.reachClause f filed = .ok f' ∧ Fills s c root f₀ f' ∧ s.Rounded f' ∧ f.Onward f'
      ∧ ¬ f'.AwaitsClause filed.2 := by
  unfold Solver.reachClause
  split
  · rename_i hpending
    have hactive := hf₀.activeIn filed.2 ((h.clauses filed.2).mpr (Or.inl hpending))
    -- the clause is taken off the table first, then its variables are reached
    obtain ⟨h₂, honward, hreached, hclauses⟩ :=
      (h.takeClause hpending hv hm).reachVars (s.store.lits filed.2) fun l hl hw =>
        (h.connected v hv).tail (.long (h.openIn hf₀ (Or.inl hv)) (h.openIn hf₀ (Or.inr hw))
          hactive hm ⟨l, hl, rfl⟩)
    rw [hlits]
    refine ⟨_, rfl, h₂, fun j hj w hw => ?_, (Fill.Onward.takeClause f filed.2).trans honward,
      fun hc => ?_⟩
    · rcases List.mem_cons.mp (hclauses ▸ hj) with rfl | hj
      · obtain ⟨l, hl, rfl⟩ := hw
        exact hreached l hl
      · exact fun hawait => hround j hj w hw (honward.awaits w hawait)
    · exact ((Fill.awaitsClause_takeClause f _ _).mp (honward.awaitsClause _ hc)).2 rfl
  · rename_i hpending
    exact ⟨f, rfl, h, hround, .refl f, hpending⟩

/-- **Reaching the clauses of a variable**, one after the other. -/
theorem reachClauses (all : List (Option Nat × ClauseId)) (h : Fills s c root f₀ f)
    (hround : s.Rounded f) (hv : v ∈ f.vars) (hall : ∀ filed ∈ all, s.Mentions filed.2 v)
    (hlits : ∀ filed ∈ all, s.filedLits filed = .ok (s.store.lits filed.2)) :
    ∃ f', all.foldlM s.reachClause f = .ok f' ∧ Fills s c root f₀ f' ∧ s.Rounded f'
      ∧ f.Onward f' ∧ ∀ filed ∈ all, ¬ f'.AwaitsClause filed.2 := by
  induction all generalizing f with
  | nil => exact ⟨f, rfl, h, hround, .refl f, fun filed hin => absurd hin List.not_mem_nil⟩
  | cons filed rest ih =>
    obtain ⟨f₁, hf₁, h₁, hround₁, honward₁, hreached₁⟩ :=
      h.reachClause hf₀ hround hv (hall filed List.mem_cons_self) (hlits filed List.mem_cons_self)
    obtain ⟨f₂, hf₂, h₂, hround₂, honward₂, hreached₂⟩ := ih h₁ hround₁ (honward₁.vars v hv)
      (fun j hj => hall j (List.mem_cons_of_mem _ hj))
      fun j hj => hlits j (List.mem_cons_of_mem _ hj)
    rw [List.foldlM_cons, hf₁]
    refine ⟨f₂, hf₂, h₂, hround₂, honward₁.trans honward₂, fun j hj => ?_⟩
    rcases List.mem_cons.mp hj with rfl | hj
    · exact fun hc => hreached₁ (honward₂.awaitsClause _ hc)
    · exact hreached₂ j hj

end Fills

/-! ## Following a variable -/

/-- **A variable was followed**: what it shares a clause with is reached. -/
structure Followed (s : Solver) (f : Fill) (v : Var) : Prop where
  binary : ∀ l m : Lit, l.var = v → m ∈ s.store.partners l → s.trail.isAssigned m.var = false →
    ¬ f.Awaits m.var
  long : ∀ id, s.store.Gives id → s.Mentions id v → ¬ f.AwaitsClause id

theorem Followed.onward {f f' : Fill} (h : s.Followed f v) (honward : f.Onward f') :
    s.Followed f' v where
  binary := fun l m hl hm hopen hw => h.binary l m hl hm hopen (honward.awaits _ hw)
  long := fun id hid hm hw => h.long id hid hm (honward.awaitsClause id hw)

/-- The clauses of a variable in the order of a traversal. -/
def clausesOf (s : Solver) (v : Var) : Traversal → List ClauseId
  | .uniform => s.membership.ofVar v
  | .arityClassed => s.membership.ofLit v.pos ++ s.membership.ofLit v.neg

/-- **A clause has the size it is filed under.** -/
theorem Sound.length_of_filed (hs : Sound F s) (l : Lit) (id : ClauseId) :
    (id ∈ s.membership.ternary[l].toList → (s.store.lits id).length = 3)
      ∧ (id ∈ s.membership.quaternary[l].toList → (s.store.lits id).length = 4) := by
  have hlength : ∀ n, (Width.of n = .ternary → n = 3) ∧ (Width.of n = .quaternary → n = 4) := by
    intro n
    unfold Width.of
    split <;> simp
  exact ⟨fun h => (hlength _).1 ((hs.listed.mem_table .ternary l id).mp h).2.2,
    fun h => (hlength _).2 ((hs.listed.mem_table .quaternary l id).mp h).2.2⟩

/-- The three tables together have the given clauses of a literal. -/
theorem Sound.mem_ofLit (hs : Sound F s) (l : Lit) :
    id ∈ s.membership.ofLit l ↔ s.store.Gives id ∧ l ∈ s.store.lits id := by
  have htable := fun w => hs.listed.mem_table w l id
  unfold Membership.ofLit
  rw [List.mem_append, List.mem_append]
  constructor
  · rintro ((h | h) | h)
    · exact ⟨((htable .ternary).mp h).1, ((htable .ternary).mp h).2.1⟩
    · exact ⟨((htable .quaternary).mp h).1, ((htable .quaternary).mp h).2.1⟩
    · exact ⟨((htable .wide).mp h).1, ((htable .wide).mp h).2.1⟩
  · rintro ⟨hgives, hl⟩
    cases hw : Width.of (s.store.lits id).length with
    | ternary => exact Or.inl (Or.inl ((htable .ternary).mpr ⟨hgives, hl, hw⟩))
    | quaternary => exact Or.inl (Or.inr ((htable .quaternary).mpr ⟨hgives, hl, hw⟩))
    | wide => exact Or.inr ((htable .wide).mpr ⟨hgives, hl, hw⟩)

/-- **Either index has the given clauses of a variable**, and no others. -/
theorem Sound.mem_clausesOf (hs : Sound F s) (traversal : Traversal) :
    id ∈ s.clausesOf v traversal ↔ s.store.Gives id ∧ s.Mentions id v := by
  cases traversal with
  | uniform => exact hs.listed.mem_ofVar v id
  | arityClassed =>
    unfold clausesOf
    rw [List.mem_append, hs.mem_ofLit, hs.mem_ofLit]
    constructor
    · rintro (⟨hgives, hl⟩ | ⟨hgives, hl⟩)
      · exact ⟨hgives, v.pos, hl, rfl⟩
      · exact ⟨hgives, v.neg, hl, rfl⟩
    · rintro ⟨hgives, l, hl, hv⟩
      rcases List.mem_pair.mp (Var.mem_lits.mpr hv) with rfl | rfl
      · exact Or.inl ⟨hgives, hl⟩
      · exact Or.inr ⟨hgives, hl⟩

/-- Where clauses are filed does not matter for which ones they are. -/
theorem map_filedOf (s : Solver) (v : Var) (traversal : Traversal) :
    (s.filedOf v traversal).map Prod.snd = s.clausesOf v traversal := by
  have hlisted : ∀ (n : Option Nat) (ids : List ClauseId),
      (ids.map (n, ·)).map Prod.snd = ids := fun n ids => by
    rw [List.map_map]
    exact List.map_id ids
  unfold filedOf clausesOf
  cases traversal with
  | uniform => exact hlisted _ _
  | arityClassed =>
    simp only [Var.lits, List.flatMap_cons, List.flatMap_nil, List.append_nil, List.map_append,
      hlisted]
    rfl

/-- **No clause is misfiled.** -/
theorem Sound.filedLits_eq (hs : Sound F s) {filed : Option Nat × ClauseId}
    {traversal : Traversal} (hfiled : filed ∈ s.filedOf v traversal) :
    s.filedLits filed = .ok (s.store.lits filed.2) := by
  cases traversal with
  | uniform =>
    obtain ⟨id, -, rfl⟩ := List.mem_map.mp hfiled
    rfl
  | arityClassed =>
    obtain ⟨l, -, hfiled⟩ := List.mem_flatMap.mp hfiled
    rcases List.mem_append.mp hfiled with hfiled | hfiled
    · rcases List.mem_append.mp hfiled with hfiled | hfiled
      · obtain ⟨id, hid, rfl⟩ := List.mem_map.mp hfiled
        simp [filedLits, (hs.length_of_filed l id).1 hid]
      · obtain ⟨id, hid, rfl⟩ := List.mem_map.mp hfiled
        simp [filedLits, (hs.length_of_filed l id).2 hid]
    · obtain ⟨id, -, rfl⟩ := List.mem_map.mp hfiled
      rfl

/-- **Following a variable** of the piece. -/
theorem Fills.follow {f₀ f : Fill} (h : Fills s c root f₀ f) (hs : Sound F s)
    (hf₀ : Untouched s c f₀) (hround : s.Rounded f) (hv : v ∈ f.vars) :
    ∃ f', s.follow f v = .ok f' ∧ Fills s c root f₀ f' ∧ s.Rounded f' ∧ f.Onward f'
      ∧ s.Followed f' v := by
  let partners := (v.lits.flatMap s.store.partners).filter fun l => !s.trail.isAssigned l.var
  obtain ⟨h₁, honward₁, hreached₁, hclauses₁⟩ := h.reachVars partners fun m hm hw => by
    obtain ⟨l, hl, hpair⟩ := List.mem_flatMap.mp (List.mem_of_mem_filter hm)
    exact (h.connected v hv).tail (.binary (h.openIn hf₀ (Or.inl hv)) (h.openIn hf₀ (Or.inr hw))
      (Var.mem_lits.mp hl) rfl hpair)
  have hround₁ : s.Rounded (partners.foldl (fun f l => f.reachVar l.var) f) :=
    fun j hj w hw hawait => hround j (hclauses₁ ▸ hj) w hw (honward₁.awaits w hawait)
  have hfiled : ∀ j, j ∈ (s.filedOf v s.options.traversal).map Prod.snd
      ↔ s.store.Gives j ∧ s.Mentions j v := fun j => by
    rw [map_filedOf, hs.mem_clausesOf]
  obtain ⟨f₂, hf₂, h₂, hround₂, honward₂, hreached₂⟩ :=
    h₁.reachClauses hf₀ (s.filedOf v s.options.traversal) hround₁ (honward₁.vars v hv)
      (fun filed hin => ((hfiled filed.2).mp (List.mem_map_of_mem hin)).2)
      fun filed hin => hs.filedLits_eq hin
  refine ⟨f₂, hf₂, h₂, hround₂, honward₁.trans honward₂, fun l m hl hm hfree hawait => ?_,
    fun j hj hm => ?_⟩
  · refine hreached₁ m (List.mem_filter.mpr ⟨?_, by simp [hfree]⟩) (honward₂.awaits _ hawait)
    exact List.mem_flatMap.mpr ⟨l, Var.mem_lits.mpr hl, hm⟩
  · obtain ⟨filed, hin, rfl⟩ := List.mem_map.mp ((hfiled j).mpr ⟨hj, hm⟩)
    exact hreached₂ filed hin

/-! ## The whole piece -/

/-- **A flood to its end**, by induction on the fuel: `done` variables have left
the stack. -/
theorem Fills.flood {f₀ f : Fill} (fuel done : Nat) (h : Fills s c root f₀ f) (hs : Sound F s)
    (hf₀ : Untouched s c f₀) (hvars : ∀ v ∈ c.vars, v.index < s.varCount)
    (hround : s.Rounded f) (hfollowed : ∀ v ∈ f.vars, v ∉ f.stack → s.Followed f v)
    (hdone : f.vars.length = done + f.stack.length) (hfuel : done + fuel = s.varCount) :
    ∃ f', s.flood fuel f = .ok f' ∧ Fills s c root f₀ f' ∧ s.Rounded f'
      ∧ (∀ v ∈ f.vars, v ∈ f'.vars) ∧ ∀ v ∈ f'.vars, s.Followed f' v := by
  induction fuel generalizing f done with
  | zero =>
    -- no more variables can be reached than there are
    have hle : f.vars.length ≤ s.varCount := by
      have hsub : f.vars ⊆ Var.range s.varCount := fun v hv => Var.mem_range.mpr
        (hvars v (hf₀.openIn v ((h.vars v).mpr (Or.inr hv))).1)
      simpa [Var.range] using (List.subperm_of_subset h.varsNodup hsub).length_le
    have hstack : f.stack = [] := List.eq_nil_of_length_eq_zero (by omega)
    exact ⟨f, rfl, h, hround, fun v hv => hv,
      fun v hv => hfollowed v hv (hstack ▸ List.not_mem_nil)⟩
  | succ fuel ih =>
    unfold Solver.flood
    split
    · rename_i hstack
      exact ⟨f, rfl, h, hround, fun v hv => hv,
        fun v hv => hfollowed v hv (hstack ▸ List.not_mem_nil)⟩
    · rename_i v stack hstack
      have hv : v ∈ f.vars := h.stack v (hstack ▸ List.mem_cons_self)
      have hpopped : Fills s c root f₀ { f with stack := stack } :=
        { h with stack := fun w hw => h.stack w (hstack ▸ List.mem_cons_of_mem _ hw) }
      obtain ⟨f₁, hf₁, h₁, hround₁, honward₁, hdone₁⟩ := hpopped.follow hs hf₀ hround hv
      -- what was followed before stays so, and the variable itself is now
      have hfollowed₁ : ∀ w ∈ f₁.vars, w ∉ f₁.stack → s.Followed f₁ w := by
        intro w hw hno
        by_cases hwv : w = v
        · exact hwv ▸ hdone₁
        · have hold : s.Followed f w := by
            refine hfollowed w ((honward₁.stack w hw).resolve_right hno) fun hin => ?_
            rw [hstack] at hin
            exact hno (honward₁.kept w ((List.mem_cons.mp hin).resolve_left hwv))
          exact Followed.onward (f := { f with stack := stack }) ⟨hold.binary, hold.long⟩ honward₁
      have hlength : f₁.vars.length = done + 1 + f₁.stack.length := by
        have hsame := honward₁.length
        rw [hstack, List.length_cons] at hdone
        simp only at hsame
        omega
      obtain ⟨f₂, hf₂, h₂, hround₂, hvars₂, hfollowed₂⟩ :=
        ih (done + 1) h₁ hround₁ hfollowed₁ hlength (by omega)
      rw [hf₁]
      exact ⟨f₂, hf₂, h₂, hround₂, fun w hw => hvars₂ w (honward₁.vars w hw), hfollowed₂⟩

/-- **A whole piece**: the variables connected with the root, and the active
clauses that mention one of them, each once. -/
structure IsPiece (s : Solver) (c : Component) (root : Var) (vars : List Var)
    (clauses : List ClauseId) : Prop where
  mem_vars : ∀ v, v ∈ vars ↔ s.Connected c root v
  varsNodup : vars.Nodup
  mem_clauses : ∀ id, id ∈ clauses ↔ s.ActiveIn c id ∧ ∃ v ∈ vars, s.Mentions id v
  clausesNodup : clauses.Nodup

/-- **An empty stack means a whole piece.** -/
theorem Fills.isPiece {f₀ f : Fill} (h : Fills s c root f₀ f) (hf₀ : Untouched s c f₀)
    (hids : ∀ id ∈ c.clauses, s.store.Gives id) (hround : s.Rounded f) (hroot : root ∈ f.vars)
    (hfollowed : ∀ v ∈ f.vars, s.Followed f v) : s.IsPiece c root f.vars f.clauses := by
  have hold : ∀ v ∈ f.vars, f₀.Awaits v := fun v hv => (h.vars v).mpr (Or.inr hv)
  -- the active clauses of a followed variable are reached
  have hclause : ∀ id v, s.ActiveIn c id → v ∈ f.vars → s.Mentions id v → id ∈ f.clauses := by
    intro id v hactive hv hm
    have hawaited := (hf₀.mentioned id v hactive hm (hf₀.openIn v (hold v hv))).mpr (hold v hv)
    exact ((h.clauses id).mp hawaited).resolve_left
      ((hfollowed v hv).long id (hids id hactive.1) hm)
  refine ⟨fun v => ⟨h.connected v, fun hc => ?_⟩, h.varsNodup, fun id => ⟨fun hid => ?_, ?_⟩,
    h.clausesNodup⟩
  · induction hc with
    | refl => exact hroot
    | @tail v w _ hlink ih =>
      by_contra hno
      have hw : f.Awaits w :=
        ((h.vars w).mp (hf₀.linked v w hlink (hold v ih))).resolve_right hno
      cases hlink with
      | long _ _ hactive hmv hmw => exact hround _ (hclause _ v hactive ih hmv) w hmw hw
      | binary _ hopen hl hm hpair =>
        subst hm
        exact (hfollowed v ih).binary _ _ hl hpair hopen.2 hw
  · exact ⟨hf₀.activeIn id ((h.clauses id).mpr (Or.inr hid)), h.touched id hid⟩
  · rintro ⟨hactive, v, hv, hm⟩
    exact hclause id v hactive hv hm

/-- **Taking a piece off the tables** leaves no link across. -/
theorem Fills.untouched {f₀ f : Fill} (h : Fills s c root f₀ f) (hs : Sound F s)
    (hf₀ : Untouched s c f₀) (hround : s.Rounded f) (hpiece : s.IsPiece c root f.vars f.clauses) :
    Untouched s c f where
  openIn := fun v hv => hf₀.openIn v ((h.vars v).mpr (Or.inl hv))
  activeIn := fun id hid => hf₀.activeIn id ((h.clauses id).mpr (Or.inl hid))
  linked := by
    intro v w hlink hv
    have hw := hf₀.linked v w hlink ((h.vars v).mpr (Or.inl hv))
    refine ((h.vars w).mp hw).resolve_right fun hin => ?_
    have hconnected := ((hpiece.mem_vars w).mp hin).tail (hlink.symm hs)
    exact h.varsApart v ((hpiece.mem_vars v).mpr hconnected) hv
  mentioned := by
    intro id v hactive hm hopen
    have hold := hf₀.mentioned id v hactive hm hopen
    constructor
    · intro hid
      have hv := hold.mp ((h.clauses id).mpr (Or.inl hid))
      refine ((h.vars v).mp hv).resolve_right fun hin => ?_
      exact h.clausesApart id ((hpiece.mem_clauses id).mpr ⟨hactive, v, hin, hm⟩) hid
    · intro hv
      have hid := hold.mpr ((h.vars v).mpr (Or.inl hv))
      exact ((h.clauses id).mp hid).resolve_right fun hin => hround id hin v hm hv

/-- **A fill from an awaited root** reaches its piece, and takes just that off
the tables. -/
theorem fillFrom_spec {f : Fill} (hs : Sound F s) (hf : Untouched s c f)
    (hvars : ∀ v ∈ c.vars, v.index < s.varCount) (hids : ∀ id ∈ c.clauses, s.store.Gives id)
    (hroot : f.Awaits root) :
    ∃ f', s.fillFrom f root = .ok f' ∧ s.IsPiece c root f'.vars f'.clauses
      ∧ Untouched s c f' ∧ Fills s c root f f' := by
  let start : Fill := { f with stack := [], vars := [], clauses := [] }
  have hstart : Fills s c root f start :=
    ⟨fun v => (or_iff_left List.not_mem_nil).symm, fun v hv => absurd hv List.not_mem_nil,
      List.nodup_nil, fun id => (or_iff_left List.not_mem_nil).symm,
      fun id hid => absurd hid List.not_mem_nil, List.nodup_nil,
      fun v hv => absurd hv List.not_mem_nil, fun v hv => absurd hv List.not_mem_nil,
      fun id hid => absurd hid List.not_mem_nil⟩
  have hfirst := hstart.reachVar (v := root) fun _ => Relation.ReflTransGen.refl
  -- the root is the one variable reached so far
  have hreached : start.reachVar root
      = { f with pendingVars := f.pendingVars.set root false, stack := [root], vars := [root]
                 clauses := [] } := if_pos hroot
  rw [hreached] at hfirst
  obtain ⟨f', hf', h, hround, hkept, hfollowed⟩ := hfirst.flood s.varCount 0 hs hf hvars
    (fun id hid => absurd hid List.not_mem_nil) (fun v hv hno => absurd hv hno) rfl
    (Nat.zero_add _)
  rw [← hreached] at hf'
  have hpiece := h.isPiece hf hids hround (hkept root List.mem_cons_self) hfollowed
  exact ⟨f', hf', hpiece, h.untouched hs hf hround hpiece, h⟩

end Solver

end Cleave
