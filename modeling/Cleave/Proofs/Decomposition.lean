import Cleave.Proofs.Branching
import Cleave.Proofs.Flood
import Cleave.Proofs.Reachable

/-!
# Taking a component apart is a partition

What `Solver.decompose` returns are the connected pieces of a component under
the assignment: every open variable is in one component or is free, every
active clause is in the component of its open variables, and two variables are
together exactly if they are connected (`Solver.Partitions`).

The pieces are taken off one after the other. `Solver.Parts` is the invariant
of this: the decomposition so far has just the open variables that are not
awaited any more, in whole pieces. A piece is determined by its root, and a
component by the variables and clauses it is made of, whatever order the fill
reached them in. So the two traversals give the same answer
(`Solver.split_following`).
-/

namespace Cleave

/-! ## Components and decompositions -/

namespace Component

variable {vars vars' : List Var} {clauses clauses' : List ClauseId}

theorem nodup_vars_ofLists : (ofLists vars clauses).vars.Nodup := by
  have h := pairwise_squeeze (fun _ _ => Var.index_inj.mp) _ (pairwise_mergeSort_key Var.index vars)
  exact h.imp fun hlt he => Nat.ne_of_lt hlt (congrArg Var.index he)

theorem nodup_clauses_ofLists : (ofLists vars clauses).clauses.Nodup := by
  have h := pairwise_squeeze (fun _ _ he => he) _ (pairwise_mergeSort_key id clauses)
  exact h.imp fun hlt he => Nat.ne_of_lt hlt he

theorem perm_vars_ofLists (h : vars.Nodup) : (ofLists vars clauses).vars.Perm vars :=
  (List.perm_ext_iff_of_nodup nodup_vars_ofLists h).mpr fun _ => mem_vars_ofLists

theorem perm_clauses_ofLists (h : clauses.Nodup) : (ofLists vars clauses).clauses.Perm clauses :=
  (List.perm_ext_iff_of_nodup nodup_clauses_ofLists h).mpr fun _ => mem_clauses_ofLists

/-- **A component does not depend on the order** of what it is made of. -/
theorem ofLists_perm (hvars : vars.Perm vars') (hclauses : clauses.Perm clauses') :
    ofLists vars clauses = ofLists vars' clauses' := by
  unfold ofLists
  congr 2
  · exact mergeSort_key_perm Var.index (fun _ _ => Var.index_inj.mp) hvars
  · exact mergeSort_key_perm id (fun _ _ he => he) hclauses

end Component

namespace Decomposition

/-- All variables, those of the components and the free ones. -/
def vars (d : Decomposition) : List Var := d.components.flatMap Component.vars ++ d.free

/-- The clauses of all components. -/
def clauses (d : Decomposition) : List ClauseId := d.components.flatMap Component.clauses

/-- Adds a piece: a single variable without a clause is free. -/
def add (d : Decomposition) (vars : List Var) (clauses : List ClauseId) : Decomposition :=
  match vars, clauses with
  | [v], [] => { d with free := v :: d.free }
  | vars, clauses => { d with components := .ofLists vars clauses :: d.components }

/-- The components by ascending number of variables. -/
def sorted (d : Decomposition) : Decomposition :=
  { d with components := d.components.mergeSort fun a b => a.size ≤ b.size }

theorem add_cases (d : Decomposition) (vars : List Var) (clauses : List ClauseId) :
    (∃ v, vars = [v] ∧ clauses = [] ∧ d.add vars clauses = { d with free := v :: d.free })
      ∨ ((∀ v, vars = [v] → clauses ≠ [])
        ∧ d.add vars clauses
          = { d with components := .ofLists vars clauses :: d.components }) := by
  unfold add
  split
  · exact Or.inl ⟨_, rfl, rfl, rfl⟩
  · rename_i hno
    exact Or.inr ⟨fun v hv hc => hno v hv hc, rfl⟩

/-- Either way the variables of the piece come to those that were there. -/
theorem vars_add (d : Decomposition) {vars : List Var} (clauses : List ClauseId)
    (h : vars.Nodup) : (d.add vars clauses).vars.Perm (vars ++ d.vars) := by
  rcases d.add_cases vars clauses with ⟨v, rfl, rfl, heq⟩ | ⟨-, heq⟩
  · rw [heq]
    exact List.perm_middle
  · rw [heq]
    show ((Component.ofLists vars clauses).vars ++ d.components.flatMap Component.vars
      ++ d.free).Perm (vars ++ d.vars)
    rw [List.append_assoc]
    exact (Component.perm_vars_ofLists h).append_right _

/-- The order of the piece does not matter. -/
theorem add_perm (d : Decomposition) {vars vars' : List Var} {clauses clauses' : List ClauseId}
    (hvars : vars.Perm vars') (hclauses : clauses.Perm clauses') :
    d.add vars clauses = d.add vars' clauses' := by
  rcases d.add_cases vars clauses with ⟨v, rfl, rfl, heq⟩ | ⟨hbound, heq⟩
  · obtain rfl := List.perm_singleton.mp hvars.symm
    obtain rfl := List.perm_nil.mp hclauses.symm
    rfl
  · rcases d.add_cases vars' clauses' with ⟨v, rfl, rfl, -⟩ | ⟨-, heq'⟩
    · exact absurd (List.perm_nil.mp hclauses) (hbound v (List.perm_singleton.mp hvars))
    · rw [heq, heq', Component.ofLists_perm hvars hclauses]

end Decomposition

namespace Solver

variable {F : List Clause} {s s' : Solver} {c : Component} {d d' : Decomposition} {f : Fill}
  {root v w : Var} {id : ClauseId}

/-! ## Pieces and their roots -/

namespace IsPiece

variable {vars vars' : List Var} {clauses clauses' : List ClauseId}

/-- Any variable of a piece may be its root. -/
theorem reroot (h : s.IsPiece c root vars clauses) (hs : Sound F s) (hv : v ∈ vars) :
    s.IsPiece c v vars clauses := by
  have hroot := (h.mem_vars v).mp hv
  refine { h with mem_vars := fun w => (h.mem_vars w).trans ⟨fun hw => ?_, fun hw => ?_⟩ }
  · exact (Connected.symm hs hroot).trans hw
  · exact hroot.trans hw

/-- **A root has one piece**, up to order. -/
theorem perm (h : s.IsPiece c root vars clauses) (h' : s.IsPiece c root vars' clauses') :
    vars.Perm vars' ∧ clauses.Perm clauses' := by
  have hvars : ∀ v, v ∈ vars ↔ v ∈ vars' := fun v => (h.mem_vars v).trans (h'.mem_vars v).symm
  refine ⟨(List.perm_ext_iff_of_nodup h.varsNodup h'.varsNodup).mpr hvars,
    (List.perm_ext_iff_of_nodup h.clausesNodup h'.clausesNodup).mpr fun id => ?_⟩
  simp only [h.mem_clauses, h'.mem_clauses, hvars]

/-- The component of a piece is one as well. -/
theorem ofLists (h : s.IsPiece c root vars clauses) :
    s.IsPiece c root (Component.ofLists vars clauses).vars
      (Component.ofLists vars clauses).clauses where
  mem_vars := fun v => Component.mem_vars_ofLists.trans (h.mem_vars v)
  varsNodup := Component.nodup_vars_ofLists
  mem_clauses := fun id => by
    simp only [Component.mem_clauses_ofLists, Component.mem_vars_ofLists, h.mem_clauses]
  clausesNodup := Component.nodup_clauses_ofLists

/-- An open variable of a clause of the piece is in the piece. -/
theorem whole (h : s.IsPiece c root vars clauses) (hroot : s.OpenIn c root) (hid : id ∈ clauses)
    (hv : s.OpenIn c v) (hm : s.Mentions id v) : v ∈ vars := by
  obtain ⟨hactive, w, hw, hmw⟩ := (h.mem_clauses id).mp hid
  have hconnected := (h.mem_vars w).mp hw
  exact (h.mem_vars v).mpr (hconnected.tail (.long (hconnected.openIn hroot) hv hactive hmw hm))

end IsPiece

/-! ## The pieces taken off so far -/

/-- **A decomposition into whole pieces**: a component is one of several
variables or with a clause, and a free variable is one by itself. -/
structure WholePieces (s : Solver) (c : Component) (d : Decomposition) : Prop where
  nonempty : ∀ k ∈ d.components, k.vars ≠ []
  piece : ∀ k ∈ d.components, ∀ v ∈ k.vars, s.IsPiece c v k.vars k.clauses
  bound : ∀ k ∈ d.components, ∀ v, k.vars = [v] → k.clauses ≠ []
  free : ∀ v ∈ d.free, s.IsPiece c v [v] []

/-- Adding a piece. -/
theorem WholePieces.add {vars : List Var} {clauses : List ClauseId} (h : WholePieces s c d)
    (hs : Sound F s) (hpiece : s.IsPiece c root vars clauses) :
    WholePieces s c (d.add vars clauses) := by
  have hroot : root ∈ vars := (hpiece.mem_vars root).mpr .refl
  rcases d.add_cases vars clauses with ⟨v, rfl, rfl, heq⟩ | ⟨hbound, heq⟩
  · obtain rfl := List.mem_singleton.mp hroot
    rw [heq]
    refine ⟨h.nonempty, h.piece, h.bound, fun v hv => ?_⟩
    rcases List.mem_cons.mp hv with rfl | hv
    · exact hpiece
    · exact h.free v hv
  · have hwhole := hpiece.ofLists
    rw [heq]
    refine ⟨fun k hk => ?_, fun k hk v hv => ?_, fun k hk v hv => ?_, h.free⟩
      <;> rcases List.mem_cons.mp hk with rfl | hk
    · exact List.ne_nil_of_mem ((hwhole.mem_vars root).mpr .refl)
    · exact h.nonempty k hk
    · exact hwhole.reroot hs hv
    · exact h.piece k hk v hv
    · have hvars := (Component.perm_vars_ofLists hpiece.varsNodup).symm.trans (.of_eq hv)
      intro hnil
      have hclauses :=
        (Component.perm_clauses_ofLists hpiece.clausesNodup).symm.trans (.of_eq hnil)
      exact hbound v (List.perm_singleton.mp hvars) (List.perm_nil.mp hclauses)
    · exact h.bound k hk v hv

/-- **A decomposition under way**: it consists of whole pieces, and has the open
variables but for the `rest`, each once. -/
structure Parts (s : Solver) (c : Component) (rest : Var → Prop) (d : Decomposition) : Prop
    extends WholePieces s c d where
  vars : ∀ v, s.OpenIn c v ↔ rest v ∨ v ∈ d.vars
  apart : ∀ v ∈ d.vars, ¬ rest v
  nodup : d.vars.Nodup

namespace Parts

variable {rest : Var → Prop}

/-- The order of components and free variables does not matter. -/
theorem perm (h : Parts s c rest d) (hcomponents : d'.components.Perm d.components)
    (hfree : d'.free.Perm d.free) : Parts s c rest d' := by
  have hvars : d'.vars.Perm d.vars := (hcomponents.flatMap_right _).append hfree
  exact
    { nonempty := fun k hk => h.nonempty k (hcomponents.mem_iff.mp hk)
      piece := fun k hk => h.piece k (hcomponents.mem_iff.mp hk)
      bound := fun k hk => h.bound k (hcomponents.mem_iff.mp hk)
      free := fun v hv => h.free v (hfree.mem_iff.mp hv)
      vars := fun v => (h.vars v).trans (or_congr_right hvars.mem_iff.symm)
      apart := fun v hv => h.apart v (hvars.mem_iff.mp hv)
      nodup := hvars.nodup_iff.mpr h.nodup }

/-- **Adding a whole piece** of the rest. -/
theorem add {vars : List Var} {clauses : List ClauseId} {rest' : Var → Prop}
    (h : Parts s c rest d) (hs : Sound F s) (hpiece : s.IsPiece c root vars clauses)
    (hrest : ∀ v, rest v ↔ rest' v ∨ v ∈ vars) (hrest' : ∀ v ∈ vars, ¬ rest' v) :
    Parts s c rest' (d.add vars clauses) := by
  have hvars : (d.add vars clauses).vars.Perm (vars ++ d.vars) :=
    d.vars_add clauses hpiece.varsNodup
  have hmem : ∀ v, v ∈ (d.add vars clauses).vars ↔ v ∈ vars ∨ v ∈ d.vars := fun v =>
    hvars.mem_iff.trans List.mem_append
  refine ⟨h.toWholePieces.add hs hpiece, fun v => ?_, fun v hv => ?_, hvars.nodup_iff.mpr ?_⟩
  · rw [h.vars, hrest, hmem, or_assoc]
  · rcases (hmem v).mp hv with hv | hv
    · exact hrest' v hv
    · exact fun hin => h.apart v hv ((hrest v).mpr (Or.inl hin))
  · exact List.nodup_append.mpr ⟨hpiece.varsNodup, h.nodup, fun v hv w hw he =>
      h.apart w hw ((hrest w).mpr (Or.inr (he ▸ hv)))⟩

end Parts

/-! ## Piece by piece -/

/-- **Before the first piece** the open variables and active clauses are
awaited. -/
def awaiting (s : Solver) (c : Component) : Fill where
  pendingVars := VarTable.marking s.varCount (s.openVars c)
  pendingClauses := (c.clauses.filter fun id => !s.isSatisfied id).foldl
    (fun t id => t.setIfInBounds id true) (Array.replicate s.store.long.size false)
  stack := []
  vars := []
  clauses := []

/-- The pieces of a component, by ascending number of variables. -/
def split (s : Solver) (c : Component) : Except Fault Decomposition :=
  (s.pieces (s.awaiting c) c.vars ⟨[], []⟩).map Decomposition.sorted

theorem mem_openVars : v ∈ s.openVars c ↔ s.OpenIn c v := by
  unfold openVars OpenIn
  simp

theorem awaits_awaiting (hvars : ∀ v ∈ c.vars, v.index < s.varCount) :
    (s.awaiting c).Awaits v ↔ s.OpenIn c v := by
  refine VarTable.get_marking.trans ?_
  rw [mem_openVars]
  exact ⟨And.left, fun h => ⟨h, hvars v h.1⟩⟩

theorem awaitsClause_awaiting (hids : ∀ id ∈ c.clauses, s.store.Gives id) :
    (s.awaiting c).AwaitsClause id ↔ s.ActiveIn c id := by
  refine getD_flags.trans ?_
  unfold ActiveIn
  rw [List.mem_filter, Bool.not_eq_true']
  exact ⟨And.left, fun h => ⟨h, (hids id h.1).1⟩⟩

theorem untouched_awaiting (hvars : ∀ v ∈ c.vars, v.index < s.varCount)
    (hids : ∀ id ∈ c.clauses, s.store.Gives id) : Untouched s c (s.awaiting c) where
  openIn := fun _ => (awaits_awaiting hvars).mp
  activeIn := fun _ => (awaitsClause_awaiting hids).mp
  linked := fun _ _ hlink _ => (awaits_awaiting hvars).mpr hlink.right
  mentioned := fun _ _ hid _ hv =>
    iff_of_true ((awaitsClause_awaiting hids).mpr hid) ((awaits_awaiting hvars).mpr hv)

/-- A piece is added, and the next ones come after it. -/
theorem pieces_of_awaits {f' : Fill} (roots : List Var) (h : f.Awaits root)
    (hf' : s.fillFrom f root = .ok f') :
    s.pieces f (root :: roots) d = s.pieces f' roots (d.add f'.vars f'.clauses) := by
  unfold Fill.Awaits at h
  rw [pieces, if_pos h, hf']
  simp only [bind, Except.bind]
  split
  · rename_i hv hc
    rw [hv, hc]
    rfl
  · rename_i hno
    rcases d.add_cases f'.vars f'.clauses with ⟨v, hv, hc, -⟩ | ⟨-, heq⟩
    · exact (hno v hv hc).elim
    · rw [heq]

theorem pieces_of_not_awaits (roots : List Var) (h : ¬ f.Awaits root) :
    s.pieces f (root :: roots) d = s.pieces f roots d := by
  unfold Fill.Awaits at h
  rw [pieces, if_neg h]

/-- **All pieces**, by induction on the roots that are left. -/
theorem Parts.pieces (roots : List Var) (h : Parts s c f.Awaits d) (hs : Sound F s)
    (hvars : ∀ v ∈ c.vars, v.index < s.varCount) (hids : ∀ id ∈ c.clauses, s.store.Gives id)
    (hf : Untouched s c f) (hroots : ∀ v, f.Awaits v → v ∈ roots) :
    ∃ d', s.pieces f roots d = .ok d' ∧ Parts s c (fun _ => False) d' := by
  induction roots generalizing f d with
  | nil =>
    have hnone : f.Awaits = fun _ => False :=
      funext fun v => eq_false fun hv => absurd (hroots v hv) List.not_mem_nil
    rw [hnone] at h
    exact ⟨_, rfl, h.perm (List.reverse_perm _) (List.reverse_perm _)⟩
  | cons root roots ih =>
    by_cases hroot : f.Awaits root
    · obtain ⟨f', hfill, hpiece, hf', hfills⟩ := fillFrom_spec hs hf hvars hids hroot
      rw [pieces_of_awaits roots hroot hfill]
      refine ih (h.add hs hpiece hfills.vars hfills.varsApart) hf' fun v hv => ?_
      rcases List.mem_cons.mp (hroots v ((hfills.vars v).mpr (Or.inl hv))) with rfl | hin
      · exact absurd hv (hfills.varsApart v ((hpiece.mem_vars v).mpr .refl))
      · exact hin
    · rw [pieces_of_not_awaits roots hroot]
      exact ih h hf fun v hv =>
        (List.mem_cons.mp (hroots v hv)).resolve_left fun he => hroot (he ▸ hv)

theorem parts_split (hs : Sound F s) (hvars : ∀ v ∈ c.vars, v.index < s.varCount)
    (hids : ∀ id ∈ c.clauses, s.store.Gives id) :
    ∃ d : Decomposition, s.split c = .ok d.sorted ∧ Parts s c (fun _ => False) d.sorted := by
  have hstart : Parts s c (s.awaiting c).Awaits ⟨[], []⟩ :=
    ⟨⟨fun k hk => absurd hk List.not_mem_nil, fun k hk => absurd hk List.not_mem_nil,
        fun k hk => absurd hk List.not_mem_nil, fun v hv => absurd hv List.not_mem_nil⟩,
      fun v => (awaits_awaiting hvars).symm.trans (or_iff_left List.not_mem_nil).symm,
      fun v hv => absurd hv List.not_mem_nil, List.nodup_nil⟩
  obtain ⟨d, hd, hall⟩ := hstart.pieces c.vars hs hvars hids (untouched_awaiting hvars hids)
    fun v hv => ((awaits_awaiting hvars).mp hv).1
  exact ⟨d, congrArg (Except.map Decomposition.sorted) hd,
    hall.perm (List.mergeSort_perm _ _) (.refl _)⟩

/-! ## Either traversal -/

/-- The same state with another traversal. -/
def following (s : Solver) (t : Traversal) : Solver :=
  { s with options := { s.options with traversal := t } }

theorem Linked.following (t : Traversal) (h : s.Linked c v w) : (s.following t).Linked c v w := by
  cases h with
  | long hv hw hid hmv hmw => exact .long hv hw hid hmv hmw
  | binary hv hw hl hm hpair => exact .binary hv hw hl hm hpair

theorem connected_following (t : Traversal) : (s.following t).Connected c = s.Connected c := by
  have hback : ∀ v w, (s.following t).Linked c v w → s.Linked c v w := fun _ _ hlink =>
    (hlink.following s.options.traversal :)
  funext v w
  refine propext ⟨fun h => ?_, fun h => ?_⟩
  · exact Relation.ReflTransGen.mono hback v w h
  · exact Relation.ReflTransGen.mono (fun _ _ hlink => Linked.following t hlink) v w h

theorem IsPiece.of_following {t : Traversal} {vars : List Var} {clauses : List ClauseId}
    (h : (s.following t).IsPiece c root vars clauses) : s.IsPiece c root vars clauses :=
  ⟨fun v => connected_following (s := s) t ▸ h.mem_vars v, h.varsNodup, h.mem_clauses,
    h.clausesNodup⟩

/-- **The pieces do not depend on the traversal**: where the same variables are
awaited, the same piece is next, and the same ones are awaited after it. -/
theorem pieces_following (t : Traversal) (roots : List Var) {f' : Fill} (hs : Sound F s)
    (hvars : ∀ v ∈ c.vars, v.index < s.varCount) (hids : ∀ id ∈ c.clauses, s.store.Gives id)
    (hf : Untouched s c f) (hf' : Untouched (s.following t) c f')
    (hsame : ∀ v, f'.Awaits v ↔ f.Awaits v) :
    (s.following t).pieces f' roots d = s.pieces f roots d := by
  induction roots generalizing f f' d with
  | nil => rfl
  | cons root roots ih =>
    by_cases hroot : f.Awaits root
    · have hroot' := (hsame root).mpr hroot
      obtain ⟨next, hfill, hpiece, hnext, hfills⟩ := fillFrom_spec hs hf hvars hids hroot
      have hs' : Sound F (s.following t) := hs
      obtain ⟨next', hfill', hpiece', hnext', hfills'⟩ := fillFrom_spec hs' hf' hvars hids hroot'
      obtain ⟨hpermVars, hpermClauses⟩ := hpiece'.of_following.perm hpiece
      rw [pieces_of_awaits roots hroot hfill, pieces_of_awaits roots hroot' hfill',
        d.add_perm hpermVars hpermClauses]
      refine ih hnext hnext' fun v => ?_
      rw [hfills.awaits_iff, hfills'.awaits_iff, hsame, hpermVars.mem_iff]
    · rw [pieces_of_not_awaits roots hroot,
        pieces_of_not_awaits roots fun h => hroot ((hsame root).mp h)]
      exact ih hf hf' hsame

/-- **Both traversals take a component apart alike.** -/
theorem split_following (t : Traversal) (hs : Sound F s)
    (hvars : ∀ v ∈ c.vars, v.index < s.varCount) (hids : ∀ id ∈ c.clauses, s.store.Gives id) :
    (s.following t).split c = s.split c := by
  have hpieces : (s.following t).pieces (s.awaiting c) c.vars ⟨[], []⟩
      = s.pieces (s.awaiting c) c.vars ⟨[], []⟩ :=
    pieces_following t c.vars hs hvars hids (untouched_awaiting hvars hids)
      (untouched_awaiting (s := s.following t) hvars hids) fun _ => Iff.rfl
  exact congrArg (Except.map Decomposition.sorted) hpieces

/-- Taking a component apart succeeds on known variables and given clauses. -/
theorem decompose_ok (hvars : ∀ v ∈ c.vars, v.index < s.varCount)
    (hids : ∀ id ∈ c.clauses, s.store.Gives id) (hd : s.split c = .ok d) :
    ∃ s', s.decompose c = .ok (d, s') := by
  obtain ⟨d₀, hpieces, rfl⟩ := Except.map_eq_ok.mp hd
  unfold awaiting openVars at hpieces
  unfold decompose
  rw [requireVars_iff.mpr hvars, requireClauses_iff.mpr fun id hid => (hids id hid).1]
  simp only [bind, Except.bind, hpieces]
  exact ⟨_, rfl⟩

/-! ## The partition -/

/-- **A partition into connected components**, as the clauses that are not
satisfied connect the open variables. -/
structure Partitions (s : Solver) (c : Component) (d : Decomposition) : Prop where
  /-- Every open variable is in a component or free, and no other one. -/
  mem_vars : ∀ v, v ∈ d.vars ↔ s.OpenIn c v
  /-- Nothing is in two places. -/
  varsNodup : d.vars.Nodup
  /-- Every active clause with an open variable is in a component, and no
  other one. -/
  mem_clauses : ∀ id, id ∈ d.clauses ↔ s.ActiveIn c id ∧ ∃ v, s.OpenIn c v ∧ s.Mentions id v
  clausesNodup : d.clauses.Nodup
  /-- A component has the open variables of its clauses. -/
  whole : ∀ k ∈ d.components, ∀ id ∈ k.clauses, ∀ v, s.OpenIn c v → s.Mentions id v → v ∈ k.vars
  nonempty : ∀ k ∈ d.components, k.vars ≠ []
  /-- Together is what is connected. -/
  together : ∀ v w, s.OpenIn c v → s.OpenIn c w → v ≠ w →
    ((∃ k ∈ d.components, v ∈ k.vars ∧ w ∈ k.vars) ↔ s.Connected c v w)
  /-- Free is what is connected with nothing, and has no clause either. -/
  free : ∀ v, v ∈ d.free ↔ s.OpenIn c v ∧ (∀ w, s.Connected c v w → w = v)
    ∧ ∀ id, s.ActiveIn c id → ¬ s.Mentions id v
  ascending : d.components.Pairwise fun a b => a.size ≤ b.size

namespace Parts

variable (h : Parts s c (fun _ => False) d)

include h

theorem mem_vars (v : Var) : v ∈ d.vars ↔ s.OpenIn c v := by simp [h.vars]

theorem openIn {k : Component} (hk : k ∈ d.components) (hv : v ∈ k.vars) : s.OpenIn c v :=
  (h.mem_vars v).mp (List.mem_append_left _ (List.mem_flatMap.mpr ⟨k, hk, hv⟩))

/-- An open variable is in a component or free. -/
theorem place (hv : s.OpenIn c v) : (∃ k ∈ d.components, v ∈ k.vars) ∨ v ∈ d.free := by
  rcases List.mem_append.mp ((h.mem_vars v).mpr hv) with hin | hin
  · exact Or.inl (List.mem_flatMap.mp hin)
  · exact Or.inr hin

/-- Components are pieces of some root. -/
theorem rooted {k : Component} (hk : k ∈ d.components) :
    ∃ root, s.OpenIn c root ∧ s.IsPiece c root k.vars k.clauses := by
  obtain ⟨root, hroot⟩ := List.exists_mem_of_ne_nil _ (h.nonempty k hk)
  exact ⟨root, h.openIn hk hroot, h.piece k hk root hroot⟩

/-- A free variable has no clause. -/
theorem not_mentions (hv : v ∈ d.free) (hid : s.ActiveIn c id) : ¬ s.Mentions id v := fun hm =>
  absurd (((h.free v hv).mem_clauses id).mpr ⟨hid, v, List.mem_singleton_self v, hm⟩)
    List.not_mem_nil

theorem mem_clauses (id : ClauseId) :
    id ∈ d.clauses ↔ s.ActiveIn c id ∧ ∃ v, s.OpenIn c v ∧ s.Mentions id v := by
  constructor
  · intro hid
    obtain ⟨k, hk, hid⟩ := List.mem_flatMap.mp hid
    obtain ⟨root, -, hpiece⟩ := h.rooted hk
    obtain ⟨hactive, v, hv, hm⟩ := (hpiece.mem_clauses id).mp hid
    exact ⟨hactive, v, h.openIn hk hv, hm⟩
  · rintro ⟨hactive, v, hv, hm⟩
    rcases h.place hv with ⟨k, hk, hin⟩ | hin
    · exact List.mem_flatMap.mpr
        ⟨k, hk, ((h.piece k hk v hin).mem_clauses id).mpr ⟨hactive, v, hin, hm⟩⟩
    · exact absurd hm (h.not_mentions hin hactive)

theorem whole {k : Component} (hk : k ∈ d.components) (hid : id ∈ k.clauses)
    (hv : s.OpenIn c v) (hm : s.Mentions id v) : v ∈ k.vars := by
  obtain ⟨root, hroot, hpiece⟩ := h.rooted hk
  exact hpiece.whole hroot hid hv hm

/-- Components with a common clause have its open variables in common. -/
theorem nodup_clauses : d.clauses.Nodup := by
  have hapart : d.components.Pairwise (Function.onFun List.Disjoint Component.vars) :=
    (List.nodup_flatMap.mp (List.nodup_append.mp h.nodup).1).2
  refine List.nodup_flatMap.mpr
    ⟨fun k hk => ?_, hapart.imp_of_mem fun {k k'} hk hk' hdisjoint => ?_⟩
  · obtain ⟨root, -, hpiece⟩ := h.rooted hk
    exact hpiece.clausesNodup
  · intro id hid hid'
    obtain ⟨root, -, hpiece⟩ := h.rooted hk
    obtain ⟨-, v, hv, hm⟩ := (hpiece.mem_clauses id).mp hid
    exact hdisjoint hv (h.whole hk' hid' (h.openIn hk hv) hm)

theorem together (hv : s.OpenIn c v) (hne : v ≠ w) :
    (∃ k ∈ d.components, v ∈ k.vars ∧ w ∈ k.vars) ↔ s.Connected c v w := by
  constructor
  · rintro ⟨k, hk, hkv, hkw⟩
    exact ((h.piece k hk v hkv).mem_vars w).mp hkw
  · intro hc
    rcases h.place hv with ⟨k, hk, hin⟩ | hin
    · exact ⟨k, hk, hin, ((h.piece k hk v hin).mem_vars w).mpr hc⟩
    · exact absurd (List.mem_singleton.mp (((h.free v hin).mem_vars w).mpr hc)).symm hne

theorem mem_free : v ∈ d.free ↔ s.OpenIn c v ∧ (∀ w, s.Connected c v w → w = v)
    ∧ ∀ id, s.ActiveIn c id → ¬ s.Mentions id v := by
  constructor
  · intro hv
    exact ⟨(h.mem_vars v).mp (List.mem_append_right _ hv),
      fun w hw => List.mem_singleton.mp (((h.free v hv).mem_vars w).mpr hw),
      fun id hactive => h.not_mentions hv hactive⟩
  · rintro ⟨hv, halone, hnone⟩
    refine (h.place hv).resolve_left fun ⟨k, hk, hin⟩ => ?_
    have hpiece := h.piece k hk v hin
    have hsingle : s.IsPiece c v [v] [] :=
      ⟨fun w => List.mem_singleton.trans ⟨fun he => he ▸ .refl, halone w⟩, List.nodup_singleton v,
        fun id => iff_of_false List.not_mem_nil fun ⟨hactive, w, hw, hm⟩ =>
          hnone id hactive (List.mem_singleton.mp hw ▸ hm), List.nodup_nil⟩
    obtain ⟨hvars, hclauses⟩ := hpiece.perm hsingle
    exact h.bound k hk v (List.perm_singleton.mp hvars) (List.perm_nil.mp hclauses)

/-- **Whole pieces make a partition.** -/
theorem partitions (hascending : d.components.Pairwise fun a b => a.size ≤ b.size) :
    s.Partitions c d where
  mem_vars := h.mem_vars
  varsNodup := h.nodup
  mem_clauses := h.mem_clauses
  clausesNodup := h.nodup_clauses
  whole := fun _ hk _ hid _ hv hm => h.whole hk hid hv hm
  nonempty := h.nonempty
  together := fun _ _ hv _ hne => h.together hv hne
  free := fun _ => h.mem_free
  ascending := hascending

end Parts

theorem partitions_split (hs : Sound F s) (hvars : ∀ v ∈ c.vars, v.index < s.varCount)
    (hids : ∀ id ∈ c.clauses, s.store.Gives id) : ∃ d, s.split c = .ok d ∧ s.Partitions c d := by
  obtain ⟨d, hd, hparts⟩ := parts_split hs hvars hids
  exact ⟨d.sorted, hd, hparts.partitions (pairwise_mergeSort_key Component.size _)⟩

/-- **Taking a component apart** gives its connected components, the same ones
in the same order for both traversals. The clauses that the traversal by size
meets have the size it expects. -/
theorem Attained.decompose_partitions (h : Attained s)
    (hvars : ∀ v ∈ c.vars, v.index < s.varCount) (hids : ∀ id ∈ c.clauses, s.store.Gives id) :
    ∃ d, s.Partitions c d ∧ (∃ s', s.decompose c = .ok (d, s'))
      ∧ (∀ t, ∃ s', (s.following t).decompose c = .ok (d, s'))
      ∧ ∀ (l : Lit) (id : ClauseId),
        (id ∈ s.membership.ternary[l].toList → (s.store.lits id).length = 3)
          ∧ (id ∈ s.membership.quaternary[l].toList → (s.store.lits id).length = 4) := by
  have hs := h.sound
  obtain ⟨d, hd, hpartitions⟩ := partitions_split hs hvars hids
  refine ⟨d, hpartitions, decompose_ok hvars hids hd, fun t => ?_, hs.length_of_filed⟩
  rw [← split_following t hs hvars hids] at hd
  exact decompose_ok (s := s.following t) hvars hids hd

/-- A clause and a pair apart from each other, and a variable without a clause. -/
def sparse : Formula where
  varCount := 6
  clauses := [[Var.pos ⟨0⟩, Var.pos ⟨1⟩, Var.pos ⟨2⟩], [Var.pos ⟨3⟩, Var.pos ⟨4⟩]]

theorem ofFormula_sparse : ofFormula sparse {}
    = (((((new {}).growTo 6).growTo 3).insertClause [Var.pos ⟨0⟩, Var.pos ⟨1⟩, Var.pos ⟨2⟩]
        false).growTo 5).insertClause [Var.pos ⟨3⟩, Var.pos ⟨4⟩] false :=
  ofFormula_of_ascending (by decide) rfl {}

/-- The state after a decision that leaves the long clause two open literals. -/
def sparseDecided : Solver :=
  (((ofFormula sparse {}).decide (Var.neg ⟨2⟩)).toOption.map Prod.snd).getD (ofFormula sparse {})

/-- All variables with the long clause. -/
def sparseSource : Component := ⟨Var.range 6, [0]⟩

theorem attained_sparseDecided : Attained sparseDecided := by
  have hopen : (ofFormula sparse {}).trail.isAssigned ⟨2⟩ = false := by
    rw [ofFormula_sparse]
    decide +kernel
  unfold sparseDecided
  cases hr : ((ofFormula sparse {}).decide (Var.neg ⟨2⟩)).toOption with
  | none => exact .ofFormula sparse {}
  | some r =>
    have hcall : (ofFormula sparse {}).decide (Var.neg ⟨2⟩) = .ok (r.1, r.2) :=
      Except.toOption_eq_some.mp hr
    exact .call (F := sparse.clauses) (.ofFormula sparse {}) (.decide hopen hcall)

theorem sparseDecided_size : sparseDecided.varCount = 6 ∧ sparseDecided.store.long.size = 1
    ∧ (sparseDecided.store.clause 0).learnt = false := by
  unfold sparseDecided
  rw [ofFormula_sparse]
  decide +kernel

theorem sparseSource_known : ∀ v ∈ sparseSource.vars, v.index < sparseDecided.varCount :=
  fun _ hv => sparseDecided_size.1 ▸ Var.mem_range.mp hv

theorem sparseSource_given : ∀ id ∈ sparseSource.clauses, sparseDecided.store.Gives id := by
  intro id hid
  obtain rfl := List.mem_singleton.mp hid
  exact ⟨sparseDecided_size.2.1 ▸ Nat.one_pos, sparseDecided_size.2.2⟩

theorem Attained.decompose_partitions_sparse : ∃ d s',
    (∀ v ∈ sparseSource.vars, v.index < sparseDecided.varCount)
      ∧ (∀ id ∈ sparseSource.clauses, sparseDecided.store.Gives id)
      ∧ sparseDecided.decompose sparseSource = .ok (d, s') ∧ d.free = [⟨5⟩]
      ∧ sparseDecided.Partitions sparseSource d
      ∧ ∀ t, ∃ s', (sparseDecided.following t).decompose sparseSource = .ok (d, s') := by
  have hrun : (sparseDecided.decompose sparseSource).toOption.any (fun r => r.1.free = [⟨5⟩])
      = true := by
    unfold sparseDecided
    rw [ofFormula_sparse]
    decide +kernel
  obtain ⟨d, hpartitions, ⟨s', hs'⟩, heither, -⟩ :=
    attained_sparseDecided.decompose_partitions sparseSource_known sparseSource_given
  rw [hs'] at hrun
  exact ⟨d, s', sparseSource_known, sparseSource_given, hs', of_decide_eq_true hrun, hpartitions,
    heither⟩

end Solver

end Cleave
