import Cleave.Proofs.Implications
import Cleave.Proofs.Meaning
import Cleave.Proofs.TrailLaws
import Cleave.Solver.State
import Mathlib.Data.List.Induction

/-!
# The invariant of the solver

`Solver.Sound F s` says what every state of a solver for the clauses `F`
keeps, whatever was called before: all that is stored follows from `F`, every
literal of the trail is justified by what stands before it, the watch lists
name exactly the clauses that watch, and the conflict flag is only up if `F`
has no model.

It is a statement about six parts of the state alone (`Consistent`), so that
whatever touches other parts (statistics, activity, the scope, the pool of
models) keeps it without an argument.

A literal is *justified* by the trail before it: it is the decision that
opens a level, or a root fact that `F` entails, or the only literal left of a
clause whose other literals became false earlier. From this it follows that a level's part of
the trail is entailed by `F` and the decisions up to that level
(`Consistent.holds_of_decisions`).
-/

namespace Cleave

/-! ## The clauses -/

namespace ClauseStore

/-- The long clause at a position has a literal among its two watched ones. -/
def Watches (s : ClauseStore) (id : ClauseId) (l : Lit) : Prop :=
  id < s.long.size ∧ ((s.clause id).first = l ∨ (s.clause id).second = l)

/-- **A well-formed store** over `count` variables: its clauses lie within the
variables, binary ones are listed twice, and a long clause has three or more
literals and mentions each variable once. -/
structure Wf (s : ClauseStore) (count : Nat) : Prop where
  sizeImplications : s.implications.size = 2 * count
  impliedInRange : ∀ l, ∀ b ∈ s.implied l, b.var.index < count
  /-- A given binary clause is listed with both its literals. -/
  symmetric : ∀ a, ∀ b ∈ s.partners a, a ∈ s.partners b
  /-- So is every binary clause, given or learnt. -/
  contraposed : ∀ l, ∀ b ∈ s.implied l, l.neg ∈ s.implied b.neg
  distinct : ∀ l, ∀ b ∈ s.implied l, b.var ≠ l.var
  unitsInRange : ∀ l ∈ s.units.toList, l.var.index < count
  longThree : ∀ c ∈ s.long.toList, 3 ≤ c.lits.length
  longNodup : ∀ c ∈ s.long.toList, (c.lits.map Lit.var).Nodup
  longInRange : ∀ c ∈ s.long.toList, ∀ l ∈ c.lits, l.var.index < count

/-- Every clause of the store follows from `F`. -/
structure EntailedBy (s : ClauseStore) (F : List Clause) : Prop where
  units : ∀ l ∈ s.units.toList, Entails F [l]
  binary : ∀ l, ∀ b ∈ s.implied l, Entails F [l.neg, b]
  long : ∀ c ∈ s.long.toList, Entails F c.lits

theorem clause_mem {s : ClauseStore} {id : ClauseId} (h : id < s.long.size) :
    s.clause id ∈ s.long.toList := by
  simp [clause, Array.getD, h]

/-- A long clause watches two different literals. -/
theorem Wf.first_ne_second {s : ClauseStore} {count : Nat} (h : s.Wf count) {id : ClauseId}
    (hid : id < s.long.size) : (s.clause id).first ≠ (s.clause id).second := by
  intro he
  refine (List.nodup_cons.mp (h.longNodup _ (clause_mem hid))).1 ?_
  rw [he]
  exact List.mem_cons_self

theorem code_lt_of_implied {s : ClauseStore} {l b : Lit} (hb : b ∈ s.implied l) :
    l.code < s.implications.size := by
  by_contra hno
  unfold implied at hb
  rw [LitTable.get_of_size_le _ (Nat.le_of_not_lt hno)] at hb
  cases hb

theorem mem_implied_of_partner {s : ClauseStore} {a b : Lit} (hb : b ∈ s.partners a) :
    b ∈ s.implied a.neg :=
  List.mem_of_mem_take hb

theorem EntailedBy.clause {s : ClauseStore} {F : List Clause} (h : s.EntailedBy F)
    {id : ClauseId} (hid : id < s.long.size) : Entails F (s.lits id) :=
  h.long _ (clause_mem hid)

end ClauseStore

/-- The watch lists name exactly the clauses that watch a literal, each
once. -/
structure WatchesExactly (watches : LitTable (Array ClauseId)) (store : ClauseStore)
    (count : Nat) : Prop where
  size : watches.size = 2 * count
  nodup : ∀ l : Lit, watches[l].toList.Nodup
  mem_iff : ∀ (l : Lit) (id : ClauseId), id ∈ watches[l].toList ↔ store.Watches id l

/-- The classes of long clauses that the membership index keeps apart. -/
inductive Width where
  | ternary
  | quaternary
  | wide
deriving DecidableEq

/-- The class of a number of literals. -/
def Width.of : Nat → Width
  | 3 => .ternary
  | 4 => .quaternary
  | _ => .wide

/-- The table of a class. -/
def Membership.table (m : Membership) : Width → LitTable (Array ClauseId)
  | .ternary => m.ternary
  | .quaternary => m.quaternary
  | .wide => m.wide

/-- The clause at a position of the arena is a given one. -/
def ClauseStore.Gives (s : ClauseStore) (id : ClauseId) : Prop :=
  id < s.long.size ∧ (s.clause id).learnt = false

/-- **An exact index**: it lists the given long clauses and no others, each
under its variables, and under its literals in the table of its class. All lists
are ascending, so none names a clause twice, and the clauses are counted. -/
structure Listed (membership : Membership) (store : ClauseStore) (count : Nat) : Prop where
  size : membership.byVar.size = count
  sizes : ∀ w, (membership.table w).size = 2 * count
  mem_ofVar : ∀ v id, id ∈ membership.ofVar v ↔ store.Gives id ∧ ∃ l ∈ store.lits id, l.var = v
  mem_table : ∀ w (l : Lit) id, id ∈ (membership.table w)[l].toList
    ↔ store.Gives id ∧ l ∈ store.lits id ∧ Width.of (store.lits id).length = w
  three_le : ∀ id, store.Gives id → 3 ≤ (store.lits id).length
  ascending_ofVar : ∀ v, (membership.ofVar v).Pairwise (· < ·)
  ascending_table : ∀ w (l : Lit), (membership.table w)[l].toList.Pairwise (· < ·)
  indexed : membership.indexed = store.givenLong.length

/-! ## The trail -/

/-- What a reason says about a literal that stands behind `pre` on the trail:
the clause is stored, and its other literals became false before. A long clause
watches the literal. -/
def Explains (store : ClauseStore) (t : Trail) (pre : List Lit) (l : Lit) : Reason → Prop
  | .decision => t.levelOf l.var = 0 ∨ pre.length ∈ t.starts.toList
  | .binary other => other ∈ store.implied l.neg ∧ other.neg ∈ pre
  | .long id => store.Watches id l ∧ ∀ m ∈ store.lits id, m ≠ l → m.neg ∈ pre

/-- **A justified literal**: its level is the one in whose part it stands,
unless it is a root fact, and its reason explains it. What opens a level is a
decision, never a root fact. -/
structure Justified (F : List Clause) (store : ClauseStore) (t : Trail) (pre : List Lit)
    (l : Lit) : Prop where
  level : t.levelOf l.var = 0 ∨ t.levelOf l.var = t.depth pre.length
  root : t.levelOf l.var = 0 → Entails F [l]
  explained : Explains store t pre l (t.reasonOf l.var)
  opened : pre.length ∈ t.starts.toList → t.levelOf l.var ≠ 0 ∧ t.reasonOf l.var = .decision

/-! ## The invariant -/

/-- **What every state keeps**, part by part. -/
structure Consistent (F : List Clause) (count : Nat) (clauses : ClauseStore)
    (index : Membership) (lists : LitTable (Array ClauseId)) (t : Trail)
    (facts : List Lit) (conflicted : Bool) : Prop where
  trail : t.Wf count
  store : clauses.Wf count
  watches : WatchesExactly lists clauses count
  listed : Listed index clauses count
  entailed : clauses.EntailedBy F
  justified : ∀ pre l post, t.lits.toList = pre ++ l :: post → Justified F clauses t pre l
  /-- A pending root fact is true, and known as a root fact. -/
  pending : ∀ l ∈ facts, l ∈ t.lits.toList ∧ t.levelOf l.var = 0
  refuted : conflicted = true → ¬ Satisfiable F

/-- **The invariant of a solver** for the clauses `F`. -/
abbrev Solver.Sound (F : List Clause) (s : Solver) : Prop :=
  Consistent F s.varCount s.store s.membership s.watches s.trail s.pendingFacts s.conflicted

theorem Explains.of_eq {store : ClauseStore} {t u : Trail} {pre : List Lit} {l : Lit}
    {r : Reason} (h : Explains store t pre l r)
    (hlevel : u.levelOf l.var = t.levelOf l.var)
    (hstarts : pre.length ∈ t.starts.toList → pre.length ∈ u.starts.toList) :
    Explains store u pre l r := by
  cases r with
  | decision => exact h.imp (fun h0 => hlevel.trans h0) hstarts
  | binary other => exact h
  | long id => exact h

/-- A reason that is no decision makes its literal true. -/
theorem Explains.holds {F : List Clause} {store : ClauseStore} {t : Trail} {pre : List Lit}
    {l : Lit} {r : Reason} (h : Explains store t pre l r) (hr : r ≠ .decision)
    (hstore : store.EntailedBy F) {ν : Valuation} (hν : allHold ν F = true)
    (hpre : ∀ m ∈ pre, m.holds ν = true) : l.holds ν = true := by
  cases r with
  | decision => exact absurd rfl hr
  | binary other =>
    have hother := Lit.not_holds_of_neg (hpre _ h.2)
    have hpair := hstore.binary l.neg other h.1
    rw [Lit.neg_neg] at hpair
    exact (Clause.holds_pair.mp (hpair ν hν)).resolve_right (by simp [hother])
  | long id =>
    exact Clause.holds_of_others_false (hstore.clause h.1.1 ν hν)
      fun m hm hne => Lit.not_holds_of_neg (hpre _ (h.2 m hm hne))

/-- A justification is kept if level, reason and depth of the literal are. -/
theorem Justified.of_eq {F : List Clause} {store : ClauseStore} {t u : Trail} {pre : List Lit}
    {l : Lit} (h : Justified F store t pre l)
    (hlevel : u.levelOf l.var = t.levelOf l.var) (hreason : u.reasonOf l.var = t.reasonOf l.var)
    (hdepth : u.depth pre.length = t.depth pre.length)
    (hstarts : pre.length ∈ t.starts.toList ↔ pre.length ∈ u.starts.toList) :
    Justified F store u pre l where
  level := by rw [hlevel, hdepth]; exact h.level
  root := fun h0 => h.root (hlevel ▸ h0)
  explained := by
    rw [hreason]
    exact h.explained.of_eq hlevel hstarts.mp
  opened := by
    rw [hlevel, hreason]
    exact fun hstart => h.opened (hstarts.mpr hstart)

/-- A justification is kept by clauses that entail the literal. -/
theorem Justified.transfer {F G : List Clause} {store : ClauseStore} {t : Trail}
    {pre : List Lit} {l : Lit} (h : Justified F store t pre l)
    (hroot : Entails F [l] → Entails G [l]) : Justified G store t pre l where
  level := h.level
  root := fun h0 => hroot (h.root h0)
  explained := h.explained
  opened := h.opened

namespace Consistent

variable {F : List Clause} {count : Nat} {store : ClauseStore} {membership : Membership}
  {watches : LitTable (Array ClauseId)} {t : Trail} {pending : List Lit} {conflicted : Bool}

section

variable (h : Consistent F count store membership watches t pending conflicted)

include h

theorem justified_of_mem {l : Lit} (hl : l ∈ t.lits.toList) :
    ∃ pre post, t.lits.toList = pre ++ l :: post ∧ Justified F store t pre l := by
  obtain ⟨pre, post, hsplit⟩ := List.append_of_mem hl
  exact ⟨pre, post, hsplit, h.justified pre l post hsplit⟩

/-- A literal of level 0 is entailed. -/
theorem entails_root {l : Lit} (hl : l ∈ t.lits.toList) (h0 : t.levelOf l.var = 0) :
    Entails F [l] := by
  obtain ⟨pre, post, -, hj⟩ := h.justified_of_mem hl
  exact hj.root h0

/-- **One literal.** Under a valuation of `F` that makes everything before a
literal true, the literal is true unless it is a decision. -/
theorem holds_next {ν : Valuation} (hν : allHold ν F = true) {pre post : List Lit} {l : Lit}
    (hsplit : t.lits.toList = pre ++ l :: post) (hpre : ∀ m ∈ pre, m.holds ν = true)
    (hdec : pre.length ∈ t.starts.toList → l.holds ν = true) : l.holds ν = true := by
  have hj := h.justified pre l post hsplit
  by_cases hr : t.reasonOf l.var = .decision
  · have hex := hj.explained
    rw [hr] at hex
    exact hex.elim (fun h0 => (hj.root h0).lit hν) hdec
  · exact hj.explained.holds hr h.entailed hν hpre

/-- **A prefix of the trail** is true under every valuation of `F` that makes
its decisions true. -/
theorem holds_of_decisions {ν : Valuation} (hν : allHold ν F = true) {pre post : List Lit}
    (hsplit : t.lits.toList = pre ++ post)
    (hdec : ∀ q d r, pre = q ++ d :: r → q.length ∈ t.starts.toList → d.holds ν = true) :
    ∀ l ∈ pre, l.holds ν = true := by
  -- from the front to the back, each literal by those before it
  induction pre using List.reverseRecOn generalizing post with
  | nil => simp
  | append_singleton pre l ih =>
    have hsplit' : t.lits.toList = pre ++ l :: post := by simpa using hsplit
    have hpre : ∀ m ∈ pre, m.holds ν = true :=
      ih hsplit' fun q d r hq => hdec q d (r ++ [l]) (by simp [hq])
    intro m hm
    rcases List.mem_append.mp hm with hm | hm
    · exact hpre m hm
    · rw [List.mem_singleton.mp hm]
      exact h.holds_next hν hsplit' hpre fun hstart => hdec pre l [] (by simp) hstart

/-! ## What keeps the invariant -/

/-- Assigning an open variable for a reason that the trail bears out. -/
theorem push {l : Lit} {level : Nat} {reason : Reason} (hl : l.var.index < count)
    (hopen : t.isAssigned l.var = false) (hlevel : level = 0 ∨ level = t.level)
    (hroot : level = 0 → Entails F [l])
    (hex : Explains store (t.push l level reason) t.lits.toList l reason) :
    Consistent F count store membership watches (t.push l level reason) pending conflicted where
  trail := h.trail.push hl hopen level reason
  store := h.store
  watches := h.watches
  listed := h.listed
  entailed := h.entailed
  justified := by
    intro pre m post hsplit
    rw [Trail.lits_push] at hsplit
    rcases append_singleton_eq_split hsplit with ⟨rfl, rfl, rfl⟩ | ⟨post', hold, -⟩
    · refine ⟨?_, ?_, ?_, ?_⟩
      · rw [Trail.levelOf_push_self h.trail.sizeLevels hl, Trail.depth_push,
          h.trail.depth_of_size_le (by simp)]
        exact hlevel
      · rw [Trail.levelOf_push_self h.trail.sizeLevels hl]
        exact hroot
      · rw [Trail.reasonOf_push_self h.trail.sizeReasons hl]
        exact hex
      · -- every level has its decision already
        intro hstart
        have hlt := h.trail.startsLt _ hstart
        rw [Array.length_toList] at hlt
        exact absurd hlt (Nat.lt_irrefl _)
    · have hne := h.trail.var_ne_of_open hopen m (by simp [hold])
      exact (h.justified pre m post' hold).of_eq (Trail.levelOf_push_ne t hne _ _)
        (Trail.reasonOf_push_ne t hne _ _) rfl .rfl
  pending := by
    intro m hm
    obtain ⟨hmem, h0⟩ := h.pending m hm
    have hne := h.trail.var_ne_of_open hopen m hmem
    exact ⟨by simp [hmem], (Trail.levelOf_push_ne t hne _ _).trans h0⟩
  refuted := h.refuted

/-- Assigning an implied literal at the current level. -/
theorem imply {l : Lit} {reason : Reason} (hl : l.var.index < count)
    (hopen : t.isAssigned l.var = false) (hreason : reason ≠ .decision)
    (hex : Explains store t t.lits.toList l reason) :
    Consistent F count store membership watches (t.push l t.level reason) pending conflicted := by
  refine h.push hl hopen (Or.inr rfl) (fun h0 ν hν => ?_) ?_
  · -- at level 0 everything on the trail is entailed
    have hstarts : t.starts.toList = [] := by
      simpa [Trail.level] using h0
    have hall : ∀ m ∈ t.lits.toList, m.holds ν = true :=
      h.holds_of_decisions hν (List.append_nil _).symm (by simp [hstarts])
    exact Clause.holds_singleton.mpr (hex.holds hreason h.entailed hν hall)
  · cases reason with
    | decision => exact absurd rfl hreason
    | binary other => exact hex
    | long id => exact hex

/-- Opening a level with a decision on an open variable. -/
theorem decided {l : Lit} (hl : l.var.index < count) (hopen : t.isAssigned l.var = false) :
    Consistent F count store membership watches (t.decided l) pending conflicted where
  trail := h.trail.decided hl hopen
  store := h.store
  watches := h.watches
  listed := h.listed
  entailed := h.entailed
  justified := by
    intro pre m post hsplit
    rw [Trail.lits_decided] at hsplit
    rcases append_singleton_eq_split hsplit with ⟨rfl, rfl, rfl⟩ | ⟨post', hold, -⟩
    · have hlevel := Trail.levelOf_decided_self h.trail.sizeLevels hl
      have hlen : t.lits.toList.length = t.lits.size := Array.length_toList
      have hreason := Trail.reasonOf_decided_self h.trail.sizeReasons hl
      refine ⟨Or.inr ?_, ?_, ?_, fun _ => ⟨by rw [hlevel]; exact Nat.succ_ne_zero _, hreason⟩⟩
      · rw [hlevel, hlen, h.trail.depth_decided_size]
      · rw [hlevel]
        exact fun h0 => absurd h0 (by simp)
      · rw [hreason]
        exact Or.inr (by simp)
    · have hne := h.trail.var_ne_of_open hopen m (by simp [hold])
      have hlt : pre.length < t.lits.size := by
        rw [← Array.length_toList, hold]
        simp
      exact (h.justified pre m post' hold).of_eq (Trail.levelOf_decided_ne t hne)
        (Trail.reasonOf_decided_ne t hne) (Trail.depth_decided_of_lt t l hlt)
        (by simp [Nat.ne_of_lt hlt])
  pending := by
    intro m hm
    obtain ⟨hmem, h0⟩ := h.pending m hm
    have hne := h.trail.var_ne_of_open hopen m hmem
    exact ⟨by simp [hmem], (Trail.levelOf_decided_ne t hne).trans h0⟩
  refuted := h.refuted

/-- Moving the head over the trail. -/
theorem withHead {head : Nat} (hle : head ≤ t.lits.size) :
    Consistent F count store membership watches { t with head := head } pending conflicted where
  trail := { h.trail with headLe := hle }
  store := h.store
  watches := h.watches
  listed := h.listed
  entailed := h.entailed
  justified := fun pre l post hsplit =>
    (h.justified pre l post hsplit).of_eq rfl rfl rfl .rfl
  pending := h.pending
  refuted := h.refuted

theorem rewind (pos : Nat) :
    Consistent F count store membership watches (t.rewind pos) pending conflicted :=
  h.withHead (Nat.le_trans (Nat.min_le_left _ _) h.trail.headLe)

/-- The conflict flag, once there is no model. -/
theorem refute (hunsat : ¬ Satisfiable F) :
    Consistent F count store membership watches t pending true where
  __ := h
  refuted := fun _ => hunsat

/-- The invariant carries over to clauses that entail as much. -/
theorem transfer {G : List Clause} (hent : ∀ c, Entails F c → Entails G c)
    (hunsat : ¬ Satisfiable F → ¬ Satisfiable G) :
    Consistent G count store membership watches t pending conflicted where
  trail := h.trail
  store := h.store
  watches := h.watches
  listed := h.listed
  entailed := ⟨fun l hl => hent _ (h.entailed.units l hl),
    fun l b hb => hent _ (h.entailed.binary l b hb), fun c hc => hent _ (h.entailed.long c hc)⟩
  justified := fun pre l post hsplit =>
    (h.justified pre l post hsplit).transfer (hent _)
  pending := h.pending
  refuted := fun hc => hunsat (h.refuted hc)

/-- More given clauses entail as much. -/
theorem mono {G : List Clause} (hsub : ∀ c ∈ F, c ∈ G) :
    Consistent G count store membership watches t pending conflicted :=
  h.transfer (fun _ hc => hc.mono hsub) fun hno ⟨ν, hν⟩ =>
    hno ⟨ν, allHold_iff.mpr fun c hcF => allHold_iff.mp hν c (hsub c hcF)⟩

/-- Clauses without a model entail everything. -/
theorem of_unsatisfiable {G : List Clause} (hG : ¬ Satisfiable G) :
    Consistent G count store membership watches t pending conflicted :=
  h.transfer (fun c _ => .of_not_satisfiable hG c) fun _ => hG

end

end Consistent

/-! ## Arguments that are checked -/

namespace Solver

theorem requireVars_iff {s : Solver} {c : Component} :
    s.requireVars c = .ok () ↔ ∀ v ∈ c.vars, v.index < s.varCount := by
  have hnone : c.unknownVar? s.varCount = none ↔ ∀ v ∈ c.vars, v.index < s.varCount := by
    simp [Component.unknownVar?]
  unfold requireVars
  rw [← hnone]
  cases c.unknownVar? s.varCount <;> simp

theorem requireClauses_iff {s : Solver} {c : Component} :
    s.requireClauses c = .ok () ↔ ∀ id ∈ c.clauses, id < s.store.long.size := by
  have hnone : (c.clauses.find? fun id => s.store.long.size ≤ id) = none
      ↔ ∀ id ∈ c.clauses, id < s.store.long.size := by
    simp
  unfold requireClauses
  rw [← hnone]
  cases c.clauses.find? fun id => s.store.long.size ≤ id <;> simp

end Solver

end Cleave
