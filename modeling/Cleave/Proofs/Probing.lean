import Cleave.Backbone.Probing
import Cleave.Proofs.Solving

/-!
# What probing keeps

Probing starts in a state `b` and comes back to the level of `b` after every
probe. There it either goes on, with the clauses settled (`Solver.Ready`), or
it has found a clause that `F` entails and that is false
(`Solver.Disproved`).

A probe opens one level above. A conflict there, or a search that refutes it,
gives a clause that is unit or false at the level below: `Solver.Refuting`.
-/

namespace Cleave

namespace Solver

variable {F : List Clause} {b s s' : Solver} {n₀ : Nat} {c : Component} {done : List Lit}

/-! ## At the level of the base -/

/-- **Back at the level of `b`**, maybe with literals still to be
propagated. -/
structure AtLevel (F : List Clause) (b : Solver) (n₀ : Nat) (s : Solver) : Prop where
  sound : Sound F s
  within : Within b s
  level : s.level = b.level
  settled : ∀ done, SettledTo done n₀ b → ∃ n, n₀ ≤ n ∧ SettledTo done n s

/-- **Ready for a probe**: at the level of `b`, with everything settled. -/
structure Ready (F : List Clause) (b : Solver) (n₀ : Nat) (s : Solver) : Prop where
  sound : Sound F s
  within : Within b s
  level : s.level = b.level
  settled : ∀ done, SettledTo done n₀ b → Settled done s.store s.trail.lits.toList

/-- **A clause that is false at the level of `b`**, or the empty one. -/
structure Disproved (F : List Clause) (b : Solver) (n₀ : Nat) (reported : Clause) (s : Solver) :
    Prop where
  sound : Sound F s
  within : Within b s
  level : s.level = b.level
  clause : (reported = [] ∧ s.conflicted = true)
    ∨ (0 < s.level ∧ reported ≠ [] ∧ Entails F reported
      ∧ ∀ l ∈ reported, l.neg ∈ s.trail.lits.toList)
  settled : ∀ done, SettledTo done n₀ b → ∃ n, n₀ ≤ n ∧ SettledBut done reported n s

theorem Disproved.entailed {clause : Clause} (h : Disproved F b n₀ clause s) :
    Entails F clause := by
  rcases h.clause with ⟨-, hconf⟩ | ⟨-, -, hent, -⟩
  · exact .of_not_satisfiable (h.sound.refuted hconf) _
  · exact hent

/-- The empty clause is only reported by a refuted solver. -/
theorem Disproved.conflicted (h : Disproved F b n₀ [] s) : s.conflicted = true := by
  rcases h.clause with ⟨-, hconf⟩ | ⟨-, hne, -⟩
  · exact hconf
  · exact absurd rfl hne

theorem Disproved.isFalse {clause : Clause} (h : Disproved F b n₀ clause s) :
    ∀ l ∈ clause, l.neg ∈ s.trail.lits.toList := by
  rcases h.clause with ⟨rfl, -⟩ | ⟨-, -, -, hfalse⟩
  · simp
  · exact hfalse

/-- **A refutation to be applied** at the level of `b`: the first literal is
open, or false like the others. -/
structure Refuting (F : List Clause) (b : Solver) (n₀ : Nat) (learnt : Learnt) (s : Solver) :
    Prop where
  sound : Sound F s
  within : Within b s
  level : s.level = b.level
  clause : (learnt = .empty ∧ s.conflicted = true)
    ∨ ∃ first rest, learnt.lits = first :: rest ∧ Learnt.Valid F s learnt
        ∧ (∀ m ∈ rest, m.neg ∈ s.trail.lits.toList)
        ∧ ((first.neg ∈ s.trail.lits.toList ∧ 0 < s.level)
          ∨ s.trail.isAssigned first.var = false)
  settled : ∀ done, SettledTo done n₀ b → ∃ n, n₀ ≤ n ∧ SettledBut done learnt.lits n s
    ∧ (n = s.trail.lits.size ∨ ∀ l ∈ learnt.lits, l.neg ∈ s.trail.lits.toList)

theorem SettledTo.of_all (hs : Sound F s) (h : Settled done s.store s.trail.lits.toList) :
    SettledTo done s.trail.lits.size s :=
  ⟨hs.trail.headLe, Nat.le_refl _, h.mono fun _ hl => List.mem_of_mem_take hl⟩

theorem SettledTo.all (h : SettledTo done s.trail.lits.size s) :
    Settled done s.store s.trail.lits.toList := by
  simpa [List.take_of_length_le] using h.settled

theorem Ready.atLevel (h : Ready F b n₀ s) : AtLevel F b n₀ s :=
  ⟨h.sound, h.within, h.level, fun done hb =>
    ⟨_, Nat.le_trans hb.size h.within.size_le, .of_all h.sound (h.settled done hb)⟩⟩

theorem AtLevel.own (h : AtLevel F b n₀ s) : AtLevel F s s.trail.lits.size s :=
  ⟨h.sound, .refl h.sound, rfl, fun _ hn => ⟨_, Nat.le_refl _, hn⟩⟩

/-- Every state is ready as its own base. -/
theorem Ready.own (h : Ready F b n₀ s) : Ready F s s.trail.lits.size s :=
  ⟨h.sound, .refl h.sound, rfl, fun _ hn => hn.all⟩

theorem AtLevel.searching (h : AtLevel F b n₀ s) : Searching F b b.level n₀ s :=
  ⟨h.sound, h.within, Nat.le_of_eq h.level.symm, h.settled, fun hlt => absurd hlt (by
    rw [h.level]
    exact Nat.lt_irrefl _)⟩

theorem Ready.withStats (h : Ready F b n₀ s) (stats : Statistics) :
    Ready F b n₀ { s with stats := stats } :=
  ⟨h.sound, h.within, h.level, h.settled⟩

/-- A propagation at the level of `b` leaves it ready, or ends with a
conflict. -/
theorem AtLevel.propagate {r : Option Conflict} (h : AtLevel F b n₀ s)
    (hp : s.propagate = (r, s')) :
    (r = none → Ready F b n₀ s')
      ∧ ∀ c, r = some c → Conflicting F b b.level n₀ s' c ∧ s'.level = b.level := by
  obtain ⟨hnone, hsome⟩ := h.searching.propagate hp
  have hlevel : s'.level = b.level :=
    (propagate_spec h.sound hp).1.grown.level.trans h.level
  refine ⟨fun hr => ?_, fun c hc => ⟨hsome c hc, hlevel⟩⟩
  obtain ⟨hs', -, hset⟩ := hnone hr
  exact ⟨hs'.sound, hs'.within, hlevel, hset⟩

/-- The literals of a conflict stand on the trail. -/
theorem Sound.conflictLevel_le (hs : Sound F s) {conflict : Conflict}
    (href : Refutes F s conflict) : s.conflictLevel conflict ≤ s.level := by
  refine (foldl_max_le_iff fun l : Lit => s.trail.levelOf l.var).mpr ⟨Nat.zero_le _, fun l hl => ?_⟩
  exact hs.levelOf_le_level (m := l.neg) (href.isFalse l hl)

/-- Learning from a conflict at the level of `b`. -/
theorem Conflicting.disproved {conflict : Conflict} {learnt : Learnt}
    (h : Conflicting F b b.level n₀ s conflict) (hlevel : s.level = b.level)
    (hr : s.refute conflict = .ok (learnt, s')) : Disproved F b n₀ learnt.lits s' := by
  obtain ⟨hs', ⟨rfl, rfl, -⟩ | ⟨lesson, hv, hl, hlits, hval⟩⟩ := refute_spec h.sound h.refutes hr
  · refine ⟨hs', h.within, hlevel, Or.inl ⟨rfl, rfl⟩, fun done hb => ?_⟩
    obtain ⟨n, hn₀, -, hn, hset⟩ := h.settled done hb
    exact ⟨n, hn₀, .of_settled _ hn hset⟩
  · have htrail : s'.trail = s.trail := (congrArg Solver.trail hl.others).symm
    have hlevel' : s'.level = s.level := congrArg Trail.level htrail
    have hL : s.trail.levelOf lesson.first.neg.var = s.conflictLevel conflict := hv.level
    have hle : s.trail.levelOf lesson.first.neg.var ≤ s.level :=
      h.sound.levelOf_le_level (hv.isFalse lesson.first List.mem_cons_self)
    have hbj := hv.backjump
    refine ⟨hs', h.within.learns hl, hlevel'.trans hlevel,
      Or.inr ⟨by omega, by simp [hlits], hval.entailed, ?_⟩, fun done hb => ?_⟩
    · rw [hlits, htrail]
      exact hv.isFalse
    · obtain ⟨n, hn₀, -, hn, hset⟩ := h.settled done hb
      exact ⟨n, hn₀, hlits ▸ .learns hv h.sound hl hn hset⟩

/-! ## Models of a component -/

/-- **An active clause of a component**: a given one without a true literal,
over one of the component's open variables at least. -/
def Active (s : Solver) (c : Component) (d : Clause) : Prop :=
  s.store.Given d ∧ (∀ l ∈ d, l ∉ s.trail.lits.toList)
    ∧ ∃ l ∈ d, l.var ∈ c.vars ∧ s.trail.isAssigned l.var = false

/-- **A component without loose ends** has all open variables of its active
clauses. -/
def Covered (s : Solver) (c : Component) : Prop :=
  ∀ d, s.Active c d → ∀ l ∈ d, s.trail.isAssigned l.var = false → l.var ∈ c.vars

/-- **A closed component** has all open variables of its active clauses, and
lists the long ones among them. -/
structure Closed (s : Solver) (c : Component) : Prop where
  vars : ∀ d, s.Active c d → ∀ l ∈ d, s.trail.isAssigned l.var = false → l.var ∈ c.vars
  clauses : ∀ id, id < s.store.long.size → (s.store.clause id).learnt = false →
    s.Active c (s.store.lits id) → id ∈ c.clauses

/-- **A model of a component** under the assignment of `b`: it extends the
trail, assigns the open variables and satisfies the active clauses. -/
structure Fits (b : Solver) (c : Component) (pool : ModelPool) (m : Model) : Prop where
  buffer : m.buffer < pool.buffers.size
  trail : ∀ l ∈ b.trail.lits.toList, pool.value m l.var = some l.positive
  assigned : ∀ v ∈ c.vars, b.trail.isAssigned v = false → ∃ p, pool.value m v = some p
  satisfies : ∀ d, b.Active c d → ∃ l ∈ d, pool.value m l.var = some l.positive

theorem Fits.grow {pool pool' : ModelPool} {m : Model} (h : Fits b c pool m)
    (hext : pool.Extends pool') : Fits b c pool' m where
  buffer := Nat.lt_of_lt_of_le h.buffer hext.size
  trail := fun l hl => (hext.value h.buffer _).trans (h.trail l hl)
  assigned := fun v hv ho => (h.assigned v hv ho).imp fun _ hp => (hext.value h.buffer _).trans hp
  satisfies := fun d hd => (h.satisfies d hd).imp fun _ hl =>
    ⟨hl.1, (hext.value h.buffer _).trans hl.2⟩

/-- A model that a search found fits its component. -/
theorem Found.fits {known start : List Lit} {m : Model} (h : Found c s.pool start known m)
    (hb : Sound F b) (hw : Within b s) (hstart : b.trail.lits.toList <+: start)
    (hset : Settled [] s.store known) (hcovered : b.Covered c) : Fits b c s.pool m := by
  have hsub : ∀ l ∈ b.trail.lits.toList, l ∈ known := fun l hl =>
    (hstart.trans h.starts).subset hl
  refine ⟨h.buffer, fun l hl => (h.values l).mpr (hsub l hl), fun v hv _ => ?_, fun d hd => ?_⟩
  · obtain ⟨p, hp⟩ := h.assigned v hv
    exact ⟨p, (h.values _).mpr hp⟩
  · obtain ⟨l, hl, hk⟩ := hset.satisfies_kept hw.given hd.1 fun l hl => by
      cases ha : b.trail.isAssigned l.var with
      | false => exact h.assigned _ (hcovered d hd l hl ha)
      | true =>
        obtain ⟨x, hx, hv⟩ := hb.trail.isAssigned_iff.mp ha
        exact ⟨x.positive, hv ▸ hsub x hx⟩
    exact ⟨l, hl, (h.values l).mpr hk⟩

/-- **A ledger gets more models**, and these fit. -/
structure Enters (b : Solver) (n₀ : Nat) (c : Component) (ledger : ModelLedger)
    (pool : ModelPool) (ledger' : ModelLedger) (pool' : ModelPool) : Prop where
  pool : pool.Extends pool'
  models : ∃ added, ledger'.models = ledger.models ++ added
    ∧ (SettledTo [] n₀ b → b.Covered c → ∀ m ∈ added, Fits b c pool' m)

namespace Enters

variable {pool pool' pool'' : ModelPool} {ledger ledger' ledger'' : ModelLedger}

theorem of_extends (hext : pool.Extends pool') (ledger : ModelLedger) :
    Enters b n₀ c ledger pool ledger pool' :=
  ⟨hext, [], (List.append_nil _).symm, fun _ _ _ hm => absurd hm List.not_mem_nil⟩

theorem add (hext : pool.Extends pool') (ledger : ModelLedger) {m : Model}
    (hm : SettledTo [] n₀ b → b.Covered c → Fits b c pool' m) :
    Enters b n₀ c ledger pool (ledger.add m) pool' :=
  ⟨hext, [m], rfl, fun hb hc _ hk => List.mem_singleton.mp hk ▸ hm hb hc⟩

theorem trans (h : Enters b n₀ c ledger pool ledger' pool')
    (h' : Enters b n₀ c ledger' pool' ledger'' pool'') :
    Enters b n₀ c ledger pool ledger'' pool'' := by
  obtain ⟨added, hadded, hfits⟩ := h.models
  obtain ⟨more, hmore, hfits'⟩ := h'.models
  refine ⟨h.pool.trans h'.pool, added ++ more, ?_, fun hb hc m hm => ?_⟩
  · rw [hmore, hadded, List.append_assoc]
  · rcases List.mem_append.mp hm with hm | hm
    · exact (hfits hb hc m hm).grow h'.pool
    · exact hfits' hb hc m hm

/-- The models of the ledger go on fitting. -/
theorem fits (h : Enters b n₀ c ledger pool ledger' pool') (hb : SettledTo [] n₀ b)
    (hc : b.Closed c) (hold : ∀ m ∈ ledger.models, Fits b c pool m) :
    ∀ m ∈ ledger'.models, Fits b c pool' m := by
  intro m hm
  obtain ⟨added, hadded, hfits⟩ := h.models
  rw [hadded] at hm
  rcases List.mem_append.mp hm with hm | hm
  · exact (hold m hm).grow h.pool
  · exact hfits hb hc.vars m hm

end Enters

/-! ## Applying a refutation -/

/-- Asserting the open first literal of a clause. -/
theorem AtLevel.asserted {learnt : Learnt} {first : Lit} {rest : List Lit}
    (h : AtLevel F b n₀ s) (hlits : learnt.lits = first :: rest)
    (hval : Learnt.Valid F s learnt) (hrest : ∀ m ∈ rest, m.neg ∈ s.trail.lits.toList)
    (hopen : s.trail.isAssigned first.var = false) : AtLevel F b n₀ (s.assertLearnt learnt) := by
  obtain ⟨hs₁, hassert⟩ := assertLearnt_spec h.sound hval hlits hopen hrest
  have hlevel : (s.assertLearnt learnt).level = s.level := congrArg Array.size hassert.starts
  refine ⟨hs₁, h.within.asserted h.sound.trail hassert fun _ => h.level, hlevel.trans h.level,
    fun done hb => ?_⟩
  obtain ⟨n, hn₀, hn⟩ := h.settled done hb
  have hsize := hn.size
  refine ⟨n, hn₀, ?_, ?_, ?_⟩
  · rw [hassert.head]
    exact hn.head
  · rw [← Array.length_toList, hassert.lits, List.length_append, Array.length_toList]
    exact Nat.le_add_right_of_le hsize
  · have hstore : (s.assertLearnt learnt).store = s.store :=
      (congrArg Solver.store hassert.others).symm
    rw [hstore, hassert.lits, List.take_append_of_le_length (by simpa using hsize)]
    exact hn.settled

/-- A refutation that is not false yet leaves everything settled. -/
theorem Refuting.atLevel {learnt : Learnt} {first : Lit} {rest : List Lit}
    (h : Refuting F b n₀ learnt s) (hlits : learnt.lits = first :: rest)
    (hopen : s.trail.isAssigned first.var = false) : AtLevel F b n₀ s := by
  refine ⟨h.sound, h.within, h.level, fun done hb => ?_⟩
  -- the first literal is open, so not all are false
  have hno := h.sound.trail.not_mem_of_not_assigned (l := first.neg) hopen
  have hmem : first ∈ learnt.lits := by simp [hlits]
  obtain ⟨n, hn₀, ⟨hn, hset⟩, rfl | hfalse⟩ := h.settled done hb
  · exact ⟨_, hn₀, h.sound.trail.headLe, hn,
      hset _ (Nat.le_refl _) ⟨first, hmem, fun hm => hno (List.mem_of_mem_take hm)⟩⟩
  · exact absurd (hfalse first hmem) hno

/-- **How a refutation is applied**: the empty clause raises the flag, a clause
that is false is reported, and the open first literal of any other is asserted
and propagated. -/
theorem applyRefutation_eq_ok {learnt : Learnt} {o : Option Clause} (h : Refuting F b n₀ learnt s)
    (ha : s.applyRefutation learnt = .ok (o, s')) :
    (learnt = .empty ∧ s.conflicted = true ∧ o = some [] ∧ s' = s.setConflicted)
      ∨ ∃ first rest, learnt.lits = first :: rest
        ∧ ((first.neg ∈ s.trail.lits.toList ∧ o = some learnt.lits ∧ s' = s)
          ∨ (s.trail.isAssigned first.var = false ∧ AtLevel F b n₀ (s.assertLearnt learnt)
            ∧ ((o = none ∧ (s.assertLearnt learnt).propagate = (none, s'))
              ∨ ∃ conflict s₁ learnt', (s.assertLearnt learnt).propagate = (some conflict, s₁)
                ∧ s₁.refute conflict = .ok (learnt', s') ∧ o = some learnt'.lits))) := by
  unfold applyRefutation at ha
  rcases h.clause with ⟨rfl, hconf⟩ | ⟨first, rest, hlits, hval, hrest, hfirst⟩
  · obtain ⟨rfl, rfl⟩ := Prod.mk.inj (Except.ok.inj ha)
    exact Or.inl ⟨rfl, hconf, rfl, rfl⟩
  · refine Or.inr ⟨first, rest, hlits, ?_⟩
    rw [hlits] at ha
    simp only at ha
    split at ha
    · rename_i hvalue
      obtain ⟨rfl, rfl⟩ := Prod.mk.inj (Except.ok.inj ha)
      exact Or.inl ⟨h.sound.trail.value_false.mp hvalue, congrArg some hlits.symm, rfl⟩
    · rename_i hvalue
      have hopen : s.trail.isAssigned first.var = false :=
        hfirst.resolve_left fun hf => hvalue (h.sound.trail.value_false.mpr hf.1)
      have hnone : (s.trail.value first).isNone = true := by
        unfold Trail.value
        unfold Trail.isAssigned at hopen
        simpa using hopen
      rw [if_pos hnone] at ha
      refine Or.inr ⟨hopen, (h.atLevel hlits hopen).asserted hlits hval hrest hopen, ?_⟩
      split at ha
      · rename_i s₁ hp
        obtain ⟨rfl, rfl⟩ := Prod.mk.inj (Except.ok.inj ha)
        exact Or.inl ⟨rfl, hp⟩
      · rename_i conflict s₁ hp
        obtain ⟨⟨learnt', s₂⟩, href, ha⟩ := Except.bind_eq_ok.mp ha
        obtain ⟨rfl, rfl⟩ := Prod.mk.inj (Except.ok.inj ha)
        exact Or.inr ⟨conflict, s₁, learnt', hp, href, rfl⟩

/-- **A refutation is applied**: it leaves everything ready or a clause that is
false. -/
theorem applyRefutation_spec {learnt : Learnt} {o : Option Clause} (h : Refuting F b n₀ learnt s)
    (ha : s.applyRefutation learnt = .ok (o, s')) :
    (o = none → Ready F b n₀ s') ∧ ∀ clause, o = some clause → Disproved F b n₀ clause s' := by
  have hset : ∀ done, SettledTo done n₀ b →
      ∃ n, n₀ ≤ n ∧ SettledBut done learnt.lits n s := fun done hb =>
    (h.settled done hb).imp fun n hn => ⟨hn.1, hn.2.1⟩
  rcases applyRefutation_eq_ok h ha with ⟨rfl, hconf, rfl, rfl⟩
    | ⟨first, rest, hlits, ⟨hneg, rfl, rfl⟩ | ⟨-, hat, hprop⟩⟩
  · refine ⟨fun hr => (nomatch hr), fun clause hc => ?_⟩
    obtain rfl := Option.some.inj hc
    exact ⟨h.sound.refute (h.sound.refuted hconf), h.within, h.level, Or.inl ⟨rfl, rfl⟩, hset⟩
  · -- the clause is false as it is
    refine ⟨fun hr => (nomatch hr), fun clause hc => ?_⟩
    obtain rfl := Option.some.inj hc
    rcases h.clause with ⟨rfl, -⟩ | ⟨first', rest', hlits', hval, hrest, hfirst⟩
    · cases hlits
    · obtain ⟨rfl, rfl⟩ := List.cons.inj (hlits.symm.trans hlits')
      have hpos : 0 < s'.level := by
        rcases hfirst with ⟨-, hpos⟩ | hopen
        · exact hpos
        · exact absurd hneg (h.sound.trail.not_mem_of_not_assigned (l := first.neg) hopen)
      refine ⟨h.sound, h.within, h.level,
        Or.inr ⟨hpos, by simp [hlits], hval.entailed, fun l hl => ?_⟩, hset⟩
      rw [hlits] at hl
      rcases List.mem_cons.mp hl with rfl | hl
      · exact hneg
      · exact hrest l hl
  · rcases hprop with ⟨rfl, hp⟩ | ⟨conflict, s₁, learnt', hp, href, rfl⟩
    · exact ⟨fun _ => (hat.propagate hp).1 rfl, fun _ hc => (nomatch hc)⟩
    · obtain ⟨hcon, hlevel⟩ := (hat.propagate hp).2 conflict rfl
      refine ⟨fun hr => (nomatch hr), fun clause hc => ?_⟩
      obtain rfl := Option.some.inj hc
      exact hcon.disproved hlevel href

theorem Refuting.own {learnt : Learnt} (h : Refuting F b n₀ learnt s) :
    Refuting F s s.trail.lits.size learnt s :=
  ⟨h.sound, .refl h.sound, rfl, h.clause, fun _ hs =>
    ⟨_, Nat.le_refl _, .of_settled _ (Nat.le_refl _) hs.settled, Or.inl rfl⟩⟩

/-- Applying a refutation keeps all models. -/
theorem applyRefutation_pool {learnt : Learnt} {o : Option Clause}
    (h : Refuting F b n₀ learnt s) (ha : s.applyRefutation learnt = .ok (o, s')) :
    s.pool.Extends s'.pool := by
  obtain ⟨hready, hdis⟩ := applyRefutation_spec h.own ha
  cases o with
  | none => exact (hready rfl).within.pool
  | some clause => exact (hdis clause rfl).within.pool

/-! ## A search at the level of the base -/

/-- **A search at the level of `b`.** -/
theorem AtLevel.search {fuel : Nat} {budget : Option Nat} {r : SearchResult}
    (h : AtLevel F b n₀ s) (hr : s.search fuel c budget = .ok (r, s')) :
    (∀ m, r = .satisfiable m → Ready F b n₀ s' ∧ ∃ known,
        Found c s'.pool s'.trail.lits.toList known m
          ∧ (∀ done, SettledTo done n₀ b → Settled done s'.store known))
      ∧ (∀ learnt, r = .refuted learnt → Refuting F b n₀ learnt s')
      ∧ (r = .unknown → AtLevel F b n₀ s') ∧ Within s s' := by
  obtain ⟨hsearched, -⟩ := search_spec h.sound h.within h.settled hr
  have hlevel := hsearched.level.trans h.level
  have hans := hsearched.answers
  refine ⟨?_, ?_, ?_, hsearched.own⟩
  · rintro m rfl
    obtain ⟨known, hf, hset⟩ := hans
    exact ⟨⟨hsearched.sound, hsearched.within, hlevel, fun done hb =>
      (hset done hb).mono fun l hl => hf.starts.subset hl⟩, known, hf, hset⟩
  · rintro learnt rfl
    have href : RefutedBy F b n₀ learnt s' := hans
    refine ⟨hsearched.sound, hsearched.within, hlevel, href.clause.imp id ?_, href.settled⟩
    rintro ⟨first, rest, hlits, hpos, hval, hrest, -, hfirst⟩
    exact ⟨first, rest, hlits, hval, fun m hm => List.mem_of_mem_take (hrest m hm),
      hfirst.imp (fun hf => ⟨hf, hpos⟩) id⟩
  · rintro rfl
    exact ⟨hsearched.sound, hsearched.within, hlevel, hans⟩

/-! ## One level above -/

section Above

variable {l : Lit} {s₂ : Solver}

/-- The assumption of a probe. -/
theorem Ready.assume (h : Ready F b n₀ s) (hl : l.var.index < s.varCount)
    (hopen : s.trail.isAssigned l.var = false) :
    Sound F (s.openDecision l) ∧ Within b (s.openDecision l)
      ∧ (s.openDecision l).level = s.level + 1
      ∧ (∀ done, SettledTo done n₀ b → SettledTo done s.trail.lits.size (s.openDecision l)) := by
  refine ⟨h.sound.decided hl hopen, h.within.decided h.sound.trail hl hopen,
    Trail.level_decided _ _, fun done hb => ?_⟩
  refine ⟨h.sound.trail.headLe, ?_, ?_⟩
  · show _ ≤ (s.trail.decided l).lits.size
    rw [← Array.length_toList, ← Array.length_toList, Trail.lits_decided]
    simp
  · show Settled done s.store ((s.trail.decided l).lits.toList.take s.trail.lits.size)
    rw [Trail.lits_decided]
    simpa using h.settled done hb

/-- The assumption as the entry of a search. -/
theorem Ready.searching_assume (h : Ready F b n₀ s) (hl : l.var.index < s.varCount)
    (hopen : s.trail.isAssigned l.var = false) :
    Searching F b (s.openDecision l).level n₀ (s.openDecision l) := by
  obtain ⟨hs₀, hw₀, -, hassume⟩ := h.assume hl hopen
  exact ⟨hs₀, hw₀, Nat.le_refl _, fun done hb =>
    ⟨_, Nat.le_trans hb.size h.within.size_le, hassume done hb⟩,
    fun hlt => absurd hlt (Nat.lt_irrefl _)⟩

/-- **A probe is taken back**: the trail is what it was, and what was settled
above is settled below. -/
theorem Ready.undo (h : Ready F b n₀ s) (hs₂ : Sound F s₂) (hw : Within b s₂)
    (hw₀ : Within (s.openDecision l) s₂) :
    Sound F (s₂.backtrackTo s.level) ∧ Within b (s₂.backtrackTo s.level)
      ∧ Back s.level s₂ (s₂.backtrackTo s.level)
      ∧ s₂.trail.levelStart (s.level + 1) = s.trail.lits.size
      ∧ (s₂.backtrackTo s.level).trail.lits.toList = s.trail.lits.toList := by
  have hle : s.level ≤ s₂.level := by
    have hlevel : (s.openDecision l).level = s.level + 1 := Trail.level_decided _ _
    have := hw₀.level_le
    omega
  obtain ⟨hs₃, hw₃, hback⟩ := back_spec hs₂ hw (Nat.le_of_eq h.level.symm) hle
  have hstart : s₂.trail.levelStart (s.level + 1) = s.trail.lits.size := by
    obtain ⟨more, hmore⟩ := hw₀.starts
    have hstarts : (s.openDecision l).trail.starts.toList
        = s.trail.starts.toList ++ [s.trail.lits.size] := Trail.starts_decided _ _
    have hlen : s.trail.starts.toList.length = s.level := Array.length_toList
    rw [Trail.levelStart_succ, ← hmore, hstarts, List.append_assoc,
      List.getElem?_append_right (Nat.le_of_eq hlen), hlen, Nat.sub_self]
    rfl
  refine ⟨hs₃, hw₃, hback, hstart, ?_⟩
  obtain ⟨more, hmore⟩ := hw₀.lits
  have hlits : (s.openDecision l).trail.lits.toList = s.trail.lits.toList ++ [l] :=
    Trail.lits_decided _ _
  rw [hback.lits, hstart, ← hmore, hlits, List.append_assoc,
    List.take_append_of_le_length (by simp), List.take_of_length_le (by simp)]

/-- Ready again after a probe without a refutation. -/
theorem Ready.ready_undo (h : Ready F b n₀ s) (hs₂ : Sound F s₂) (hw : Within b s₂)
    (hw₀ : Within (s.openDecision l) s₂)
    (hset : ∀ done, SettledTo done n₀ b → ∃ n, s.trail.lits.size ≤ n
      ∧ Settled done s₂.store (s₂.trail.lits.toList.take n)) :
    Ready F b n₀ (s₂.backtrackTo s.level) := by
  obtain ⟨hs₃, hw₃, hback, hstart, -⟩ := h.undo hs₂ hw hw₀
  refine ⟨hs₃, hw₃, hback.level.trans h.level, fun done hb => ?_⟩
  obtain ⟨n, hn, hset⟩ := hset done hb
  have hstore : (s₂.backtrackTo s.level).store = s₂.store :=
    (congrArg Solver.store hback.others).symm
  rw [hstore, hback.lits, hstart]
  exact hset.take_le hn

/-- **A refutation above** gives one to be applied below. -/
theorem Ready.refuting (h : Ready F b n₀ s) (hs₂ : Sound F s₂) (hw : Within b s₂)
    (hw₀ : Within (s.openDecision l) s₂) (hlevel : s₂.level = s.level + 1) {learnt : Learnt}
    (hassume : ∀ done, SettledTo done n₀ b → SettledTo done s.trail.lits.size (s.openDecision l))
    (href : RefutedBy F (s.openDecision l) s.trail.lits.size learnt s₂) :
    Refuting F b n₀ learnt (s₂.backtrackTo s.level) := by
  obtain ⟨hs₃, hw₃, hback, hstart, hlits₃⟩ := h.undo hs₂ hw hw₀
  have hlits' : s₂.trail.lits.toList.take s.trail.lits.size = s.trail.lits.toList := by
    rw [← hlits₃, hback.lits, hstart]
  have hstore : (s₂.backtrackTo s.level).store = s₂.store :=
    (congrArg Solver.store hback.others).symm
  have hcount : (s₂.backtrackTo s.level).varCount = s₂.varCount :=
    (congrArg Solver.varCount hback.others).symm
  have hconf : (s₂.backtrackTo s.level).conflicted = s₂.conflicted :=
    (congrArg Solver.conflicted hback.others).symm
  refine ⟨hs₃, hw₃, hback.level.trans h.level, href.clause.imp ?_ ?_, fun done hb => ?_⟩
  · exact fun he => ⟨he.1, hconf.trans he.2⟩
  · rintro ⟨first, rest, hlits, -, hval, hrest, hroot, hfirst⟩
    refine ⟨first, rest, hlits, ⟨hval.entailed, hcount ▸ hval.inRange, hstore ▸ hval.explains⟩,
      ?_, ?_⟩
    · rw [hlevel, hstart, hlits'] at hrest
      rw [hlits₃]
      exact hrest
    · by_cases hmem : first.neg ∈ s.trail.lits.toList
      · refine Or.inl ⟨by rw [hlits₃]; exact hmem, ?_⟩
        rw [hback.level]
        -- below level 1 there are root facts only
        by_contra h0
        refine hroot ?_
        unfold Trail.roots
        rw [show s₂.trail.levelStart 1 = s.trail.lits.size by
          rw [← hstart, Nat.le_zero.mp (Nat.le_of_not_lt h0)], hlits']
        exact hmem
      · refine Or.inr ?_
        by_contra ha
        obtain ⟨x, hx, hv⟩ := hs₃.trail.isAssigned_iff.mp (by simpa using ha)
        have hx₂ : x ∈ s₂.trail.lits.toList := by
          rw [hback.lits] at hx
          exact List.mem_of_mem_take hx
        rcases hfirst with hfirst | hfirst
        · have he : x = first.neg := hs₂.trail.eq_of_var_eq hx₂ hfirst hv
          rw [he, hlits₃] at hx
          exact hmem hx
        · exact hs₂.trail.not_mem_of_not_assigned (hv ▸ hfirst) hx₂
  · obtain ⟨n, hn, ⟨-, hset⟩, -⟩ := href.settled done (hassume done hb)
    have hsize : s.trail.lits.size = (s₂.backtrackTo s.level).trail.lits.size := by
      rw [hback.size, hstart]
    refine ⟨_, ?_, ⟨Nat.le_refl _, fun m hm hno => ?_⟩, Or.inl rfl⟩
    · rw [← hsize]
      exact Nat.le_trans hb.size h.within.size_le
    · rw [← hsize] at hm
      rw [hlits₃, ← hlits', List.take_take, Nat.min_eq_left hm] at hno ⊢
      rw [hstore]
      exact hset m (Nat.le_trans hm hn) hno

/-- **A conflict above** is learnt from and taken back. -/
theorem Ready.refuting_conflict (h : Ready F b n₀ s) (hl : l.var.index < s.varCount)
    (hopen : s.trail.isAssigned l.var = false) {conflict : Conflict} {s₁ : Solver}
    (hp : (s.openDecision l).propagate = (some conflict, s₁)) {learnt : Learnt}
    (hr : s₁.refute conflict = .ok (learnt, s₂)) :
    Refuting F b n₀ learnt (s₂.backtrackTo s.level)
      ∧ s.pool.Extends (s₂.backtrackTo s.level).pool := by
  obtain ⟨hs₀, hw₀, hlevel₀, hassume⟩ := h.assume hl hopen
  -- the conflict, seen from the assumption and from the base
  have hat : AtLevel F (s.openDecision l) s.trail.lits.size (s.openDecision l) :=
    ⟨hs₀, .refl hs₀, rfl, fun _ hn => ⟨_, Nat.le_refl _, hn⟩⟩
  obtain ⟨hcon, hlevel₁⟩ := (hat.propagate hp).2 conflict rfl
  have hlow : s₁.conflictLevel conflict ≤ (s.openDecision l).level :=
    hlevel₁ ▸ hcon.sound.conflictLevel_le hcon.refutes
  have hbase := h.searching_assume hl hopen
  have hw₂ := (((hbase.propagate hp).2 conflict rfl).refute hlow hr).within
  have hdis := hcon.disproved hlevel₁ hr
  obtain ⟨-, -, -, href⟩ := (hcon.refute hlow hr).back (Nat.le_refl _)
  rw [backtrackTo_of_le (Nat.le_of_eq hdis.level)] at href
  have hpool : (s₂.backtrackTo s.level).pool = s₂.pool :=
    (congrArg Solver.pool (h.undo hdis.sound hw₂ hdis.within).2.2.1.others).symm
  exact ⟨h.refuting hdis.sound hw₂ hdis.within (hdis.level.trans hlevel₀) hassume href,
    hpool ▸ hdis.within.pool⟩

/-- **A search above**, taken back. -/
theorem Ready.search_above (h : Ready F b n₀ s) (hl : l.var.index < s.varCount)
    (hopen : s.trail.isAssigned l.var = false) {s₁ : Solver} {fuel : Nat} {budget : Option Nat}
    {r : SearchResult} (hp : (s.openDecision l).propagate = (none, s₁))
    (hr : s₁.search fuel c budget = .ok (r, s₂)) :
    (∀ m, r = .satisfiable m → Ready F b n₀ (s₂.backtrackTo s.level) ∧ ∃ known,
        Found c (s₂.backtrackTo s.level).pool (s.trail.lits.toList ++ [l]) known m
          ∧ (∀ m ∈ (s₂.backtrackTo s.level).trail.lits.toList, m ∈ known)
          ∧ (∀ done, SettledTo done n₀ b → Settled done (s₂.backtrackTo s.level).store known))
      ∧ (∀ learnt, r = .refuted learnt → Refuting F b n₀ learnt (s₂.backtrackTo s.level))
      ∧ (r = .unknown → Ready F b n₀ (s₂.backtrackTo s.level))
      ∧ s.pool.Extends (s₂.backtrackTo s.level).pool := by
  obtain ⟨hs₀, hw₀, hlevel₀, hassume⟩ := h.assume hl hopen
  have hat : AtLevel F (s.openDecision l) s.trail.lits.size (s.openDecision l) :=
    ⟨hs₀, .refl hs₀, rfl, fun _ hn => ⟨_, Nat.le_refl _, hn⟩⟩
  have hready := (hat.propagate hp).1 rfl
  have hbase := h.searching_assume hl hopen
  -- the search, seen from the assumption and from the base
  obtain ⟨hsearching, -, -⟩ := (hbase.propagate hp).1 rfl
  have hw₂ := (search_spec hready.sound hsearching.within hsearching.settled hr).1.within
  obtain ⟨hsearched, -⟩ := search_spec hready.sound hready.within hready.atLevel.settled hr
  have hlevel₂ : s₂.level = s.level + 1 :=
    hsearched.level.trans (hready.level.trans hlevel₀)
  have hback := (h.undo hsearched.sound hw₂ hsearched.within).2.2.1
  have hpool : (s₂.backtrackTo s.level).pool = s₂.pool :=
    (congrArg Solver.pool hback.others).symm
  have hstore : (s₂.backtrackTo s.level).store = s₂.store :=
    (congrArg Solver.store hback.others).symm
  have hans := hsearched.answers
  refine ⟨?_, ?_, ?_, hpool ▸ hsearched.within.pool⟩
  · rintro m rfl
    obtain ⟨known, hf, hset⟩ := hans
    have hlits : s.trail.lits.toList ++ [l] <+: s₂.trail.lits.toList := by
      rw [← show (s.openDecision l).trail.lits.toList = _ from Trail.lits_decided _ _]
      exact hsearched.within.lits
    refine ⟨h.ready_undo hsearched.sound hw₂ hsearched.within fun done hb => ?_, known, ?_,
      fun m hm => ?_, ?_⟩
    · have hsize := ((List.prefix_append _ [l]).trans hlits).length_le
      refine ⟨s₂.trail.lits.size, by simpa using hsize, ?_⟩
      exact (hset done (hassume done hb)).mono fun x hx =>
        hf.starts.subset (List.mem_of_mem_take hx)
    · rw [hpool]
      exact ⟨hf.buffer, hlits.trans hf.starts, hf.values, hf.assigned⟩
    · rw [hback.lits] at hm
      exact hf.starts.subset (List.mem_of_mem_take hm)
    · rw [hstore]
      exact fun done hb => hset done (hassume done hb)
  · rintro learnt rfl
    exact h.refuting hsearched.sound hw₂ hsearched.within hlevel₂ hassume hans
  · rintro rfl
    refine h.ready_undo hsearched.sound hw₂ hsearched.within fun done hb => ?_
    obtain ⟨n, hn, hto⟩ := hans done (hassume done hb)
    exact ⟨n, hn, hto.settled⟩

end Above

/-! ## A probe -/

/-- **What a probe gives**: it is ready again, with one more model at most,
or the component has no model. -/
structure Probed (F : List Clause) (b : Solver) (n₀ : Nat) (c : Component) (ledger : ModelLedger)
    (s : Solver) (p : Probe) (ledger' : ModelLedger) (s' : Solver) : Prop where
  ready : (∀ clause, p ≠ .unsatisfiable clause) → Ready F b n₀ s'
  disproved : ∀ clause, p = .unsatisfiable clause → Disproved F b n₀ clause s'
  enters : Enters b n₀ c ledger s.pool ledger' s'.pool

theorem applyProbe_spec {candidate : Lit} {learnt : Learnt} {p : Probe}
    (h : Refuting F b n₀ learnt s) (hp : s.applyProbe candidate learnt = .ok (p, s'))
    (ledger : ModelLedger) : Probed F b n₀ c ledger s p ledger s' := by
  obtain ⟨⟨o, s₁⟩, ha, hp⟩ := Except.bind_eq_ok.mp hp
  obtain ⟨hready, hdis⟩ := applyRefutation_spec h ha
  have hpool := applyRefutation_pool h ha
  cases o with
  | some clause =>
    obtain ⟨rfl, rfl⟩ := Prod.mk.inj (Except.ok.inj hp)
    refine ⟨fun hne => absurd rfl (hne clause), fun clause' he => ?_, .of_extends hpool _⟩
    obtain rfl := Probe.unsatisfiable.inj he
    exact hdis clause rfl
  | none =>
    have hready := hready rfl
    simp only at hp
    split at hp
    · obtain ⟨rfl, rfl⟩ := Prod.mk.inj (Except.ok.inj hp)
      refine ⟨fun _ => hready, fun clause he => ?_, .of_extends hpool _⟩
      split at he <;> cases he
    · obtain ⟨rfl, rfl⟩ := Prod.mk.inj (Except.ok.inj hp)
      exact ⟨fun _ => hready, fun clause he => (nomatch he), .of_extends hpool _⟩

/-- A change of the pool before a probe's refutation is applied. -/
theorem Probed.of_extends {ledger ledger' : ModelLedger} {p : Probe} {s₁ : Solver}
    (hext : s.pool.Extends s₁.pool) (h : Probed F b n₀ c ledger s₁ p ledger' s') :
    Probed F b n₀ c ledger s p ledger' s' :=
  ⟨h.ready, h.disproved, (Enters.of_extends hext ledger).trans h.enters⟩

/-- The assumption of a probe. -/
def assumption (s : Solver) (candidate : Lit) : Solver :=
  (s.countBackbone fun b => { b with probes := b.probes + 1 }).openDecision candidate.neg

/-- **The parts of a probe**: the assumption is refuted by propagation, or
searched for a model. -/
theorem probe_eq_ok {fuel budget : Nat} {candidate : Lit} {ledger ledger' : ModelLedger} {p : Probe}
    (h : s.probe fuel c candidate budget ledger = .ok (p, ledger', s')) :
    (∃ conflict s₁ learnt s₂, (s.assumption candidate).propagate = (some conflict, s₁)
        ∧ s₁.refute conflict = .ok (learnt, s₂)
        ∧ (s₂.backtrackTo s.level).applyProbe candidate learnt = .ok (p, s') ∧ ledger' = ledger)
      ∨ ∃ s₁ r s₂, (s.assumption candidate).propagate = (none, s₁)
        ∧ s₁.search fuel c (some budget) = .ok (r, s₂)
        ∧ ((∃ m stats, r = .satisfiable m ∧ p = .model ∧ ledger' = ledger.add m
            ∧ s' = { s₂.backtrackTo s.level with stats := stats })
          ∨ (∃ learnt, r = .refuted learnt
            ∧ (s₂.backtrackTo s.level).applyProbe candidate learnt = .ok (p, s')
            ∧ ledger' = ledger)
          ∨ (r = .unknown ∧ p = .postponed ∧ ledger' = ledger ∧ s' = s₂.backtrackTo s.level)) := by
  unfold probe at h
  simp only at h
  split at h
  · rename_i conflict s₁ hprop
    obtain ⟨⟨learnt, s₂⟩, hr, h⟩ := Except.bind_eq_ok.mp h
    obtain ⟨⟨probe, s₃⟩, happ, h⟩ := Except.bind_eq_ok.mp h
    obtain ⟨rfl, heq⟩ := Prod.mk.inj (Except.ok.inj h)
    obtain ⟨rfl, rfl⟩ := Prod.mk.inj heq
    exact Or.inl ⟨conflict, s₁, learnt, s₂, hprop, hr, happ, rfl⟩
  · rename_i s₁ hprop
    obtain ⟨⟨r, s₂⟩, hr, h⟩ := Except.bind_eq_ok.mp h
    refine Or.inr ⟨s₁, r, s₂, hprop, hr, ?_⟩
    cases r with
    | satisfiable m =>
      obtain ⟨rfl, heq⟩ := Prod.mk.inj (Except.ok.inj h)
      obtain ⟨rfl, rfl⟩ := Prod.mk.inj heq
      exact Or.inl ⟨m, _, rfl, rfl, rfl, rfl⟩
    | refuted learnt =>
      obtain ⟨⟨probe, s₃⟩, happ, h⟩ := Except.bind_eq_ok.mp h
      obtain ⟨rfl, heq⟩ := Prod.mk.inj (Except.ok.inj h)
      obtain ⟨rfl, rfl⟩ := Prod.mk.inj heq
      exact Or.inr (Or.inl ⟨learnt, rfl, happ, rfl⟩)
    | unknown =>
      obtain ⟨rfl, heq⟩ := Prod.mk.inj (Except.ok.inj h)
      obtain ⟨rfl, rfl⟩ := Prod.mk.inj heq
      exact Or.inr (Or.inr ⟨rfl, rfl, rfl, rfl⟩)

/-- **A probe** of an open variable. -/
theorem probe_spec {fuel budget : Nat} {candidate : Lit} {ledger ledger' : ModelLedger} {p : Probe}
    (hb : Sound F b) (h : Ready F b n₀ s) (hl : candidate.var.index < s.varCount)
    (hopen : s.trail.isAssigned candidate.var = false)
    (hp : s.probe fuel c candidate budget ledger = .ok (p, ledger', s')) :
    Probed F b n₀ c ledger s p ledger' s' := by
  have h₀ : Ready F b n₀ (s.countBackbone fun b => { b with probes := b.probes + 1 }) :=
    h.withStats _
  rcases probe_eq_ok hp with ⟨conflict, s₁, learnt, s₂, hprop, hr, happ, rfl⟩
    | ⟨s₁, r, s₂, hprop, hr, hend⟩
  · obtain ⟨href, hpool⟩ := h₀.refuting_conflict (l := candidate.neg) hl hopen hprop hr
    exact (applyProbe_spec href happ ledger').of_extends hpool
  · obtain ⟨hsat, href, hunk, hpool⟩ := h₀.search_above (l := candidate.neg) hl hopen hprop hr
    rcases hend with ⟨m, stats, rfl, rfl, rfl, rfl⟩ | ⟨learnt, rfl, happ, rfl⟩
      | ⟨rfl, rfl, rfl, rfl⟩
    · obtain ⟨hready, known, hf, -, hset⟩ := hsat m rfl
      exact ⟨fun _ => hready.withStats _, fun clause he => (nomatch he),
        .add hpool ledger fun hbase hcovered => hf.fits hb hready.within
          (h.within.lits.trans (List.prefix_append _ _)) (hset [] hbase) hcovered⟩
    · exact (applyProbe_spec (href learnt rfl) happ ledger').of_extends hpool
    · exact ⟨fun _ => hunk rfl, fun clause he => (nomatch he), .of_extends hpool ledger'⟩

/-! ## The first model -/

/-- **Searching for a first model**, by induction on the rounds. -/
theorem firstModel_spec {fuel : Nat} (hb : Sound F b) (rounds : Nat) {budget : Nat}
    {ledger ledger' : ModelLedger} {o : Option Clause} (h : AtLevel F b n₀ s)
    (hready : ledger.isEmpty = false → Ready F b n₀ s)
    (hf : firstModel fuel c rounds budget ledger s = .ok (o, ledger', s')) :
    (o = none → Ready F b n₀ s' ∧ ledger'.isEmpty = false)
      ∧ (∀ clause, o = some clause → Disproved F b n₀ clause s')
      ∧ Enters b n₀ c ledger s.pool ledger' s'.pool := by
  induction rounds generalizing budget ledger s with
  | zero => cases hf
  | succ rounds ih =>
    unfold firstModel at hf
    split at hf
    · rename_i hne
      obtain ⟨rfl, heq⟩ := Prod.mk.inj (Except.ok.inj hf)
      obtain ⟨rfl, rfl⟩ := Prod.mk.inj heq
      have hne : ledger.isEmpty = false := by simpa using hne
      exact ⟨fun _ => ⟨hready hne, hne⟩, fun _ hc => (nomatch hc), .of_extends (.refl _) _⟩
    · rename_i hempty
      obtain ⟨⟨r, s₁⟩, hr, hf⟩ := Except.bind_eq_ok.mp hf
      obtain ⟨hsat, href, hunk, hown⟩ := h.search hr
      cases r with
      | satisfiable m =>
        obtain ⟨hs₁, known, hfound, hset⟩ := hsat m rfl
        have hs₁' := hs₁.withStats
          (s₁.countBackbone fun b => { b with models := b.models + 1 }).stats
        obtain ⟨h1, h2, h3⟩ := ih hs₁'.atLevel (fun _ => hs₁') hf
        refine ⟨h1, h2, Enters.trans (.add hown.pool ledger fun hbase hcovered => ?_) h3⟩
        exact hfound.fits hb hs₁.within hs₁.within.lits (hset [] hbase) hcovered
      | refuted learnt =>
        obtain ⟨⟨o', s₂⟩, happ, hf⟩ := Except.bind_eq_ok.mp hf
        have hpool := hown.pool.trans (applyRefutation_pool (href learnt rfl) happ)
        obtain ⟨hgo, hdis⟩ := applyRefutation_spec (href learnt rfl) happ
        cases o' with
        | some clause =>
          obtain ⟨rfl, heq⟩ := Prod.mk.inj (Except.ok.inj hf)
          obtain ⟨rfl, rfl⟩ := Prod.mk.inj heq
          refine ⟨fun hn => (nomatch hn), fun clause' hc => ?_, .of_extends hpool _⟩
          obtain rfl := Option.some.inj hc
          exact hdis _ rfl
        | none =>
          obtain ⟨h1, h2, h3⟩ := ih (hgo rfl).atLevel (fun _ => hgo rfl) hf
          exact ⟨h1, h2, (Enters.of_extends hpool ledger).trans h3⟩
      | unknown =>
        obtain ⟨h1, h2, h3⟩ := ih (hunk rfl)
          (fun hne => absurd hne (by simpa using hempty)) hf
        exact ⟨h1, h2, (Enters.of_extends hown.pool ledger).trans h3⟩

/-! ## Passes over the candidates -/

/-- **What a pass gives.** If its first candidate is probed, it makes progress
or postpones a probe. -/
structure Passed (F : List Clause) (b : Solver) (n₀ : Nat) (c : Component) (pass : Pass)
    (ledger : ModelLedger) (s : Solver) (pass' : Pass) (ledger' : ModelLedger) (s' : Solver) :
    Prop where
  ready : pass'.refutation = none → Ready F b n₀ s'
  disproved : ∀ clause, pass'.refutation = some clause → Disproved F b n₀ clause s'
  enters : Enters b n₀ c ledger s.pool ledger' s'.pool
  progress : pass.progress = true → pass'.refutation = none → pass'.progress = true
  postponed : pass.postponed ≤ pass'.postponed

/-- A pass goes on after a candidate. -/
theorem Passed.step {pass pass₁ pass' : Pass} {ledger ledger₁ ledger' : ModelLedger} {s₁ : Solver}
    (henters : Enters b n₀ c ledger s.pool ledger₁ s₁.pool)
    (hprogress : pass.progress = true → pass₁.progress = true)
    (hpostponed : pass.postponed ≤ pass₁.postponed)
    (h : Passed F b n₀ c pass₁ ledger₁ s₁ pass' ledger' s') :
    Passed F b n₀ c pass ledger s pass' ledger' s' :=
  ⟨h.ready, h.disproved, henters.trans h.enters, fun hp => h.progress (hprogress hp),
    Nat.le_trans hpostponed h.postponed⟩

/-- Whether a candidate is still to be probed. -/
def isLive (s : Solver) (ledger : ModelLedger) (l : Lit) : Prop :=
  s.trail.isAssigned l.var = false ∧ ledger.unanimous s.pool l.var = some l.positive

/-- **A pass**, by induction on the candidates. -/
theorem probePass_spec {fuel budget : Nat} (hb : Sound F b) (cs : List Lit) {pass pass' : Pass}
    {ledger ledger' : ModelLedger} (hcs : ∀ l ∈ cs, l.var.index < b.varCount)
    (hpass : pass.refutation = none) (h : Ready F b n₀ s)
    (hp : probePass fuel c budget cs pass ledger s = .ok (pass', ledger', s')) :
    Passed F b n₀ c pass ledger s pass' ledger' s'
      ∧ ∀ l rest, cs = l :: rest → s.isLive ledger l → pass'.refutation = none →
        pass'.progress = true ∨ pass.postponed < pass'.postponed := by
  induction cs generalizing pass ledger s with
  | nil =>
    obtain ⟨rfl, heq⟩ := Prod.mk.inj (Except.ok.inj hp)
    obtain ⟨rfl, rfl⟩ := Prod.mk.inj heq
    refine ⟨⟨fun _ => h, fun clause hc => ?_, .of_extends (.refl _) _, fun hp _ => hp,
      Nat.le_refl _⟩, fun _ _ hc => (nomatch hc)⟩
    rw [hpass] at hc
    cases hc
  | cons candidate rest ih =>
    have hrest : ∀ l ∈ rest, l.var.index < b.varCount := fun l hl =>
      hcs l (List.mem_cons_of_mem _ hl)
    unfold probePass at hp
    split at hp
    · -- forced or ruled out meanwhile
      rename_i hskip
      refine ⟨(ih hrest hpass h hp).1, fun l rest' he hlive => ?_⟩
      obtain ⟨rfl, rfl⟩ := List.cons.inj he
      simp [hlive.1, hlive.2] at hskip
    · rename_i hlive
      simp only [ne_eq, Bool.or_eq_true, decide_eq_true_eq, not_or, Bool.not_eq_true,
        Decidable.not_not] at hlive
      obtain ⟨⟨probe, ledger₁, s₁⟩, hprobe, hp⟩ := Except.bind_eq_ok.mp hp
      have hl : candidate.var.index < s.varCount := by
        rw [h.within.varCount]
        exact hcs candidate List.mem_cons_self
      obtain ⟨hready, hdis, henters⟩ := probe_spec hb h hl hlive.1 hprobe
      -- a probe with a result
      have hgo : ∀ (pass₁ : Pass) (stats : Statistics),
          probePass fuel c budget rest pass₁ ledger₁ { s₁ with stats := stats }
            = .ok (pass', ledger', s') →
          Ready F b n₀ s₁ → pass₁.refutation = none →
          (pass.progress = true → pass₁.progress = true) → pass.postponed ≤ pass₁.postponed →
          (pass₁.progress = true ∨ pass.postponed < pass₁.postponed) →
          Passed F b n₀ c pass ledger s pass' ledger' s'
            ∧ ∀ l rest', candidate :: rest = l :: rest' → s.isLive ledger l →
              pass'.refutation = none →
              pass'.progress = true ∨ pass.postponed < pass'.postponed := by
        intro pass₁ stats hp hs₁ hnone hprogress hpostponed hor
        obtain ⟨hpassed, -⟩ := ih hrest hnone (hs₁.withStats stats) hp
        have hafter : Enters b n₀ c ledger s.pool ledger₁
            ({ s₁ with stats := stats } : Solver).pool :=
          henters
        refine ⟨.step hafter hprogress hpostponed hpassed, fun _ _ _ _ hr => ?_⟩
        rcases hor with hpr | hpo
        · exact Or.inl (hpassed.progress hpr hr)
        · exact Or.inr (Nat.lt_of_lt_of_le hpo hpassed.postponed)
      cases probe with
      | forced =>
        exact hgo _ _ hp (hready (by simp)) hpass (fun _ => rfl) (Nat.le_refl _) (Or.inl rfl)
      | mismatch m =>
        exact hgo _ _ hp (hready (by simp)) hpass (fun _ => rfl) (Nat.le_refl _) (Or.inl rfl)
      | model =>
        exact hgo _ s₁.stats hp (hready (by simp)) hpass (fun _ => rfl) (Nat.le_refl _)
          (Or.inl rfl)
      | postponed =>
        exact hgo _ _ hp (hready (by simp)) hpass id (Nat.le_succ _)
          (Or.inr (Nat.lt_succ_self _))
      | unsatisfiable clause =>
        obtain ⟨rfl, heq⟩ := Prod.mk.inj (Except.ok.inj hp)
        obtain ⟨rfl, rfl⟩ := Prod.mk.inj heq
        refine ⟨⟨fun hn => (nomatch hn), fun clause' hc => ?_, henters, fun _ hn => (nomatch hn),
          Nat.le_refl _⟩, fun _ _ _ _ hn => (nomatch hn)⟩
        obtain rfl := Option.some.inj hc
        exact hdis _ rfl

/-- The candidates are open variables that the known models agree on. -/
theorem mem_candidates {vs : List Var} {ledger : ModelLedger} {l : Lit} :
    l ∈ s.candidates vs ledger ↔ l.var ∈ vs ∧ s.isLive ledger l := by
  unfold candidates ModelLedger.candidates isLive
  rw [List.mem_mergeSort, List.mem_filter, List.mem_filterMap]
  constructor
  · rintro ⟨⟨v, hv, hl⟩, hopen⟩
    obtain ⟨p, hp, rfl⟩ := Option.map_eq_some_iff.mp hl
    exact ⟨hv, by simpa using hopen, hp⟩
  · rintro ⟨hv, hopen, hp⟩
    exact ⟨⟨l.var, hv, by rw [hp]; rfl⟩, by simpa using hopen⟩

/-- **What probing gives**: a clause that refutes the component, or no literal
of its own accord, and no candidate left if it is complete. -/
structure Explored (F : List Clause) (b : Solver) (n₀ : Nat) (c : Component) (vs : List Var)
    (ledger : ModelLedger) (s : Solver) (implied : ImpliedLiterals) (ledger' : ModelLedger)
    (s' : Solver) : Prop where
  disproved : ∀ clause, implied = .unsatisfiable clause → Disproved F b n₀ clause s'
  forced : ∀ lits complete, implied = .forced lits complete →
    Ready F b n₀ s' ∧ (complete = true → s'.candidates vs ledger' = [])
  enters : Enters b n₀ c ledger s.pool ledger' s'.pool

/-- **Passes until nothing is left**, by induction on the rounds. -/
theorem probeAll_spec {fuel : Nat} {vs : List Var} (hb : Sound F b)
    (hvs : ∀ v ∈ vs, v.index < b.varCount) (rounds : Nat) {budget : Nat}
    {ledger ledger' : ModelLedger} {implied : ImpliedLiterals} (h : Ready F b n₀ s)
    (hp : probeAll fuel c vs rounds budget ledger s = .ok (implied, ledger', s')) :
    Explored F b n₀ c vs ledger s implied ledger' s' := by
  induction rounds generalizing budget ledger s with
  | zero => cases hp
  | succ rounds ih =>
    unfold probeAll at hp
    split at hp
    · rename_i hnil
      obtain ⟨rfl, heq⟩ := Prod.mk.inj (Except.ok.inj hp)
      obtain ⟨rfl, rfl⟩ := Prod.mk.inj heq
      exact ⟨fun _ hc => (nomatch hc), fun _ _ _ => ⟨h, fun _ => hnil⟩, .of_extends (.refl _) _⟩
    · rename_i hcons
      obtain ⟨⟨pass, ledger₁, s₁⟩, hpass, hp⟩ := Except.bind_eq_ok.mp hp
      obtain ⟨hpassed, hfirst⟩ := probePass_spec hb _
        (fun l hl => hvs _ (mem_candidates.mp hl).1) rfl h hpass
      simp only at hp
      split at hp
      · rename_i clause hr
        obtain ⟨rfl, heq⟩ := Prod.mk.inj (Except.ok.inj hp)
        obtain ⟨rfl, rfl⟩ := Prod.mk.inj heq
        refine ⟨fun clause' hc => ?_, fun _ _ hc => (nomatch hc), hpassed.enters⟩
        obtain rfl := ImpliedLiterals.unsatisfiable.inj hc
        exact hpassed.disproved _ hr
      · rename_i hr
        split at hp
        · have hall := ih (hpassed.ready hr) hp
          exact ⟨hall.disproved, hall.forced, hpassed.enters.trans hall.enters⟩
        · rename_i hno
          obtain ⟨rfl, heq⟩ := Prod.mk.inj (Except.ok.inj hp)
          obtain ⟨rfl, rfl⟩ := Prod.mk.inj heq
          refine ⟨fun _ hc => (nomatch hc),
            fun lits complete hc => ⟨hpassed.ready hr, fun he => ?_⟩,
            hpassed.enters⟩
          -- without progress the first candidate was postponed
          obtain ⟨-, rfl⟩ := ImpliedLiterals.forced.inj hc
          cases hcs : s.candidates vs ledger with
          | nil => exact absurd hcs hcons
          | cons l rest =>
            have hlive :=
              (mem_candidates.mp (hcs ▸ List.mem_cons_self : l ∈ s.candidates vs ledger)).2
            rcases hfirst l rest hcs hlive hr with hpr | hpo
            · exact absurd hpr hno
            · have hzero : pass.postponed = 0 := by simpa using he
              omega

/-- **The implied literals by probing.** -/
theorem backboneByProbing_spec {fuel : Nat} {projected : Bool} {ledger ledger' : ModelLedger}
    {implied : ImpliedLiterals} (hb : Sound F b) (hvars : ∀ v ∈ c.vars, v.index < b.varCount)
    (h : AtLevel F b n₀ s)
    (hp : s.backboneByProbing fuel c ledger projected = .ok (implied, ledger', s')) :
    Explored F b n₀ c (c.vars.filter fun v => !projected || b.isProjected v) ledger s implied
      ledger' s'
      ∧ (∀ lits complete, implied = .forced lits complete → ledger'.isEmpty = false) := by
  unfold backboneByProbing at hp
  split at hp
  · rename_i conflict s₁ hprop
    obtain ⟨⟨learnt, s₂⟩, hr, hp⟩ := Except.bind_eq_ok.mp hp
    obtain ⟨rfl, heq⟩ := Prod.mk.inj (Except.ok.inj hp)
    obtain ⟨rfl, rfl⟩ := Prod.mk.inj heq
    obtain ⟨hcon, hlevel⟩ := (h.propagate hprop).2 conflict rfl
    obtain ⟨hown, hlevel'⟩ := (h.own.propagate hprop).2 conflict rfl
    refine ⟨⟨fun clause hc => ?_, fun _ _ hc => (nomatch hc),
      .of_extends (hown.disproved hlevel' hr).within.pool _⟩, fun _ _ hc => (nomatch hc)⟩
    obtain rfl := ImpliedLiterals.unsatisfiable.inj hc
    exact hcon.disproved hlevel hr
  · rename_i s₁ hprop
    have hs₁ := (h.propagate hprop).1 rfl
    have hpool := ((h.own.propagate hprop).1 rfl).within.pool
    obtain ⟨⟨o, ledger₁, s₂⟩, hfirst, hp⟩ := Except.bind_eq_ok.mp hp
    obtain ⟨hnone, hsome, henters⟩ := firstModel_spec hb _ hs₁.atLevel (fun _ => hs₁) hfirst
    have henters := (Enters.of_extends hpool ledger).trans henters
    cases o with
    | some clause =>
      obtain ⟨rfl, heq⟩ := Prod.mk.inj (Except.ok.inj hp)
      obtain ⟨rfl, rfl⟩ := Prod.mk.inj heq
      refine ⟨⟨fun clause' hc => ?_, fun _ _ hc => (nomatch hc), henters⟩,
        fun _ _ hc => (nomatch hc)⟩
      obtain rfl := ImpliedLiterals.unsatisfiable.inj hc
      exact hsome _ rfl
    | none =>
      obtain ⟨hs₂, hne⟩ := hnone rfl
      have hproj : (fun v => !projected || s₂.isProjected v)
          = fun v => !projected || b.isProjected v := by
        unfold isProjected
        rw [hs₂.within.projection]
      simp only at hp
      rw [hproj] at hp
      have hall := probeAll_spec hb (fun v hv => hvars v (List.mem_filter.mp hv).1) _ hs₂ hp
      refine ⟨⟨hall.disproved, hall.forced, henters.trans hall.enters⟩, fun _ _ _ => ?_⟩
      -- the first model stays in the ledger
      obtain ⟨added, hadded, -⟩ := hall.enters.models
      have hmodels : ledger₁.models ≠ [] := List.isEmpty_eq_false_iff.mp hne
      refine List.isEmpty_eq_false_iff.mpr ?_
      rw [hadded]
      exact List.append_ne_nil_of_left_ne_nil hmodels _

end Solver

end Cleave
