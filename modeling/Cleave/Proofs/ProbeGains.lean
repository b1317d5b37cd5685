import Cleave.Proofs.Confinement
import Cleave.Proofs.ProbeLog
import Cleave.Proofs.SearchBounds

/-!
# What a probe gains

A probe of a live candidate either forces a literal over the component that was
open before, or finds a model that is against the candidate, or gains nothing
(`Solver.Exploring.probe`). In no case does it take anything back. So two numbers
never grow: that of the open variables of the component, and that of the open
literals on which all models agree. One of them shrinks whenever the probe counts
as progress (`Solver.Retains.advances`).

To bound the number of passes one number has to do. Models that were handed in need
not satisfy the learnt clauses, so a literal can be forced on which they do not
agree. But a model that is found during the call is loyal, and all loyal models have
whatever is forced. So the number of open variables on which the loyal models agree
shrinks with every literal that is forced, and with every model that is found but the
first loyal one (`Solver.measures_left`).
-/

namespace Cleave

namespace Solver

variable {F : List Clause} {b s s' : Solver} {n₀ budget : Nat} {c : Component} {safe : Prop}
  {known known' : Findings} {candidate : Lit} {p : Probe}

/-! ## A probe -/

/-- A refutation that is applied refutes the component, or its open first literal
is on the trail afterwards and is what the probe reports. -/
theorem Refuting.applyProbe_eq_ok {learnt : Learnt} (h : Refuting F b n₀ learnt s)
    (ha : s.applyProbe candidate learnt = .ok (p, s')) :
    (∃ clause, p = .unsatisfiable clause) ∨ ∃ first rest, learnt.lits = first :: rest
      ∧ p = (if first = candidate then .forced else .mismatch first)
      ∧ s.trail.isAssigned first.var = false ∧ first ∈ s'.trail.lits.toList := by
  obtain ⟨⟨o, s₁⟩, ha, hend⟩ := Except.bind_eq_ok.mp ha
  cases o with
  | some clause =>
    obtain ⟨rfl, -⟩ := Prod.mk.inj (Except.ok.inj hend)
    exact Or.inl ⟨clause, rfl⟩
  | none =>
    rcases applyRefutation_eq_ok h ha with ⟨-, -, hno, -⟩
      | ⟨first, rest, hlits, ⟨-, hno, -⟩ | ⟨hopen, hat, hprop⟩⟩
    · cases hno
    · cases hno
    · rcases hprop with ⟨-, hprop⟩ | ⟨_, _, _, _, _, hno⟩
      · rcases h.clause with ⟨rfl, -⟩ | ⟨first', rest', hlits', hval, hrest, -⟩
        · cases hlits
        obtain ⟨rfl, rfl⟩ := List.cons.inj (hlits.symm.trans hlits')
        simp only [hlits, List.head?_cons] at hend
        obtain ⟨rfl, rfl⟩ := Prod.mk.inj (Except.ok.inj hend)
        refine Or.inr ⟨first, rest, hlits, rfl, hopen, ?_⟩
        -- the literal was asserted, and propagation takes nothing back
        obtain ⟨-, hasserted⟩ := assertLearnt_spec h.sound hval hlits hopen hrest
        have hgrown := (propagate_spec hat.sound hprop).1.grown.lits
        exact hgrown.subset (by simp [hasserted.lits])
      · cases hno

/-- **A literal is forced**: it was open, over the component, and is on the trail
now. -/
structure Forces (c : Component) (known known' : Findings) (l : Lit) : Prop where
  var : l.var ∈ c.vars
  isOpen : known.solver.trail.isAssigned l.var = false
  mem : l ∈ known'.solver.trail.lits.toList

/-- **What a probe gains**, by its outcome. -/
def Gains (c : Component) (candidate : Lit) (known known' : Findings) : Probe → Prop
  | .forced => Forces c known known' candidate
  | .mismatch l => Forces c known known' l
  | .model => ¬ known'.solver.isLive known'.ledger candidate
  | .postponed | .unsatisfiable _ => True

/-- **Where the loop stands**: ready for a probe inside the component, with models
in the pool. -/
structure Exploring (F : List Clause) (b : Solver) (n₀ : Nat) (c : Component) (safe : Prop)
    (known : Findings) : Prop where
  ready : Ready F b n₀ known.solver
  confined : Confined Unfollowed c b known.solver
  safe : safe → known.solver.Safe
  nonempty : known.ledger.models ≠ []
  buffers : ∀ m ∈ known.ledger.models, m.buffer < known.solver.pool.buffers.size

/-- **What a probe retains**: the trail and the models, so that what is not live
stays so. -/
structure Retains (F : List Clause) (known known' : Findings) : Prop where
  sound : Sound F known'.solver
  within : Within known.solver known'.solver
  live : ∀ l, known'.solver.isLive known'.ledger l → known.solver.isLive known.ledger l

/-- A ledger with more models agrees on less. -/
theorem isLive_of_enters {ledger ledger' : ModelLedger} (hs : Sound F s) (hs' : Sound F s')
    (hw : Within s s') (henters : Enters b n₀ c ledger s.pool ledger' s'.pool)
    (hne : ledger.models ≠ [])
    (hbuffers : ∀ m ∈ ledger.models, m.buffer < s.pool.buffers.size) {l : Lit}
    (h : s'.isLive ledger' l) : s.isLive ledger l := by
  obtain ⟨added, hadded, -⟩ := henters.models
  refine ⟨?_, ModelLedger.unanimous_eq_some_iff.mpr ⟨hne, fun m hm => ?_⟩⟩
  · by_contra hno
    have hassigned := hs.assigned_of_subset hs' hw.lits.subset _ (by simpa using hno)
    rw [h.1] at hassigned
    cases hassigned
  · rw [← henters.pool.value (hbuffers m hm)]
    exact (ModelLedger.unanimous_eq_some_iff.mp h.2).2 m (hadded ▸ List.mem_append_left _ hm)

namespace Exploring

/-- Counting changes nothing. -/
theorem note (h : Exploring F b n₀ c safe known) (p : Probe) :
    Exploring F b n₀ c safe ⟨known.ledger, known.solver.noteProbe p⟩ := by
  have hstats : ∀ stats, Exploring F b n₀ c safe
      ⟨known.ledger, { known.solver with stats := stats }⟩ := fun stats =>
    ⟨h.ready.withStats stats, h.confined.withStats stats, h.safe, h.nonempty, h.buffers⟩
  cases p with
  | model => exact h
  | unsatisfiable clause => exact h
  | _ => exact hstats _

section Probe

variable {fuel : Nat} {ledger' : ModelLedger} (hb : Sound F b)
  (hvars : ∀ v ∈ c.vars, v.index < b.varCount) (h : Exploring F b n₀ c safe known)
  (hcand : candidate.var ∈ c.vars) (hlive : known.solver.isLive known.ledger candidate)
  (hp : known.solver.probe fuel c candidate budget known.ledger = .ok (p, ledger', s'))

include hvars h hcand hlive hp

/-- **A probe takes nothing back**, seen from where it starts. -/
theorem probe_retains : Retains F known ⟨ledger', s'⟩ := by
  have hl : candidate.var.index < known.solver.varCount :=
    h.ready.within.varCount ▸ hvars _ hcand
  have hs := h.ready.sound
  obtain ⟨hown, hownDis, henters⟩ := probe_spec hs h.ready.own hl hlive.1 hp
  have hkept : Sound F s' ∧ Within known.solver s' := by
    by_cases hunsat : ∃ clause, p = .unsatisfiable clause
    · obtain ⟨clause, rfl⟩ := hunsat
      exact ⟨(hownDis clause rfl).sound, (hownDis clause rfl).within⟩
    · have hready := hown fun clause hc => hunsat ⟨clause, hc⟩
      exact ⟨hready.sound, hready.within⟩
  exact ⟨hkept.1, hkept.2, fun l =>
    isLive_of_enters hs hkept.1 hkept.2 henters h.nonempty h.buffers⟩

/-- **A probe gains** what its outcome says. -/
theorem probe_gains : Gains c candidate known ⟨ledger', s'⟩ p := by
  obtain ⟨ledger, s⟩ := known
  have hl : candidate.var.index < s.varCount := h.ready.within.varCount ▸ hvars _ hcand
  have hs := h.ready.sound
  rcases h.confined.probe_cases h.ready hcand hl hlive.1 hp with
    ⟨learnt, s₁, href, hw, -, haims, happ, -⟩ | ⟨-, ⟨rfl, -⟩ | ⟨rfl, m, rfl, -, hvalue, -⟩⟩
  · rcases href.applyProbe_eq_ok happ with ⟨clause, rfl⟩ | ⟨first, rest, hlits, rfl, hopen, hmem⟩
    · trivial
    · -- the literal learnt was open before, so its variable is the component's
      have hfirst : s.trail.isAssigned first.var = false := by
        by_contra ha
        have hassigned := hs.assigned_of_subset href.sound hw.lits.subset _
          (by simpa using ha)
        rw [hopen] at hassigned
        cases hassigned
      have hvar : first.var ∈ c.vars := (haims.first first rest hlits).resolve_left fun hb =>
        hs.trail.not_mem_of_not_assigned (l := first.neg) hfirst (h.ready.within.lits.subset hb)
      have hforces : Forces c ⟨ledger, s⟩ ⟨ledger', s'⟩ first := ⟨hvar, hfirst, hmem⟩
      split
      · rename_i heq
        exact heq ▸ hforces
      · exact hforces
  · trivial
  · -- the new model is against the candidate
    intro hagain
    have hvalue' := (ModelLedger.unanimous_eq_some_iff.mp hagain.2).2 m
      (by simp [ModelLedger.add])
    rw [hvalue] at hvalue'
    simp at hvalue'

include hb

/-- **The loop goes on** after a probe, unless the component is refuted. -/
theorem probe_explores (hno : ∀ clause, p ≠ .unsatisfiable clause) :
    Exploring F b n₀ c safe ⟨ledger', s'⟩ := by
  obtain ⟨ledger, s⟩ := known
  have hl : candidate.var.index < s.varCount := h.ready.within.varCount ▸ hvars _ hcand
  have hprobed := probe_spec hb h.ready hl hlive.1 hp
  obtain ⟨added, hadded, -⟩ := hprobed.enters.models
  have hold : ∀ m ∈ ledger.models, m.buffer < s'.pool.buffers.size := fun m hm =>
    Nat.lt_of_lt_of_le (h.buffers m hm) hprobed.enters.pool.size
  refine ⟨hprobed.ready hno, h.confined.probe h.ready hcand hl hlive.1 hp,
    fun hsafe => (Upkeep.probe hp).safe (h.safe hsafe), ?_, fun m hm => ?_⟩
  · exact hadded ▸ List.append_ne_nil_of_left_ne_nil h.nonempty _
  · rcases h.confined.probe_cases h.ready hcand hl hlive.1 hp with
      ⟨_, _, -, -, -, -, -, rfl⟩ | ⟨-, ⟨-, rfl⟩ | ⟨-, new, rfl, hnew, -⟩⟩
    · exact hold m hm
    · exact hold m hm
    · rcases List.mem_append.mp hm with hm | hm
      · exact hold m hm
      · exact List.mem_singleton.mp hm ▸ hnew

/-- **A probe** of a live candidate retains what is known, gains what its outcome
says, and the loop goes on unless the component is refuted. -/
theorem probe : Retains F known ⟨ledger', s'⟩ ∧ Gains c candidate known ⟨ledger', s'⟩ p
    ∧ ((∀ clause, p ≠ .unsatisfiable clause) → Exploring F b n₀ c safe ⟨ledger', s'⟩) :=
  ⟨h.probe_retains hvars hcand hlive hp, h.probe_gains hvars hcand hlive hp,
    h.probe_explores hb hvars hcand hlive hp⟩

end Probe

end Exploring

/-! ## What is left to find out -/

theorem length_candidates (s : Solver) (vs : List Var) (ledger : ModelLedger) :
    (s.candidates vs ledger).length
      = (vs.filter fun v =>
          (ledger.unanimous s.pool v).isSome && !s.trail.isAssigned v).length := by
  unfold candidates ModelLedger.candidates
  rw [List.length_mergeSort, ← List.countP_eq_length_filter, List.countP_filterMap,
    ← List.countP_eq_length_filter]
  refine List.countP_congr fun v _ => ?_
  cases ledger.unanimous s.pool v <;> simp [Var.lit]

theorem exists_isLive {ledger : ModelLedger} {v : Var} :
    ((ledger.unanimous s.pool v).isSome && !s.trail.isAssigned v) = true
      ↔ ∃ value, s.isLive ledger (v.lit value) := by
  rw [Bool.and_eq_true, Option.isSome_iff_exists, Bool.not_eq_true']
  exact ⟨fun ⟨⟨value, hvalue⟩, hopen⟩ => ⟨value, hopen, hvalue⟩,
    fun ⟨value, hopen, hvalue⟩ => ⟨⟨value, hvalue⟩, hopen⟩⟩

/-- The number of open variables of a component. -/
def Findings.openCount (c : Component) (known : Findings) : Nat := (known.solver.openVars c).length

/-- The number of open literals over a component on which all models agree. -/
def Findings.agreedCount (c : Component) (known : Findings) : Nat :=
  (known.solver.candidates c.vars known.ledger).length

namespace Retains

theorem openCount_le (h : Retains F known known') (hs : Sound F known.solver) (c : Component) :
    known'.openCount c ≤ known.openCount c :=
  length_openVars_le (hs.assigned_of_subset h.sound h.within.lits.subset) c

theorem openCount_lt (h : Retains F known known') (hs : Sound F known.solver) {l : Lit}
    (hl : Forces c known known' l) : known'.openCount c < known.openCount c :=
  length_openVars_lt (hs.assigned_of_subset h.sound h.within.lits.subset) hl.var hl.isOpen
    (h.sound.trail.isAssigned_iff.mpr ⟨l, hl.mem, rfl⟩)

theorem agreedCount_le (h : Retains F known known') (c : Component) :
    known'.agreedCount c ≤ known.agreedCount c := by
  unfold Findings.agreedCount
  rw [length_candidates, length_candidates]
  refine (List.monotone_filter_right c.vars fun v hv => ?_).length_le
  exact exists_isLive.mpr ((exists_isLive.mp hv).imp fun _ => h.live _)

theorem agreedCount_lt (h : Retains F known known') {l : Lit} (hl : l.var ∈ c.vars)
    (hlive : known.solver.isLive known.ledger l)
    (hno : ¬ known'.solver.isLive known'.ledger l) :
    known'.agreedCount c < known.agreedCount c := by
  unfold Findings.agreedCount
  rw [length_candidates, length_candidates]
  refine length_filter_lt (fun v _ hv => ?_) hl ?_ ?_
  · exact exists_isLive.mpr ((exists_isLive.mp hv).imp fun _ => h.live _)
  · exact exists_isLive.mpr ⟨l.positive, hlive⟩
  · by_contra hagain
    obtain ⟨value, hvalue⟩ := exists_isLive.mp (by simpa using hagain)
    -- the models agree on one value only
    have hsame := (h.live _ hvalue).2.symm.trans hlive.2
    have heq : l.var.lit value = l := Lit.eq_of_var_eq rfl (Option.some.inj hsame)
    exact hno (heq ▸ hvalue)

end Retains

/-- **What the claims of progress rest on**: no probe increases the number of open
variables of the component or the number of open literals the models agree on,
and one that counts as progress decreases one of them. -/
structure Trial.Advances (c : Component) (t : Trial) : Prop where
  openCount_le : t.after.openCount c ≤ t.before.openCount c
  agreedCount_le : t.after.agreedCount c ≤ t.before.agreedCount c
  lt : t.outcome.counts = true → t.after.openCount c < t.before.openCount c
    ∨ t.after.agreedCount c < t.before.agreedCount c

theorem openCount_noteProbe (s : Solver) (ledger : ModelLedger) (p : Probe) :
    (⟨ledger, s.noteProbe p⟩ : Findings).openCount c = (⟨ledger, s⟩ : Findings).openCount c := by
  cases p <;> rfl

theorem agreedCount_noteProbe (s : Solver) (ledger : ModelLedger) (p : Probe) :
    (⟨ledger, s.noteProbe p⟩ : Findings).agreedCount c
      = (⟨ledger, s⟩ : Findings).agreedCount c := by
  cases p <;> rfl

/-- **A probe advances.** -/
theorem Retains.advances (h : Retains F known known') (hs : Sound F known.solver)
    (hcand : candidate.var ∈ c.vars) (hlive : known.solver.isLive known.ledger candidate)
    (hgains : Gains c candidate known known' p) :
    Trial.Advances c ⟨candidate, p, known, ⟨known'.ledger, known'.solver.noteProbe p⟩⟩ where
  openCount_le := by
    rw [openCount_noteProbe]
    exact h.openCount_le hs c
  agreedCount_le := by
    rw [agreedCount_noteProbe]
    exact h.agreedCount_le c
  lt := by
    intro hcounts
    rw [openCount_noteProbe, agreedCount_noteProbe]
    cases p with
    | forced => exact Or.inl (h.openCount_lt hs hgains)
    | mismatch l => exact Or.inl (h.openCount_lt hs hgains)
    | model => exact Or.inr (h.agreedCount_lt hcand hlive hgains)
    | postponed => cases hcounts
    | unsatisfiable clause => cases hcounts

/-- **A measure of probing**: no probe increases it, one that counts as progress
decreases it, and nothing is left to probe when it is used up. -/
structure Measures (F : List Clause) (b : Solver) (n₀ : Nat) (c : Component) (safe : Prop)
    (μ : Findings → Nat) : Prop where
  note : ∀ ledger s p, μ ⟨ledger, s.noteProbe p⟩ = μ ⟨ledger, s⟩
  probe : ∀ {fuel budget : Nat} {candidate : Lit} {known : Findings} {p : Probe}
    {ledger' : ModelLedger} {s' : Solver}, Exploring F b n₀ c safe known →
    candidate.var ∈ c.vars → known.solver.isLive known.ledger candidate →
    known.solver.probe fuel c candidate budget known.ledger = .ok (p, ledger', s') →
    μ ⟨ledger', s'⟩ + p.counts.toNat ≤ μ known
  live : ∀ {candidate : Lit} {known : Findings}, candidate.var ∈ c.vars →
    known.solver.isLive known.ledger candidate → 0 < μ known

/-- **Both counts together** are a measure in any case. -/
theorem measures_counts (hb : Sound F b) (hvars : ∀ v ∈ c.vars, v.index < b.varCount) :
    Measures F b n₀ c safe fun known => known.openCount c + known.agreedCount c where
  note := fun ledger s p => by rw [openCount_noteProbe, agreedCount_noteProbe]
  probe := by
    intro fuel budget candidate known p ledger' s' h hcand hlive hp
    obtain ⟨hret, hgains, -⟩ := h.probe hb hvars hcand hlive hp
    have hadv := hret.advances h.ready.sound hcand hlive hgains
    obtain ⟨hopen, hagreed, hlt⟩ := hadv
    simp only [openCount_noteProbe, agreedCount_noteProbe] at hopen hagreed hlt
    cases hcounts : p.counts with
    | false =>
      show _ + _ + 0 ≤ _
      omega
    | true =>
      have hless := hlt hcounts
      show _ + _ + 1 ≤ _
      omega
  live := fun hcand hlive => Nat.add_pos_left
    (List.length_pos_of_mem (List.mem_filter.mpr ⟨hcand, by simp [hlive.1]⟩)) _

/-! ## What the loyal models share -/

/-- **An open variable that the loyal models share**: all that are in the ledger agree
on its value. -/
structure Findings.Shared (c : Component) (b : Solver) (known : Findings) (v : Var) : Prop where
  isOpen : known.solver.trail.isAssigned v = false
  agreed : ∃ value, ∀ m ∈ known.ledger.models, Loyal c b known.solver m →
    known.solver.pool.valuation m v = value

theorem valuation_of_isLive {ledger : ModelLedger} {l : Lit} (h : s.isLive ledger l) :
    ∀ m ∈ ledger.models, s.pool.valuation m l.var = l.positive := fun m hm =>
  ModelPool.valuation_of_value ((ModelLedger.unanimous_eq_some_iff.mp h.2).2 m hm)

/-- All models agree on a live candidate, the loyal ones among them. -/
theorem shared_of_isLive (h : known.solver.isLive known.ledger candidate) :
    known.Shared c b candidate.var :=
  ⟨h.1, candidate.positive, fun m hm _ => valuation_of_isLive h m hm⟩

open Classical in
/-- The number of variables of the component that the loyal models share. -/
noncomputable def Findings.sharedCount (c : Component) (b : Solver) (known : Findings) : Nat :=
  (c.vars.filter fun v => Decidable.decide (known.Shared c b v)).length

open Classical in
/-- **What is left to find out**: these variables, and a loyal model. -/
noncomputable def Findings.left (c : Component) (b : Solver) (known : Findings) : Nat :=
  known.sharedCount c b + if ∃ m ∈ known.ledger.models, Loyal c b known.solver m then 0 else 1

theorem Findings.left_le (c : Component) (b : Solver) (known : Findings) :
    known.left c b ≤ c.vars.length + 1 := by
  have hfilter : known.sharedCount c b ≤ c.vars.length := List.length_filter_le _ _
  unfold Findings.left
  split <;> omega

/-- **Loyal models are kept**, with their values, and with what is assigned. -/
structure KeepsLoyal (c : Component) (b : Solver) (known known' : Findings) : Prop where
  assigned : ∀ v, known.solver.trail.isAssigned v = true → known'.solver.trail.isAssigned v = true
  models : ∀ m ∈ known.ledger.models, m ∈ known'.ledger.models
  loyal : ∀ m ∈ known.ledger.models, Loyal c b known.solver m → Loyal c b known'.solver m
  values : ∀ m ∈ known.ledger.models,
    known'.solver.pool.valuation m = known.solver.pool.valuation m

namespace KeepsLoyal

theorem shared (h : KeepsLoyal c b known known') {v : Var} (hv : known'.Shared c b v) :
    known.Shared c b v where
  isOpen := by
    by_contra hno
    have hassigned := h.assigned v (by simpa using hno)
    rw [hv.isOpen] at hassigned
    cases hassigned
  agreed := hv.agreed.imp fun value hvalue m hm hl => by
    rw [← h.values m hm]
    exact hvalue m (h.models m hm) (h.loyal m hm hl)

theorem sharedCount_le (h : KeepsLoyal c b known known') :
    known'.sharedCount c b ≤ known.sharedCount c b := by
  classical
  refine (List.monotone_filter_right c.vars fun v hv => ?_).length_le
  exact decide_eq_true (h.shared (of_decide_eq_true hv))

theorem left_le (h : KeepsLoyal c b known known') : known'.left c b ≤ known.left c b := by
  have hcount := h.sharedCount_le
  unfold Findings.left
  split
  · omega
  · rename_i hno
    rw [if_neg]
    · omega
    · exact fun ⟨m, hm, hl⟩ => hno ⟨m, h.models m hm, h.loyal m hm hl⟩

/-- A variable that is not shared any more. -/
theorem left_lt_of_shared (h : KeepsLoyal c b known known') {v : Var} (hv : v ∈ c.vars)
    (hshared : known.Shared c b v) (hno : ¬ known'.Shared c b v) :
    known'.left c b < known.left c b := by
  classical
  have hcount : known'.sharedCount c b < known.sharedCount c b :=
    length_filter_lt (fun w _ hw => decide_eq_true (h.shared (of_decide_eq_true hw))) hv
      (decide_eq_true hshared) (decide_eq_false hno)
  unfold Findings.left
  split
  · omega
  · rename_i hnone
    rw [if_neg]
    · omega
    · exact fun ⟨m, hm, hl⟩ => hnone ⟨m, h.models m hm, h.loyal m hm hl⟩

/-- The first loyal model. -/
theorem left_lt_of_first (h : KeepsLoyal c b known known')
    (hnone : ¬ ∃ m ∈ known.ledger.models, Loyal c b known.solver m)
    (hsome : ∃ m ∈ known'.ledger.models, Loyal c b known'.solver m) :
    known'.left c b < known.left c b := by
  have hcount := h.sharedCount_le
  unfold Findings.left
  rw [if_pos hsome, if_neg hnone]
  omega

end KeepsLoyal

/-- Statistics make no difference to loyal models. -/
theorem left_withStats (s : Solver) (stats : Statistics) (ledger : ModelLedger) :
    Findings.left c b ⟨ledger, { s with stats := stats }⟩ = Findings.left c b ⟨ledger, s⟩ := by
  have hloyal : ∀ m, Loyal c b { s with stats := stats } m ↔ Loyal c b s m := fun m =>
    ⟨fun h => ⟨h.trail, h.region.congr rfl fun _ hl h0 => ⟨hl, h0⟩⟩,
      fun h => ⟨h.trail, h.region.congr rfl fun _ hl h0 => ⟨hl, h0⟩⟩⟩
  refine Nat.le_antisymm (KeepsLoyal.left_le ?_) (KeepsLoyal.left_le ?_)
  · exact ⟨fun _ h => h, fun _ h => h, fun m _ h => (hloyal m).mpr h, fun _ _ => rfl⟩
  · exact ⟨fun _ h => h, fun _ h => h, fun m _ h => (hloyal m).mp h, fun _ _ => rfl⟩

theorem left_noteProbe (s : Solver) (ledger : ModelLedger) (p : Probe) :
    Findings.left c b ⟨ledger, s.noteProbe p⟩ = Findings.left c b ⟨ledger, s⟩ := by
  cases p with
  | model => rfl
  | unsatisfiable clause => rfl
  | _ => exact left_withStats s _ ledger

namespace Exploring

section Probe

variable {fuel : Nat} {ledger' : ModelLedger} (hb : Sound F b)
  (hvars : ∀ v ∈ c.vars, v.index < b.varCount) (h : Exploring F b n₀ c safe known)
  (hcand : candidate.var ∈ c.vars) (hlive : known.solver.isLive known.ledger candidate)
  (hp : known.solver.probe fuel c candidate budget known.ledger = .ok (p, ledger', s'))

include hvars h hcand hlive hp

/-- **A probe keeps loyal models loyal**: their valuations are followed. -/
theorem probe_keepsLoyal : KeepsLoyal c b known ⟨ledger', s'⟩ := by
  obtain ⟨ledger, s⟩ := known
  have hl : candidate.var.index < s.varCount := h.ready.within.varCount ▸ hvars _ hcand
  have hs := h.ready.sound
  have hret := h.probe_retains hvars hcand hlive hp
  obtain ⟨-, -, henters⟩ := probe_spec hs h.ready.own hl hlive.1 hp
  obtain ⟨added, hadded, -⟩ := henters.models
  have hfollowed : Confined (HoldsOn (Region c b) b.trail.passed s) c b s :=
    h.confined.withModels fun _ hν => hν
  have hobeyed := (hfollowed.probe h.ready hcand hl hlive.1 hp).obeyed
  refine ⟨hs.assigned_of_subset hret.sound hret.within.lits.subset, fun m hm => ?_,
    fun m hm hloyal => ?_, fun m hm => henters.pool.valuation (h.buffers m hm)⟩
  · exact hadded ▸ List.mem_append_left _ hm
  · exact hloyal.grow (h.buffers m hm) henters.pool (hobeyed _ hloyal.region)

/-- A model that is found is loyal, and against the candidate. -/
theorem probe_loyal (hset : SettledTo b.trail.passed n₀ b) (hmodel : p = .model) :
    ∃ m ∈ ledger'.models, Loyal c b s' m
      ∧ s'.pool.valuation m candidate.var = !candidate.positive := by
  obtain ⟨ledger, s⟩ := known
  have hl : candidate.var.index < s.varCount := h.ready.within.varCount ▸ hvars _ hcand
  rcases h.confined.probe_cases h.ready hcand hl hlive.1 hp with
    ⟨learnt, s₁, href, -, -, -, happ, -⟩ | ⟨-, ⟨rfl, -⟩ | ⟨-, m, rfl, -, hvalue, hloyal⟩⟩
  · rcases href.applyProbe_eq_ok happ with ⟨clause, rfl⟩ | ⟨first, rest, -, rfl, -⟩
    · cases hmodel
    · split at hmodel <;> cases hmodel
  · cases hmodel
  · exact ⟨m, by simp [ModelLedger.add], hloyal hset, ModelPool.valuation_of_value hvalue⟩

include hb

/-- **What is forced was shared**: all loyal models have it. -/
theorem shared_of_forces {l : Lit} (hno : ∀ clause, p ≠ .unsatisfiable clause)
    (hforces : Forces c known ⟨ledger', s'⟩ l) : known.Shared c b l.var where
  isOpen := hforces.isOpen
  agreed := by
    have hkeeps := h.probe_keepsLoyal hvars hcand hlive hp
    have hnext : Exploring F b n₀ c safe ⟨ledger', s'⟩ :=
      h.probe_explores hb hvars hcand hlive hp hno
    refine ⟨l.positive, fun m hm hloyal => ?_⟩
    rw [← hkeeps.values m hm]
    exact Lit.holds_iff.mp ((hkeeps.loyal m hm hloyal).holds hb hnext.ready.sound
      hnext.ready.within hnext.ready.level hnext.confined.trail.region l hforces.mem)

/-- **A probe that counts leaves less to find out.** -/
theorem probe_left (hset : SettledTo b.trail.passed n₀ b) :
    Findings.left c b ⟨ledger', s'⟩ + p.counts.toNat ≤ known.left c b := by
  have hkeeps := h.probe_keepsLoyal hvars hcand hlive hp
  have hgains := h.probe_gains hvars hcand hlive hp
  have hforced : ∀ {l : Lit}, (∀ clause, p ≠ .unsatisfiable clause) →
      Forces c known ⟨ledger', s'⟩ l → Findings.left c b ⟨ledger', s'⟩ < known.left c b := by
    intro l hno hl
    refine hkeeps.left_lt_of_shared hl.var
      (h.shared_of_forces hb hvars hcand hlive hp hno hl) fun hshared => ?_
    have hassigned := (h.probe_retains hvars hcand hlive hp).sound.trail.isAssigned_iff.mpr
      ⟨l, hl.mem, rfl⟩
    rw [hshared.isOpen] at hassigned
    cases hassigned
  cases p with
  | forced => exact hforced (by simp) hgains
  | mismatch l => exact hforced (by simp) hgains
  | postponed => exact hkeeps.left_le
  | unsatisfiable clause => exact hkeeps.left_le
  | model =>
    obtain ⟨m, hm, hloyal, hvalue⟩ := h.probe_loyal hvars hcand hlive hp hset rfl
    by_cases hsome : ∃ m ∈ known.ledger.models, Loyal c b known.solver m
    · obtain ⟨old, hold, hloyalOld⟩ := hsome
      -- all models had the candidate, and the new one has not
      refine hkeeps.left_lt_of_shared hcand (shared_of_isLive hlive) fun hshared => ?_
      obtain ⟨value, hagreed⟩ := hshared.agreed
      have hfirst := hagreed old (hkeeps.models old hold) (hkeeps.loyal old hold hloyalOld)
      have hsecond := hagreed m hm hloyal
      rw [hkeeps.values old hold, valuation_of_isLive hlive old hold] at hfirst
      rw [hvalue, ← hfirst] at hsecond
      simp at hsecond
    · exact hkeeps.left_lt_of_first hsome ⟨m, hm, hloyal⟩

end Probe

end Exploring

/-- **What is left to find out** is a measure: but for clauses without a watch, all is
settled up to the head where the call starts. -/
theorem measures_left (hb : Sound F b) (hvars : ∀ v ∈ c.vars, v.index < b.varCount) :
    Measures F b b.trail.head c safe (Findings.left c b) where
  note := fun ledger s p => left_noteProbe s ledger p
  probe := fun h hcand hlive hp => h.probe_left hb hvars hcand hlive hp hb.settledTo_passed
  live := by
    classical
    intro candidate known hcand hlive
    exact Nat.add_pos_left (List.length_pos_of_mem
      (List.mem_filter.mpr ⟨hcand, decide_eq_true (shared_of_isLive hlive)⟩)) _

end Solver

end Cleave
