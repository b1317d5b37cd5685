import Cleave.Proofs.Within
import Cleave.Solver.Search

/-!
# What a search gives

A search keeps the invariant of the solver and works above its entry level.
Between its steps the clauses are settled up to the head, and whenever
it is above its entry level the head has reached the current level
(`Solver.Searching`). So a conflict is always met at a literal of the current
level, which the search then takes back: what was not settled is propagated
again.

A search that ends with a model has settled everything and assigned all
variables of the component. One that ends with a refutation gives a clause
that `F` entails and whose literals, except maybe the first, are false at the
entry level.
-/

namespace Cleave

namespace Trail

variable {t t' : Trail} {count k : Nat}

theorem levelStart_congr (hstarts : t'.starts = t.starts) (hk : k ≤ t.level) :
    t'.levelStart k = t.levelStart k := by
  unfold levelStart
  split
  · rfl
  · have hlt : k - 1 < t.starts.size := by
      have hle : k ≤ t.starts.size := hk
      omega
    rw [hstarts, Array.getElem?_eq_getElem hlt]
    rfl

end Trail

namespace Solver

variable {F : List Clause} {b s s' : Solver} {k entry n₀ : Nat} {done : List Lit}

/-! ## Levels and parts of the trail -/

/-- A literal of a level up to `k` stands in the parts up to `k`. -/
theorem Sound.mem_take_of_level_le (hs : Sound F s) {m : Lit} (hm : m ∈ s.trail.lits.toList)
    (h0 : s.trail.levelOf m.var ≠ 0) (hle : s.trail.levelOf m.var ≤ k) :
    m ∈ s.trail.lits.toList.take (s.trail.levelStart (k + 1)) := by
  obtain ⟨pre, post, hsplit, hj⟩ := hs.justified_of_mem hm
  have hlevel := hj.level.resolve_left h0
  have hlt : pre.length < s.trail.lits.size := by
    rw [← Array.length_toList, hsplit]
    simp
  have hpos : pre.length < s.trail.levelStart (k + 1) :=
    (hs.trail.lt_levelStart_iff hlt k).mpr (hlevel ▸ hle)
  rw [hsplit, List.take_append]
  refine List.mem_append_right _ ?_
  rw [List.take_cons (by omega)]
  exact List.mem_cons_self

/-- A literal of a level above `k` stands behind the parts up to `k`. -/
theorem Sound.not_mem_take_of_lt_level (hs : Sound F s) {m : Lit}
    (hlt : k < s.trail.levelOf m.var) :
    m ∉ s.trail.lits.toList.take (s.trail.levelStart (k + 1)) := by
  intro hm
  obtain ⟨pre, rest, hsplit⟩ := List.append_of_mem hm
  have hwhole : s.trail.lits.toList
      = pre ++ m :: (rest ++ s.trail.lits.toList.drop (s.trail.levelStart (k + 1))) := by
    conv_lhs => rw [← List.take_append_drop (s.trail.levelStart (k + 1)) s.trail.lits.toList,
      hsplit]
    simp
  have hpos : pre.length < s.trail.levelStart (k + 1) := by
    have hlen := congrArg List.length hsplit
    simp only [List.length_take, List.length_append, List.length_cons] at hlen
    omega
  have hsize : pre.length < s.trail.lits.size :=
    Nat.lt_of_lt_of_le hpos (hs.trail.levelStart_le _)
  have hdepth := (hs.trail.lt_levelStart_iff hsize k).mp hpos
  have hlevel := (hs.justified _ _ _ hwhole).level
  omega

theorem Sound.levelOf_le_level (hs : Sound F s) {m : Lit} (hm : m ∈ s.trail.lits.toList) :
    s.trail.levelOf m.var ≤ s.level := by
  obtain ⟨pre, post, -, hj⟩ := hs.justified_of_mem hm
  rcases hj.level with h0 | hd
  · omega
  · rw [hd]
    exact s.trail.depth_le_level _

/-- Taking the level of a literal back leaves its variable open. -/
theorem Cut.open_of_lt_level (hc : Cut k s s') (hs : Sound F s) (hs' : Sound F s') {m : Lit}
    (hm : m ∈ s.trail.lits.toList) (hlt : k < s.trail.levelOf m.var) :
    s'.trail.isAssigned m.var = false := by
  by_contra ha
  obtain ⟨l, hl, hv⟩ := hs'.trail.isAssigned_iff.mp (by simpa using ha)
  obtain ⟨more, hlits, hmore⟩ := hc.lits
  rw [hlits] at hl
  rcases List.mem_append.mp hl with hl | hl
  · have he : l = m := hs.trail.eq_of_var_eq (List.mem_of_mem_take hl) hm hv
    exact hs.not_mem_take_of_lt_level hlt (he ▸ hl)
  · -- a fact that is asserted again has level 0
    obtain ⟨hmem, h0⟩ := hs.pending l (hmore l hl).1
    rw [hv] at h0
    omega

/-! ## Between the steps -/

/-- **Settled up to a position** at or behind the head, but for what `done` made
false. -/
structure SettledTo (done : List Lit) (n : Nat) (s : Solver) : Prop where
  head : s.trail.head ≤ n
  size : n ≤ s.trail.lits.size
  settled : Settled done s.store (s.trail.lits.toList.take n)

/-- **Settled but for a clause**: wherever a part of the trail up to the position
leaves one of its literals. This is how far things are settled when the clause was
learnt on the spot, at a level where all its literals are false. -/
def SettledBut (done : List Lit) (clause : Clause) (n : Nat) (s : Solver) : Prop :=
  n ≤ s.trail.lits.size ∧ ∀ m ≤ n, (∃ l ∈ clause, l.neg ∉ s.trail.lits.toList.take m) →
    Settled done s.store (s.trail.lits.toList.take m)

theorem SettledBut.of_settled {n : Nat} (clause : Clause) (hn : n ≤ s.trail.lits.size)
    (h : Settled done s.store (s.trail.lits.toList.take n)) : SettledBut done clause n s :=
  ⟨hn, fun _ hm _ => h.take_le hm⟩

/-- **The first literal of a lesson becomes false last.** -/
theorem Sound.first_not_mem {L m : Nat} {lesson : Lesson} (hs : Sound F s)
    (hv : lesson.Valid F s L)
    (h : ∃ l ∈ lesson.first :: lesson.rest, l.neg ∉ s.trail.lits.toList.take m) :
    lesson.first.neg ∉ s.trail.lits.toList.take m := by
  intro hfirst
  obtain ⟨l, hl, hno⟩ := h
  rcases List.mem_cons.mp hl with rfl | hrest
  · exact hno hfirst
  · have hL : s.trail.levelOf lesson.first.neg.var = L := hv.level
    have hbj := hv.backjump
    obtain ⟨h0, hlow⟩ := hv.lower l hrest
    have hbelow := hs.mem_take_of_level_le (k := L - 1) (hv.isFalse l hl) h0
      (show s.trail.levelOf l.var ≤ L - 1 by omega)
    have habove := hs.not_mem_take_of_lt_level (k := L - 1) (m := lesson.first.neg) (by omega)
    rcases Nat.le_total m (s.trail.levelStart (L - 1 + 1)) with hle | hle
    · exact habove (List.take_subset_take_left _ hle hfirst)
    · exact hno (List.take_subset_take_left _ hle hbelow)

/-- A lesson that is learnt leaves settled what it does not refute. -/
theorem SettledBut.learns {L n : Nat} {lesson : Lesson} (hv : lesson.Valid F s L) (hs : Sound F s)
    (hl : Learns lesson.first lesson.rest s s') (hn : n ≤ s.trail.lits.size)
    (h : Settled done s.store (s.trail.lits.toList.take n)) :
    SettledBut done (lesson.first :: lesson.rest) n s' := by
  have htrail : s'.trail = s.trail := (congrArg Solver.trail hl.others).symm
  unfold SettledBut
  rw [htrail]
  exact ⟨hn, fun m hm hno => hl.settled _ _ (hs.first_not_mem hv hno) (h.take_le hm)⟩

/-- **A search under way** that entered at level `entry`, in a state that
starts from `b`. What `b` had settled stays so. -/
structure Searching (F : List Clause) (b : Solver) (entry n₀ : Nat) (s : Solver) : Prop where
  sound : Sound F s
  within : Within b s
  level : entry ≤ s.level
  settled : ∀ done, SettledTo done n₀ b → ∃ n, n₀ ≤ n ∧ SettledTo done n s
  reached : entry < s.level → s.trail.levelStart s.level ≤ s.trail.head

/-- **A conflict of a search.** Only the last literal that was propagated may
be unsettled. -/
structure Conflicting (F : List Clause) (b : Solver) (entry n₀ : Nat) (s : Solver)
    (c : Conflict) : Prop where
  sound : Sound F s
  within : Within b s
  level : entry ≤ s.level
  refutes : Refutes F s c
  settled : ∀ done, SettledTo done n₀ b → ∃ n, n₀ ≤ n ∧ s.trail.head ≤ n + 1
    ∧ n ≤ s.trail.lits.size ∧ Settled done s.store (s.trail.lits.toList.take n)
  reached : entry < s.level → s.trail.levelStart s.level < s.trail.head

theorem Searching.withStats (h : Searching F b entry n₀ s) (stats : Statistics) :
    Searching F b entry n₀ { s with stats := stats } :=
  ⟨h.sound, h.within, h.level, fun done hb => (h.settled done hb).imp fun _ hn =>
    ⟨hn.1, ⟨hn.2.head, hn.2.size, hn.2.settled⟩⟩, h.reached⟩

theorem Conflicting.withStats {c : Conflict} (h : Conflicting F b entry n₀ s c)
    (stats : Statistics) : Conflicting F b entry n₀ { s with stats := stats } c :=
  ⟨h.sound, h.within, h.level, ⟨h.refutes.stored, h.refutes.entailed, h.refutes.isFalse⟩,
    h.settled, h.reached⟩

/-- A propagation ends with everything settled or with a conflict. -/
theorem Searching.propagate {r : Option Conflict} (h : Searching F b entry n₀ s)
    (hp : s.propagate = (r, s')) :
    (r = none → Searching F b entry n₀ s' ∧ s'.trail.head = s'.trail.lits.size
        ∧ (∀ done, SettledTo done n₀ b → Settled done s'.store s'.trail.lits.toList))
      ∧ ∀ c, r = some c → Conflicting F b entry n₀ s' c := by
  obtain ⟨hd, hend, hmore⟩ := propagate_spec h.sound hp
  have hwithin := h.within.grown h.sound hd.grown
  have hlevel := hd.grown.level
  have hstart : s'.trail.levelStart s'.level = s.trail.levelStart s.level := by
    rw [hlevel]
    exact Trail.levelStart_congr hd.grown.starts (Nat.le_refl _)
  refine ⟨fun hr => ?_, fun c hc => ?_⟩
  · subst hr
    refine ⟨⟨hd.sound, hwithin, hlevel ▸ h.level, fun done hb => ?_, fun hlt => ?_⟩, hend rfl,
      fun done hb => ?_⟩
    · obtain ⟨n, hn₀, hn⟩ := h.settled done hb
      obtain ⟨m, hnm, hm, hle, hset⟩ := propagate_settled h.sound hp hn.head hn.size hn.settled
      exact ⟨m, by omega, ⟨by simpa using hle, hm, hset⟩⟩
    · rw [hstart]
      exact Nat.le_trans (h.reached (hlevel ▸ hlt)) hd.grown.head
    · obtain ⟨n, hn₀, hn⟩ := h.settled done hb
      exact propagate_settled_all h.sound hp hn.head hn.size hn.settled
  · subst hc
    refine ⟨hd.sound, hwithin, hlevel ▸ h.level, hd.conflict c rfl, fun done hb => ?_,
      fun hlt => ?_⟩
    · obtain ⟨n, hn₀, hn⟩ := h.settled done hb
      obtain ⟨m, hnm, hm, hle, hset⟩ := propagate_settled h.sound hp hn.head hn.size hn.settled
      exact ⟨m, by omega, by simpa using hle, hm, hset⟩
    · rw [hstart]
      exact Nat.lt_of_le_of_lt (h.reached (hlevel ▸ hlt)) (hmore (by simp))

/-- A decision after a full propagation. -/
theorem Searching.decided (h : Searching F b entry n₀ s)
    (hhead : s.trail.head = s.trail.lits.size)
    (hset : ∀ done, SettledTo done n₀ b → Settled done s.store s.trail.lits.toList) {l : Lit}
    (hl : l.var.index < s.varCount) (hopen : s.trail.isAssigned l.var = false) :
    Searching F b entry n₀ (s.openDecision l) where
  sound := h.sound.decided hl hopen
  within := h.within.decided h.sound.trail hl hopen
  level := by
    show entry ≤ (s.trail.decided l).level
    rw [Trail.level_decided]
    exact Nat.le_succ_of_le h.level
  settled := by
    intro done hb
    refine ⟨s.trail.lits.size, Nat.le_trans hb.size h.within.size_le, Nat.le_of_eq hhead, ?_, ?_⟩
    · show _ ≤ (s.trail.decided l).lits.size
      rw [← Array.length_toList, ← Array.length_toList, Trail.lits_decided]
      simp
    · show Settled done s.store ((s.trail.decided l).lits.toList.take s.trail.lits.size)
      rw [Trail.lits_decided]
      simpa using hset done hb
  reached := by
    intro _
    show (s.trail.decided l).levelStart (s.trail.decided l).level ≤ s.trail.head
    rw [Trail.level_decided, Trail.levelStart_decided _ _ (Nat.le_refl _), hhead]
    exact h.sound.trail.levelStart_le _

/-! ## A conflict -/

/-- **A refutation by a search**, before it goes back to its entry level: the
empty clause, or one whose literals are false below the entry level, except
that the first may be of that or a higher one. -/
structure RefutedAt (F : List Clause) (b : Solver) (entry n₀ : Nat) (learnt : Learnt)
    (s : Solver) : Prop where
  sound : Sound F s
  within : Within b s
  level : entry ≤ s.level
  clause : (learnt = .empty ∧ s.conflicted = true)
    ∨ ∃ first rest, learnt.lits = first :: rest ∧ 0 < entry ∧ Learnt.Valid F s learnt
        ∧ (∀ m ∈ rest, m.neg ∈ s.trail.lits.toList.take (s.trail.levelStart entry))
        ∧ first.neg ∉ s.trail.roots
        ∧ (first.neg ∈ s.trail.lits.toList.take (s.trail.levelStart (entry + 1))
          ∨ (first.neg ∈ s.trail.lits.toList ∧ entry < s.trail.levelOf first.var))
  settled : ∀ done, SettledTo done n₀ b → ∃ n, n₀ ≤ n ∧ SettledBut done learnt.lits n s
    ∧ (s.trail.levelStart (entry + 1) ≤ n ∨ ∀ l ∈ learnt.lits,
        l.neg ∈ s.trail.lits.toList.take (s.trail.levelStart (entry + 1)))

/-- A conflict above the entry level was met behind that level's part. -/
theorem Conflicting.levelStart_le {c : Conflict} (h : Conflicting F b entry n₀ s c)
    (hlt : entry < s.level) {n : Nat} (hn : s.trail.head ≤ n + 1) :
    s.trail.levelStart (entry + 1) ≤ n := by
  have hreached := h.reached hlt
  have hmono : s.trail.levelStart (entry + 1) ≤ s.trail.levelStart s.level :=
    h.sound.trail.levelStart_mono hlt
  omega

/-- A lesson that is learnt but not asserted. -/
theorem Conflicting.refuted {c : Conflict} (h : Conflicting F b entry n₀ s c) {lesson : Lesson}
    (hv : lesson.Valid F s (s.conflictLevel c)) {learnt : Learnt}
    (hl : Learns lesson.first lesson.rest s s') (hs' : Sound F s')
    (hlits : learnt.lits = lesson.first :: lesson.rest)
    (hval : Learnt.Valid F s' learnt)
    (hlow : s.conflictLevel c ≤ entry ∨ lesson.backjump < entry) :
    RefutedAt F b entry n₀ learnt s' := by
  have htrail : s'.trail = s.trail := (congrArg Solver.trail hl.others).symm
  have hlevel : s'.level = s.level := congrArg Trail.level htrail
  have hfirst := hv.isFalse lesson.first List.mem_cons_self
  have hL : s.trail.levelOf lesson.first.neg.var = s.conflictLevel c := hv.level
  have hbj := hv.backjump
  have hle : s.conflictLevel c ≤ s.level := hL ▸ h.sound.levelOf_le_level hfirst
  have hpos : 0 < entry := by omega
  have hrest : ∀ m ∈ lesson.rest,
      m.neg ∈ s.trail.lits.toList.take (s.trail.levelStart entry) := by
    intro m hm
    obtain ⟨h0, hmb⟩ := hv.lower m hm
    have hbelow : s.trail.levelOf m.neg.var ≤ entry - 1 := by
      show s.trail.levelOf m.var ≤ entry - 1
      omega
    have hmem := h.sound.mem_take_of_level_le (hv.isFalse m (List.mem_cons_of_mem _ hm)) h0 hbelow
    rwa [Nat.sub_add_cancel hpos] at hmem
  have hfalse : s.conflictLevel c ≤ entry →
      lesson.first.neg ∈ s.trail.lits.toList.take (s.trail.levelStart (entry + 1)) :=
    fun hce => h.sound.mem_take_of_level_le hfirst (by rw [hL]; omega) (hL ▸ hce)
  refine ⟨hs', h.within.learns hl, hlevel ▸ h.level, Or.inr ⟨_, _, hlits, hpos, hval, ?_, ?_, ?_⟩,
    fun done hb => ?_⟩
  · rw [htrail]
    exact hrest
  · rw [htrail]
    exact h.sound.not_mem_take_of_lt_level (by omega)
  · rw [htrail]
    by_cases hce : s.conflictLevel c ≤ entry
    · exact Or.inl (hfalse hce)
    · refine Or.inr ⟨hfirst, ?_⟩
      have hL' : s.trail.levelOf lesson.first.var = s.conflictLevel c := hv.level
      omega
  · obtain ⟨n, hn₀, hhead, hn, hset⟩ := h.settled done hb
    rw [htrail, hlits]
    refine ⟨n, hn₀, .learns hv h.sound hl hn hset, ?_⟩
    by_cases hlt : entry < s.level
    · exact Or.inl (h.levelStart_le hlt hhead)
    · refine Or.inr fun l hl => ?_
      rcases List.mem_cons.mp hl with rfl | hl
      · exact hfalse (by omega)
      · exact List.take_subset_take_left _
          (h.sound.trail.levelStart_mono (Nat.le_succ entry)) (hrest l hl)

/-- **Where a lesson is asserted**: the level of the conflict is taken back,
all that is kept is settled, and of the lesson only the first literal is left. -/
structure Reopened (F : List Clause) (b : Solver) (n₀ : Nat) (lesson : Lesson) (s : Solver) :
    Prop where
  sound : Sound F s
  within : Within b s
  level : s.level = lesson.backjump
  head : s.trail.head = s.trail.lits.size
  settled : ∀ done, SettledTo done n₀ b →
    n₀ ≤ s.trail.lits.size ∧ Settled done s.store s.trail.lits.toList
  firstOpen : s.trail.isAssigned lesson.first.var = false
  restFalse : ∀ m ∈ lesson.rest, m.neg ∈ s.trail.lits.toList
  inRange : ∀ l ∈ lesson.first :: lesson.rest, l.var.index < s.varCount

/-- Behind the cut only the conflict's level was left unsettled. -/
theorem Conflicting.reopened {c : Conflict} (h : Conflicting F b entry n₀ s c)
    (hb : b.level ≤ entry) {lesson : Lesson}
    (hv : lesson.Valid F s (s.conflictLevel c)) (hentry : entry ≤ lesson.backjump) :
    Reopened F b n₀ lesson (s.backtrackTo lesson.backjump) := by
  have hfirst := hv.isFalse lesson.first List.mem_cons_self
  have hL : s.trail.levelOf lesson.first.neg.var = s.conflictLevel c := hv.level
  have hle : s.conflictLevel c ≤ s.level := hL ▸ h.sound.levelOf_le_level hfirst
  have hlt : lesson.backjump < s.level := Nat.lt_of_lt_of_le hv.backjump hle
  have hbase := Nat.le_trans hb hentry
  obtain ⟨hs₁, hcut⟩ := backtrackTo_spec h.sound hlt
  have hlits := h.within.lits_cut h.sound hbase hcut
  have hcutle : s.trail.levelStart (lesson.backjump + 1) ≤ s.trail.lits.size :=
    h.sound.trail.levelStart_le _
  have hsize : (s.backtrackTo lesson.backjump).trail.lits.size
      = s.trail.levelStart (lesson.backjump + 1) := by
    have hlength := congrArg List.length hlits
    rw [List.length_take, Array.length_toList, Array.length_toList] at hlength
    omega
  have hreached := h.reached (by omega)
  have hmono : s.trail.levelStart (lesson.backjump + 1) ≤ s.trail.levelStart s.level :=
    h.sound.trail.levelStart_mono hlt
  refine ⟨hs₁, h.within.cut h.sound hbase hlt hcut, hcut.level hlt, ?_, fun done hset => ⟨?_, ?_⟩,
    hcut.open_of_lt_level (m := lesson.first.neg) h.sound hs₁ hfirst (hL ▸ hv.backjump), ?_, ?_⟩
  · rw [hcut.head, hsize]
    omega
  · rw [hsize]
    exact Nat.le_trans hset.size (h.within.size_le_levelStart hbase)
  · obtain ⟨n, -, hhead, hn, hset⟩ := h.settled done hset
    have hkept := hcut.settled (Nat.le_refl _) hcutle
      (hset.take_le (m := s.trail.levelStart (lesson.backjump + 1)) (by omega))
    rwa [List.take_of_length_le (Nat.le_of_eq (Array.length_toList.trans hsize))] at hkept
  · intro m hm
    obtain ⟨h0, hmb⟩ := hv.lower m hm
    rw [hlits]
    exact h.sound.mem_take_of_level_le (hv.isFalse m (List.mem_cons_of_mem _ hm)) h0 hmb
  · intro l hl
    rw [hcut.varCount]
    exact h.sound.trail.inRange l.neg (hv.isFalse l hl)

/-- **A lesson is asserted** where it is unit: the asserted literal is to be
propagated. -/
theorem Reopened.goesOn {lesson : Lesson} (h : Reopened F b n₀ lesson s)
    (hent : Entails F (lesson.first :: lesson.rest))
    (hnodup : ((lesson.first :: lesson.rest).map Lit.var).Nodup)
    (hunit : lesson.rest = [] → lesson.backjump = 0) (hb : b.level ≤ entry)
    (hentry : entry ≤ lesson.backjump) {learnt : Learnt}
    (hl : s.learn lesson = .ok (learnt, s')) :
    Searching F b entry n₀ (s'.assertLearnt learnt) := by
  obtain ⟨hs', hlearns, hlits, hval⟩ := learn_spec h.sound hent hnodup h.inRange hl
  have htrail : s'.trail = s.trail := (congrArg Solver.trail hlearns.others).symm
  have hlevel' : s'.level = lesson.backjump := (congrArg Trail.level htrail).trans h.level
  obtain ⟨hs, hassert⟩ := assertLearnt_spec hs' hval hlits (htrail ▸ h.firstOpen)
    (fun m hm => htrail ▸ h.restFalse m hm)
  have hlevel : (s'.assertLearnt learnt).level = lesson.backjump :=
    (congrArg Array.size hassert.starts).trans hlevel'
  refine ⟨hs, ?_, by omega,
    fun done hbase => ⟨s.trail.lits.size, (h.settled done hbase).1, ?_, ?_, ?_⟩, ?_⟩
  · -- a root fact is only asserted at level 0
    refine (h.within.learns hlearns).asserted hs'.trail hassert fun hne => ?_
    cases hrest : lesson.rest with
    | nil =>
      have hzero := hunit hrest
      omega
    | cons m more =>
      refine absurd ?_ hne
      unfold assertLearnt
      rw [hlits, hrest]
      rfl
  · exact Nat.le_of_eq (by rw [hassert.head, htrail, h.head])
  · have hlength := congrArg List.length hassert.lits
    rw [htrail, List.length_append, Array.length_toList, Array.length_toList] at hlength
    omega
  · have hstore : (s'.assertLearnt learnt).store = s'.store :=
      (congrArg Solver.store hassert.others).symm
    rw [hstore, hassert.lits, htrail, ← Array.length_toList, List.take_left]
    exact hlearns.settled _ _ (h.sound.trail.not_mem_of_not_assigned (l := lesson.first.neg)
      h.firstOpen) (h.settled done hbase).2
  · intro _
    have hstart : (s'.assertLearnt learnt).trail.levelStart (s'.assertLearnt learnt).level
        = s.trail.levelStart lesson.backjump := by
      rw [hlevel]
      refine Trail.levelStart_congr (hassert.starts.trans (congrArg Trail.starts htrail)) ?_
      exact Nat.le_of_eq h.level.symm
    rw [hstart, hassert.head, htrail, h.head]
    exact h.sound.trail.levelStart_le _

/-- The conflict flag is a refutation at every level. -/
theorem Conflicting.refuted_empty {c : Conflict} (h : Conflicting F b entry n₀ s c)
    (hunsat : ¬ Satisfiable F) : RefutedAt F b entry n₀ .empty s.setConflicted := by
  refine ⟨h.sound.refute hunsat, h.within, h.level, Or.inl ⟨rfl, rfl⟩, fun done hbase => ?_⟩
  obtain ⟨n, h1, -, h2, h3⟩ := h.settled done hbase
  exact ⟨n, h1, .of_settled _ h2 h3, Or.inr (by simp [Learnt.empty])⟩

/-- A conflict at the entry level or below is learnt from. -/
theorem Conflicting.refute {c : Conflict} {learnt : Learnt} (h : Conflicting F b entry n₀ s c)
    (hlow : s.conflictLevel c ≤ entry) (hr : s.refute c = .ok (learnt, s')) :
    RefutedAt F b entry n₀ learnt s' := by
  obtain ⟨hs', ⟨rfl, rfl, hunsat⟩ | ⟨lesson, hv, hl, hlits, hval⟩⟩ :=
    refute_spec h.sound h.refutes hr
  · exact h.refuted_empty hunsat
  · exact h.refuted hv hl hs' hlits hval (Or.inl hlow)

/-- **What a search does about a conflict.** -/
theorem handleConflict_spec {c : Conflict} {a : AfterConflict}
    (h : Conflicting F b entry n₀ s c) (hb : b.level ≤ entry)
    (hh : s.handleConflict entry c = .ok (a, s')) :
    (∀ learnt, a = .refuted learnt → RefutedAt F b entry n₀ learnt s')
      ∧ (a = .goesOn → Searching F b entry n₀ s') := by
  unfold handleConflict at hh
  split at hh
  · rename_i hlow
    obtain ⟨⟨learnt, s₁⟩, href, hend⟩ := Except.bind_eq_ok.mp hh
    obtain ⟨rfl, rfl⟩ := Prod.mk.inj (Except.ok.inj hend)
    refine ⟨fun l hl => ?_, fun hc => nomatch hc⟩
    obtain rfl := AfterConflict.refuted.inj hl
    exact h.refute hlow href
  · obtain ⟨⟨o, s₁⟩, han, hend⟩ := Except.bind_eq_ok.mp hh
    rcases analyze_spec h.sound h.refutes han with ⟨rfl, rfl, hunsat⟩ | ⟨lesson, rfl, rfl, hv⟩
    · obtain ⟨rfl, rfl⟩ := Prod.mk.inj (Except.ok.inj hend)
      refine ⟨fun l hl => ?_, fun hc => nomatch hc⟩
      obtain rfl := AfterConflict.refuted.inj hl
      exact h.refuted_empty hunsat
    · simp only at hend
      split at hend
      · rename_i hback
        obtain ⟨⟨learnt, s₂⟩, hlearn, hend⟩ := Except.bind_eq_ok.mp hend
        obtain ⟨rfl, rfl⟩ := Prod.mk.inj (Except.ok.inj hend)
        refine ⟨fun l hl => ?_, fun hc => nomatch hc⟩
        obtain rfl := AfterConflict.refuted.inj hl
        obtain ⟨hs', hl, hlits, hval⟩ := learn_valid h.sound hv hlearn
        exact h.refuted hv hl hs' hlits hval (Or.inr hback)
      · rename_i hback
        obtain ⟨⟨learnt, s₂⟩, hlearn, hend⟩ := Except.bind_eq_ok.mp hend
        obtain ⟨rfl, rfl⟩ := Prod.mk.inj (Except.ok.inj hend)
        refine ⟨fun l hl => (nomatch hl), ?_⟩
        have hentry := Nat.le_of_not_lt hback
        have hopened := h.reopened hb hv hentry
        exact fun _ => hopened.goesOn hv.entailed hv.nodup hv.unit hb hentry hlearn

/-! ## Going back -/

theorem Cut.levelStart_le_size (hc : Cut k s s') (hs : Sound F s) :
    s.trail.levelStart (k + 1) ≤ s'.trail.lits.size := by
  obtain ⟨more, hlits, -⟩ := hc.lits
  have hlen := congrArg List.length hlits
  have hle := hs.trail.levelStart_le (k + 1)
  simp only [List.length_append, List.length_take, Array.length_toList] at hlen
  omega

/-- What was settled before a cut stays so. -/
theorem SettledTo.cut {n : Nat} (h : SettledTo done n s) (hs : Sound F s) (hc : Cut k s s') :
    SettledTo done (min n (s.trail.levelStart (k + 1))) s' where
  head := by
    have hhead := h.head
    rw [hc.head]
    omega
  size := Nat.le_trans (Nat.min_le_right _ _) (hc.levelStart_le_size hs)
  settled := hc.settled (Nat.min_le_right _ _) (Nat.le_trans (Nat.min_le_left _ _) h.size)
    (h.settled.take_le (Nat.min_le_left _ _))

/-- **Back at a level** at or above that of the base: nothing is asserted
again. -/
structure Back (k : Nat) (s s' : Solver) : Prop where
  others : { s with trail := s'.trail, pendingFacts := s'.pendingFacts } = s'
  level : s'.level = k
  lits : s'.trail.lits.toList = s.trail.lits.toList.take (s.trail.levelStart (k + 1))
  size : s'.trail.lits.size = s.trail.levelStart (k + 1)
  starts : ∀ j, 0 < j → j ≤ k → s'.trail.levelStart j = s.trail.levelStart j
  settledTo : ∀ done n, SettledTo done n s →
    SettledTo done (min n (s.trail.levelStart (k + 1))) s'
  undone : ∀ m ∈ s.trail.lits.toList, k < s.trail.levelOf m.var →
    s'.trail.isAssigned m.var = false

theorem back_spec (hs : Sound F s) (hw : Within b s) (hb : b.level ≤ k) (hk : k ≤ s.level) :
    Sound F (s.backtrackTo k) ∧ Within b (s.backtrackTo k) ∧ Back k s (s.backtrackTo k) := by
  have hle := hs.trail.levelStart_le (k + 1)
  rcases Nat.lt_or_eq_of_le hk with hlt | heq
  · obtain ⟨hs', hcut⟩ := backtrackTo_spec hs hlt
    have hlits := hw.lits_cut hs hb hcut
    refine ⟨hs', hw.cut hs hb hlt hcut, hcut.others, hcut.level hlt, hlits, ?_,
      fun j _ hjk => hcut.levelStart_eq hlt hjk, fun done n hn => hn.cut hs hcut,
      fun m hm hlevel => hcut.open_of_lt_level hs hs' hm hlevel⟩
    have hlen := congrArg List.length hlits
    rw [List.length_take, Array.length_toList, Array.length_toList] at hlen
    omega
  · have hend : s.trail.levelStart (k + 1) = s.trail.lits.size :=
      Trail.levelStart_of_level_lt (heq ▸ Nat.lt_succ_self s.level)
    rw [backtrackTo_of_le (Nat.le_of_eq heq.symm)]
    refine ⟨hs, hw, rfl, heq.symm, ?_, hend.symm, fun _ _ _ => rfl, fun done n hn => ?_,
      fun m hm hlevel => ?_⟩
    · rw [hend, List.take_of_length_le (by simp)]
    · rw [hend, Nat.min_eq_left hn.size]
      exact hn
    · exact absurd (hs.levelOf_le_level hm) (by omega)

/-- A search goes back to its entry level. -/
theorem Searching.back (h : Searching F b entry n₀ s) (hb : b.level ≤ entry) :
    Searching F b entry n₀ (s.backtrackTo entry) ∧ Back entry s (s.backtrackTo entry) := by
  obtain ⟨hs', hw', hback⟩ := back_spec h.sound h.within hb h.level
  have hlevel := hback.level
  refine ⟨⟨hs', hw', Nat.le_of_eq hlevel.symm, fun done hbase => ?_,
    fun hlt => absurd hlt (by omega)⟩, hback⟩
  obtain ⟨n, hn₀, hn⟩ := h.settled done hbase
  have hsize := h.within.size_le_levelStart hb
  have hbsize := hbase.size
  exact ⟨_, by omega, hback.settledTo done n hn⟩

theorem Reduced.trail_parts (h : Reduced s s') :
    s'.trail.lits = s.trail.lits ∧ s'.trail.starts = s.trail.starts
      ∧ s'.trail.head = s.trail.head :=
  ⟨(congrArg (·.trail.lits) h.others).symm, (congrArg (·.trail.starts) h.others).symm,
    (congrArg (·.trail.head) h.others).symm⟩

theorem SettledTo.reduced {n : Nat} (h : SettledTo done n s) (hr : Reduced s s') :
    SettledTo done n s' := by
  obtain ⟨hlits, -, hhead⟩ := hr.trail_parts
  refine ⟨hhead ▸ h.head, hlits ▸ h.size, ?_⟩
  rw [hlits]
  exact hr.settled _ _ h.settled

/-- **A restart** keeps what a search keeps. -/
theorem Searching.restart (h : Searching F b entry n₀ s) (hb : b.level ≤ entry)
    (hr : s.restart entry = .ok s') : Searching F b entry n₀ s' := by
  obtain ⟨hback, hlevel⟩ := (h.withStats { s.stats with search :=
    { s.stats.search with restarts := s.stats.search.restarts + 1 } }).back hb
  obtain ⟨hs', hred⟩ := reduceLearnts_spec hback.sound hr
  obtain ⟨-, hstarts, -⟩ := hred.trail_parts
  have hlevel' : s'.level = entry := (congrArg Array.size hstarts).trans hlevel.level
  refine ⟨hs', hback.within.reduced hred, Nat.le_of_eq hlevel'.symm, fun done hbase => ?_,
    fun hlt => absurd hlt (by omega)⟩
  obtain ⟨n, hn₀, hn⟩ := hback.settled done hbase
  exact ⟨n, hn₀, hn.reduced hred⟩

/-! ## The model that was found -/

/-- **The captured model** has the values of the trail. -/
theorem captureModel_spec (hwf : s.trail.Wf s.varCount) {m : Model}
    (h : s.captureModel = (m, s')) :
    { s with pool := s'.pool } = s' ∧ s.pool.Extends s'.pool ∧ m.buffer < s'.pool.buffers.size
      ∧ ∀ v, s'.pool.value m v = s.trail.values[v] := by
  unfold captureModel at h
  simp only at h
  obtain ⟨rfl, rfl⟩ := Prod.mk.inj h
  obtain ⟨hext, hin, hvals⟩ := ModelPool.fill_spec hwf.nodup (p := s.pool) (Prod.eta _).symm
    (Prod.eta _).symm
  refine ⟨rfl, hext, hin, fun v => ?_⟩
  obtain ⟨h1, h2⟩ := hvals v
  show ModelPool.value _ _ v = _
  cases hv : s.trail.values[v] with
  | some value =>
    have hmem : v.lit value ∈ s.trail.lits.toList := (hwf.valuesIff (v.lit value)).mp hv
    exact h1 _ hmem rfl
  | none =>
    refine h2 fun l hl he => ?_
    have := (hwf.valuesIff l).mpr hl
    rw [he, hv] at this
    cases this

/-- **A model that was found** for a component: it has the values of literals
that are known beyond `start`, and these assign the component. -/
structure Found (c : Component) (pool : ModelPool) (start known : List Lit) (m : Model) :
    Prop where
  buffer : m.buffer < pool.buffers.size
  starts : start <+: known
  values : ∀ l : Lit, pool.value m l.var = some l.positive ↔ l ∈ known
  assigned : ∀ v ∈ c.vars, ∃ p, v.lit p ∈ known

/-! ## The loop -/

/-- **How a search ends**, before it goes back to its entry level. -/
def Ended (F : List Clause) (b : Solver) (entry n₀ : Nat) (c : Component) (s : Solver) :
    SearchResult → Prop
  | .satisfiable m => Searching F b entry n₀ s
      ∧ Found c s.pool s.trail.lits.toList s.trail.lits.toList m
      ∧ (∀ done, SettledTo done n₀ b → Settled done s.store s.trail.lits.toList)
  | .refuted learnt => RefutedAt F b entry n₀ learnt s
  | .unknown => Searching F b entry n₀ s

/-- A search that has nothing left to decide. -/
theorem Searching.capture (h : Searching F b entry n₀ s)
    (hset : ∀ done, SettledTo done n₀ b → Settled done s.store s.trail.lits.toList) {c : Component}
    (hall : ∀ v ∈ c.vars, s.trail.isAssigned v = true) {m : Model}
    (hm : s.captureModel = (m, s')) : Ended F b entry n₀ c s' (.satisfiable m) := by
  obtain ⟨hother, hext, hin, hvals⟩ := captureModel_spec h.sound.trail hm
  rw [← hother]
  refine ⟨⟨h.sound, { h.within with pool := h.within.pool.trans hext }, h.level,
    fun done hb => ?_, h.reached⟩, ⟨hin, List.prefix_refl _, fun l => ?_, fun v hv => ?_⟩, hset⟩
  · obtain ⟨n, hn₀, hn⟩ := h.settled done hb
    exact ⟨n, hn₀, ⟨hn.head, hn.size, hn.settled⟩⟩
  · show s'.pool.value m l.var = _ ↔ _
    rw [hvals]
    exact h.sound.trail.valuesIff l
  · obtain ⟨l, hl, rfl⟩ := h.sound.trail.isAssigned_iff.mp (hall v hv)
    exact ⟨l.positive, hl⟩

/-- **The loop of a search**, by induction on its fuel. -/
theorem searchWithin_spec {c : Component} {budget : Option Nat} (hb : b.level ≤ entry)
    (hvars : ∀ v ∈ c.vars, v.index < b.varCount) (fuel : Nat) {schedule : RestartSchedule}
    {conflicts : Nat} {r : SearchResult} (h : Searching F b entry n₀ s)
    (hr : searchWithin c entry budget fuel schedule conflicts s = .ok (r, s')) :
    Ended F b entry n₀ c s' r ∧ (budget = none → r ≠ .unknown) := by
  induction fuel generalizing s schedule conflicts with
  | zero => cases hr
  | succ fuel ih =>
    unfold searchWithin at hr
    split at hr
    · -- a conflict
      rename_i conflict s₁ hp
      have hconf := ((h.propagate hp).2 conflict rfl).withStats s₁.countConflict.stats
      obtain ⟨⟨after, s₂⟩, hh, hr⟩ := Except.bind_eq_ok.mp hr
      obtain ⟨href, hgo⟩ := handleConflict_spec hconf hb hh
      cases after with
      | refuted learnt =>
        obtain ⟨rfl, rfl⟩ := Prod.mk.inj (Except.ok.inj hr)
        exact ⟨href learnt rfl, fun _ => by simp⟩
      | goesOn =>
        have hgo := hgo rfl
        simp only at hr
        split at hr
        · rename_i hbudget
          obtain ⟨rfl, rfl⟩ := Prod.mk.inj (Except.ok.inj hr)
          exact ⟨hgo, fun hnone => by simp [hnone] at hbudget⟩
        · split at hr
          · obtain ⟨s₃, hrestart, hr⟩ := Except.bind_eq_ok.mp hr
            exact ih (hgo.restart hb hrestart) hr
          · exact ih hgo hr
    · -- everything is propagated
      rename_i s₁ hp
      obtain ⟨hs₁, hhead, hset⟩ := (h.propagate hp).1 rfl
      obtain ⟨o, hnext, hr⟩ := Except.bind_eq_ok.mp hr
      obtain ⟨hsome, hnone⟩ := nextDecision_spec hnext
      cases o with
      | none =>
        simp only at hr
        obtain ⟨rfl, rfl⟩ := Prod.mk.inj (Except.ok.inj hr)
        exact ⟨hs₁.capture hset (hnone rfl) rfl, fun _ => by simp⟩
      | some l =>
        obtain ⟨hl, hopen⟩ := hsome l rfl
        have hin : l.var.index < s₁.varCount := by
          rw [hs₁.within.varCount]
          exact hvars _ hl
        exact ih ((hs₁.withStats s₁.countDecision.stats).decided hhead hset hin hopen) hr

/-! ## The whole search -/

/-- **A refutation at the level of a search**: the empty clause, or one whose
literals are false below that level but for the first, which is false or open.
Everything is settled unless all are false. -/
structure RefutedBy (F : List Clause) (b : Solver) (n₀ : Nat) (learnt : Learnt) (s : Solver) :
    Prop where
  clause : (learnt = .empty ∧ s.conflicted = true)
    ∨ ∃ first rest, learnt.lits = first :: rest ∧ 0 < s.level ∧ Learnt.Valid F s learnt
        ∧ (∀ m ∈ rest, m.neg ∈ s.trail.lits.toList.take (s.trail.levelStart s.level))
        ∧ first.neg ∉ s.trail.roots
        ∧ (first.neg ∈ s.trail.lits.toList ∨ s.trail.isAssigned first.var = false)
  settled : ∀ done, SettledTo done n₀ b → ∃ n, n₀ ≤ n ∧ SettledBut done learnt.lits n s
    ∧ (n = s.trail.lits.size ∨ ∀ l ∈ learnt.lits, l.neg ∈ s.trail.lits.toList)

/-- A refutation follows from the clauses. -/
theorem RefutedBy.entailed {learnt : Learnt} (h : RefutedBy F b n₀ learnt s) (hs : Sound F s) :
    Entails F learnt.lits := by
  rcases h.clause with ⟨-, hconf⟩ | ⟨first, rest, -, -, hval, -⟩
  · exact .of_not_satisfiable (hs.refuted hconf) _
  · exact hval.entailed

/-- **What a search answers**, back at its level. -/
def Answers (F : List Clause) (b : Solver) (n₀ : Nat) (c : Component) (s : Solver) :
    SearchResult → Prop
  | .satisfiable m => ∃ known, Found c s.pool s.trail.lits.toList known m
      ∧ (∀ done, SettledTo done n₀ b → Settled done s.store known)
  | .refuted learnt => RefutedBy F b n₀ learnt s
  | .unknown => ∀ done, SettledTo done n₀ b → ∃ n, n₀ ≤ n ∧ SettledTo done n s

/-- **What a search leaves**: everything up to its level is as it was. -/
structure Searched (F : List Clause) (b : Solver) (n₀ : Nat) (c : Component) (s : Solver)
    (r : SearchResult) (s' : Solver) : Prop where
  sound : Sound F s'
  within : Within b s'
  level : s'.level = s.level
  own : Within s s'
  answers : Answers F b n₀ c s' r

theorem RefutedAt.back {learnt : Learnt} (h : RefutedAt F b entry n₀ learnt s)
    (hb : b.level ≤ entry) :
    Sound F (s.backtrackTo entry) ∧ Within b (s.backtrackTo entry)
      ∧ Back entry s (s.backtrackTo entry)
      ∧ RefutedBy F b n₀ learnt (s.backtrackTo entry) := by
  obtain ⟨hs', hw', hback⟩ := back_spec h.sound h.within hb h.level
  have hstore : (s.backtrackTo entry).store = s.store := (congrArg Solver.store hback.others).symm
  have hcount : (s.backtrackTo entry).varCount = s.varCount :=
    (congrArg Solver.varCount hback.others).symm
  have hconf : (s.backtrackTo entry).conflicted = s.conflicted :=
    (congrArg Solver.conflicted hback.others).symm
  refine ⟨hs', hw', hback, ?_, fun done hbase => ?_⟩
  · rw [hback.lits, hback.level]
    rcases h.clause with ⟨he, hc⟩ | ⟨first, rest, hlits, hpos, hval, hrest, hroot, hfirst⟩
    · exact Or.inl ⟨he, hconf.trans hc⟩
    · refine Or.inr ⟨first, rest, hlits, hpos, ?_, ?_, ?_, ?_⟩
      · exact ⟨hval.entailed, hcount ▸ hval.inRange, hstore ▸ hval.explains⟩
      · rw [hback.starts entry hpos (Nat.le_refl _), List.take_take, Nat.min_eq_left
          (h.sound.trail.levelStart_mono (Nat.le_succ entry))]
        exact hrest
      · unfold Trail.roots
        rw [hback.starts 1 Nat.one_pos hpos, hback.lits, List.take_take, Nat.min_eq_left
          (h.sound.trail.levelStart_mono (Nat.succ_le_succ (Nat.zero_le entry)))]
        exact hroot
      · exact hfirst.imp id fun hf => hback.undone first.neg hf.1 hf.2
  · obtain ⟨n, hn₀, ⟨-, hset⟩, hor⟩ := h.settled done hbase
    have hsize := h.within.size_le_levelStart hb
    have hbsize := hbase.size
    refine ⟨min n (s.trail.levelStart (entry + 1)), by omega, ⟨?_, fun m hm hno => ?_⟩, ?_⟩
    · rw [hback.size]
      exact Nat.min_le_right _ _
    · have htake : (s.backtrackTo entry).trail.lits.toList.take m = s.trail.lits.toList.take m := by
        rw [hback.lits, List.take_take, Nat.min_eq_left (Nat.le_trans hm (Nat.min_le_right _ _))]
      rw [htake] at hno ⊢
      rw [hstore]
      exact hset m (Nat.le_trans hm (Nat.min_le_left _ _)) hno
    · rw [hback.size, hback.lits]
      exact hor.imp (fun hle => Nat.min_eq_right hle) id

/-- Going back turns how a search ended into what it answers. -/
theorem Ended.back {c : Component} {r : SearchResult} (h : Ended F b entry n₀ c s r)
    (hb : b.level ≤ entry) :
    Sound F (s.backtrackTo entry) ∧ Within b (s.backtrackTo entry)
      ∧ (s.backtrackTo entry).level = entry ∧ Answers F b n₀ c (s.backtrackTo entry) r := by
  cases r with
  | satisfiable m =>
    obtain ⟨hsearch, hfound, hset⟩ := h
    obtain ⟨hs', hback⟩ := hsearch.back hb
    have hstore : (s.backtrackTo entry).store = s.store :=
      (congrArg Solver.store hback.others).symm
    have hpool : (s.backtrackTo entry).pool = s.pool := (congrArg Solver.pool hback.others).symm
    refine ⟨hs'.sound, hs'.within, hback.level, s.trail.lits.toList, ?_, hstore ▸ hset⟩
    rw [hpool, hback.lits]
    exact ⟨hfound.buffer, List.take_prefix _ _, hfound.values, hfound.assigned⟩
  | refuted learnt =>
    obtain ⟨hs', hw', hback, href⟩ := RefutedAt.back h hb
    exact ⟨hs', hw', hback.level, href⟩
  | unknown =>
    obtain ⟨hs', hback⟩ := Searching.back h hb
    exact ⟨hs'.sound, hs'.within, hback.level, hs'.settled⟩

/-- The head may go back, and the scope change. -/
theorem Answers.rewind {c : Component} {r : SearchResult} (h : Answers F b n₀ c s r)
    (scope : ScopeTable) (pos : Nat) :
    Answers F b n₀ c { s with scope := scope, trail := s.trail.rewind pos } r := by
  cases r with
  | satisfiable m => exact h
  | refuted learnt =>
    refine ⟨h.clause.imp id ?_, h.settled⟩
    rintro ⟨first, rest, hlits, hpos, hval, hrest⟩
    exact ⟨first, rest, hlits, hpos, ⟨hval.entailed, hval.inRange, hval.explains⟩, hrest⟩
  | unknown =>
    intro done hb
    obtain ⟨n, hn₀, hn⟩ := h done hb
    exact ⟨n, hn₀, Nat.le_trans (Nat.min_le_left _ _) hn.head, hn.size, hn.settled⟩

/-- The scope of a component, entered now. -/
def scopeOf (s : Solver) (c : Component) : ScopeTable :=
  s.scope.swap (some ⟨c.vars, s.trail.size⟩)

/-- The variables of a scope are known ones. -/
theorem enterScope_spec {c : Component} {previous : Option Scope}
    (h : s.enterScope c = .ok (previous, s')) :
    (∀ v ∈ c.vars, v.index < s.varCount) ∧ previous = s.scope.current
      ∧ s' = { s with scope := s.scopeOf c } := by
  obtain ⟨⟨⟩, hreq, h⟩ := Except.bind_eq_ok.mp h
  obtain ⟨rfl, rfl⟩ := Prod.mk.inj (Except.ok.inj h)
  exact ⟨requireVars_iff.mp hreq, rfl, rfl⟩

theorem Searching.start (hs : Sound F s) (hw : Within b s)
    (hset : ∀ done, SettledTo done n₀ b → ∃ n, n₀ ≤ n ∧ SettledTo done n s) (scope : ScopeTable)
    (stats : Statistics) :
    Searching F b s.level n₀ { s with scope := scope, stats := stats } :=
  ⟨hs, hw, Nat.le_refl _, fun done hb => (hset done hb).imp fun _ hn =>
    ⟨hn.1, ⟨hn.2.head, hn.2.size, hn.2.settled⟩⟩, fun hlt => absurd hlt (Nat.lt_irrefl _)⟩

/-- The parts of a search. -/
theorem search_eq_ok {c : Component} {budget : Option Nat} {fuel : Nat} {r : SearchResult}
    (h : s.search fuel c budget = .ok (r, s')) :
    (∀ v ∈ c.vars, v.index < s.varCount) ∧ ∃ stats s₂,
      s' = (s₂.backtrackTo s.level).restoreScope s.scope.current
        ∧ stats.search.conflicts = s.stats.search.conflicts
        ∧ ((s.conflicted = true ∧ r = .refuted .empty
              ∧ s₂ = { s with scope := s.scopeOf c, stats := stats })
          ∨ (s.conflicted = false ∧ searchWithin c s.level budget fuel (.ofOptions s.options) 0
              { s with scope := s.scopeOf c, stats := stats } = .ok (r, s₂))) := by
  obtain ⟨⟨previous, s₁⟩, henter, h⟩ := Except.bind_eq_ok.mp h
  obtain ⟨hvars, rfl, rfl⟩ := enterScope_spec henter
  simp only at h
  split at h
  · rename_i hconf
    obtain ⟨rfl, rfl⟩ := Prod.mk.inj (Except.ok.inj h)
    exact ⟨hvars, _, _, rfl, by rfl, Or.inl ⟨hconf, rfl, rfl⟩⟩
  · rename_i hconf
    obtain ⟨⟨r', s₂⟩, hsearch, h⟩ := Except.bind_eq_ok.mp h
    obtain ⟨rfl, rfl⟩ := Prod.mk.inj (Except.ok.inj h)
    exact ⟨hvars, _, s₂, rfl, by rfl, Or.inr ⟨by simpa using hconf, hsearch⟩⟩

/-- A refuted solver answers every search at once, and stays refuted. -/
theorem search_of_conflicted {c : Component} {budget : Option Nat} {fuel : Nat} {r : SearchResult}
    (hconf : s.conflicted = true) (h : s.search fuel c budget = .ok (r, s')) :
    r = .refuted .empty ∧ s'.conflicted = true := by
  obtain ⟨-, stats, s₂, rfl, -, ⟨-, rfl, rfl⟩ | ⟨hf, -⟩⟩ := search_eq_ok h
  · have hback := backtrackTo_of_le (Nat.le_refl s.level)
      (s := { s with scope := s.scopeOf c, stats := stats })
    rw [hback]
    exact ⟨rfl, hconf⟩
  · rw [hconf] at hf
    cases hf

/-- **A search** in a state that starts from `b`. -/
theorem search_spec {c : Component} {budget : Option Nat} {fuel : Nat} {r : SearchResult}
    (hs : Sound F s) (hw : Within b s)
    (hset : ∀ done, SettledTo done n₀ b → ∃ n, n₀ ≤ n ∧ SettledTo done n s)
    (h : s.search fuel c budget = .ok (r, s')) :
    Searched F b n₀ c s r s' ∧ (budget = none → r ≠ .unknown) := by
  obtain ⟨hvars, stats, s₂, rfl, -, hrun⟩ := search_eq_ok h
  -- the same run, seen from `b` and from the state it started in
  have hended : ∀ b n₀, Within b s →
      (∀ done, SettledTo done n₀ b → ∃ n, n₀ ≤ n ∧ SettledTo done n s) →
      Ended F b s.level n₀ c s₂ r ∧ (budget = none → r ≠ .unknown) := by
    intro b n₀ hw hset
    have hstart := Searching.start hs hw hset (s.scopeOf c) stats
    rcases hrun with ⟨hconf, rfl, rfl⟩ | ⟨-, hrun⟩
    · refine ⟨⟨hstart.sound, hstart.within, hstart.level, Or.inl ⟨rfl, hconf⟩, fun done hb => ?_⟩,
        fun _ => by simp⟩
      obtain ⟨n, hn₀, hn⟩ := hstart.settled done hb
      exact ⟨n, hn₀, .of_settled _ hn.size hn.settled, Or.inr (by simp [Learnt.empty])⟩
    · exact searchWithin_spec hw.level_le (fun v hv => hw.varCount ▸ hvars v hv) fuel hstart hrun
  obtain ⟨hend, hbudget⟩ := hended b n₀ hw hset
  obtain ⟨hs', hw', hlevel, hans⟩ := hend.back hw.level_le
  obtain ⟨-, hw'', -, -⟩ := (hended s s.trail.lits.size (.refl hs)
    fun done hn => ⟨_, Nat.le_refl _, hn⟩).1.back (Nat.le_refl _)
  exact ⟨⟨hs'.rewind _, hw'.withHead _, hlevel, hw''.withHead _, hans.rewind _ _⟩, hbudget⟩

end Solver

end Cleave
