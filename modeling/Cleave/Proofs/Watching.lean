import Cleave.Proofs.Invariant
import Cleave.Solver.Propagation

/-!
# Watched literals

A visit to a long clause reorders its literals and may exchange the second
watched one. So a store only ever changes within its clauses
(`ClauseStore.Rearranged`), which keeps what it says, and the watch lists
follow the exchange.

A clause is *falsified* by some literals if they include the opposites of
both its watched literals (`ClauseStore.Falsified`). Visiting clauses never
falsifies one, by whatever literals of the trail, and a visit that finds no
conflict leaves its clause unfalsified.
-/

namespace Cleave

/-! ## One clause -/

namespace LongClause

variable {c : LongClause} {x : Lit}

theorem perm_turned (c : LongClause) (x : Lit) : (c.turned x).lits.Perm c.lits := by
  unfold turned
  split
  · exact List.Perm.swap _ _ _
  · exact List.Perm.refl _

@[simp] theorem learnt_turned (c : LongClause) (x : Lit) : (c.turned x).learnt = c.learnt := by
  unfold turned
  split <;> rfl

/-- Turning a clause keeps its two watched literals. -/
theorem watched_turned (c : LongClause) (x l : Lit) :
    ((c.turned x).first = l ∨ (c.turned x).second = l) ↔ (c.first = l ∨ c.second = l) := by
  unfold turned
  split
  · exact or_comm
  · rfl

theorem second_turned (h : c.first = x ∨ c.second = x) : (c.turned x).second = x := by
  unfold turned
  split
  · assumption
  · exact h.resolve_left (by assumption)

/-- Replacing a literal that is not false. -/
theorem replaceOpen_some {isFalse : Lit → Bool} {instead w : Lit} {ls rest : List Lit}
    (h : replaceOpen isFalse instead ls = some (w, rest)) :
    isFalse w = false ∧ w ∈ ls ∧ (w :: rest).Perm (instead :: ls) := by
  induction ls generalizing rest with
  | nil => exact absurd h (by simp [replaceOpen])
  | cons l ls ih =>
    unfold replaceOpen at h
    split at h
    · obtain ⟨⟨w', rest'⟩, hrec, heq⟩ := Option.map_eq_some_iff.mp h
      obtain ⟨rfl, rfl⟩ := Prod.mk.inj heq
      obtain ⟨hw, hmem, hperm⟩ := ih hrec
      refine ⟨hw, List.mem_cons_of_mem _ hmem, ?_⟩
      exact (List.Perm.swap _ _ _).trans ((hperm.cons l).trans (List.Perm.swap _ _ _))
    · rename_i hl
      obtain ⟨rfl, rfl⟩ := Prod.mk.inj (Option.some.inj h)
      exact ⟨by simpa using hl, List.mem_cons_self, List.Perm.swap _ _ _⟩

theorem replaceOpen_none {isFalse : Lit → Bool} {instead : Lit} {ls : List Lit}
    (h : replaceOpen isFalse instead ls = none) : ∀ l ∈ ls, isFalse l = true := by
  induction ls with
  | nil => simp
  | cons l ls ih =>
    unfold replaceOpen at h
    split at h
    · rename_i hl
      intro m hm
      rcases List.mem_cons.mp hm with rfl | hm
      · exact hl
      · exact ih (Option.map_eq_none_iff.mp h) m hm
    · exact absurd h (by simp)

/-- Watching another literal. -/
theorem rewatched_some {isFalse : Lit → Bool} {d : LongClause}
    (h : c.rewatched? isFalse = some d) :
    d.first = c.first ∧ d.learnt = c.learnt ∧ isFalse d.second = false ∧ d.second ∈ c.rest
      ∧ d.lits.Perm c.lits := by
  obtain ⟨⟨w, rest⟩, hrep, rfl⟩ := Option.map_eq_some_iff.mp h
  obtain ⟨hw, hmem, hperm⟩ := replaceOpen_some hrep
  exact ⟨rfl, rfl, hw, hmem, hperm.cons _⟩

theorem rewatched_none {isFalse : Lit → Bool} (h : c.rewatched? isFalse = none) :
    ∀ l ∈ c.rest, isFalse l = true :=
  replaceOpen_none (Option.map_eq_none_iff.mp h)

end LongClause

/-! ## The store -/

namespace ClauseStore

variable {s s' s'' : ClauseStore} {F : List Clause} {count : Nat}

/-- **A rearranged store** has the same clauses, up to the order of their
literals. -/
structure Rearranged (s s' : ClauseStore) : Prop where
  implications : s'.implications = s.implications
  units : s'.units = s.units
  learntLong : s'.learntLong = s.learntLong
  size : s'.long.size = s.long.size
  perm : ∀ id, (s'.lits id).Perm (s.lits id)
  learnt : ∀ id, (s'.clause id).learnt = (s.clause id).learnt

namespace Rearranged

theorem refl (s : ClauseStore) : Rearranged s s :=
  ⟨rfl, rfl, rfl, rfl, fun _ => .refl _, fun _ => rfl⟩

theorem trans (h : Rearranged s s') (h' : Rearranged s' s'') : Rearranged s s'' :=
  ⟨h'.implications.trans h.implications, h'.units.trans h.units,
    h'.learntLong.trans h.learntLong, h'.size.trans h.size,
    fun id => (h'.perm id).trans (h.perm id), fun id => (h'.learnt id).trans (h.learnt id)⟩

theorem symm (h : Rearranged s s') : Rearranged s' s :=
  ⟨h.implications.symm, h.units.symm, h.learntLong.symm, h.size.symm, fun id => (h.perm id).symm,
    fun id => (h.learnt id).symm⟩

theorem implied (h : Rearranged s s') (l : Lit) : s'.implied l = s.implied l := by
  unfold ClauseStore.implied
  rw [h.implications]

theorem partners (h : Rearranged s s') (l : Lit) : s'.partners l = s.partners l := by
  unfold ClauseStore.partners
  rw [h.implications]

end Rearranged

/-- The clauses of a store, by position. -/
theorem mem_long_iff {c : LongClause} :
    c ∈ s.long.toList ↔ ∃ id, id < s.long.size ∧ s.clause id = c := by
  constructor
  · intro hc
    obtain ⟨id, hid, hget⟩ := List.mem_iff_getElem.mp hc
    have hlt : id < s.long.size := by simpa using hid
    refine ⟨id, hlt, ?_⟩
    rw [← hget]
    simp [clause, Array.getD, hlt]
  · rintro ⟨id, hid, rfl⟩
    exact clause_mem hid

/-- A property of clauses that their order does not matter for is kept. -/
theorem Rearranged.forall_long (h : Rearranged s s') {p : Bool → Clause → Prop}
    (hp : ∀ b c d, c.Perm d → p b c → p b d)
    (hall : ∀ c ∈ s.long.toList, p c.learnt c.lits) :
    ∀ c ∈ s'.long.toList, p c.learnt c.lits := by
  intro c hc
  obtain ⟨id, hid, rfl⟩ := mem_long_iff.mp hc
  rw [h.learnt id]
  exact hp _ _ _ (h.perm id).symm (hall _ (clause_mem (h.size ▸ hid)))

theorem Wf.rearrange (hw : s.Wf count) (h : Rearranged s s') : s'.Wf count where
  sizeImplications := by rw [h.implications]; exact hw.sizeImplications
  impliedInRange := fun l => by rw [h.implied l]; exact hw.impliedInRange l
  symmetric := fun a b => by rw [h.partners a, h.partners b]; exact hw.symmetric a b
  contraposed := fun l b => by rw [h.implied l, h.implied b.neg]; exact hw.contraposed l b
  distinct := fun l => by rw [h.implied l]; exact hw.distinct l
  unitsInRange := by rw [h.units]; exact hw.unitsInRange
  longThree := h.forall_long (p := fun _ c => 3 ≤ c.length)
    (fun _ _ _ hp hn => hp.length_eq ▸ hn) hw.longThree
  longNodup := h.forall_long (p := fun _ c => (c.map Lit.var).Nodup)
    (fun _ _ _ hp hn => (hp.map _).nodup_iff.mp hn) hw.longNodup
  longInRange := h.forall_long (p := fun _ c => ∀ l ∈ c, l.var.index < count)
    (fun _ _ _ hp hr l hl => hr l (hp.mem_iff.mpr hl)) hw.longInRange

theorem EntailedBy.rearrange (he : s.EntailedBy F) (h : Rearranged s s') : s'.EntailedBy F where
  units := by rw [h.units]; exact he.units
  binary := fun l => by rw [h.implied l]; exact he.binary l
  long := h.forall_long (p := fun _ c => Entails F c) (fun _ _ _ hp hc => hc.perm hp) he.long

/-- The store with another clause at a position. -/
def replace (s : ClauseStore) (id : ClauseId) (c : LongClause) : ClauseStore :=
  { s with long := s.long.setIfInBounds id c }

@[simp] theorem size_replace (s : ClauseStore) (id : ClauseId) (c : LongClause) :
    (s.replace id c).long.size = s.long.size := by
  simp [replace]

theorem clause_replace (s : ClauseStore) (id j : ClauseId) (c : LongClause) :
    (s.replace id c).clause j = if id = j ∧ id < s.long.size then c else s.clause j :=
  getD_setIfInBounds s.long id j c

theorem clause_replace_self {id : ClauseId} (hid : id < s.long.size) (c : LongClause) :
    (s.replace id c).clause id = c := by
  rw [clause_replace, if_pos ⟨rfl, hid⟩]

theorem clause_replace_ne (s : ClauseStore) {id j : ClauseId} (hj : id ≠ j) (c : LongClause) :
    (s.replace id c).clause j = s.clause j := by
  rw [clause_replace, if_neg fun hc => hj hc.1]

theorem Rearranged.replace {id : ClauseId} (hid : id < s.long.size) {c : LongClause}
    (hperm : c.lits.Perm (s.lits id)) (hlearnt : c.learnt = (s.clause id).learnt) :
    Rearranged s (s.replace id c) where
  implications := rfl
  units := rfl
  learntLong := rfl
  size := size_replace s id c
  perm := by
    intro j
    show ((s.replace id c).clause j).lits.Perm _
    by_cases hj : id = j
    · rw [← hj, clause_replace_self hid]
      exact hperm
    · rw [clause_replace_ne s hj]
      exact .refl _
  learnt := by
    intro j
    by_cases hj : id = j
    · rw [← hj, clause_replace_self hid]
      exact hlearnt
    · rw [clause_replace_ne s hj]

theorem Watches.mem_lits {id : ClauseId} {l : Lit} (h : s.Watches id l) : l ∈ s.lits id := by
  rcases h.2 with rfl | rfl
  · exact List.mem_cons_self
  · exact List.mem_cons_of_mem _ List.mem_cons_self

/-- A clause watches two literals only. -/
theorem Watches.eq_or_eq {id : ClauseId} {a b l : Lit} (ha : s.Watches id a)
    (hb : s.Watches id b) (hab : a ≠ b) (hl : s.Watches id l) : l = a ∨ l = b := by
  rcases ha.2, hb.2, hl.2 with ⟨rfl | rfl, rfl | rfl, rfl | rfl⟩ <;> simp_all

/-- The other clauses watch what they watched. -/
theorem watches_replace_ne {id j : ClauseId} (hj : j ≠ id) (c : LongClause) (l : Lit) :
    (s.replace id c).Watches j l ↔ s.Watches j l := by
  unfold Watches
  rw [size_replace, clause_replace_ne s hj.symm]

/-- With a clause turned, all clauses watch the same literals. -/
theorem watches_turned {id : ClauseId} (hid : id < s.long.size) (x : Lit) (j : ClauseId)
    (l : Lit) : (s.replace id ((s.clause id).turned x)).Watches j l ↔ s.Watches j l := by
  by_cases hj : j = id
  · unfold Watches
    rw [hj, size_replace, clause_replace_self hid, LongClause.watched_turned]
  · exact watches_replace_ne hj _ l

/-- Both watched literals of a clause are opposites of known literals. -/
def Falsified (s : ClauseStore) (known : List Lit) (id : ClauseId) : Prop :=
  id < s.long.size ∧ (s.clause id).first.neg ∈ known ∧ (s.clause id).second.neg ∈ known

theorem Falsified.mono {known more : List Lit} {id : ClauseId} (h : s.Falsified known id)
    (hsub : ∀ l ∈ known, l ∈ more) : s.Falsified more id :=
  ⟨h.1, hsub _ h.2.1, hsub _ h.2.2⟩

theorem falsified_iff {known : List Lit} {id : ClauseId} :
    s.Falsified known id ↔ id < s.long.size ∧ ∀ l, s.Watches id l → l.neg ∈ known := by
  constructor
  · rintro ⟨hid, hfirst, hsecond⟩
    exact ⟨hid, fun l hl => hl.2.elim (fun he => he ▸ hfirst) fun he => he ▸ hsecond⟩
  · rintro ⟨hid, hall⟩
    exact ⟨hid, hall _ ⟨hid, Or.inl rfl⟩, hall _ ⟨hid, Or.inr rfl⟩⟩

/-- Whether a clause is falsified depends on what it watches. -/
theorem Falsified.congr {s' : ClauseStore} {known : List Lit} {id : ClauseId}
    (h : s.Falsified known id) (hid : id < s'.long.size)
    (hwatch : ∀ l, s'.Watches id l → s.Watches id l) : s'.Falsified known id :=
  falsified_iff.mpr ⟨hid, fun l hl => (falsified_iff.mp h).2 l (hwatch l hl)⟩

end ClauseStore

theorem ClauseStore.Rearranged.gives_iff {s s' : ClauseStore} (h : s.Rearranged s')
    (id : ClauseId) : s'.Gives id ↔ s.Gives id := by
  unfold ClauseStore.Gives
  rw [h.size, h.learnt id]

/-- How many given long clauses there are. -/
theorem ClauseStore.length_givenLong (s : ClauseStore) : s.givenLong.length
    = (List.range s.long.size).countP fun id => !(s.clause id).learnt := by
  unfold ClauseStore.givenLong ClauseStore.longClauses
  rw [← List.countP_eq_length_filter, List.countP_map]
  rfl

theorem ClauseStore.Rearranged.length_givenLong {s s' : ClauseStore} (h : s.Rearranged s') :
    s'.givenLong.length = s.givenLong.length := by
  rw [ClauseStore.length_givenLong, ClauseStore.length_givenLong, h.size]
  simp only [h.learnt]

theorem Listed.rearrange {m : Membership} {s s' : ClauseStore} {count : Nat}
    (hl : Listed m s count) (h : s.Rearranged s') : Listed m s' count where
  size := hl.size
  sizes := hl.sizes
  mem_ofVar := by
    intro v id
    rw [hl.mem_ofVar, h.gives_iff]
    simp only [(h.perm id).mem_iff]
  mem_table := by
    intro w l id
    rw [hl.mem_table, h.gives_iff, (h.perm id).mem_iff, (h.perm id).length_eq]
  three_le := by
    intro id hid
    rw [(h.perm id).length_eq]
    exact hl.three_le id ((h.gives_iff id).mp hid)
  ascending_ofVar := hl.ascending_ofVar
  ascending_table := hl.ascending_table
  indexed := hl.indexed.trans h.length_givenLong.symm

/-- A reason stays one in a store with the same clauses at their places, if they go
on watching the literal. -/
theorem Explains.of_perm {s s' : ClauseStore} {t : Trail} {pre : List Lit} {l : Lit}
    {r : Reason} (hex : Explains s t pre l r)
    (himplied : ∀ a, ∀ b ∈ s.implied a, b ∈ s'.implied a)
    (hperm : ∀ id, id < s.long.size → (s'.lits id).Perm (s.lits id))
    (hwatch : ∀ id, s.Watches id l → s'.Watches id l) : Explains s' t pre l r := by
  cases r with
  | decision => exact hex
  | binary other => exact ⟨himplied _ _ hex.1, hex.2⟩
  | long id =>
    exact ⟨hwatch id hex.1,
      fun m hm hne => hex.2 m ((hperm id hex.1.1).mem_iff.mp hm) hne⟩

namespace Consistent

variable {F : List Clause} {count : Nat} {store store' : ClauseStore}
  {membership membership' : Membership} {watches watches' : LitTable (Array ClauseId)} {t : Trail}
  {pending : List Lit} {conflicted : Bool}

/-- Another store with the same clauses at their places, and lists for it. Literals
that are true are still watched. -/
theorem withStore (hs : Consistent F count store membership watches t pending conflicted)
    (hwf : store'.Wf count) (hw : WatchesExactly watches' store' count)
    (hl : Listed membership' store' count) (he : store'.EntailedBy F)
    (himplied : ∀ a, ∀ b ∈ store.implied a, b ∈ store'.implied a)
    (hperm : ∀ id, id < store.long.size → (store'.lits id).Perm (store.lits id))
    (hwatch : ∀ l ∈ t.lits.toList, ∀ id, store.Watches id l → store'.Watches id l) :
    Consistent F count store' membership' watches' t pending conflicted where
  trail := hs.trail
  store := hwf
  watches := hw
  listed := hl
  entailed := he
  justified := fun pre l post hsplit =>
    have hj := hs.justified pre l post hsplit
    ⟨hj.level, hj.root, hj.explained.of_perm himplied hperm (hwatch l (hsplit ▸ by simp)),
      hj.opened⟩
  pending := hs.pending
  refuted := hs.refuted

/-- Rearranging the clauses keeps the invariant, if the watch lists follow and
literals that are true are still watched. -/
theorem rearrange (hs : Consistent F count store membership watches t pending conflicted)
    (h : store.Rearranged store') (hw : WatchesExactly watches' store' count)
    (hwatch : ∀ l ∈ t.lits.toList, ∀ id, store.Watches id l → store'.Watches id l) :
    Consistent F count store' membership watches' t pending conflicted :=
  hs.withStore (hs.store.rearrange h) hw (hs.listed.rearrange h) (hs.entailed.rearrange h)
    (fun a _ hb => (h.implied a).symm ▸ hb) (fun id _ => h.perm id) hwatch

end Consistent

/-! ## The watch lists -/

namespace WatchesExactly

variable {w : LitTable (Array ClauseId)} {s s' : ClauseStore} {count : Nat}

/-- The lists stay right as long as every clause watches the same literals. -/
theorem of_same (h : WatchesExactly w s count)
    (hsame : ∀ id l, s'.Watches id l ↔ s.Watches id l) : WatchesExactly w s' count where
  size := h.size
  nodup := h.nodup
  mem_iff := fun l id => (h.mem_iff l id).trans (hsame id l).symm

theorem turn (h : WatchesExactly w s count) {id : ClauseId} (hid : id < s.long.size) (x : Lit) :
    WatchesExactly w (s.replace id ((s.clause id).turned x)) count :=
  h.of_same fun j l => ClauseStore.watches_turned hid x j l

/-- **Exchanging a watched literal.** One clause leaves the list of `x` and
enters that of `y`; the other lists are as they were. -/
theorem exchange {w' : LitTable (Array ClauseId)} {x y : Lit} {id : ClauseId}
    (pre post : List ClauseId) (h : WatchesExactly w s count) (hsize : w'.size = w.size)
    (hx : w[x].toList = pre ++ id :: post) (hx' : w'[x].toList = pre ++ post)
    (hy' : w'[y].toList = w[y].toList ++ [id]) (helse : ∀ l, l ≠ x → l ≠ y → w'[l] = w[l])
    (hold : ¬ s.Watches id y)
    (hwatches : ∀ j l,
      s'.Watches j l ↔ (s.Watches j l ∧ ¬ (j = id ∧ l = x)) ∨ (j = id ∧ l = y)) :
    WatchesExactly w' s' count := by
  have hnodup := hx ▸ h.nodup x
  have hnot : id ∉ pre ++ post := (List.nodup_cons.mp (List.nodup_middle.mp hnodup)).1
  have hyx : y ≠ x := by
    rintro rfl
    refine hold ((h.mem_iff y id).mp ?_)
    rw [hx]
    exact List.mem_append_right _ List.mem_cons_self
  refine ⟨hsize.trans h.size, fun l => ?_, fun l j => ?_⟩
  · by_cases hlx : l = x
    · rw [hlx, hx']
      exact hnodup.sublist ((List.sublist_cons_self id post).append_left pre)
    · by_cases hly : l = y
      · rw [hly, hy']
        refine List.nodup_append.mpr ⟨h.nodup y, List.nodup_singleton id, fun a ha b hb hab => ?_⟩
        rw [hab, List.mem_singleton.mp hb] at ha
        exact hold ((h.mem_iff y id).mp ha)
      · rw [helse l hlx hly]
        exact h.nodup l
  · rw [hwatches, ← h.mem_iff]
    by_cases hlx : l = x
    · rw [hlx, hx, hx']
      by_cases hj : j = id
      · simpa [hj, hyx.symm] using hnot
      · simp [hj]
    · by_cases hly : l = y
      · rw [hly, hy']
        simp [hyx]
      · rw [helse l hlx hly]
        simp [hlx, hly]

/-- A clause of the list of `x` goes over to the list of `y`, as the list is
walked along. -/
theorem move {x y : Lit} {id : ClauseId} {kept : Array ClauseId} {rest : List ClauseId}
    (h : WatchesExactly (w.set x (kept ++ (id :: rest).toArray)) s count)
    (hx : x.var.index < count) (hy : y.var.index < count) (hyx : y ≠ x)
    (hold : ¬ s.Watches id y)
    (hwatches : ∀ j l,
      s'.Watches j l ↔ (s.Watches j l ∧ ¬ (j = id ∧ l = x)) ∨ (j = id ∧ l = y)) :
    WatchesExactly ((w.modify y (·.push id)).set x (kept ++ rest.toArray)) s' count := by
  have hsize : w.size = 2 * count := by simpa using h.size
  have hxw : x.code < w.size := by rw [hsize]; exact Lit.code_lt.mpr hx
  have hyw : y.code < w.size := by rw [hsize]; exact Lit.code_lt.mpr hy
  refine exchange kept.toList rest h (by simp) ?_ ?_ ?_
    (fun l hlx hly => ?_) hold hwatches
  · rw [LitTable.get_set_self hxw]
    simp
  · rw [LitTable.get_set_self (by simpa using hxw)]
    simp
  · rw [LitTable.get_set_ne _ hyx.symm, LitTable.get_set_ne _ hyx.symm,
      LitTable.get_modify_self hyw, Array.toList_push]
  · rw [LitTable.get_set_ne _ (Ne.symm hlx), LitTable.get_set_ne _ (Ne.symm hlx),
      LitTable.get_modify_ne _ (Ne.symm hly)]

/-- Only the entries of a table matter. -/
theorem of_get (h : WatchesExactly w s count) {w' : LitTable (Array ClauseId)}
    (hsize : w'.size = w.size) (hget : ∀ l : Lit, w'[l] = w[l]) : WatchesExactly w' s count where
  size := hsize.trans h.size
  nodup := fun l => by rw [hget l]; exact h.nodup l
  mem_iff := fun l id => by rw [hget l]; exact h.mem_iff l id

end WatchesExactly

end Cleave
