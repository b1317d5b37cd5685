import Cleave.Proofs.UnitClosure

/-!
# One run of propagation within the outcome of another

Two runs from the same trail may meet its literals under different decisions
and in different scopes, and leave the clauses watching different literals.
Still, what one of them adds without a conflict encloses what the other can
add.

The literals that the head has passed are done with. None of their opposites
gains a watch any more, as watches only move to literals that are not false,
and none loses one, as its clauses are not visited again (`Pinned`). So a
clause that watches such an opposite is visited for its other watch alone, and
all runs agree on which clauses these are. The outcome of a run is closed
under what the other clauses force (`Saturated.closedPast`), which is all that
another run draws upon (`propagate_past`).
-/

namespace Cleave

namespace ClauseStore

variable {s s' s'' : ClauseStore} {done : List Lit} {R : Lit → Prop}

/-- **The same clauses, with the same watches** where these are opposites of
literals that are done. -/
structure Pinned (done : List Lit) (s s' : ClauseStore) : Prop where
  rearranged : s.Rearranged s'
  watches : ∀ w, w.neg ∈ done → ∀ id, s'.Watches id w ↔ s.Watches id w

namespace Pinned

theorem refl (done : List Lit) (s : ClauseStore) : Pinned done s s :=
  ⟨.refl s, fun _ _ _ => Iff.rfl⟩

theorem trans (h : Pinned done s s') (h' : Pinned done s' s'') : Pinned done s s'' :=
  ⟨h.rearranged.trans h'.rearranged, fun w hw id => (h'.watches w hw id).trans (h.watches w hw id)⟩

theorem symm (h : Pinned done s s') : Pinned done s' s :=
  ⟨h.rearranged.symm, fun w hw id => (h.watches w hw id).symm⟩

/-- A clause that has a watch left had one before: two that are done stay the
watches. -/
theorem unspent (h : Pinned done s s') {count : Nat} (hwf : s.Wf count) {d : Clause}
    (hd : s'.Unspent done d) : ∃ e, s.Unspent done e ∧ e.Perm d := by
  cases hd with
  | binary hb hleft => exact ⟨_, .binary (h.rearranged.implied _ ▸ hb) hleft, .refl _⟩
  | long hc hleft =>
    obtain ⟨id, hid, rfl⟩ := mem_long_iff.mp hc
    have hid : id < s.long.size := h.rearranged.size ▸ hid
    refine ⟨s.lits id, .long (clause_mem hid) fun hdone => hleft ?_, (h.rearranged.perm id).symm⟩
    have hfirst : s.Watches id (s.clause id).first := ⟨hid, Or.inl rfl⟩
    have hsecond : s.Watches id (s.clause id).second := ⟨hid, Or.inr rfl⟩
    have hfalse : s.Falsified done id := ⟨hid, hdone⟩
    refine (hfalse.congr (h.rearranged.size ▸ hid) fun l hl => ?_).2
    rcases ((h.watches _ hdone.1 id).mpr hfirst).eq_or_eq ((h.watches _ hdone.2 id).mpr hsecond)
      (hwf.first_ne_second hid) hl with rfl | rfl
    · exact hfirst
    · exact hsecond

end Pinned

/-- **Literals that propagation does not lead out of** once the literals `done`
are done with: whatever the others imply is one of them, and so is the last
literal of a clause, unless the clause watches the opposite of a literal that
is done instead. -/
structure ClosedPast (s : ClauseStore) (done : List Lit) (R : Lit → Prop) : Prop where
  binary : ∀ l, R l → l ∉ done → ∀ b ∈ s.implied l, R b
  long : ∀ id < s.long.size, ∀ m ∈ s.lits id, (∀ k ∈ s.lits id, k ≠ m → R k.neg) →
    (∀ w, s.Watches id w → w ≠ m → w.neg ∉ done) → R m

theorem ClosedPast.pinned (h : s.ClosedPast done R) (hpinned : Pinned done s s') :
    s'.ClosedPast done R where
  binary := fun l hl hno b hb => h.binary l hl hno b (hpinned.rearranged.implied l ▸ hb)
  long := by
    intro id hid m hm hrest hwatch
    have hmem : ∀ {k}, k ∈ s'.lits id ↔ k ∈ s.lits id := (hpinned.rearranged.perm id).mem_iff
    refine h.long id (hpinned.rearranged.size ▸ hid) m (hmem.mp hm)
      (fun k hk => hrest k (hmem.mpr hk)) fun w hw hne hdone => ?_
    exact hwatch w ((hpinned.watches w hdone id).mpr hw) hne hdone

end ClauseStore

namespace Solver

variable {F : List Clause} {s s' s'' : Solver} {done : List Lit}

theorem Sound.other_watch (hs : Sound F s) {id : ClauseId} {x : Lit}
    (hx : s.store.Watches id x) : ∃ y, s.store.Watches id y ∧ y ≠ x := by
  have hne := hs.store.first_ne_second hx.1
  rcases hx.2 with rfl | rfl
  · exact ⟨_, ⟨hx.1, Or.inr rfl⟩, hne.symm⟩
  · exact ⟨_, ⟨hx.1, Or.inl rfl⟩, hne⟩

/-- **A conflict that is news**: a literal of it that is not done made it one. -/
def Fresh (s : Solver) (done : List Lit) : Conflict → Prop
  | .binary a _ => a.neg ∉ done
  | .long id => ∃ x, s.store.Watches id x ∧ x.neg ∉ done

/-- **What propagation does past the literals that are done.** -/
structure Past (done : List Lit) (s s' : Solver) : Prop where
  pinned : s.store.Pinned done s'.store
  within : ∀ R, s.store.ClosedPast done R → (∀ l ∈ s.trail.lits.toList, R l) →
    ∀ l ∈ s'.trail.lits.toList, R l

namespace Past

theorem refl (done : List Lit) (s : Solver) : Past done s s := ⟨.refl done s.store, fun _ _ h => h⟩

theorem trans (h : Past done s s') (h' : Past done s' s'') : Past done s s'' :=
  ⟨h.pinned.trans h'.pinned,
    fun R hR hl => h'.within R (hR.pinned h.pinned) (h.within R hR hl)⟩

end Past

/-! ## What each step does -/

/-- One visit: the literal it adds is the last one of its clause, whose other
watch is the literal that became false. -/
theorem VisitSpec.past {x : Lit} {id : ClauseId} {kept : Array ClauseId} {rest : List ClauseId}
    {v : Visit} (h : VisitSpec F x id kept rest s v s')
    (hdone : ∀ l ∈ done, l ∈ s.trail.lits.toList) (hx : x.neg ∈ s.trail.lits.toList)
    (hnew : x.neg ∉ done) : Past done s s' := by
  have hpinned : s.store.Pinned done s'.store := ⟨h.grown.store, fun w hw id =>
    h.pinned w (fun he => hnew (he ▸ hw)) (hdone _ hw) id⟩
  refine ⟨hpinned, fun R hR hl m hm => ?_⟩
  by_cases hold : m ∈ s.trail.lits.toList
  · exact hl m hold
  obtain ⟨hwm, hwx, hrest⟩ := h.added m hm hold
  have hmx : m ≠ x := by
    rintro rfl
    exact h.sound.trail.not_mem_neg hm (h.grown.lits.subset hx)
  refine (hR.pinned hpinned).long id hwm.1 m hwm.mem_lits (fun k hk hne => ?_) fun w hw hne => ?_
  · exact hl _ (hrest k ((h.grown.store.perm id).mem_iff.mp hk) hne)
  · rcases hwm.eq_or_eq hwx hmx hw with rfl | rfl
    · exact absurd rfl hne
    · exact hnew

/-- All clauses of a list, by induction along it. -/
theorem visitAll_past {x : Lit} (ids : List ClauseId) {kept kept' : Array ClauseId}
    {r : Option Conflict} (hs : Sound F (s.listing x (kept ++ ids.toArray)))
    (hdone : ∀ l ∈ done, l ∈ s.trail.lits.toList) (hx : x.neg ∈ s.trail.lits.toList)
    (hnew : x.neg ∉ done) (hv : s.visitAll x ids kept = (r, kept', s')) :
    Past done s s' ∧ ∀ c, r = some c → s'.Fresh done c := by
  induction ids generalizing s kept with
  | nil =>
    unfold visitAll at hv
    obtain ⟨rfl, hrest⟩ := Prod.mk.inj hv
    obtain ⟨rfl, rfl⟩ := Prod.mk.inj hrest
    exact ⟨.refl done s, by simp⟩
  | cons id rest ih =>
    have hspec := visit_spec hs hx
    unfold visitAll at hv
    -- after a visit without a conflict the others are visited
    have hgoes : ∀ v s₁, VisitSpec F x id kept rest s v s₁ →
        s₁.visitAll x rest (v.listed kept id) = (r, kept', s') →
        Past done s s' ∧ ∀ c, r = some c → s'.Fresh done c := by
      intro v s₁ h₁ hrec
      have hsub : ∀ l ∈ s.trail.lits.toList, l ∈ s₁.trail.lits.toList :=
        fun l hl => h₁.grown.lits.subset hl
      obtain ⟨hpast, hfresh⟩ :=
        ih h₁.sound (fun l hl => hsub l (hdone l hl)) (hsub _ hx) hrec
      exact ⟨(h₁.past hdone hx hnew).trans hpast, hfresh⟩
    rcases hvisit : s.visit x id with ⟨v, s₁⟩
    rw [hvisit] at hspec hv
    cases v with
    | keeps => exact hgoes _ _ hspec hv
    | moves => exact hgoes _ _ hspec hv
    | conflicts =>
      obtain ⟨rfl, hrest⟩ := Prod.mk.inj hv
      obtain ⟨rfl, rfl⟩ := Prod.mk.inj hrest
      refine ⟨hspec.past hdone hx hnew, fun c hc => ?_⟩
      cases hc
      have hsound : Sound F (s₁.listing x (kept.push id ++ rest.toArray)) := hspec.sound
      rw [push_append_toArray] at hsound
      exact ⟨x, watches_of_listing hsound (hspec.grown.lits.subset hx), hnew⟩

/-- The consequences through binary clauses. -/
theorem propagateBinary_past {l : Lit} (ls : List Lit) {r : Option Conflict} (hs : Sound F s)
    (hl : l ∈ s.trail.lits.toList) (hnew : l ∉ done) (hls : ∀ b ∈ ls, b ∈ s.store.implied l)
    (hp : s.propagateBinary l ls = (r, s')) :
    Past done s s' ∧ ∀ c, r = some c → s'.Fresh done c := by
  induction ls generalizing s with
  | nil =>
    unfold propagateBinary at hp
    obtain ⟨rfl, rfl⟩ := Prod.mk.inj hp
    exact ⟨.refl done s, by simp⟩
  | cons b rest ih =>
    have hb := hls b List.mem_cons_self
    have hrest : ∀ c ∈ rest, c ∈ s.store.implied l := fun c hc =>
      hls c (List.mem_cons_of_mem _ hc)
    unfold propagateBinary at hp
    split at hp
    · exact ih hs hl hrest hp
    · obtain ⟨rfl, rfl⟩ := Prod.mk.inj hp
      refine ⟨.refl done s, fun c hc => ?_⟩
      cases hc
      show l.neg.neg ∉ done
      rwa [Lit.neg_neg]
    · rename_i hvalue
      split at hp
      · have hopen := Trail.isAssigned_of_value_none hvalue
        have hs₁ := hs.assignImplied hl hb hopen
        have hlits : (s.assign b (.binary l.neg)).trail.lits.toList = s.trail.lits.toList ++ [b] :=
          Trail.lits_push ..
        have hpast : Past done s (s.assign b (.binary l.neg)) := by
          refine ⟨.refl done s.store, fun R hR hall m hm => ?_⟩
          rw [hlits] at hm
          rcases List.mem_append.mp hm with hm | hm
          · exact hall m hm
          · rw [List.mem_singleton.mp hm]
            exact hR.binary l (hall l hl) hnew b hb
        obtain ⟨hmore, hfresh⟩ := ih hs₁ (hlits ▸ List.mem_append_left _ hl) hrest hp
        exact ⟨hpast.trans hmore, hfresh⟩
      · exact ih hs hl hrest hp

/-- One literal of the trail. -/
theorem propagateLit_past {l : Lit} {r : Option Conflict} (hs : Sound F s)
    (hdone : ∀ m ∈ done, m ∈ s.trail.lits.toList) (hl : l ∈ s.trail.lits.toList)
    (hnew : l ∉ done) (hp : s.propagateLit l = (r, s')) :
    Past done s s' ∧ ∀ c, r = some c → s'.Fresh done c := by
  unfold propagateLit at hp
  rcases hbin : s.propagateBinary l (s.store.implied l) with ⟨r₁, s₁⟩
  obtain ⟨hpast₁, hfresh₁⟩ := propagateBinary_past _ hs hl hnew (fun _ hb => hb) hbin
  obtain ⟨hd₁, -⟩ := propagateBinary_spec _ hs hl (fun _ hb => hb) hbin
  rw [hbin] at hp
  cases r₁ with
  | some c =>
    obtain ⟨rfl, rfl⟩ := Prod.mk.inj hp
    exact ⟨hpast₁, hfresh₁⟩
  | none =>
    obtain ⟨kept, s₂, hvis, rfl, hlist⟩ := propagateLong_eq hd₁.sound hp
    obtain ⟨hpast₂, hfresh₂⟩ := visitAll_past _ hlist
      (fun m hm => hd₁.grown.lits.subset (hdone m hm))
      (by rw [Lit.neg_neg]; exact hd₁.grown.lits.subset hl) (by rwa [Lit.neg_neg]) hvis
    exact ⟨hpast₁.trans ⟨hpast₂.pinned, hpast₂.within⟩, hfresh₂⟩

/-- What the head has passed stays so. -/
theorem Grown.passed (h : Grown s s') :
    ∀ m ∈ s.trail.lits.toList.take s.trail.head,
      m ∈ s'.trail.lits.toList.take s'.trail.head := by
  intro m hm
  obtain ⟨more, hmore⟩ := h.lits
  rw [← hmore, List.take_append]
  exact List.mem_append_left _ (List.take_subset_take_left _ h.head hm)

/-- What stood on the trail still does. -/
theorem Grown.take_eq (h : Grown s s') {n : Nat} (hn : n ≤ s.trail.lits.size) :
    s'.trail.lits.toList.take n = s.trail.lits.toList.take n := by
  obtain ⟨more, hmore⟩ := h.lits
  rw [← hmore, List.take_append_of_le_length (by simpa using hn)]

/-- **A run of propagation past the literals that are done**, by induction on
its length: the head never comes back to them. -/
theorem propagateWithin_past (fuel : Nat) {r : Option Conflict} (hs : Sound F s)
    (hdone : ∀ m ∈ done, m ∈ s.trail.lits.toList.take s.trail.head)
    (hp : propagateWithin fuel s = (r, s')) :
    Past done s s' ∧ ∀ c, r = some c → s'.Fresh done c := by
  induction fuel generalizing s with
  | zero =>
    obtain ⟨rfl, rfl⟩ := Prod.mk.inj hp
    exact ⟨.refl done s, by simp⟩
  | succ fuel ih =>
    unfold propagateWithin at hp
    split at hp
    · obtain ⟨rfl, rfl⟩ := Prod.mk.inj hp
      exact ⟨.refl done s, by simp⟩
    · rename_i l s₁ hnext
      obtain ⟨hs₁, hg₁, -, hlits₁, hstore₁, hl⟩ := hs.next hnext
      obtain ⟨hget, -⟩ := nextToPropagate_some hnext
      have hbehind : l ∈ s.trail.lits.toList.drop s.trail.head := by
        rw [List.drop_eq_getElem?_toList_append, Array.getElem?_toList, hget]
        exact List.mem_append_left _ (by simp)
      have hnew : l ∉ done := fun hin =>
        List.disjoint_take_drop (hs.trail.nodup.of_map _) (Nat.le_refl _) (hdone l hin) hbehind
      have hpast₁ : Past done s s₁ :=
        ⟨hstore₁ ▸ .refl done s.store, fun R _ hl => hlits₁ ▸ hl⟩
      rcases hlit : s₁.propagateLit l with ⟨r₂, s₂⟩
      have hpursued := propagateLit_spec hs₁ (hlits₁ ▸ hl) hlit
      obtain ⟨hpast₂, hfresh₂⟩ := propagateLit_past hs₁
        (fun m hm => hlits₁ ▸ List.mem_of_mem_take (hdone m hm)) (hlits₁ ▸ hl) hnew hlit
      rw [hlit] at hp
      cases r₂ with
      | some c =>
        obtain ⟨rfl, rfl⟩ := Prod.mk.inj hp
        exact ⟨hpast₁.trans hpast₂, hfresh₂⟩
      | none =>
        have hgrown := hg₁.trans hpursued.drawn.grown
        obtain ⟨hpast, hfresh⟩ :=
          ih hpursued.drawn.sound (fun m hm => hgrown.passed m (hdone m hm)) hp
        exact ⟨(hpast₁.trans hpast₂).trans hpast, hfresh⟩

theorem propagate_past {r : Option Conflict} (hs : Sound F s)
    (hdone : ∀ m ∈ done, m ∈ s.trail.lits.toList.take s.trail.head)
    (hp : s.propagate = (r, s')) : Past done s s' ∧ ∀ c, r = some c → s'.Fresh done c :=
  propagateWithin_past _ hs hdone hp

/-! ## Enclosure -/

/-- **The outcome of a run is closed** under what others may draw: the opposites
of the watched literals that are false are not done. -/
theorem Saturated.closedPast {known : List Lit} (h : Saturated s known) (hs : Sound F s)
    (hknown : ∀ l ∈ s.trail.lits.toList, l ∉ done → l ∈ known) :
    s.store.ClosedPast done (· ∈ s.trail.lits.toList) where
  binary := fun l hl hno b hb => h.implied l (hknown l hl hno) b hb
  long := fun _ hid _ _ hrest hwatch => h.last hs hid hrest fun w hw hne =>
    hknown _ (hrest w hw.mem_lits hne) (hwatch w hw hne)

/-- Literals that propagation does not lead out of have a fresh conflict only
if they contradict each other. -/
theorem Refutes.not_fresh {c : Conflict} {R : Lit → Prop} (h : Refutes F s c) (hs : Sound F s)
    (hR : s.store.ClosedPast done R) (hcons : ∀ l, R l → ¬ R l.neg)
    (hl : ∀ l ∈ s.trail.lits.toList, R l) : ¬ s.Fresh done c := by
  intro hfresh
  have hfalse : ∀ l ∈ s.conflictLits c, R l.neg := fun l hm => hl _ (h.isFalse l hm)
  cases c with
  | binary a b =>
    have hb : R b := hR.binary _ (hfalse a (by simp [conflictLits])) hfresh b h.stored
    exact hcons b hb (hfalse b (by simp [conflictLits]))
  | long id =>
    obtain ⟨x, hx, hnew⟩ := hfresh
    -- the other watch would be the last literal
    obtain ⟨y, hy, hyx⟩ := hs.other_watch hx
    refine hcons y (hR.long id hx.1 y hy.mem_lits (fun k hk _ => hfalse k hk) fun w hw hne => ?_)
      (hfalse y hy.mem_lits)
    rcases hx.eq_or_eq hy hyx.symm hw with rfl | rfl
    · exact hnew
    · exact absurd rfl hne

/-- **A run stays within literals that propagation does not lead out of**, and
runs into no conflict, if they do not contradict each other. -/
theorem propagate_within {r : Option Conflict} {R : Lit → Prop} (hs : Sound F s)
    (hdone : ∀ m ∈ done, m ∈ s.trail.lits.toList.take s.trail.head)
    (hR : s.store.ClosedPast done R) (hcons : ∀ l, R l → ¬ R l.neg)
    (hl : ∀ l ∈ s.trail.lits.toList, R l) (hp : s.propagate = (r, s')) :
    r = none ∧ ∀ l ∈ s'.trail.lits.toList, R l := by
  obtain ⟨hpast, hfresh⟩ := propagate_past hs hdone hp
  obtain ⟨hdrawn, -⟩ := propagate_spec hs hp
  have hin := hpast.within R hR hl
  refine ⟨Option.eq_none_iff_forall_not_mem.mpr fun c hc => ?_, hin⟩
  exact (hdrawn.conflict c hc).not_fresh hdrawn.sound (hR.pinned hpast.pinned) hcons hin
    (hfresh c hc)

/-- Outside of any scope, this holds of what propagation makes of a state, with
all literals done that the head has passed. -/
theorem propagate_closedPast (hs : Sound F s) (hnone : s.scope.current = none)
    (hp : s.propagate = (none, s')) :
    s.store.ClosedPast (s.trail.lits.toList.take s.trail.head) (· ∈ s'.trail.lits.toList) := by
  obtain ⟨hdrawn, -⟩ := propagate_spec hs hp
  have hpast := (propagate_past hs (fun _ hm => hm) hp).1
  have hsat : Saturated s' ([] ++ s'.trail.lits.toList.drop s.trail.head) :=
    propagate_saturated hs hp (fun m hm => absurd hm List.not_mem_nil) (saturated_nil s)
      fun m hm => ⟨hm, admitsFrom_of_none hnone m⟩
  refine (hsat.closedPast hdrawn.sound fun l hl hno => ?_).pinned hpast.pinned.symm
  rw [← List.take_append_drop s.trail.head s'.trail.lits.toList] at hl
  refine (List.mem_append.mp hl).resolve_left fun hin => hno ?_
  rwa [hdrawn.grown.take_eq hs.trail.headLe] at hin

/-- **A state to go on from** instead of `s`: whatever the head had passed is
passed, and watched by the same clauses. -/
structure Resumes (s t : Solver) : Prop where
  passed : ∀ m ∈ s.trail.lits.toList.take s.trail.head,
    m ∈ t.trail.lits.toList.take t.trail.head
  pinned : s.store.Pinned (s.trail.lits.toList.take s.trail.head) t.store

/-- **Going on from such a state** leads to nothing that propagating `s` outside
of any scope would not have led to. -/
theorem Resumes.propagate {t t' : Solver} (h : Resumes s t) {r : Option Conflict}
    (hs : Sound F s) (hnone : s.scope.current = none) (ht : Sound F t) (hp : s.propagate = (none, s'))
    (hl : ∀ l ∈ t.trail.lits.toList, l ∈ s'.trail.lits.toList) (hrun : t.propagate = (r, t')) :
    r = none ∧ ∀ l ∈ t'.trail.lits.toList, l ∈ s'.trail.lits.toList := by
  have hwf := (propagate_spec hs hp).1.sound.trail
  exact propagate_within ht h.passed ((propagate_closedPast hs hnone hp).pinned h.pinned)
    (fun _ hm => hwf.not_mem_neg hm) hl hrun

end Solver

end Cleave
