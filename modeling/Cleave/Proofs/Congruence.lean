import Cleave.Proofs.Equivalence

/-!
# The equivalence that united literals generate

The pairs of literals that were united generate a congruence: the least
equivalence of literals that contains them and is closed under negation
(`Equivalences.Congruent`). The classes stand for it after any lookups and
unions (`Equivalences.History`): two literals have one root exactly if they are
congruent, and the root has the smallest variable of its class
(`Equivalences.History.generates`).

What the answers depend on is the congruence, so looking a literal up, which
shortens pointers, changes none of them. Two literals cannot be united exactly
if the first one is congruent to the opposite of the second one.
-/

namespace Cleave

namespace Lit

theorem ne_neg (l : Lit) : l ≠ l.neg := by
  obtain ⟨v, p⟩ := l
  cases p <;> simp [neg]

end Lit

namespace Equivalences

variable {count : Nat} {pairs : List (Lit × Lit)} {e e' : Equivalences} {a b l : Lit} {v : Var}

/-! ## Pointers -/

/-- **Pointers lead to smaller variables**, or from a variable to itself. -/
def Ordered (e : Equivalences) : Prop :=
  ∀ v : Var, v.index < e.parent.size → e.parent[v] = v.pos ∨ (e.parent[v]).var.index < v.index

theorem parent_discrete (hv : v.index < count) : (discrete count).parent[v] = v.pos := by
  show ((Var.range count).map Var.pos).toArray.getD v.index default = _
  simp [Var.range, Array.getD, hv]

theorem size_discrete (count : Nat) : (discrete count).parent.size = count := by
  simp [discrete, VarTable.size, Var.range]

theorem ordered_discrete (count : Nat) : (discrete count).Ordered := fun _ hv =>
  Or.inl (parent_discrete (size_discrete count ▸ hv))

namespace Ordered

theorem set (h : e.Ordered) (hlt : l.var.index < v.index) : Ordered ⟨e.parent.set v l⟩ := by
  intro w hw
  have hget : (e.parent.set v l)[w] = if v = w ∧ v.index < e.parent.size then l else e.parent[w] :=
    VarTable.get_set _ _ _ _
  have hw : w.index < e.parent.size := by rwa [VarTable.size_set] at hw
  show (e.parent.set v l)[w] = _ ∨ ((e.parent.set v l)[w]).var.index < _
  rw [hget]
  split
  · rename_i heq
    exact Or.inr (heq.1 ▸ hlt)
  · exact h w hw

/-- Looking a literal up shortens pointers, each of which then leads to a root. -/
theorem find (h : e.Ordered) (hl : l.var.index < e.parent.size) : (e.find l).2.Ordered :=
  compress_keeps (fun h _ hlt => h.set hlt) rfl hl h

/-- Uniting two literals points one root to the other, of a smaller variable. -/
theorem union (h : e.Ordered) (ha : a.var.index < e.parent.size) (hb : b.var.index < e.parent.size)
    (he' : e.union? a b = some e') : e'.Ordered := by
  have hsize := (find_spec ha).2.1
  have h₂ : ((e.find a).2.find b).2.Ordered := (h.find ha).find (hsize.symm ▸ hb)
  unfold union? at he'
  simp only at he'
  split at he'
  · exact Option.some.inj he' ▸ h₂
  · rename_i hne
    split at he'
    · cases he'
    · rename_i hnopp
      have hvar : (e.find a).1.var.index ≠ ((e.find a).2.find b).1.var.index := fun heq =>
        (Lit.eq_or_eq_neg (Var.index_inj.mp heq)).elim hne hnopp
      obtain rfl := Option.some.inj he'
      refine h₂.set ?_
      rw [Lit.var_flipUnless]
      by_cases hlt : (e.find a).1.var.index < ((e.find a).2.find b).1.var.index
      · rw [if_pos hlt]
        exact hlt
      · rw [if_neg hlt]
        show ((e.find a).2.find b).1.var.index < (e.find a).1.var.index
        omega

/-- **A search ends at a variable that points to itself.** -/
theorem parent_root (h : e.Ordered) (hl : l.var.index < e.parent.size) :
    e.parent[(e.root l).var] = (e.root l).var.pos := by
  have hin : (e.root l).var.index < e.parent.size := Nat.lt_of_le_of_lt (e.index_root_le l) hl
  refine (h _ hin).resolve_right fun hlt => ?_
  have hnext := root_of_lt hlt
  rw [root_root] at hnext
  -- the root of the pointer is no larger than the pointer
  have hle := e.index_root_le ((e.parent[(e.root l).var]).flipUnless (e.root l).positive)
  rw [← hnext, Lit.var_flipUnless] at hle
  omega

end Ordered

/-! ## Congruence -/

/-- **The congruence that pairs of literals generate**: the least equivalence
that contains them and is closed under negation. -/
inductive Congruent (pairs : List (Lit × Lit)) : Lit → Lit → Prop
  | pair {a b : Lit} : (a, b) ∈ pairs → Congruent pairs a b
  | refl (a : Lit) : Congruent pairs a a
  | symm {a b : Lit} : Congruent pairs a b → Congruent pairs b a
  | trans {a b c : Lit} : Congruent pairs a b → Congruent pairs b c → Congruent pairs a c
  | neg {a b : Lit} : Congruent pairs a b → Congruent pairs a.neg b.neg

theorem Congruent.mono {more : List (Lit × Lit)} (h : Congruent pairs a b)
    (hsub : ∀ p ∈ pairs, p ∈ more) : Congruent more a b := by
  induction h with
  | pair hp => exact .pair (hsub _ hp)
  | refl a => exact .refl a
  | symm _ ih => exact ih.symm
  | trans _ _ ih ih' => exact ih.trans ih'
  | neg _ ih => exact ih.neg

/-- **Lookups and unions**, with the pairs that were united. -/
inductive History (count : Nat) : List (Lit × Lit) → Equivalences → Prop
  | start : History count [] (discrete count)
  | find {pairs : List (Lit × Lit)} {e : Equivalences} {l : Lit} :
      History count pairs e → l.var.index < count → History count pairs (e.find l).2
  | union {pairs : List (Lit × Lit)} {e e' : Equivalences} {a b : Lit} :
      History count pairs e → a.var.index < count → b.var.index < count →
      e.union? a b = some e' → History count (pairs ++ [(a, b)]) e'

/-- Unites pairs of literals, one after the other. -/
def unite (e : Equivalences) (pairs : List (Lit × Lit)) : Option Equivalences :=
  pairs.foldlM (fun e p => e.union? p.1 p.2) e

theorem History.unite {more : List (Lit × Lit)} (h : History count pairs e)
    (hmore : ∀ p ∈ more, p.1.var.index < count ∧ p.2.var.index < count)
    (he' : e.unite more = some e') : History count (pairs ++ more) e' := by
  induction more generalizing pairs e with
  | nil =>
    obtain rfl := Option.some.inj he'
    rwa [List.append_nil]
  | cons p more ih =>
    obtain ⟨hp, hmore⟩ := List.forall_mem_cons.mp hmore
    unfold Equivalences.unite at he'
    rw [List.foldlM_cons] at he'
    obtain ⟨e₁, he₁, he'⟩ := Option.bind_eq_some_iff.mp he'
    rw [List.append_cons]
    exact ih (h.union hp.1 hp.2 he₁) hmore he'

/-- **Classes stand for the congruence of some pairs.** -/
structure Represents (e : Equivalences) (count : Nat) (pairs : List (Lit × Lit)) : Prop where
  size : e.parent.size = count
  ordered : e.Ordered
  /-- A literal is congruent to its root. -/
  joined : ∀ l : Lit, l.var.index < count → Congruent pairs l (e.root l)
  /-- The literals of a pair have one root. -/
  united : ∀ a b, (a, b) ∈ pairs → e.root a = e.root b

namespace Represents

theorem discrete (count : Nat) : (discrete count).Represents count [] where
  size := size_discrete count
  ordered := ordered_discrete count
  joined := fun l hl => (root_discrete hl).symm ▸ .refl l
  united := fun _ _ hp => absurd hp List.not_mem_nil

variable (h : e.Represents count pairs)

include h

theorem find (hl : l.var.index < count) : (e.find l).2.Represents count pairs := by
  have hin : l.var.index < e.parent.size := h.size ▸ hl
  obtain ⟨-, hsize, hroot⟩ := find_spec hin
  exact ⟨hsize.trans h.size, h.ordered.find hin, fun m hm => (hroot m).symm ▸ h.joined m hm,
    fun a b hp => by rw [hroot, hroot, h.united a b hp]⟩

/-- **One more pair.** The root that is replaced is congruent to the one that
replaces it, as the two literals are. -/
theorem union (ha : a.var.index < count) (hb : b.var.index < count)
    (he' : e.union? a b = some e') : e'.Represents count (pairs ++ [(a, b)]) := by
  have hina : a.var.index < e.parent.size := h.size ▸ ha
  have hinb : b.var.index < e.parent.size := h.size ▸ hb
  rcases union?_spec hina hinb with
    ⟨hnone, -⟩ | ⟨e'', keep, other, hsome, hsize, hpair, hroot, hsame⟩
  · rw [hnone] at he'
    cases he'
  rw [hsome] at he'
  obtain rfl := Option.some.inj he'
  have hold : ∀ m : Lit, m.var.index < count → Congruent (pairs ++ [(a, b)]) m (e.root m) :=
    fun m hm => (h.joined m hm).mono fun p hp => List.mem_append_left _ hp
  have hroots : Congruent (pairs ++ [(a, b)]) (e.root a) (e.root b) :=
    ((hold a ha).symm.trans (.pair (List.mem_append_right _ List.mem_cons_self))).trans (hold b hb)
  have hother : Congruent (pairs ++ [(a, b)]) other keep := by
    rcases hpair with ⟨rfl, rfl⟩ | ⟨rfl, rfl⟩
    · exact hroots.symm
    · exact hroots
  refine ⟨hsize.trans h.size, h.ordered.union hina hinb hsome, fun m hm => ?_, fun x y hp => ?_⟩
  · rw [hroot]
    refine (hold m hm).trans ?_
    rcases replace_cases keep other (e.root m) with heq | ⟨hm', heq⟩ | ⟨hm', heq⟩
    · rw [heq]
      exact .refl _
    · rw [heq, hm']
      exact hother
    · rw [heq, hm']
      exact hother.neg
  · rcases List.mem_append.mp hp with hp | hp
    · rw [hroot, hroot, h.united x y hp]
    · obtain ⟨rfl, rfl⟩ := Prod.mk.inj (List.mem_singleton.mp hp)
      exact hsame

/-- Congruent literals have one root, as having one root is an equivalence that
is closed under negation. -/
theorem root_eq_of_congruent (hab : Congruent pairs a b) : e.root a = e.root b := by
  induction hab with
  | pair hp => exact h.united _ _ hp
  | refl a => rfl
  | symm _ ih => exact ih.symm
  | trans _ _ ih ih' => exact ih.trans ih'
  | @neg a b _ ih =>
    calc e.root a.neg = (e.root a).neg := e.root_flipUnless a false
      _ = (e.root b).neg := by rw [ih]
      _ = e.root b.neg := (e.root_flipUnless b false).symm

theorem root_eq_iff (ha : a.var.index < count) (hb : b.var.index < count) :
    e.root a = e.root b ↔ Congruent pairs a b :=
  ⟨fun heq => (h.joined a ha).trans (heq ▸ (h.joined b hb).symm), h.root_eq_of_congruent⟩

/-- The root has the smallest variable of its class. -/
theorem index_root_le_of_congruent (hab : Congruent pairs a b) :
    (e.root a).var.index ≤ b.var.index :=
  h.root_eq_of_congruent hab ▸ e.index_root_le b

theorem find_fst (hl : l.var.index < count) : (e.find l).1 = e.root l :=
  (find_spec (h.size ▸ hl)).1

/-- **Two literals cannot be united** exactly if the first one is congruent to the
opposite of the second one. -/
theorem union?_eq_none_iff (ha : a.var.index < count) (hb : b.var.index < count) :
    e.union? a b = none ↔ Congruent pairs a b.neg := by
  rw [← h.root_eq_iff ha (show b.neg.var.index < count from hb),
    show e.root b.neg = (e.root b).neg from e.root_flipUnless b false]
  rcases union?_spec (h.size ▸ ha) (h.size ▸ hb) with
    ⟨hnone, hopp⟩ | ⟨e', keep, other, hsome, -, -, hroot, hsame⟩
  · exact iff_of_true hnone hopp
  · refine iff_of_false (by rw [hsome]; exact Option.some_ne_none e') fun hopp => ?_
    -- opposite roots stay opposite, and are none in one class
    rw [hroot, hroot, hopp, replace_neg] at hsame
    exact Lit.ne_neg _ hsame.symm

end Represents

/-- **The root is settled by the congruence**: it is the literal of the smallest
variable, and no literal is congruent to its opposite. -/
theorem Represents.root_unique (h : e.Represents count pairs) (h' : e'.Represents count pairs)
    (hl : l.var.index < count) : e.root l = e'.root l := by
  have hroots : Congruent pairs (e.root l) (e'.root l) :=
    (h.joined l hl).symm.trans (h'.joined l hl)
  have hle : (e.root l).var.index ≤ (e'.root l).var.index :=
    h.index_root_le_of_congruent (h'.joined l hl)
  have hge : (e'.root l).var.index ≤ (e.root l).var.index :=
    h'.index_root_le_of_congruent (h.joined l hl)
  have hvar := Var.index_inj.mp (Nat.le_antisymm hle hge)
  refine (Lit.eq_or_eq_neg hvar).resolve_right fun hopp => ?_
  rw [hopp] at hroots
  have heq := h'.root_eq_of_congruent hroots
  rw [show e'.root (e'.root l).neg = (e'.root (e'.root l)).neg from
    e'.root_flipUnless _ false] at heq
  exact Lit.ne_neg _ heq.symm

theorem History.represents (h : History count pairs e) : e.Represents count pairs := by
  induction h with
  | start => exact .discrete count
  | find _ hl ih => exact ih.find hl
  | union _ ha hb he' ih => exact ih.union ha hb he'

/-! ## Answers -/

/-- A call to the classes. -/
inductive Call where
  /-- Looks a literal up. -/
  | find (l : Lit)
  /-- Unites two literals. -/
  | union (a b : Lit)

/-- The literals that a call is about. -/
def Call.lits : Call → List Lit
  | find l => [l]
  | union a b => [a, b]

/-- What a call answers. -/
inductive Answer where
  /-- The representative of a literal. -/
  | found (l : Lit)
  /-- Whether two literals could be united. -/
  | united (done : Bool)
deriving DecidableEq

/-- **The answers to calls**, one after the other. They end with a union that
fails. -/
def answers (e : Equivalences) : List Call → List Answer
  | [] => []
  | .find l :: calls => .found (e.find l).1 :: answers (e.find l).2 calls
  | .union a b :: calls =>
    match e.union? a b with
    | none => [.united false]
    | some e' => .united true :: answers e' calls

/-- **The answers depend on what was united**, by induction on the calls: every
state that stands for the same congruence gives the same ones. -/
theorem Represents.answers_eq (h : e.Represents count pairs) (h' : e'.Represents count pairs)
    {calls : List Call} (hcalls : ∀ c ∈ calls, ∀ l ∈ c.lits, l.var.index < count) :
    e.answers calls = e'.answers calls := by
  induction calls generalizing pairs e e' with
  | nil => rfl
  | cons c calls ih =>
    obtain ⟨hc, hrest⟩ := List.forall_mem_cons.mp hcalls
    cases c with
    | find l =>
      have hl : l.var.index < count := hc l List.mem_cons_self
      unfold answers
      rw [h.find_fst hl, h'.find_fst hl, h.root_unique h' hl, ih (h.find hl) (h'.find hl) hrest]
    | union a b =>
      have ha : a.var.index < count := hc a List.mem_cons_self
      have hb : b.var.index < count := hc b (List.mem_cons_of_mem _ List.mem_cons_self)
      have hnone : e.union? a b = none ↔ e'.union? a b = none :=
        (h.union?_eq_none_iff ha hb).trans (h'.union?_eq_none_iff ha hb).symm
      unfold answers
      cases he : e.union? a b with
      | none => rw [hnone.mp he]
      | some d =>
        cases he' : e'.union? a b with
        | none => rw [hnone.mpr he'] at he; cases he
        | some d' => exact congrArg _ (ih (h.union ha hb he) (h'.union ha hb he') hrest)

/-! ## What the classes stand for -/

/-- **The classes are those of the generated congruence**, after any lookups and
unions. Pointers lead to smaller variables, and a search ends at a variable that
points to itself. Opposite literals have opposite representatives, two literals
have one representative exactly if they are congruent, and it has the smallest
variable of their class. A union fails exactly if the first literal is congruent
to the opposite of the second one. Looking a literal up changes no later answer. -/
theorem History.generates (h : History count pairs e) :
    (∀ v : Var, v.index < count → e.parent[v] = v.pos ∨ (e.parent[v]).var.index < v.index)
    ∧ (∀ a : Lit, a.var.index < count →
        e.parent[(e.find a).1.var] = (e.find a).1.var.pos
        ∧ (e.find a.neg).1 = (e.find a).1.neg
        ∧ Congruent pairs a (e.find a).1
        ∧ ∀ b, Congruent pairs a b → (e.find a).1.var.index ≤ b.var.index)
    ∧ (∀ a b : Lit, a.var.index < count → b.var.index < count →
        ((e.find a).1 = (e.find b).1 ↔ Congruent pairs a b)
        ∧ (e.union? a b = none ↔ Congruent pairs a b.neg))
    ∧ ∀ l : Lit, l.var.index < count → ∀ calls : List Call,
        (∀ c ∈ calls, ∀ m ∈ c.lits, m.var.index < count) →
        (e.find l).2.answers calls = e.answers calls := by
  have hr := h.represents
  refine ⟨fun v hv => hr.ordered v (hr.size ▸ hv), fun a ha => ?_, fun a b ha hb => ?_,
    fun l hl calls hcalls => (hr.find hl).answers_eq hr hcalls⟩
  · rw [hr.find_fst ha, hr.find_fst (show a.neg.var.index < count from ha)]
    exact ⟨hr.ordered.parent_root (hr.size ▸ ha), e.root_flipUnless a false, hr.joined a ha,
      fun b hab => hr.index_root_le_of_congruent hab⟩
  · rw [hr.find_fst ha, hr.find_fst hb]
    exact ⟨hr.root_eq_iff ha hb, hr.union?_eq_none_iff ha hb⟩

/-- A chain of four variables with pointers of both signs. -/
def mixedChain : List (Lit × Lit) :=
  [(⟨⟨2⟩, true⟩, ⟨⟨1⟩, false⟩), (⟨⟨3⟩, true⟩, ⟨⟨2⟩, true⟩), (⟨⟨0⟩, true⟩, ⟨⟨3⟩, false⟩)]

theorem History.generates_mixedChain : ∃ e, History 4 mixedChain e
    ∧ (e.find ⟨⟨3⟩, true⟩).1 = ⟨⟨0⟩, false⟩
    ∧ Congruent mixedChain ⟨⟨1⟩, false⟩ ⟨⟨0⟩, false⟩
    ∧ e.union? ⟨⟨2⟩, true⟩ ⟨⟨0⟩, true⟩ = none := by
  have hunite : ((discrete 4).unite mixedChain).any (fun e =>
      (e.find ⟨⟨3⟩, true⟩).1 = ⟨⟨0⟩, false⟩ ∧ (e.find ⟨⟨1⟩, false⟩).1 = (e.find ⟨⟨0⟩, false⟩).1
        ∧ (e.find ⟨⟨2⟩, true⟩).1 = (e.find ⟨⟨0⟩, false⟩).1) = true := by decide +kernel
  obtain ⟨e, he, hfound⟩ := (Option.any_eq_true _ _).mp hunite
  obtain ⟨h₃, h₁, h₂⟩ := of_decide_eq_true hfound
  have hstart : History 4 [] (discrete 4) := .start
  have h : History 4 mixedChain e := hstart.unite (by decide) he
  obtain ⟨-, -, hsame, -⟩ := History.generates h
  exact ⟨e, h, h₃, (hsame _ _ (by decide) (by decide)).1.mp h₁,
    (hsame ⟨⟨2⟩, true⟩ ⟨⟨0⟩, true⟩ (by decide) (by decide)).2.mpr
      ((hsame ⟨⟨2⟩, true⟩ ⟨⟨0⟩, false⟩ (by decide) (by decide)).1.mp h₂)⟩

end Equivalences

end Cleave
