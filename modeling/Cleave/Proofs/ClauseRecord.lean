import Cleave.Proofs.Substitution
import Mathlib.Data.Multiset.AddSub

/-!
# What a store records

A store of clauses without repeated variables keeps all of them, and each once.
What a literal implies through binary clauses is listed in the order in which
they came, given ones before learnt ones (`ClauseStore.listed_adding`). A binary
clause is listed under both its literals, but exported from the one with the
smaller rank only, so one more clause is one more exported clause
(`ClauseStore.contents_adding`).

From these two, what every further clause adds, the record of a whole sequence
of clauses follows by induction (`ClauseStore.addAll_records`).
-/

namespace Cleave

/-- **A change in one place** changes a concatenation by what it adds there. -/
theorem flatMap_perm_of_mem {α β : Type} {f g : α → List β} {extra : List β} {k : α} {xs : List α}
    (hnodup : xs.Nodup) (hk : k ∈ xs) (hkeep : ∀ x ∈ xs, x ≠ k → f x = g x)
    (hnew : (f k).Perm (extra ++ g k)) : (xs.flatMap f).Perm (extra ++ xs.flatMap g) := by
  induction xs with
  | nil => cases hk
  | cons x xs ih =>
    obtain ⟨hx, hnodup⟩ := List.nodup_cons.mp hnodup
    rw [List.flatMap_cons, List.flatMap_cons]
    by_cases hxk : x = k
    · subst hxk
      have hsame : xs.flatMap f = xs.flatMap g := List.flatMap_congr fun y hy =>
        hkeep y (List.mem_cons_of_mem _ hy) fun heq => hx (heq ▸ hy)
      rw [hsame, ← List.append_assoc]
      exact hnew.append_right _
    · have hin : k ∈ xs := (List.mem_cons.mp hk).resolve_left (Ne.symm hxk)
      rw [hkeep x List.mem_cons_self hxk]
      exact ((ih hnodup hin fun y hy => hkeep y (List.mem_cons_of_mem _ hy)).append_left _).trans
        (List.perm_append_comm_assoc _ _ _)

namespace Lit

theorem code_ofCode (code : Nat) : (ofCode code).code = code := by
  unfold Lit.code ofCode
  by_cases h : code % 2 = 0
  · simp [h]
    omega
  · simp [h]
    omega

end Lit

namespace ClauseStore

variable {s : ClauseStore} {count : Nat} {a b l m : Lit} {c : Clause} {learnt flag : Bool}

/-! ## One more clause -/

/-- **A normal clause** over `count` variables: it has literals, and no variable
twice. -/
structure Normal (count : Nat) (c : Clause) : Prop where
  nonempty : c ≠ []
  nodup : (c.map Lit.var).Nodup
  inRange : ∀ l ∈ c, l.var.index < count

instance (count : Nat) (c : Clause) : Decidable (Normal count c) :=
  decidable_of_iff (c ≠ [] ∧ (c.map Lit.var).Nodup ∧ ∀ l ∈ c, l.var.index < count)
    ⟨fun h => ⟨h.1, h.2.1, h.2.2⟩, fun h => ⟨h.nonempty, h.nodup, h.inRange⟩⟩

/-- The store with one more clause, given or learnt. The empty clause is never
stored. -/
def adding (s : ClauseStore) (c : Clause) (learnt : Bool) : ClauseStore :=
  match c with
  | [] => s
  | first :: rest => (s.add first rest learnt).2

/-- The other literal of a binary clause that contains `l`. -/
def other? (l : Lit) : Clause → Option Lit
  | [a, b] => if a = l then some b else if b = l then some a else none
  | _ => none

theorem size_imply : (s.imply l m learnt).implications.size = s.implications.size := by
  simp [imply]

theorem size_adding : (s.adding c learnt).implications.size = s.implications.size := by
  unfold adding add
  split
  · rfl
  · split
    · rfl
    · rw [size_imply, size_imply]
    · rfl

/-- **One more implication** is listed behind those of its kind. -/
theorem listed_imply (hl : l.code < s.implications.size) (m : Lit) :
    (s.imply l b learnt).listed flag m
      = s.listed flag m ++ if m = l ∧ flag = learnt then [b] else [] := by
  unfold listed imply
  simp only
  by_cases hm : l = m
  · subst hm
    rw [LitTable.get_modify_self hl, Implications.part_insert]
    simp
  · rw [LitTable.get_modify_ne _ hm]
    simp [Ne.symm hm]

/-- **What one more clause adds to the implications** of a literal's opposite: the
other literal, if it is a binary clause with it. -/
theorem listed_adding (hs : s.implications.size = 2 * count) (hc : Normal count c) (l : Lit) :
    (s.adding c learnt).listed flag l.neg
      = s.listed flag l.neg ++ if flag = learnt then (other? l c).toList else [] := by
  match c, hc with
  | [], hc => exact absurd rfl hc.nonempty
  | [_], _ => simp [adding, add, listed, other?]
  | _ :: _ :: _ :: _, _ => simp [adding, add, listed, other?]
  | [a, b], hc =>
    have hcode : ∀ m ∈ [a, b], m.neg.code < s.implications.size := fun m hm =>
      hs ▸ Lit.code_lt.mpr (hc.inRange m hm)
    have hab : a ≠ b := fun heq => by
      have := hc.nodup
      simp [heq] at this
    show ((s.imply a.neg b learnt).imply b.neg a learnt).listed flag l.neg = _
    rw [listed_imply (by rw [size_imply]; exact hcode b (by simp)),
      listed_imply (hcode a (by simp))]
    simp only [Lit.neg_inj, List.append_assoc, other?]
    grind

/-! ## What is exported -/

/-- **What a list of clauses records**: which literals each clause has, and
whether it was learnt. The order of the clauses and of their literals does not
matter. -/
def contents (cs : List (Clause × Bool)) : Multiset (Multiset Lit × Bool) :=
  (cs.map fun c => ((c.1 : Multiset Lit), c.2) : List (Multiset Lit × Bool))

theorem contents_append (cs ds : List (Clause × Bool)) :
    contents (cs ++ ds) = contents cs + contents ds := by
  unfold contents
  rw [List.map_append, ← Multiset.coe_add]

theorem contents_perm {cs ds : List (Clause × Bool)} (h : cs.Perm ds) :
    contents cs = contents ds :=
  Multiset.coe_eq_coe.mpr (h.map _)

theorem contents_concat (cs : List (Clause × Bool)) (c : Clause × Bool) :
    contents (cs ++ [c]) = ((c.1 : Multiset Lit), c.2) ::ₘ contents cs :=
  contents_perm (List.perm_append_singleton c cs)

/-- An implication is exported if the opposite of its premise has the smaller
rank. -/
def exportedOnce (l b : Lit) (learnt : Bool) : List (Clause × Bool) :=
  if l.neg.blt b then [([l.neg, b], learnt)] else []

/-- The binary clauses that are exported from a literal: those in which its
opposite has the smaller rank. -/
def binariesFrom (s : ClauseStore) (l : Lit) : List (Clause × Bool) :=
  s.implications[l].flagged.flatMap fun other => exportedOnce l other.1 other.2

theorem binaries_eq : s.binaries
    = (List.range s.implications.size).flatMap fun code => s.binariesFrom (Lit.ofCode code) := by
  unfold binaries LitTable.toList
  rw [List.flatMap_map]
  refine List.flatMap_congr fun code _ => ?_
  refine (List.filterMap_eq_flatMap_toList ..).trans ?_
  refine List.flatMap_congr fun ⟨other, learnt⟩ _ => ?_
  unfold exportedOnce
  dsimp only
  split <;> rfl

theorem binaries_imply (hl : l.code < s.implications.size) :
    (s.imply l b learnt).binaries.Perm (exportedOnce l b learnt ++ s.binaries) := by
  rw [binaries_eq, binaries_eq, size_imply]
  refine flatMap_perm_of_mem List.nodup_range (List.mem_range.mpr hl) (fun code _ hne => ?_) ?_
  · have hother : l ≠ Lit.ofCode code := fun heq => hne (heq ▸ (Lit.code_ofCode code).symm)
    unfold binariesFrom imply
    simp only
    rw [LitTable.get_modify_ne _ hother]
  · rw [Lit.ofCode_code]
    unfold binariesFrom imply
    simp only
    rw [LitTable.get_modify_self hl]
    exact (Implications.flagged_insert _ b learnt).flatMap_right _

/-- **A binary clause is exported once**, from one of its literals. -/
theorem contents_binaries_addPair (hs : s.implications.size = 2 * count)
    (ha : a.var.index < count) (hb : b.var.index < count) (hab : a.var ≠ b.var) :
    contents (s.addPair a b learnt).binaries
      = (([a, b] : Multiset Lit), learnt) ::ₘ contents s.binaries := by
  have hne : a.code ≠ b.code := fun h => hab (congrArg Lit.var (Lit.code_inj.mp h))
  have hfirst : (s.imply a.neg b learnt).binaries.Perm
      (exportedOnce a.neg b learnt ++ s.binaries) :=
    binaries_imply (by rw [hs]; exact Lit.code_lt.mpr ha)
  have hsecond : ((s.imply a.neg b learnt).imply b.neg a learnt).binaries.Perm
      (exportedOnce b.neg a learnt ++ (s.imply a.neg b learnt).binaries) :=
    binaries_imply (by rw [size_imply, hs]; exact Lit.code_lt.mpr hb)
  unfold addPair
  rw [contents_perm hsecond, contents_append, contents_perm hfirst, contents_append]
  have hswap : ([b, a] : Multiset Lit) = [a, b] := Multiset.coe_eq_coe.mpr (.swap _ _ _)
  unfold exportedOnce
  simp only [Lit.neg_neg, Lit.blt, decide_eq_true_eq]
  rcases Nat.lt_or_gt_of_ne hne with hlt | hlt
  · rw [if_pos hlt, if_neg (Nat.not_lt.mpr (Nat.le_of_lt hlt))]
    exact (Multiset.zero_add _).trans (Multiset.singleton_add _ _)
  · rw [if_neg (Nat.not_lt.mpr (Nat.le_of_lt hlt)), if_pos hlt, ← hswap]
    exact (congrArg _ (Multiset.zero_add _)).trans (Multiset.singleton_add _ _)

/-- How a clause is recorded: whether it was learnt is forgotten of a unit. -/
def recorded (c : Clause × Bool) : Multiset Lit × Bool := (c.1, c.2 && decide (c.1.length ≠ 1))

/-- **What one more clause adds to the record** is this clause. -/
theorem contents_adding (hs : s.implications.size = 2 * count) (hc : Normal count c) :
    contents (s.adding c learnt).exported = recorded (c, learnt) ::ₘ contents s.exported := by
  unfold exported
  simp only [contents_append]
  match c, hc with
  | [], hc => exact absurd rfl hc.nonempty
  | [l], _ =>
    have hunits : (s.adding [l] learnt).units.toList = s.units.toList ++ [l] := by
      simp [adding, add]
    have hrest : (s.adding [l] learnt).binaries = s.binaries
        ∧ (s.adding [l] learnt).long = s.long := ⟨rfl, rfl⟩
    rw [hunits, hrest.1, hrest.2, List.map_append, List.map_singleton, contents_concat,
      Multiset.cons_add, Multiset.cons_add]
    simp [recorded]
  | [a, b], hc =>
    have hab : a.var ≠ b.var := by simpa using hc.nodup
    have hadd : s.adding [a, b] learnt = s.addPair a b learnt := rfl
    have hrest : (s.addPair a b learnt).units = s.units
        ∧ (s.addPair a b learnt).long = s.long := ⟨rfl, rfl⟩
    rw [hadd, hrest.1, hrest.2, contents_binaries_addPair hs (hc.inRange a (by simp))
      (hc.inRange b (by simp)) hab, Multiset.add_cons, Multiset.cons_add]
    simp [recorded]
  | first :: second :: third :: rest, _ =>
    have hlong : (s.adding (first :: second :: third :: rest) learnt).long.toList
        = s.long.toList ++ [⟨first, second, third :: rest, learnt⟩] := by
      simp [adding, add]
    have hrest : (s.adding (first :: second :: third :: rest) learnt).units = s.units
        ∧ (s.adding (first :: second :: third :: rest) learnt).binaries = s.binaries := ⟨rfl, rfl⟩
    rw [hlong, hrest.1, hrest.2, List.map_append, List.map_singleton, contents_concat,
      Multiset.add_cons]
    simp [recorded, LongClause.lits]

/-! ## Any number of clauses -/

/-- **The store of some clauses**, each given or learnt, in the order in which
they came. -/
def addAll (count : Nat) (cs : List (Clause × Bool)) : ClauseStore :=
  cs.foldl (fun s c => s.adding c.1 c.2) (empty.resize count)

/-- The other literals of those binary clauses that contain `l`, of the given or
of the learnt ones. -/
def others (learnt : Bool) (l : Lit) (cs : List (Clause × Bool)) : List Lit :=
  cs.filterMap fun c => if learnt = c.2 then other? l c.1 else none

theorem others_cons (learnt : Bool) (l : Lit) (c : Clause × Bool) (cs : List (Clause × Bool)) :
    others learnt l (c :: cs)
      = (if learnt = c.2 then (other? l c.1).toList else []) ++ others learnt l cs := by
  unfold others
  rw [List.filterMap_cons]
  by_cases h : learnt = c.2
  · rw [if_pos h, if_pos h]
    cases other? l c.1 <;> rfl
  · rw [if_neg h, if_neg h]
    rfl

theorem blank_empty_resize (count : Nat) : (empty.resize count).Blank count where
  size := LitTable.size_resize _ (Nat.zero_le _)
  implications := fun _ => LitTable.get_resize _ (Nat.zero_le _) _
  units := rfl
  long := rfl

/-- **What any number of clauses add** to a store. -/
theorem foldl_adding (cs : List (Clause × Bool)) (hs : s.implications.size = 2 * count)
    (hcs : ∀ c ∈ cs, Normal count c.1) :
    (∀ learnt l, (cs.foldl (fun s c => s.adding c.1 c.2) s).listed learnt l.neg
        = s.listed learnt l.neg ++ others learnt l cs)
      ∧ contents (cs.foldl (fun s c => s.adding c.1 c.2) s).exported
        = (cs.map recorded : List (Multiset Lit × Bool)) + contents s.exported := by
  induction cs generalizing s with
  | nil => exact ⟨fun _ _ => (List.append_nil _).symm, (Multiset.zero_add _).symm⟩
  | cons c cs ih =>
    obtain ⟨hc, hcs⟩ := List.forall_mem_cons.mp hcs
    obtain ⟨hlisted, hcontents⟩ := ih (s := s.adding c.1 c.2) (size_adding.trans hs) hcs
    refine ⟨fun learnt l => ?_, ?_⟩
    · rw [List.foldl_cons, hlisted, listed_adding hs hc, List.append_assoc, others_cons]
    · rw [List.foldl_cons, hcontents, contents_adding hs hc, List.map_cons, ← Multiset.cons_coe,
        Multiset.add_cons, Multiset.cons_add]

/-- **The store records what was added, and each clause once.** The partners of a
literal are the other literals of the given binary clauses with it, in the order
in which they came; the opposite literal implies these and behind them those of
the learnt ones. The exported clauses are those added, up to the order of clauses
and literals; units count as given. -/
theorem addAll_records {cs : List (Clause × Bool)} (hcs : ∀ c ∈ cs, Normal count c.1) :
    (∀ l, (addAll count cs).partners l = others false l cs
        ∧ (addAll count cs).implied l.neg = others false l cs ++ others true l cs)
      ∧ contents (addAll count cs).exported = (cs.map recorded : List (Multiset Lit × Bool)) := by
  have hblank := blank_empty_resize count
  obtain ⟨hlisted, hcontents⟩ := foldl_adding cs hblank.size hcs
  have hothers : ∀ learnt l, (addAll count cs).listed learnt l.neg = others learnt l cs :=
    fun learnt l => by
      have hnone : (empty.resize count).listed learnt l.neg = [] := by
        unfold listed
        rw [hblank.implications, Implications.part_default]
      exact (hlisted learnt l).trans (by rw [hnone, List.nil_append])
  refine ⟨fun l => ⟨hothers false l, ?_⟩, ?_⟩
  · rw [← hothers, ← hothers]
    exact Implications.all_eq _
  · have hnone : (empty.resize count).exported = [] :=
      List.eq_nil_iff_forall_not_mem.mpr fun _ hc => hblank.not_has (has_of_exported hc)
    refine hcontents.trans ?_
    rw [hnone]
    exact Multiset.add_zero _

/-- Clauses of all sizes; given and learnt ones take turns. -/
def mixedClauses : List (Clause × Bool) :=
  [([⟨⟨0⟩, true⟩, ⟨⟨1⟩, true⟩], false), ([⟨⟨2⟩, true⟩, ⟨⟨0⟩, true⟩], true), ([⟨⟨1⟩, false⟩], true),
    ([⟨⟨0⟩, true⟩, ⟨⟨2⟩, false⟩], false), ([⟨⟨2⟩, true⟩, ⟨⟨0⟩, false⟩, ⟨⟨1⟩, true⟩], true)]

theorem addAll_records_mixed : (∀ c ∈ mixedClauses, Normal 3 c.1)
    ∧ (addAll 3 mixedClauses).partners ⟨⟨0⟩, true⟩ = [⟨⟨1⟩, true⟩, ⟨⟨2⟩, false⟩]
    ∧ (addAll 3 mixedClauses).implied ⟨⟨0⟩, false⟩ = [⟨⟨1⟩, true⟩, ⟨⟨2⟩, false⟩, ⟨⟨2⟩, true⟩]
    ∧ contents (addAll 3 mixedClauses).exported
      = (mixedClauses.map recorded : List (Multiset Lit × Bool)) := by
  have hnormal : ∀ c ∈ mixedClauses, Normal 3 c.1 := by decide
  obtain ⟨hlists, hcontents⟩ := addAll_records hnormal
  obtain ⟨hpartners, himplied⟩ := hlists ⟨⟨0⟩, true⟩
  exact ⟨hnormal, hpartners.trans (by decide), himplied.trans (by decide), hcontents⟩

end ClauseStore

end Cleave
