import Cleave.Proofs.HeapOrder

/-!
# What happened to a heap

Whatever calls a heap has seen, its members are the variables that were inserted
and not removed since, each with the key it was given last. The log of a history
(`VarHeap.History`) says what was inserted and removed, the last change first,
and `VarHeap.latestKey?` reads the keys off it.

Every call keeps the heap in order and follows the log (`VarHeap.Follows`), so
popping gives a member with the largest of the latest keys and takes away just
this one (`VarHeap.History.addressable`).
-/

namespace Cleave.VarHeap

/-- A change of the members of a heap. -/
inductive Change (κ : Type) where
  /-- A variable is inserted, or given another key. -/
  | insert (v : Var) (key : κ)
  /-- A variable is removed. -/
  | remove (v : Var)

/-- **The key that a variable was given last**, if it was not removed since. The
last change comes first. -/
def latestKey? {κ : Type} : List (Change κ) → Var → Option κ
  | [], _ => none
  | .insert w key :: log, v => if w = v then some key else latestKey? log v
  | .remove w :: log, v => if w = v then none else latestKey? log v

variable {κ : Type} [Ord κ] [Inhabited κ] {h h' : VarHeap κ} {log : List (Change κ)} {v : Var}

/-- **A history of a heap**: calls on known variables, from the empty heap on. -/
inductive History : List (Change κ) → VarHeap κ → Prop
  | empty : History [] empty
  | resize {log : List (Change κ)} {h : VarHeap κ} {count : Nat} :
      History log h → h.positions.size ≤ count → History log (h.resize count)
  | insert {log : List (Change κ)} {h : VarHeap κ} {v : Var} {key : κ} :
      History log h → v.index < h.positions.size →
      History (.insert v key :: log) (h.insert v key)
  | remove {log : List (Change κ)} {h : VarHeap κ} {v : Var} :
      History log h → v.index < h.positions.size → History (.remove v :: log) (h.remove v)
  | pop {log : List (Change κ)} {h h' : VarHeap κ} {v : Var} :
      History log h → h.pop? = some (v, h') → History (.remove v :: log) h'

/-- **A heap follows a log** if it is in order, its members are those that have a
latest key, and this is the key they have. -/
structure Follows (h : VarHeap κ) (log : List (Change κ)) : Prop where
  lawful : h.Lawful
  mem_iff : ∀ v, v ∈ h.heap.toList ↔ (latestKey? log v).isSome = true
  key_eq : ∀ v key, latestKey? log v = some key → h.keys[v] = key

namespace Follows

theorem empty : (empty : VarHeap κ).Follows [] where
  lawful := lawful_empty_resize 0
  mem_iff := fun v => by simp [VarHeap.empty, latestKey?]
  key_eq := fun _ _ hkey => nomatch hkey

/-- Room for more variables changes no entry. -/
theorem resize (hf : h.Follows log) {count : Nat} (hle : h.positions.size ≤ count) :
    (h.resize count).Follows log := by
  have hpositions : ∀ v : Var, (h.positions.resize count)[v] = h.positions[v] :=
    VarTable.get_resize _ hle
  have hkeys : ∀ v : Var, (h.keys.resize count)[v] = h.keys[v] :=
    VarTable.get_resize _ (hf.lawful.keyed.symm ▸ hle)
  have hkeyAt : ∀ pos, (h.resize count).keyAt pos = h.keyAt pos := fun pos => hkeys _
  refine ⟨⟨fun v pos => ?_, ?_, fun q hq hqs => ?_⟩, hf.mem_iff, fun v key hkey => ?_⟩
  · exact (iff_of_eq (congrArg (· = some pos) (hpositions v))).trans (hf.lawful.indexed v pos)
  · exact (VarTable.size_resize _ (hf.lawful.keyed.symm ▸ hle)).trans
      (VarTable.size_resize _ hle).symm
  · exact (dominates_congr (hkeyAt _) (hkeyAt _)).mpr (hf.lawful.ordered q hq hqs)
  · exact (hkeys v).trans (hf.key_eq v key hkey)

variable [Std.TransOrd κ]

theorem insert (hf : h.Follows log) (hv : v.index < h.positions.size) (key : κ) :
    (h.insert v key).Follows (.insert v key :: log) := by
  obtain ⟨-, hmem, -⟩ := hf.lawful.indexed.insert hv key
  refine ⟨hf.lawful.insert hv key, fun w => (hmem w).trans ?_, fun w k hk => ?_⟩
  · rw [hf.mem_iff, latestKey?, eq_comm]
    by_cases hw : v = w <;> simp [hw]
  · rw [Lawful.keys_insert hf.lawful.indexed hv, VarTable.get_set]
    rw [latestKey?] at hk
    by_cases hw : v = w
    · rw [if_pos hw] at hk
      rw [if_pos ⟨hw, hf.lawful.keyed.symm ▸ hv⟩]
      exact Option.some.inj hk
    · rw [if_neg hw] at hk
      rw [if_neg fun hc => hw hc.1]
      exact hf.key_eq w k hk

omit [Std.TransOrd κ] in
/-- A member fewer, whichever call took it away. -/
theorem removed (hf : h.Follows log) (hl : h'.Lawful) (hr : Removed h v h') :
    h'.Follows (.remove v :: log) := by
  refine ⟨hl, fun w => (hr.mem w).trans ?_, fun w k hk => ?_⟩
  · rw [hf.mem_iff, latestKey?, ne_comm]
    by_cases hw : v = w <;> simp [hw]
  · rw [latestKey?] at hk
    by_cases hw : v = w
    · rw [if_pos hw] at hk
      cases hk
    · rw [if_neg hw] at hk
      rw [hr.keys]
      exact hf.key_eq w k hk

theorem remove (hf : h.Follows log) (v : Var) : (h.remove v).Follows (.remove v :: log) := by
  by_cases hv : v ∈ h.heap.toList
  · exact hf.removed (hf.lawful.remove hv) (hf.lawful.indexed.remove hv)
  · -- who is no member has no position, and nothing happens
    have hnone : h.positions[v] = none := by
      have hcontains := mt hf.lawful.indexed.contains_iff.mp hv
      unfold contains at hcontains
      simpa using hcontains
    have hsame : h.remove v = h := by
      unfold VarHeap.remove
      rw [hnone]
    rw [hsame]
    refine hf.removed hf.lawful ⟨hf.lawful.indexed, fun w => ?_, rfl, rfl⟩
    exact ⟨fun hw => ⟨hw, fun heq => hv (heq ▸ hw)⟩, And.left⟩

theorem pop (hf : h.Follows log) (hp : h.pop? = some (v, h')) : h'.Follows (.remove v :: log) :=
  hf.removed (hf.lawful.pop hp).1 (hf.lawful.indexed.pop hp).2

end Follows

variable [Std.TransOrd κ]

theorem History.follows (hist : History log h) : h.Follows log := by
  induction hist with
  | empty => exact .empty
  | resize _ hle ih => exact ih.resize hle
  | insert _ hv ih => exact ih.insert hv _
  | remove _ _ ih => exact ih.remove _
  | pop _ hp ih => exact ih.pop hp

/-- **An addressable max-heap**, after any history, for every key type with a
total order. The positions are those of the members, and no member has a larger
key than the one above it. The members are the variables that were inserted and
not removed since, with the keys given last. Popping fails only without members;
otherwise it gives a member whose key is the largest one, and takes away just
this one. -/
theorem History.addressable (hist : History log h) :
    (∀ v pos, h.positions[v] = some pos ↔ pos < h.heap.size ∧ h.memberAt pos = v)
    ∧ (∀ pos, 0 < pos → pos < h.heap.size →
        (compare (h.keyAt pos) (h.keyAt (parent pos))).isLE = true)
    ∧ (∀ v, h.contains v = (latestKey? log v).isSome)
    ∧ (∀ v key, latestKey? log v = some key → h.keys[v] = key)
    ∧ (h.pop? = none ↔ ∀ v, latestKey? log v = none)
    ∧ ∀ v h', h.pop? = some (v, h') →
        (∃ key, latestKey? log v = some key
          ∧ ∀ w k, latestKey? log w = some k → (compare k key).isLE = true)
        ∧ ∀ w, h'.contains w = (h.contains w && decide (w ≠ v)) ∧ h'.keys[w] = h.keys[w] := by
  have hf := hist.follows
  have hi := hf.lawful.indexed
  have hcontains : ∀ v, h.contains v = (latestKey? log v).isSome := fun v =>
    Bool.eq_iff_iff.mpr (hi.contains_iff.trans (hf.mem_iff v))
  refine ⟨hi, hf.lawful.ordered, hcontains, hf.key_eq, ⟨fun hnone v => ?_, fun hnone => ?_⟩,
    fun v h' hp => ⟨?_, fun w => ⟨?_, ?_⟩⟩⟩
  · have hv := mt (hf.mem_iff v).mpr (by rw [pop?_eq_none hnone]; exact List.not_mem_nil)
    simpa using hv
  · by_contra hsome
    obtain ⟨⟨v, h'⟩, hp⟩ := Option.ne_none_iff_exists'.mp hsome
    have hv := (hf.mem_iff v).mp (hi.pop hp).1
    rw [hnone v] at hv
    cases hv
  · obtain ⟨key, hkey⟩ := Option.isSome_iff_exists.mp ((hf.mem_iff v).mp (hi.pop hp).1)
    refine ⟨key, hkey, fun w k hk => ?_⟩
    have hmax := (hf.lawful.pop hp).2 w ((hf.mem_iff w).mpr (by rw [hk]; rfl))
    rwa [hf.key_eq w k hk, hf.key_eq v key hkey] at hmax
  · rw [Bool.eq_iff_iff, (hf.pop hp).lawful.indexed.contains_iff, (hi.pop hp).2.mem,
      Bool.and_eq_true, hi.contains_iff, decide_eq_true_iff]
  · rw [(hi.pop hp).2.keys]

/-- Four variables, the first one removed and the second one given a smaller key. -/
def rekeyed : VarHeap Nat :=
  (((((VarHeap.empty.resize 4).insert ⟨0⟩ 3).insert ⟨1⟩ 5).insert ⟨2⟩ 4).insert ⟨1⟩ 1).remove ⟨0⟩

theorem History.addressable_rekeyed :
    ∃ (log : List (Change Nat)) (h : VarHeap Nat), History log rekeyed
      ∧ rekeyed.pop? = some (⟨2⟩, h) ∧ latestKey? log ⟨2⟩ = some 4
      ∧ (∀ w k, latestKey? log w = some k → (compare k 4).isLE = true)
      ∧ h.contains ⟨1⟩ = true ∧ h.contains ⟨2⟩ = false := by
  have hsome : rekeyed.pop?.map Prod.fst = some ⟨2⟩ := by decide +kernel
  obtain ⟨⟨v, h⟩, hp, rfl⟩ := Option.map_eq_some_iff.mp hsome
  have hist : History [.remove ⟨0⟩, .insert ⟨1⟩ 1, .insert ⟨2⟩ 4, .insert ⟨1⟩ 5, .insert ⟨0⟩ 3]
      rekeyed := by
    refine .remove (.insert (.insert (.insert (.insert (.resize .empty ?_) ?_) ?_) ?_) ?_) ?_ <;>
      decide +kernel
  obtain ⟨-, -, hcontains, -, -, hpop⟩ := History.addressable hist
  obtain ⟨⟨key, hkey, hmax⟩, hafter⟩ := hpop _ _ hp
  obtain rfl : 4 = key := Option.some.inj hkey
  refine ⟨_, h, hist, hp, hkey, hmax, ?_, ?_⟩
  · rw [(hafter ⟨1⟩).1, hcontains]
    decide
  · rw [(hafter ⟨2⟩).1]
    simp

end Cleave.VarHeap
