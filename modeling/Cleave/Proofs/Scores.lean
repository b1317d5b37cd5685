import Cleave.Proofs.Tables
import Cleave.Solver.Activity
import Mathlib

/-!
# Activity never fails

Scores only grow: what is added to them is not negative, and neither is the
factor that scales them down. A sum of such values is again one, infinity
included, and never undefined (`IsScore.add`). So an activity whose values are
all of this kind, with a decay factor that is positive and finite, can be raised
and aged without end (`Activity.Sane.raise`, `Activity.Sane.age`), and one that
was reset can be raised whatever it was before (`Activity.sane_reset`).
-/

namespace Cleave

open Float.Model Float.Model.UnpackedFloat

/-! ## Signs -/

/-- The sign of a value that is defined. -/
def signOf? : UnpackedFloat → Option Sign
  | .notANumber => none
  | .infinity s => some s
  | .zero s => some s
  | .finite s _ _ _ => some s

/-- Components that do not stand for an undefined value keep their sign. -/
theorem signOf?_unpack_packComponents {S : Format} {s : Sign} {e : BitVec S.exponentBits}
    {m : BitVec S.mantissaBitsWithoutImplicit} (h : e = -1#_ → m = 0#_) :
    signOf? (UnpackedFloat.unpack S (packComponents S s e m)) = some s := by
  unfold UnpackedFloat.unpack
  simp only [unpackMantissa_packComponents, unpackExponent_packComponents,
    unpackSign_packComponents, Sign.ofBitVec_toBitVec]
  by_cases he : e = -1#_
  · rw [if_pos he, if_pos (h he)]
    rfl
  · rw [if_neg he]
    by_cases he0 : e = 0#_
    · rw [if_pos he0]
      split <;> rfl
    · rw [if_neg he0]
      rfl

/-- **Storing a value** keeps its sign, also where it overflows. -/
theorem signOf?_unpack_pack {S : Format} {u : UnpackedFloat} {s : Sign} (h : signOf? u = some s) :
    signOf? (UnpackedFloat.unpack S (UnpackedFloat.pack S u)) = some s := by
  cases u with
  | notANumber => cases h
  | infinity s' =>
    obtain rfl := Option.some.inj h
    exact signOf?_unpack_packComponents fun _ => rfl
  | zero s' =>
    obtain rfl := Option.some.inj h
    exact signOf?_unpack_packComponents fun _ => rfl
  | finite s' m e hm =>
    obtain rfl := Option.some.inj h
    unfold UnpackedFloat.pack
    simp only
    generalize (e + S.exponentBias + S.mantissaBitsWithoutImplicit).toNat = biased
    have hpow : 2 ≤ 2 ^ S.exponentBits := Nat.pow_le_pow_right (n := 2) (by decide) S.he
    have hones : (-1#S.exponentBits).toNat = 2 ^ S.exponentBits - 1 := by
      rw [BitVec.neg_one_eq_allOnes, BitVec.toNat_allOnes]
    by_cases hover : 2 ^ S.exponentBits ≤ biased + 1
    · rw [if_pos hover]
      exact signOf?_unpack_packComponents fun _ => rfl
    rw [if_neg hover]
    split
    · refine signOf?_unpack_packComponents fun heq => ?_
      have hnat := congrArg BitVec.toNat heq
      rw [hones, BitVec.toNat_ofNat, Nat.mod_eq_of_lt (by omega)] at hnat
      omega
    · refine signOf?_unpack_packComponents fun heq => ?_
      have hnat := congrArg BitVec.toNat heq
      rw [hones, BitVec.toNat_ofNat, Nat.zero_mod] at hnat
      omega

theorem signOf?_roundWithAccuracy (S : Format) (s : Sign) (m : Nat) (e : Int) (a : Accuracy) :
    signOf? (roundWithAccuracy S s m e a) = some s := by
  unfold roundWithAccuracy
  simp only
  split <;> rfl

/-! ## Scores -/

/-- **A value that is no less than zero**, possibly infinite. -/
def IsScore (x : Float) : Prop := signOf? x.toModel.unpack = some .positive

/-- **A positive value that is finite.** -/
def IsFactor (x : Float) : Prop :=
  ∃ m e hm, x.toModel.unpack = .finite .positive m e hm

theorem IsFactor.isScore {x : Float} (h : IsFactor x) : IsScore x := by
  obtain ⟨m, e, hm, h⟩ := h
  unfold IsScore
  rw [h]
  rfl

theorem IsScore.not_isNaN {x : Float} (h : IsScore x) : x.isNaN = false := by
  show x.toModel.unpack.isNaN = false
  unfold IsScore at h
  revert h
  cases x.toModel.unpack with
  | notANumber => exact fun h => nomatch h
  | infinity s => exact fun _ => rfl
  | zero s => exact fun _ => rfl
  | finite s m e hm => exact fun _ => rfl

theorem IsScore.defined {x : Float} (h : IsScore x) : Activity.defined x = .ok x := by
  unfold Activity.defined
  rw [h.not_isNaN]
  rfl

/-- **Scores add up to a score.** -/
theorem IsScore.add {x y : Float} (hx : IsScore x) (hy : IsScore y) : IsScore (x + y) := by
  refine signOf?_unpack_pack ?_
  unfold IsScore at hx hy
  revert hx hy
  show signOf? x.toModel.unpack = _ → signOf? y.toModel.unpack = _ → _
  generalize x.toModel.unpack = u
  generalize y.toModel.unpack = v
  intro hu hv
  cases u with
  | notANumber => cases hu
  | infinity s =>
    obtain rfl := Option.some.inj hu
    cases v with
    | notANumber => cases hv
    | infinity t =>
      obtain rfl := Option.some.inj hv
      rfl
    | _ => rfl
  | zero s =>
    obtain rfl := Option.some.inj hu
    cases v with
    | notANumber => cases hv
    | zero t =>
      obtain rfl := Option.some.inj hv
      rfl
    | _ => exact hv
  | finite s m e hm =>
    obtain rfl := Option.some.inj hu
    cases v with
    | notANumber => cases hv
    | infinity t => exact hv
    | zero t => rfl
    | finite t m' e' hm' =>
      -- two positive values add up to one
      obtain rfl := Option.some.inj hv
      unfold UnpackedFloat.add UnpackedFloat.normalize decreaseExponent Sign.apply
      simp only
      have hpos : 0 < m <<< (e - min e e').toNat := by
        rw [Nat.shiftLeft_eq]
        exact Nat.mul_pos hm (Nat.two_pow_pos _)
      generalize m <<< (e - min e e').toNat = p at hpos ⊢
      generalize m' <<< (e' - min e e').toNat = q
      rw [Int.compare_eq_gt.mpr (by omega)]
      exact signOf?_roundWithAccuracy _ _ _ _ _

/-- **A factor scales a score** to a score. -/
theorem IsScore.mul {x y : Float} (hx : IsScore x) (hy : IsFactor y) : IsScore (x * y) := by
  refine signOf?_unpack_pack ?_
  obtain ⟨m', e', hm', hy⟩ := hy
  unfold IsScore at hx
  rw [hy]
  revert hx
  show signOf? x.toModel.unpack = _ → _
  generalize x.toModel.unpack = u
  intro hu
  cases u with
  | notANumber => cases hu
  | finite s m e hm =>
    obtain rfl := Option.some.inj hu
    exact signOf?_roundWithAccuracy _ _ _ _ _
  | _ s =>
    obtain rfl := Option.some.inj hu
    rfl

/-- **A score divided by a factor** is a score. -/
theorem IsScore.div {x y : Float} (hx : IsScore x) (hy : IsFactor y) : IsScore (x / y) := by
  refine signOf?_unpack_pack ?_
  obtain ⟨m', e', hm', hy⟩ := hy
  unfold IsScore at hx
  rw [hy]
  revert hx
  show signOf? x.toModel.unpack = _ → _
  generalize x.toModel.unpack = u
  intro hu
  cases u with
  | notANumber => cases hu
  | finite s m e hm =>
    obtain rfl := Option.some.inj hu
    exact signOf?_roundWithAccuracy _ _ _ _ _
  | _ s =>
    obtain rfl := Option.some.inj hu
    rfl

/-- What compares as positive and below one is a factor. -/
theorem isFactor_of_lt {x : Float} (h0 : 0.0 < x) (h1 : x < 1.0) : IsFactor x := by
  have hzero : (0.0 : Float).toModel.unpack = .zero .positive := rfl
  have hbelow : UnpackedFloat.lt (.zero .positive) x.toModel.unpack = true :=
    hzero ▸ of_decide_eq_true h0
  have habove : UnpackedFloat.lt x.toModel.unpack (1.0 : Float).toModel.unpack = true :=
    of_decide_eq_true h1
  have hone : signOf? (1.0 : Float).toModel.unpack = some .positive := rfl
  unfold IsFactor
  revert hbelow habove hone
  generalize x.toModel.unpack = u
  generalize (1.0 : Float).toModel.unpack = v
  intro hbelow habove hone
  cases u with
  | notANumber => cases hbelow
  | zero s => cases hbelow
  | infinity s =>
    cases s with
    | negative => cases hbelow
    | positive =>
      -- nothing lies above infinity
      cases v with
      | notANumber => cases hone
      | infinity t =>
        obtain rfl := Option.some.inj hone
        cases habove
      | _ => cases habove
  | finite s m e hm =>
    cases s with
    | negative => cases hbelow
    | positive => exact ⟨m, e, hm, rfl⟩

/-! ## Activity -/

theorem isScore_zero : IsScore 0.0 := rfl

theorem isScore_default : IsScore default := rfl

theorem isScore_initialBump : IsScore Activity.initialBump := rfl

theorem LitTable.get_map_of {α : Type} [Inhabited α] {p : α → Prop} (t : LitTable α) {f : α → α}
    (hdefault : p default) (hf : ∀ l : Lit, p (f t[l])) (l : Lit) : p (t.map f)[l] := by
  show p ((t.entries.map f).getD l.code default)
  rw [Array.getD_eq_getD_getElem?, Array.getElem?_map]
  cases hget : t.entries[l.code]? with
  | none => exact hdefault
  | some a =>
    have hl := hf l
    have heq : t[l] = a := by
      show t.entries.getD l.code default = a
      rw [Array.getD_eq_getD_getElem?, hget]
      rfl
    rwa [heq] at hl

/-- An entry of a resized table is an old one or the default. -/
theorem LitTable.get_resize_eq_or {α : Type} [Inhabited α] (t : LitTable α) (count : Nat)
    (l : Lit) :
    (t.resize count)[l] = t[l] ∨ (t.resize count)[l] = default := by
  by_cases hle : t.size ≤ 2 * count
  · exact Or.inl (LitTable.get_resize t hle l)
  · have hget : (t.resize count)[l] = (t.entries.take (2 * count)).getD l.code default := by
      show (resized t.entries (2 * count)).getD l.code default = _
      unfold resized
      rw [if_neg (show ¬ t.entries.size ≤ 2 * count from hle)]
    rw [hget, Array.getD_eq_getD_getElem?, Array.take_eq_extract, Array.getElem?_extract,
      Nat.zero_add]
    split
    · exact Or.inl (Array.getD_eq_getD_getElem? ..).symm
    · exact Or.inr rfl

namespace Activity

variable {a a' : Activity}

/-- **Scores that can only grow**: all values are scores. -/
structure Sane (a : Activity) : Prop where
  scores : ∀ l : Lit, IsScore a.scores[l]
  bump : IsScore a.bump

theorem isFactor_rescale : IsFactor (1.0 / rescaleLimit) := by
  have h : (match (1.0 / rescaleLimit : Float).toModel.unpack with
    | .finite .positive _ _ _ => true
    | _ => false) = true := by decide +kernel
  unfold IsFactor
  revert h
  generalize (1.0 / rescaleLimit : Float).toModel.unpack = u
  intro h
  cases u with
  | finite s m e hm =>
    cases s with
    | negative => cases h
    | positive => exact ⟨m, e, hm, rfl⟩
  | _ => cases h

theorem Sane.rescale (h : a.Sane) : a.rescale.Sane where
  scores := a.scores.get_map_of isScore_default fun l => (h.scores l).mul isFactor_rescale
  bump := h.bump.mul isFactor_rescale

/-- **A literal can be raised**, and nothing but scores and the bump changes. -/
theorem Sane.raise (h : a.Sane) (l : Lit) :
    ∃ a', a.raise l = .ok a' ∧ a'.Sane ∧ a'.decay = a.decay := by
  have hscore := (h.scores l).add h.bump
  have hset : ({ a with scores := a.scores.set l (a.score l + a.bump) } : Activity).Sane :=
    ⟨fun m => by
      show IsScore (a.scores.set l _)[m]
      rw [LitTable.get_set]
      split
      · exact hscore
      · exact h.scores m, h.bump⟩
  unfold Activity.raise
  rw [show defined (a.score l + a.bump) = .ok _ from hscore.defined]
  refine ⟨_, rfl, ?_, ?_⟩
  · split
    · exact hset.rescale
    · exact hset
  · split <;> rfl

/-- **Literals can be raised** one after the other. -/
theorem Sane.raiseAll (h : a.Sane) (ls : List Lit) :
    ∃ a', ls.foldlM Activity.raise a = .ok a' ∧ a'.Sane ∧ a'.decay = a.decay := by
  induction ls generalizing a with
  | nil => exact ⟨a, rfl, h, rfl⟩
  | cons l ls ih =>
    obtain ⟨a₁, hraise, hsane, hdecay⟩ := h.raise l
    obtain ⟨a₂, hrest, hsane', hdecay'⟩ := ih hsane
    refine ⟨a₂, ?_, hsane', hdecay'.trans hdecay⟩
    rw [List.foldlM_cons, hraise]
    exact hrest

/-- **Ageing never fails** with a decay factor that options allow. -/
theorem Sane.age (h : a.Sane) (hdecay : IsFactor a.decay) :
    ∃ a', a.age = .ok a' ∧ a'.Sane ∧ a'.decay = a.decay := by
  have hbump := h.bump.div hdecay
  have hset : ({ a with bump := a.bump / a.decay } : Activity).Sane := ⟨h.scores, hbump⟩
  unfold Activity.age
  rw [hbump.defined]
  refine ⟨_, rfl, ?_, ?_⟩
  · split
    · exact hset.rescale
    · exact hset
  · split <;> rfl

/-- The score of a variable is defined. -/
theorem Sane.varScore (h : a.Sane) (v : Var) :
    a.varScore v = .ok (a.score v.pos + a.score v.neg) :=
  ((h.scores v.pos).add (h.scores v.neg)).defined

/-- **After a reset** all values are scores, whatever they were. -/
theorem sane_reset (a : Activity) : a.reset.Sane where
  scores := a.scores.get_map_of isScore_default fun _ => isScore_zero
  bump := isScore_initialBump

theorem sane_new (decay : Float) : (new decay).Sane where
  scores := fun l => by
    show IsScore ((default : LitTable Float).entries.getD l.code default)
    exact isScore_default
  bump := isScore_initialBump

theorem Sane.resize (h : a.Sane) (count : Nat) : (a.resize count).Sane where
  scores := fun l => by
    show IsScore (a.scores.resize count)[l]
    rcases LitTable.get_resize_eq_or a.scores count l with heq | heq
    · exact heq ▸ h.scores l
    · exact heq ▸ isScore_default
  bump := h.bump

end Activity

end Cleave
