import Cleave.Proofs.Reading
import Cleave.Proofs.Tables

/-!
# Printing and reading formulas

The printed file of a formula is cut into lines: a header, a comment for the
projection, a comment for each weight, a line for each clause. Every line is
read as the item it was printed for and leaves the lines after it untouched
(`Cursor.clauses_comment`, `Cursor.clauses_line`), so a file is read as its
list of items, and the items give the formula back (`Formula.read_printed`).

The header carries the number of variables in use, so a formula whose own
count is too small comes back with a larger one. Whatever is read satisfies
the bounds that printing needs (`Formula.fitsFile_of_read`): a file that was
read once can be printed and read again.

Weights are the one part whose text is not followed here. That a weight is
read back from its digits is a hypothesis on each weight of the formula.
-/

namespace Cleave

open Text (bytes IsWord Visible)

/-! ## Texts of the parts -/

namespace Decimal

theorem visible_positional (d : Digits) : ∀ ch ∈ (positional d).toList, Visible ch := by
  have hdigits : ∀ ch ∈ (toString d.digits).toList, Visible ch := (Text.isWord_repr _).visible
  have hzeros : ∀ n, ∀ ch ∈ List.replicate n '0', Visible ch := by
    intro n ch hch
    rw [List.eq_of_mem_replicate hch]
    exact ⟨by decide, by decide⟩
  intro ch hch
  unfold positional at hch
  split at hch
  · rw [String.toList_append, String.toList_ofList, List.mem_append] at hch
    exact hch.elim (hdigits ch) (hzeros _ ch)
  · simp only [String.toList_append, String.toList_ofList, List.mem_append, or_assoc] at hch
    rcases hch with hwhole | hpoint | hzero | hfraction
    · split at hwhole
      · rw [List.mem_singleton.mp hwhole]
        exact ⟨by decide, by decide⟩
      · rw [String.toList_ofList] at hwhole
        exact hdigits ch (List.mem_of_mem_take hwhole)
    · rw [List.mem_singleton.mp hpoint]
      exact ⟨by decide, by decide⟩
    · exact hzeros _ ch hzero
    · exact hdigits ch (List.mem_of_mem_drop hfraction)

theorem positional_ne_nil (d : Digits) : (positional d).toList ≠ [] := by
  have hdigits : (toString d.digits).toList ≠ [] := (Text.isWord_repr _).nonempty
  unfold positional
  split
  · rw [String.toList_append]
    exact List.append_ne_nil_of_left_ne_nil hdigits _
  · simp

theorem isWord_sign {s : String} (hs : IsWord s.toList) (negative : Prop) [Decidable negative] :
    IsWord ((if negative then "" else "-") ++ s).toList := by
  rw [String.toList_append]
  refine ⟨List.append_ne_nil_of_right_ne_nil _ hs.nonempty, fun ch hch => ?_⟩
  rcases List.mem_append.mp hch with hsign | hin
  · split at hsign
    · cases hsign
    · rw [List.mem_singleton.mp hsign]
      exact ⟨by decide, by decide⟩
  · exact hs.visible ch hin

/-- The text of a double is one word, also where it is no number. -/
theorem isWord_text (x : Float) : IsWord (text x).toList := by
  have hpositional : ∀ d, IsWord (positional d).toList := fun d =>
    ⟨positional_ne_nil d, visible_positional d⟩
  have hname : ∀ s ∈ ["NaN", "inf", "0"], IsWord s.toList := by decide
  unfold text
  split
  · exact hname _ (by simp)
  · simp only
    split
    · exact isWord_sign (hname _ (by simp)) _
    · split
      · exact isWord_sign (hname _ (by simp)) _
      · split
        · exact isWord_sign (hpositional _) _
        · exact isWord_sign (hpositional _) _

end Decimal

namespace Formula

/-- The words of a projection comment. -/
def projectionWords (vars : List Var) : List (List Char) :=
  ['p'] :: "show".toList :: vars.map (fun v => v.text.toList) ++ [['0']]

/-- The words of a weight comment. -/
def weightWords (weight : Lit × Float) : List (List Char) :=
  [['p'], "weight".toList, (toString weight.1.number).toList, (Decimal.text weight.2).toList, ['0']]

theorem toList_clauseLine (lits : Clause) :
    (clauseLine lits).toList = Cursor.litsChars lits ++ ['0', '\n'] := by
  simp [clauseLine, Cursor.litsChars, String.toList_join, List.flatMap_map]

theorem toList_weightLine (weight : Lit × Float) :
    (weightLine weight).toList = 'c' :: (Cursor.spaced (weightWords weight) ++ ['\n']) := by
  simp [weightLine, weightWords, Lit.text]

theorem toList_projectionLine (vars : List Var) :
    (projectionLine vars).toList = 'c' :: (Cursor.spaced (projectionWords vars) ++ ['\n']) := by
  simp [projectionLine, projectionWords, String.toList_join, List.flatMap_map,
    Cursor.spaced]

theorem isWord_projectionWords (vars : List Var) : ∀ w ∈ projectionWords vars, IsWord w := by
  intro w hw
  simp only [projectionWords, List.cons_append, List.mem_cons, List.mem_append, List.mem_map,
    List.not_mem_nil, or_false] at hw
  rcases hw with rfl | rfl | ⟨v, -, rfl⟩ | rfl
  · decide
  · decide
  · exact Text.isWord_repr _
  · decide

theorem isWord_weightWords (weight : Lit × Float) : ∀ w ∈ weightWords weight, IsWord w := by
  intro w hw
  simp only [weightWords, List.mem_cons, List.not_mem_nil, or_false] at hw
  rcases hw with rfl | rfl | rfl | rfl | rfl
  · decide
  · decide
  · exact Text.isWord_toString _
  · exact Decimal.isWord_text _
  · decide

end Formula

/-! ## Comments that carry meaning -/

namespace Cursor

variable {c : Cursor} {rest : List UInt8}

theorem projectionVars_words (vars : List Var) (hvars : ∀ v ∈ vars, v.index ≤ Var.maxIndex)
    (found : List (List Char × Span))
    (hfound : found.map Prod.fst = vars.map (fun v => v.text.toList) ++ [['0']]) :
    projectionVars found = .ok vars := by
  induction vars generalizing found with
  | nil =>
    obtain ⟨⟨w, span⟩, more, rfl, rfl, -⟩ := List.map_eq_cons_iff.mp hfound
    have hzero : Text.integer? ['0'] = some 0 := by decide
    simp [projectionVars, hzero]
  | cons v vars ih =>
    obtain ⟨⟨w, span⟩, more, rfl, hw, hmore⟩ := List.map_eq_cons_iff.mp hfound
    have hword : w = v.text.toList := hw
    have hv := hvars v List.mem_cons_self
    have hmax : v.index ≤ 2147483646 := hv
    have hpos : 0 < (v.number : Int) := Int.natCast_pos.mpr (Nat.succ_pos _)
    have hlt : (v.number : Int) < 9223372036854775808 := by
      unfold Var.number
      omega
    have hnumber : Text.integer? v.text.toList = some (v.number : Int) :=
      Text.integer?_toString (n := v.number) (by omega) hlt
    have hnonzero : (v.number : Int) ≠ 0 := by omega
    simp only [projectionVars, hword, hnumber, hnonzero, if_false, Var.ofNumber?_number hv]
    rw [ih (fun u hu => hvars u (List.mem_cons_of_mem _ hu)) more hmore]
    rfl

theorem projection_comment (vars : List Var) (hvars : ∀ v ∈ vars, v.index ≤ Var.maxIndex)
    (pos : Nat) : commentItems (bytes (spaced (Formula.projectionWords vars))) pos
      = .ok [.projection vars] := by
  obtain ⟨found, hfound, hitems⟩ := commentItems_spaced (Formula.isWord_projectionWords vars) pos
  obtain ⟨⟨_, _⟩, tail, rfl, rfl, htail⟩ := List.map_eq_cons_iff.mp hfound
  obtain ⟨⟨_, _⟩, more, rfl, rfl, hmore⟩ := List.map_eq_cons_iff.mp htail
  rw [hitems]
  simp only [if_true, projectionVars_words vars hvars more hmore]
  rfl

theorem weight_comment (weight : Lit × Float) (hvar : weight.1.var.index ≤ Var.maxIndex)
    (hfinite : weight.2.isFinite = true)
    (hread : Decimal.read? (Decimal.text weight.2).toList = some weight.2) (pos : Nat) :
    commentItems (bytes (spaced (Formula.weightWords weight))) pos
      = .ok [.weight weight.1 weight.2] := by
  obtain ⟨found, hfound, hitems⟩ := commentItems_spaced (Formula.isWord_weightWords weight) pos
  obtain ⟨⟨_, _⟩, tail₁, rfl, rfl, h₁⟩ := List.map_eq_cons_iff.mp hfound
  obtain ⟨⟨_, _⟩, tail₂, rfl, rfl, h₂⟩ := List.map_eq_cons_iff.mp h₁
  obtain ⟨⟨_, _⟩, tail₃, rfl, rfl, h₃⟩ := List.map_eq_cons_iff.mp h₂
  obtain ⟨⟨_, _⟩, tail₄, rfl, rfl, -⟩ := List.map_eq_cons_iff.mp h₃
  obtain ⟨hlow, hhigh, -⟩ := Lit.number_bounds hvar
  have hnumber : Text.integer? (toString weight.1.number).toList = some weight.1.number :=
    Text.integer?_toString (by omega) (by omega)
  have hweight : ("weight".toList = "show".toList) = False := by decide
  rw [hitems]
  simp only [hweight, if_true, if_false, weightItem, hnumber, Lit.ofNumber?_number hvar, hread,
    Option.filter_some, hfinite]
  rfl

/-! ## Lines -/

/-- **A comment line** between clauses adds what it states. -/
theorem clauses_comment {ws : List (List Char)} (hws : ∀ w ∈ ws, IsWord w) {items more : List Item}
    (hitems : ∀ pos, commentItems (bytes (spaced ws)) pos = .ok items)
    (hc : c.rest = bytes ('c' :: (spaced ws ++ ['\n'])) ++ rest)
    (hmore : ∀ c' : Cursor, c'.rest = rest → c'.clauses = .ok more) :
    c.clauses = .ok (items ++ more) := by
  have hline : c.rest = 99 :: (bytes (spaced ws) ++ 10 :: rest) := by
    rw [hc, show (99 : UInt8) = 'c'.toUInt8 from rfl, show (10 : UInt8) = '\n'.toUInt8 from rfl]
    simp
  have hskip : c.skipBlanks = c := skipBlanks_of_not_blank hline (by decide)
  obtain ⟨next, hcomment, hafter⟩ := comment_line hws (rest_advance_one hline) (hitems _)
  rw [clauses.eq_def]
  simp only [hskip]
  split
  · rename_i hnil
    rw [hskip, hline] at hnil
    cases hnil
  · rename_i b tail hcons
    rw [hskip, hline] at hcons
    cases hcons
    rw [if_pos rfl]
    split
    · rename_i hn
      rw [hskip, hcomment] at hn
      cases hn
    · rename_i hn
      rw [hskip, hcomment] at hn
      cases hn
      rw [hmore _ hafter]
      rfl

theorem number_start (n : Int) : ∃ b tail, bytes (toString n).toList = b :: tail ∧
    b ≠ 99 ∧ (b = 45 || (digit? b).isSome) = true := by
  obtain ⟨d, ds, hds⟩ := List.exists_cons_of_ne_nil (Text.isWord_repr n.natAbs).nonempty
  rw [Text.toList_toString, hds]
  split
  · exact ⟨45, bytes (d :: ds), rfl, by decide, by decide⟩
  · have hd : d.isDigit = true :=
      Text.isDigit_of_mem_repr (hds ▸ List.mem_cons_self : d ∈ n.natAbs.repr.toList)
    have hdigit := (digit?_byte hd).1
    refine ⟨d.toUInt8, bytes ds, rfl, fun heq => ?_, by simp [hdigit]⟩
    rw [heq] at hdigit
    cases hdigit

theorem clauseLine_start (lits : Clause) : ∃ b tail,
    bytes (Formula.clauseLine lits).toList = b :: tail ∧
      b ≠ 99 ∧ (b = 45 || (digit? b).isSome) = true := by
  rw [Formula.toList_clauseLine]
  cases lits with
  | nil => exact ⟨48, [10], rfl, by decide, by decide⟩
  | cons l lits =>
    obtain ⟨b, tail, hb, hrest⟩ := number_start l.number
    refine ⟨b, tail ++ bytes (' ' :: litsChars lits ++ ['0', '\n']), ?_, hrest⟩
    rw [← List.cons_append, ← hb, ← Text.bytes_append]
    simp [litsChars, Lit.text]

/-- **A clause line** adds its clause. -/
theorem clauses_line {lits : Clause} (hlits : ∀ l ∈ lits, l.var.index ≤ Var.maxIndex)
    {more : List Item} (hc : c.rest = bytes (Formula.clauseLine lits).toList ++ rest)
    (hmore : ∀ c' : Cursor, c'.rest = rest → c'.clauses = .ok more) :
    c.clauses = .ok (.clause lits :: more) := by
  obtain ⟨b, tail, hb, hcomment, hnumber⟩ := clauseLine_start lits
  have hstart : c.rest = b :: (tail ++ rest) := by rw [hc, hb, List.cons_append]
  have hblank : isBlank b = false := by
    refine Bool.eq_false_iff.mpr fun hblank => ?_
    obtain ⟨hdigit, hminus⟩ := digit?_blank hblank
    simp [hdigit, hminus] at hnumber
  have hskip : c.skipBlanks = c := skipBlanks_of_not_blank hstart hblank
  obtain ⟨c', hread, hrest⟩ := literals_line lits hlits (Formula.toList_clauseLine lits ▸ hc)
  rw [clauses.eq_def]
  simp only [hskip]
  split
  · rename_i hnil
    rw [hskip, hstart] at hnil
    cases hnil
  · rename_i b' tail' hcons
    rw [hskip, hstart] at hcons
    cases hcons
    rw [if_neg hcomment, if_pos hnumber]
    split
    · rename_i hn
      rw [hskip, hread] at hn
      cases hn
    · rename_i hn
      rw [hskip, hread] at hn
      cases hn
      rw [hmore _ hrest]
      rfl

theorem clauses_end (hc : c.rest = []) : c.clauses = .ok [] := by
  have hskip : c.skipBlanks = c := by simp [skipBlanks, hc]
  rw [clauses.eq_def]
  simp only [hskip]
  split
  · rfl
  · rename_i hcons
    rw [hskip, hc] at hcons
    cases hcons

theorem clauses_lines (cs : List Clause) (hcs : ∀ lits ∈ cs, ∀ l ∈ lits, l.var.index ≤ Var.maxIndex)
    (hc : c.rest = bytes (cs.flatMap fun lits => (Formula.clauseLine lits).toList)) :
    c.clauses = .ok (cs.map .clause) := by
  induction cs generalizing c with
  | nil => exact clauses_end hc
  | cons lits cs ih =>
    rw [List.flatMap_cons, Text.bytes_append] at hc
    exact clauses_line (hcs lits List.mem_cons_self) hc fun c' hc' =>
      ih (fun m hm => hcs m (List.mem_cons_of_mem _ hm)) hc'

/-! ## The header -/

theorem headerCount_number {n : Nat} {b : UInt8} (hb : isBlank b = true) (hn : n ≤ 4294967295)
    (fault : HeaderFault) (hc : c.rest = bytes (toString n).toList ++ b :: rest) :
    ∃ c' : Cursor, c.headerCount fault = .ok (n, c') ∧ c'.rest = rest := by
  have hc' : c.rest = bytes (toString (n : Int)).toList ++ b :: rest := hc
  obtain ⟨hskip, hne⟩ := skipBlanks_word (Text.isWord_toString n) hc'
  obtain ⟨next, hread, hrest⟩ := integer_number 0 4294967295 hb hc' (by omega) (by omega) (by omega)
  refine ⟨next, ?_, hrest⟩
  unfold headerCount
  simp only [hskip, List.isEmpty_eq_false_iff.mpr hne, hread, Bool.false_eq_true, if_false,
    Int.toNat_natCast]

theorem headerCount_blank {b : UInt8} (hb : isBlank b = true) (fault : HeaderFault)
    (hc : c.rest = b :: rest) : c.headerCount fault = (c.advance 1).headerCount fault := by
  have hskip : c.skipBlanks = (c.advance 1).skipBlanks := by
    simp [skipBlanks, advance, hc, hb, Nat.add_comm, Nat.add_left_comm]
  unfold headerCount
  rw [hskip]

theorem expect_here {expected : List UInt8} (hc : c.rest = expected ++ rest) :
    ∃ c' : Cursor, c.expect expected = .ok c' ∧ c'.rest = rest := by
  induction expected generalizing c with
  | nil => exact ⟨c, rfl, hc⟩
  | cons b expected ih =>
    obtain ⟨c', hread, hrest⟩ := ih (rest_advance_one hc)
    refine ⟨c', ?_, hrest⟩
    unfold expect
    rw [hc]
    simp only [List.cons_append, if_true, hread]

/-- **A header** behind its `p`. -/
theorem header_line {vars clauses : Nat} (hvars : vars ≤ 4294967295)
    (hclauses : clauses ≤ 4294967295)
    (hc : c.rest = bytes " cnf".toList ++ 32 :: (bytes (toString vars).toList
      ++ 32 :: (bytes (toString clauses).toList ++ 10 :: rest))) :
    ∃ c' : Cursor, c.header = .ok ((vars, clauses), c') ∧ c'.rest = rest := by
  have hmarker : " cnf".toUTF8.toList = bytes " cnf".toList :=
    Text.toUTF8_toList _ (Text.ascii_of_all (by decide))
  obtain ⟨c₁, h₁, hrest₁⟩ := expect_here hc
  obtain ⟨c₂, h₂, hrest₂⟩ := headerCount_number rfl hvars .variableCount (rest_advance_one hrest₁)
  obtain ⟨c₃, h₃, hrest₃⟩ := headerCount_number rfl hclauses .clauseCount hrest₂
  refine ⟨c₃, ?_, hrest₃⟩
  unfold header
  rw [hmarker, h₁]
  simp only [headerCount_blank (by decide) _ hrest₁, h₂, h₃, bind, Except.bind]

theorem preamble_header {vars clauses : Nat} (hvars : vars ≤ 4294967295)
    (hclauses : clauses ≤ 4294967295)
    (hc : c.rest = bytes ("p cnf ".toList ++ (toString vars).toList
      ++ ' ' :: (toString clauses).toList ++ ['\n']) ++ rest) :
    ∃ c' : Cursor, c.preamble = .ok (clauses, [.varCount vars], c') ∧ c'.rest = rest := by
  have hline : c.rest = 112 :: (bytes " cnf".toList ++ 32 :: (bytes (toString vars).toList
      ++ 32 :: (bytes (toString clauses).toList ++ 10 :: rest))) := by
    rw [hc]
    simp only [Text.bytes_append, Text.bytes_cons, Text.bytes_nil, List.append_assoc,
      List.cons_append, List.nil_append]
    rfl
  obtain ⟨c', hheader, hrest⟩ := header_line hvars hclauses (rest_advance_one hline)
  refine ⟨c', ?_, hrest⟩
  rw [preamble.eq_def]
  split
  · rename_i hnil
    rw [hline] at hnil
    cases hnil
  · rename_i b tail hcons
    rw [hline] at hcons
    cases hcons
    simp only [hheader]
    rfl

end Cursor

/-! ## Files -/

namespace Formula

/-- The variables a formula speaks of. -/
def mentioned (f : Formula) : List Var :=
  f.clauses.flatten.map Lit.var ++ f.projection.getD [] ++ f.weights.map (·.1.var)

/-- **What a file can hold**: numbers within their bounds and finite weights. -/
structure FitsFile (f : Formula) : Prop where
  varCount : f.varCount ≤ 4294967295
  clauseCount : f.clauses.length ≤ 4294967295
  mentioned : ∀ v ∈ f.mentioned, v.index ≤ Var.maxIndex
  finite : ∀ w ∈ f.weights, w.2.isFinite = true

/-- Each weight is read back from its text. -/
def WeightsReadBack (f : Formula) : Prop :=
  ∀ w ∈ f.weights, Decimal.read? (Decimal.text w.2).toList = some w.2

theorem foldl_max_le (vs : List Var) (start bound : Nat) (hstart : start ≤ bound)
    (hvs : ∀ v ∈ vs, v.index < bound) :
    vs.foldl (fun n v => max n (v.index + 1)) start ≤ bound :=
  (foldl_max_le_iff fun v : Var => v.index + 1).mpr ⟨hstart, hvs⟩

theorem numVariables_of_covered {f : Formula} (h : ∀ v ∈ f.mentioned, v.index < f.varCount) :
    f.numVariables = f.varCount :=
  Nat.le_antisymm (foldl_max_le _ _ _ (Nat.le_refl _) h) (Var.le_foldl_max _ _)

theorem FitsFile.numVariables_le {f : Formula} (h : f.FitsFile) : f.numVariables ≤ 4294967295 :=
  foldl_max_le _ _ _ h.varCount fun v hv => Nat.lt_of_le_of_lt (h.mentioned v hv) (by decide)

/-- The items a formula is printed as, behind the header. -/
def bodyItems (f : Formula) : List Item :=
  (match f.projection with
    | some vars => [.projection vars]
    | none => [])
    ++ f.weights.map (fun w => .weight w.1 w.2) ++ f.clauses.map .clause

/-- The printed lines behind the header. -/
def bodyChars (f : Formula) : List Char :=
  (match f.projection with
    | some vars => (projectionLine vars).toList
    | none => [])
    ++ (f.weights.flatMap fun w => (weightLine w).toList)
    ++ f.clauses.flatMap fun lits => (clauseLine lits).toList

theorem toList_text (f : Formula) : f.text.toList
    = "p cnf ".toList ++ (toString f.numVariables).toList
      ++ ' ' :: (toString f.clauses.length).toList ++ ['\n'] ++ f.bodyChars := by
  unfold text bodyChars
  cases f.projection <;> simp [String.toList_join, List.flatMap_map]

theorem FitsFile.clauseVars {f : Formula} (h : f.FitsFile) :
    ∀ lits ∈ f.clauses, ∀ l ∈ lits, l.var.index ≤ Var.maxIndex := by
  intro lits hlits l hl
  refine h.mentioned _ (List.mem_append_left _ (List.mem_append_left _ (List.mem_map_of_mem ?_)))
  exact List.mem_flatten.mpr ⟨lits, hlits, hl⟩

theorem FitsFile.weightVars {f : Formula} (h : f.FitsFile) :
    ∀ w ∈ f.weights, w.1.var.index ≤ Var.maxIndex := fun w hw =>
  h.mentioned _ (List.mem_append_right _ (List.mem_map.mpr ⟨w, hw, rfl⟩))

theorem FitsFile.projectionVars {f : Formula} (h : f.FitsFile) {vars : List Var}
    (hvars : f.projection = some vars) : ∀ v ∈ vars, v.index ≤ Var.maxIndex := by
  intro v hv
  refine h.mentioned v (List.mem_append_left _ (List.mem_append_right _ ?_))
  rw [hvars]
  exact hv

end Formula

namespace Cursor

variable {c : Cursor} {rest : List UInt8}

theorem clauses_weights (ws : List (Lit × Float)) (hvars : ∀ w ∈ ws, w.1.var.index ≤ Var.maxIndex)
    (hfinite : ∀ w ∈ ws, w.2.isFinite = true)
    (hread : ∀ w ∈ ws, Decimal.read? (Decimal.text w.2).toList = some w.2) {more : List Item}
    (hc : c.rest = bytes (ws.flatMap fun w => (Formula.weightLine w).toList) ++ rest)
    (hmore : ∀ c' : Cursor, c'.rest = rest → c'.clauses = .ok more) :
    c.clauses = .ok (ws.map (fun w => .weight w.1 w.2) ++ more) := by
  induction ws generalizing c with
  | nil => exact hmore c hc
  | cons w ws ih =>
    rw [List.flatMap_cons, Text.bytes_append, Formula.toList_weightLine, List.append_assoc] at hc
    show c.clauses = .ok ([.weight w.1 w.2] ++ (ws.map (fun w => .weight w.1 w.2) ++ more))
    exact clauses_comment (Formula.isWord_weightWords w)
      (weight_comment w (hvars w List.mem_cons_self) (hfinite w List.mem_cons_self)
        (hread w List.mem_cons_self)) hc fun c' hc' =>
      ih (fun v hv => hvars v (List.mem_cons_of_mem _ hv))
        (fun v hv => hfinite v (List.mem_cons_of_mem _ hv))
        (fun v hv => hread v (List.mem_cons_of_mem _ hv)) hc'

/-- **The lines behind the header** are read as the items they were printed for. -/
theorem clauses_body {f : Formula} (hf : f.FitsFile) (hweights : f.WeightsReadBack)
    (hc : c.rest = bytes f.bodyChars) : c.clauses = .ok f.bodyItems := by
  have hclauses : ∀ c' : Cursor,
      c'.rest = bytes (f.clauses.flatMap fun lits => (Formula.clauseLine lits).toList) →
        c'.clauses = .ok (f.clauses.map .clause) := fun _ hc' =>
    clauses_lines f.clauses hf.clauseVars hc'
  unfold Formula.bodyChars at hc
  unfold Formula.bodyItems
  rw [List.append_assoc] at hc ⊢
  cases hprojection : f.projection with
  | none =>
    rw [hprojection, List.nil_append, Text.bytes_append] at hc
    exact clauses_weights f.weights hf.weightVars hf.finite hweights hc hclauses
  | some vars =>
    simp only [hprojection, Text.bytes_append, Formula.toList_projectionLine] at hc
    refine clauses_comment (Formula.isWord_projectionWords vars)
      (projection_comment vars (hf.projectionVars hprojection)) hc fun c' hc' => ?_
    exact clauses_weights f.weights hf.weightVars hf.finite hweights hc' hclauses

end Cursor

namespace Formula

theorem bodyItems_clauses (f : Formula) : f.bodyItems.filterMap Item.clause? = f.clauses := by
  have hprojection : ∀ p : Option (List Var), (match p with
      | some vars => [Item.projection vars]
      | none => []).filterMap Item.clause? = [] := by
    rintro (_ | vars) <;> rfl
  simp [bodyItems, List.filterMap_map, hprojection, Function.comp_def, Item.clause?]

theorem ofItems_bodyItems (f : Formula) (n : Nat) :
    ofItems (.varCount n :: f.bodyItems) = { f with varCount := n } := by
  obtain ⟨varCount, clauses, projection, weights⟩ := f
  cases projection <;>
    simp [ofItems, bodyItems, List.filterMap_cons, List.filterMap_map, Function.comp_def,
      Item.clause?, Item.weight?, Item.projection?, Item.varCount?]

/-- **A printed formula is read back**, with the header's count. -/
theorem read_printed {f : Formula} (hf : f.FitsFile) (hweights : f.WeightsReadBack) {c : Cursor}
    (hc : c.rest = bytes f.text.toList) :
    Formula.read c = .ok { f with varCount := f.numVariables } := by
  rw [toList_text, Text.bytes_append] at hc
  obtain ⟨c', hpreamble, hrest⟩ := Cursor.preamble_header hf.numVariables_le hf.clauseCount hc
  have hbody := Cursor.clauses_body hf hweights hrest
  have hitems : readItems c = .ok (.varCount f.numVariables :: f.bodyItems) := by
    simp only [readItems, hpreamble, hbody, bind, Except.bind, bodyItems_clauses, if_true,
      List.cons_append, List.nil_append]
  rw [Formula.read, hitems, Except.map, ofItems_bodyItems]

/-! ## Printed text is ASCII -/

theorem ascii_of_isWord {w : List Char} (hw : IsWord w) : ∀ ch ∈ w, ch.toNat < 128 := fun ch hch =>
  (hw.visible ch hch).lt

theorem ascii_comment {ws : List (List Char)} (hws : ∀ w ∈ ws, IsWord w) :
    ∀ ch ∈ 'c' :: (Cursor.spaced ws ++ ['\n']), ch.toNat < 128 := by
  intro ch hch
  rcases List.mem_cons.mp hch with rfl | hch
  · decide
  rcases List.mem_append.mp hch with hch | hch
  · rcases Cursor.ascii_spaced hws ch hch with rfl | hvis
    · decide
    · exact hvis.lt
  · rw [List.mem_singleton.mp hch]
    decide

theorem ascii_clauseLine (lits : Clause) : ∀ ch ∈ (clauseLine lits).toList, ch.toNat < 128 := by
  intro ch hch
  rw [toList_clauseLine] at hch
  rcases List.mem_append.mp hch with hch | hch
  · obtain ⟨l, -, hl⟩ := List.mem_flatMap.mp hch
    rcases List.mem_append.mp hl with hl | hl
    · exact ascii_of_isWord (Text.isWord_toString l.number) ch hl
    · rw [List.mem_singleton.mp hl]
      decide
  · exact Text.ascii_of_all (by decide) ch hch

theorem ascii_text (f : Formula) : ∀ ch ∈ f.text.toList, ch.toNat < 128 := by
  intro ch hch
  rw [toList_text] at hch
  simp only [bodyChars, List.mem_append, List.mem_cons, List.mem_flatMap, List.not_mem_nil,
    or_false] at hch
  rcases hch with (((hch | hch) | rfl | hch) | rfl) | (hch | ⟨w, -, hch⟩) | ⟨lits, -, hch⟩
  · exact Text.ascii_of_all (by decide) ch hch
  · exact ascii_of_isWord (Text.isWord_repr _) ch hch
  · decide
  · exact ascii_of_isWord (Text.isWord_repr _) ch hch
  · decide
  · split at hch
    · rw [toList_projectionLine] at hch
      exact ascii_comment (isWord_projectionWords _) ch hch
    · cases hch
  · rw [toList_weightLine] at hch
    exact ascii_comment (isWord_weightWords w) ch hch
  · exact ascii_clauseLine lits ch hch

end Formula

/-! ## What is read fits a file -/

/-- The bounds of what a file states. -/
def Item.InBounds : Item → Prop
  | .varCount count => count ≤ 4294967295
  | .clause lits => ∀ l ∈ lits, l.var.index ≤ Var.maxIndex
  | .projection vars => ∀ v ∈ vars, v.index ≤ Var.maxIndex
  | .weight l value => l.var.index ≤ Var.maxIndex ∧ value.isFinite = true

theorem Var.ofNumber?_le {n : Int} {v : Var} (h : Var.ofNumber? n = some v) :
    v.index ≤ Var.maxIndex := by
  unfold ofNumber? ofIndex? at h
  split at h
  · split at h
    · cases h
      assumption
    · cases h
  · cases h

theorem Lit.ofNumber?_le {n : Int} {l : Lit} (h : Lit.ofNumber? n = some l) :
    l.var.index ≤ Var.maxIndex := by
  obtain ⟨v, hv, rfl⟩ := Option.map_eq_some_iff.mp h
  exact Var.ofNumber?_le hv

namespace Cursor

variable {c c' : Cursor}

theorem projectionVars_le {words : List (List Char × Span)} {vars : List Var}
    (h : projectionVars words = .ok vars) : ∀ v ∈ vars, v.index ≤ Var.maxIndex := by
  induction words generalizing vars with
  | nil =>
    cases h
    simp
  | cons word words ih =>
    unfold projectionVars at h
    split at h
    · cases h
    · split at h
      · cases h
        simp
      · split at h
        · cases h
        · rename_i v hv
          obtain ⟨more, hmore, rfl⟩ := Except.map_eq_ok.mp h
          exact List.forall_mem_cons.mpr ⟨Var.ofNumber?_le hv, ih hmore⟩

theorem weightItem_inBounds {keyword : Span} {words : List (List Char × Span)} {item : Item}
    (h : weightItem keyword words = .ok item) : item.InBounds ∧ item.clause? = none := by
  unfold weightItem at h
  split at h
  · cases h
  · split at h
    · cases h
    · split at h
      · cases h
      · cases h
      · rename_i hl
        split at h
        · rename_i hvalue
          cases h
          exact ⟨⟨Lit.ofNumber?_le hl, (Option.filter_eq_some_iff.mp hvalue).2⟩, rfl⟩
        · cases h

/-- A comment states no clause and keeps the bounds. -/
theorem commentItems_inBounds {line : List UInt8} {start : Nat} {items : List Item}
    (h : commentItems line start = .ok items) :
    ∀ item ∈ items, item.InBounds ∧ item.clause? = none := by
  unfold commentItems at h
  split at h
  · cases h
    simp
  · split at h
    · rename_i rest _
      split at h
      · obtain ⟨vars, hvars, rfl⟩ := Except.map_eq_ok.mp h
        exact List.forall_mem_singleton.mpr ⟨projectionVars_le hvars, rfl⟩
      · split at h
        · obtain ⟨item, hitem, rfl⟩ := Except.map_eq_ok.mp h
          exact List.forall_mem_singleton.mpr (weightItem_inBounds hitem)
        · cases h
          simp
    · cases h
      simp

theorem comment_inBounds {items : List Item} (h : c.comment = .ok (items, c')) :
    ∀ item ∈ items, item.InBounds ∧ item.clause? = none := by
  unfold comment at h
  split at h
  · cases h
  · split at h
    · cases h
    · rename_i hitems
      cases h
      exact commentItems_inBounds hitems

theorem literals_inBounds {lits : Clause} (h : c.literals = .ok (lits, c')) :
    ∀ l ∈ lits, l.var.index ≤ Var.maxIndex := by
  fun_induction literals c generalizing lits c' with
  | case1 => cases h
  | case2 => cases h
  | case3 =>
    cases h
    simp
  | case4 => cases h
  | case5 =>
    rename_i l hl ih
    obtain ⟨more, hmore, heq⟩ := Except.map_eq_ok.mp h
    cases heq
    exact List.forall_mem_cons.mpr ⟨Lit.ofNumber?_le hl, ih hmore⟩

theorem clauses_inBounds {items : List Item} (h : c.clauses = .ok items) :
    ∀ item ∈ items, item.InBounds := by
  fun_induction clauses c generalizing items with
  | case1 => cases h; simp
  | case2 => cases h
  | case3 =>
    rename_i hcomment _ _ ih
    obtain ⟨more, hmore, rfl⟩ := Except.map_eq_ok.mp h
    exact List.forall_mem_append.mpr ⟨fun i hi => (comment_inBounds hcomment i hi).1, ih hmore⟩
  | case4 => cases h
  | case5 =>
    rename_i hlits _ ih
    obtain ⟨more, hmore, rfl⟩ := Except.map_eq_ok.mp h
    exact List.forall_mem_cons.mpr ⟨literals_inBounds hlits, ih hmore⟩
  | case6 => cases h

theorem integer_le {low high n : Int} (h : c.integer low high = .ok (n, c')) :
    low ≤ n ∧ n ≤ high := by
  unfold integer at h
  split at h
  · cases h
  · split at h
    · cases h
      assumption
    · cases h

theorem headerCount_le {fault : HeaderFault} {n : Nat} (h : c.headerCount fault = .ok (n, c')) :
    n ≤ 4294967295 := by
  unfold headerCount at h
  simp only at h
  split at h
  · cases h
  · split at h
    · rename_i hn
      cases h
      have := integer_le hn
      omega
    · cases h

theorem header_le {vars clauses : Nat} (h : c.header = .ok ((vars, clauses), c')) :
    vars ≤ 4294967295 ∧ clauses ≤ 4294967295 := by
  unfold header at h
  split at h
  · cases h
  · obtain ⟨⟨n, c₁⟩, h₁, h⟩ := Except.bind_eq_ok.mp h
    obtain ⟨⟨m, c₂⟩, h₂, h⟩ := Except.bind_eq_ok.mp h
    cases h
    exact ⟨headerCount_le h₁, headerCount_le h₂⟩

/-- The preamble states no clause and keeps the bounds. -/
theorem preamble_inBounds {clauses : Nat} {items : List Item}
    (h : c.preamble = .ok (clauses, items, c')) :
    clauses ≤ 4294967295 ∧ ∀ item ∈ items, item.InBounds ∧ item.clause? = none := by
  fun_induction preamble c generalizing clauses items c' with
  | case1 => cases h
  | case2 => cases h
  | case3 =>
    rename_i hcomment _ _ ih
    obtain ⟨⟨count, more, c''⟩, hmore, heq⟩ := Except.map_eq_ok.mp h
    cases heq
    obtain ⟨hcount, hitems⟩ := ih hmore
    exact ⟨hcount, List.forall_mem_append.mpr ⟨comment_inBounds hcomment, hitems⟩⟩
  | case4 =>
    obtain ⟨⟨⟨vars, count⟩, c''⟩, hheader, heq⟩ := Except.map_eq_ok.mp h
    cases heq
    obtain ⟨hvars, hcount⟩ := header_le hheader
    exact ⟨hcount, List.forall_mem_singleton.mpr ⟨hvars, rfl⟩⟩
  | case5 => rename_i ih; exact ih h
  | case6 => cases h

end Cursor

/-- The items of a file keep their bounds, and so does their number of clauses. -/
theorem readItems_inBounds {c : Cursor} {items : List Item} (h : readItems c = .ok items) :
    (∀ item ∈ items, item.InBounds) ∧ (items.filterMap Item.clause?).length ≤ 4294967295 := by
  obtain ⟨⟨expected, stated, c'⟩, hpreamble, h⟩ := Except.bind_eq_ok.mp h
  obtain ⟨more, hmore, h⟩ := Except.bind_eq_ok.mp h
  obtain ⟨hcount, hstated⟩ := Cursor.preamble_inBounds hpreamble
  have hnone : stated.filterMap Item.clause? = [] :=
    List.filterMap_eq_nil_iff.mpr fun item hitem => (hstated item hitem).2
  simp only at h
  split at h
  · rename_i hfound
    cases h
    refine ⟨List.forall_mem_append.mpr
      ⟨fun i hi => (hstated i hi).1, Cursor.clauses_inBounds hmore⟩, ?_⟩
    rw [List.filterMap_append, hnone, List.nil_append, hfound]
    exact hcount
  · cases h

namespace Formula

theorem mem_projection_ofItems {items : List Item} {v : Var}
    (hv : v ∈ (ofItems items).projection.getD []) :
    ∃ vars, .projection vars ∈ items ∧ v ∈ vars := by
  have hflat : v ∈ (items.filterMap Item.projection?).flatten := by
    unfold ofItems at hv
    simp only at hv
    split at hv
    · cases hv
    · exact hv
  obtain ⟨vars, hvars, hv⟩ := List.mem_flatten.mp hflat
  obtain ⟨item, hitem, hprojection⟩ := List.mem_filterMap.mp hvars
  cases item <;> cases hprojection
  exact ⟨vars, hitem, hv⟩

theorem mentioned_ofItems {items : List Item} (h : ∀ item ∈ items, item.InBounds) :
    ∀ v ∈ (ofItems items).mentioned, v.index ≤ Var.maxIndex := by
  intro v hv
  rcases List.mem_append.mp hv with hv | hv
  · rcases List.mem_append.mp hv with hv | hv
    · obtain ⟨l, hl, rfl⟩ := List.mem_map.mp hv
      obtain ⟨lits, hlits, hl⟩ := List.mem_flatten.mp hl
      obtain ⟨item, hitem, hclause⟩ := List.mem_filterMap.mp hlits
      have hbounds := h item hitem
      cases item <;> cases hclause
      exact hbounds l hl
    · obtain ⟨vars, hvars, hv⟩ := mem_projection_ofItems hv
      exact h (.projection vars) hvars v hv
  · obtain ⟨w, hw, rfl⟩ := List.mem_map.mp hv
    obtain ⟨item, hitem, hweight⟩ := List.mem_filterMap.mp hw
    have hbounds := h item hitem
    cases item <;> cases hweight
    exact hbounds.1

/-- **What is read fits a file.** -/
theorem fitsFile_of_read {c : Cursor} {f : Formula} (h : Formula.read c = .ok f) : f.FitsFile := by
  obtain ⟨items, hitems, rfl⟩ := Except.map_eq_ok.mp h
  obtain ⟨hbounds, hclauses⟩ := readItems_inBounds hitems
  refine ⟨?_, hclauses, mentioned_ofItems hbounds, ?_⟩
  · have hlast : (ofItems items).varCount ∈ 0 :: items.filterMap Item.varCount? :=
      List.getLastD_mem_cons
    rcases List.mem_cons.mp hlast with hzero | hin
    · rw [hzero]
      exact Nat.zero_le _
    · obtain ⟨item, hitem, hcount⟩ := List.mem_filterMap.mp hin
      have hbounded := hbounds item hitem
      cases item with
      | varCount count => exact Option.some.inj hcount ▸ hbounded
      | clause lits => cases hcount
      | projection vars => cases hcount
      | weight l value => cases hcount
  · intro w hw
    obtain ⟨item, hitem, hweight⟩ := List.mem_filterMap.mp hw
    have hbounded := hbounds item hitem
    cases item <;> cases hweight
    exact hbounded.2

/-- The printed file only depends on the number of variables in use. -/
theorem read_text_bytes {f : Formula} (hf : f.FitsFile) (hweights : f.WeightsReadBack) :
    Formula.read { rest := f.text.toUTF8.toList } = .ok { f with varCount := f.numVariables } :=
  read_printed hf hweights (Text.toUTF8_toList _ f.ascii_text)

/-- **Printing and reading are inverse.** A formula whose count covers the
variables it mentions is read back from its file as it is; whatever was read
is read again from its own file, now with the number of variables in use. -/
theorem read_text_inverse :
    (∀ f : Formula, f.FitsFile → (∀ v ∈ f.mentioned, v.index < f.varCount) → f.WeightsReadBack →
      Formula.read { rest := f.text.toUTF8.toList } = .ok f) ∧
    (∀ (c : Cursor) (f : Formula), Formula.read c = .ok f → f.WeightsReadBack →
      Formula.read { rest := f.text.toUTF8.toList }
        = .ok { f with varCount := f.numVariables }) := by
  refine ⟨fun f hf hcovered hweights => ?_, fun c f hread hweights => ?_⟩
  · rw [read_text_bytes hf hweights, numVariables_of_covered hcovered]
  · exact read_text_bytes (fitsFile_of_read hread) hweights

/-- A formula with all parts: an empty clause, a projection onto nothing, and a
quarter as the weight of a negative literal. -/
def quarterFormula : Formula :=
  { varCount := 3
    clauses := [[⟨⟨0⟩, true⟩, ⟨⟨1⟩, false⟩], []]
    projection := some []
    weights := [(⟨⟨2⟩, false⟩, Float.ofBits 0x3fd0000000000000)] }

theorem read_text_inverse_quarter :
    Formula.read { rest := quarterFormula.text.toUTF8.toList } = .ok quarterFormula ∧
    Formula.read { rest := quarterFormula.text.toUTF8.toList }
      = .ok { quarterFormula with varCount := quarterFormula.numVariables } := by
  have hfits : quarterFormula.FitsFile := ⟨by decide, by decide, by decide, by decide +kernel⟩
  have hweights : quarterFormula.WeightsReadBack := by
    intro w hw
    rw [List.mem_singleton.mp hw]
    decide +kernel
  have hread := read_text_inverse.1 quarterFormula hfits (by decide) hweights
  exact ⟨hread, read_text_inverse.2 _ quarterFormula hread hweights⟩

end Formula

end Cleave
