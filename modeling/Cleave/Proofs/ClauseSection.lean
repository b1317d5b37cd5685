import Cleave.Proofs.RoundTrip

/-!
# What the clause section of a file says

Behind its header a file is a sequence of words apart by blanks, with comments
in between: a word that starts with `c` takes the rest of its line with it.
`Cursor.clauseText` is the text behind the header and `Cursor.bareWords` are
its words outside comments, both without any reading of numbers.

A word is read as an integer if it has digits and at most one minus sign
(`Cursor.LooseInteger`), and what it is read as are its digits in one, negative
if there is a sign (`Cursor.looseValue`). The sign may stand anywhere, so words
that are no integers by the usual grammar are read like others. The clauses of
a formula that was read are its words cut at the zeros
(`Formula.read_clauseSection`).
-/

namespace Cleave

/-! ## Runs of a list -/

section Runs

variable {α : Type} (p : α → Bool) (xs : List α)

theorem drop_length_takeWhile : xs.drop (xs.takeWhile p).length = xs.dropWhile p := by
  induction xs with
  | nil => rfl
  | cons x xs ih =>
    by_cases hx : p x = true
    · rw [List.takeWhile_cons_of_pos hx, List.dropWhile_cons_of_pos hx, ← ih]
      rfl
    · rw [List.takeWhile_cons_of_neg hx, List.dropWhile_cons_of_neg hx]
      rfl

variable {p xs}

theorem head_dropWhile {x : α} {rest : List α} (h : xs.dropWhile p = x :: rest) : p x = false := by
  have hhead := List.head?_dropWhile_not p xs
  rw [h] at hhead
  exact hhead

end Runs

/-- A literal is never written as zero. -/
theorem Lit.number_ne_zero (l : Lit) : l.number ≠ 0 := by
  unfold Lit.number Var.number
  split <;> omega

theorem Var.number_of_ofNumber? {n : Int} {v : Var} (h : ofNumber? n = some v) :
    (v.number : Int) = n := by
  unfold ofNumber? ofIndex? at h
  split at h
  · split at h
    · obtain rfl := Option.some.inj h
      simp only [number]
      omega
    · cases h
  · cases h

theorem Lit.number_of_ofNumber? {n : Int} {l : Lit} (h : ofNumber? n = some l) : l.number = n := by
  obtain ⟨v, hv, rfl⟩ := Option.map_eq_some_iff.mp h
  have hnumber := Var.number_of_ofNumber? hv
  by_cases hn : 0 < n
  · rw [if_pos hn] at hnumber
    rw [decide_eq_true hn]
    exact hnumber
  · rw [if_neg hn] at hnumber
    rw [decide_eq_false hn]
    show -(v.number : Int) = n
    omega

namespace Cursor

/-! ## Words outside comments -/

/-- The word a text starts with: its bytes up to a blank. -/
def wordAt (bs : List UInt8) : List UInt8 := bs.takeWhile (!isBlank ·)

/-- What follows the word a text starts with. -/
def pastWord (bs : List UInt8) : List UInt8 := bs.dropWhile (!isBlank ·)

/-- What follows the blanks a text starts with. -/
def pastBlanks (bs : List UInt8) : List UInt8 := bs.dropWhile isBlank

/-- What follows the line under way, with the line feed that ends it. -/
def pastLine (bs : List UInt8) : List UInt8 := bs.dropWhile (· != 10)

theorem length_pastWord_le (bs : List UInt8) : (pastWord bs).length ≤ bs.length :=
  (List.dropWhile_sublist _).length_le

theorem length_pastLine_le (bs : List UInt8) : (pastLine bs).length ≤ bs.length :=
  (List.dropWhile_sublist _).length_le

/-- **The words of a text outside comments.** A word that starts with `c` begins
a comment, which takes the rest of the line. -/
def bareWords : List UInt8 → List (List UInt8)
  | [] => []
  | b :: rest =>
    if isBlank b then bareWords rest
    else if b = 99 then bareWords (pastLine rest)
    else (b :: wordAt rest) :: bareWords (pastWord rest)
termination_by bs => bs.length
decreasing_by
  · simp
  · exact Nat.lt_succ_of_le (length_pastLine_le rest)
  · exact Nat.lt_succ_of_le (length_pastWord_le rest)

/-- What follows the two counts of a header. -/
def pastCounts (bs : List UInt8) : List UInt8 :=
  pastWord (pastBlanks (pastWord (pastBlanks bs)))

/-- What follows the `p` of the header, if there is one: comments and everything
else before it is passed over. -/
def headerText? : List UInt8 → Option (List UInt8)
  | [] => none
  | b :: rest =>
    if b = 99 then headerText? (pastLine rest)
    else if b = 112 then some rest
    else headerText? rest
termination_by bs => bs.length
decreasing_by
  · exact Nat.lt_succ_of_le (length_pastLine_le rest)
  · simp

/-- **The text behind the header**, that is behind its ` cnf` and two counts. -/
def clauseText (bs : List UInt8) : List UInt8 :=
  match headerText? bs with
  | some rest => pastCounts (rest.drop 4)
  | none => []

/-- **Blanks in front of a text** make no difference to what is taken from it. -/
def IgnoresBlanks {α : Type} (f : List UInt8 → α) : Prop :=
  ∀ {b : UInt8} {rest : List UInt8}, isBlank b = true → f (b :: rest) = f rest

/-- The clause section starts with the blank that ends the header. -/
theorem clauseText_eq_pastWord (bs : List UInt8) : ∃ header, clauseText bs = pastWord header := by
  unfold clauseText
  split
  · exact ⟨_, rfl⟩
  · exact ⟨[], rfl⟩

namespace IgnoresBlanks

variable {α : Type} {f : List UInt8 → α} (h : IgnoresBlanks f) (bs : List UInt8)

include h

theorem pastBlanks : f (pastBlanks bs) = f bs := by
  induction bs with
  | nil => rfl
  | cons b rest ih =>
    unfold Cursor.pastBlanks at ih ⊢
    by_cases hb : isBlank b = true
    · rw [List.dropWhile_cons_of_pos hb, h hb, ih]
    · rw [List.dropWhile_cons_of_neg hb]

/-- A word ends at a blank, which may be passed over too. -/
theorem tail_pastWord : f (pastWord bs).tail = f (pastWord bs) := by
  cases hpast : pastWord bs with
  | nil => rfl
  | cons b rest => exact (h (by simpa using head_dropWhile hpast)).symm

theorem tail_pastLine : f (pastLine bs).tail = f (pastLine bs) := by
  cases hpast : pastLine bs with
  | nil => rfl
  | cons b rest =>
    obtain rfl : b = 10 := by simpa using head_dropWhile hpast
    exact (h (by decide)).symm

theorem tail_clauseText : f (clauseText bs).tail = f (clauseText bs) := by
  obtain ⟨header, hheader⟩ := clauseText_eq_pastWord bs
  rw [hheader, h.tail_pastWord]

end IgnoresBlanks

theorem bareWords_cons (b : UInt8) (rest : List UInt8) : bareWords (b :: rest)
    = if isBlank b then bareWords rest
      else if b = 99 then bareWords (pastLine rest)
      else (b :: wordAt rest) :: bareWords (pastWord rest) := by
  rw [bareWords]

theorem bareWords_blank : IgnoresBlanks bareWords := fun {b rest} hb => by
  rw [bareWords_cons, if_pos hb]

theorem bareWords_comment (rest : List UInt8) :
    bareWords (99 :: rest) = bareWords (pastLine rest) := by
  rw [bareWords_cons, if_neg (by decide), if_pos rfl]

theorem bareWords_word {b : UInt8} {rest : List UInt8} (hb : isBlank b = false) (hc : b ≠ 99) :
    bareWords (b :: rest) = wordAt (b :: rest) :: bareWords (pastWord (b :: rest)) := by
  have hword : wordAt (b :: rest) = b :: wordAt rest := List.takeWhile_cons_of_pos (by simp [hb])
  have hpast : pastWord (b :: rest) = pastWord rest := List.dropWhile_cons_of_pos (by simp [hb])
  rw [bareWords_cons, hb, if_neg Bool.false_ne_true, if_neg hc, hword, hpast]

/-! ## What a word is read as -/

/-- The digits of a word appended to those of a number. -/
def digitsAfter (value : Nat) (w : List UInt8) : Nat :=
  w.foldl (fun n b => match digit? b with
    | some d => 10 * n + d
    | none => n) value

/-- **What a word is read as**: its digits in one, negative if there is a minus
sign anywhere. -/
def looseValue (w : List UInt8) : Int :=
  if 45 ∈ w then -(digitsAfter 0 w : Int) else digitsAfter 0 w

/-- **A word that is read**: digits and at most one minus sign, in any order. -/
structure LooseInteger (w : List UInt8) : Prop where
  bytes : ∀ b ∈ w, b = 45 ∨ (digit? b).isSome = true
  sign : w.count 45 ≤ 1

/-- **The integer a word writes**: a run of decimal digits, behind a minus sign
if it is negative. -/
def decimal? (w : List UInt8) : Option Int :=
  let digits (ds : List UInt8) := Text.digits? (ds.map fun b => Char.ofNat b.toNat)
  match w with
  | 45 :: ds => (digits ds).map fun (n : Nat) => -(n : Int)
  | ds => (digits ds).map Int.ofNat

theorem toNat_ofNat_byte (b : UInt8) : (Char.ofNat b.toNat).toNat = b.toNat := by
  have hvalid : b.toNat.isValidChar := Or.inl (Nat.lt_trans b.toNat_lt (by decide))
  rw [Char.ofNat, dif_pos hvalid]
  rfl

/-- A byte is a digit where its character is one. -/
theorem digit?_of_isDigit {b : UInt8} (h : (Char.ofNat b.toNat).isDigit = true) :
    digit? b = some ((Char.ofNat b.toNat).toNat - 48) ∧ b ≠ 45 := by
  have hbounds := Text.isDigit_bounds h
  rw [toNat_ofNat_byte] at hbounds
  refine ⟨?_, fun heq => ?_⟩
  · unfold digit?
    rw [toNat_ofNat_byte, if_pos (by simp [UInt8.le_iff_toNat_le, hbounds])]
  · rw [heq] at hbounds
    exact absurd hbounds.1 (by decide)

/-- A run of digits has their value, and no sign. -/
theorem digitsAfter_of_digits? {ds : List UInt8} {n : Nat}
    (h : Text.digits? (ds.map fun b => Char.ofNat b.toNat) = some n) :
    digitsAfter 0 ds = n ∧ 45 ∉ ds := by
  unfold Text.digits? at h
  split at h
  · cases h
  · rename_i hdigits
    simp only [Bool.or_eq_true, Bool.not_eq_true', not_or, Bool.not_eq_false, List.all_map,
      List.all_eq_true, Function.comp_apply] at hdigits
    have hall : ∀ b ∈ ds, (Char.ofNat b.toNat).isDigit = true := hdigits.2
    obtain rfl := Option.some.inj h
    refine ⟨?_, fun hin => (digit?_of_isDigit (hall 45 hin)).2 rfl⟩
    unfold digitsAfter
    rw [List.foldl_map]
    refine List.foldl_ext _ _ _ fun n b hb => ?_
    rw [(digit?_of_isDigit (hall b hb)).1]
    rfl

/-- **An integer is read as what it writes.** -/
theorem looseValue_of_decimal? {w : List UInt8} {n : Int} (h : decimal? w = some n) :
    looseValue w = n := by
  unfold decimal? at h
  simp only at h
  split at h
  · rename_i ds
    obtain ⟨m, hm, rfl⟩ := Option.map_eq_some_iff.mp h
    rw [looseValue, if_pos List.mem_cons_self, ← (digitsAfter_of_digits? hm).1]
    rfl
  · rename_i ds _
    obtain ⟨m, hm, rfl⟩ := Option.map_eq_some_iff.mp h
    obtain ⟨hvalue, hsign⟩ := digitsAfter_of_digits? hm
    rw [looseValue, if_neg hsign, hvalue]
    rfl

/-! ## What the reader leaves behind -/

variable {c c' : Cursor}

theorem rest_skipBlanks (c : Cursor) : c.skipBlanks.rest = pastBlanks c.rest :=
  drop_length_takeWhile _ _

theorem rest_advance_one_tail (c : Cursor) : (c.advance 1).rest = c.rest.tail :=
  List.drop_one

/-- **A line that was taken** leaves what is behind its line feed. -/
theorem rest_takeLine {line : List UInt8} (h : c.takeLine = .ok (line, c')) :
    c'.rest = (pastLine c.rest).tail := by
  have hdrop := drop_length_takeWhile (· != 10) c.rest
  unfold takeLine at h
  simp only at h
  split at h
  · obtain ⟨-, rfl⟩ := Prod.mk.inj (Except.ok.inj h)
    show c.rest.drop _ = _
    rw [← List.drop_drop, hdrop, List.drop_one]
    rfl
  · rename_i hshort
    split at h
    · cases h
    · obtain ⟨-, rfl⟩ := Prod.mk.inj (Except.ok.inj h)
      have hnil : pastLine c.rest = [] := by
        unfold pastLine
        rw [← hdrop]
        exact List.drop_eq_nil_of_le (Nat.le_of_not_lt hshort)
      show c.rest.drop _ = _
      rw [hdrop, show c.rest.dropWhile (· != 10) = [] from hnil, hnil]
      rfl

theorem rest_comment {items : List Item} (h : c.comment = .ok (items, c')) :
    c'.rest = (pastLine c.rest).tail := by
  unfold comment at h
  split at h
  · cases h
  · rename_i hline
    split at h
    · cases h
    · obtain ⟨-, rfl⟩ := Prod.mk.inj (Except.ok.inj h)
      exact rest_takeLine hline

theorem wordAt_cons {b : UInt8} (hb : isBlank b = false) (rest : List UInt8) :
    wordAt (b :: rest) = b :: wordAt rest ∧ pastWord (b :: rest) = pastWord rest :=
  ⟨List.takeWhile_cons_of_pos (by simp [hb]), List.dropWhile_cons_of_pos (by simp [hb])⟩

theorem wordAt_blank {b : UInt8} (hb : isBlank b = true) (rest : List UInt8) :
    wordAt (b :: rest) = [] ∧ pastWord (b :: rest) = b :: rest :=
  ⟨List.takeWhile_cons_of_neg (by simp [hb]), List.dropWhile_cons_of_neg (by simp [hb])⟩

/-- **An integer is a whole word**, read as its digits and its sign; what was
read before is shifted to the left. -/
theorem integerFrom_word {start value : Nat} {negated : Bool} {n : Int}
    (h : integerFrom start c value negated = .ok (n, c')) :
    (∀ b ∈ wordAt c.rest, b = 45 ∨ (digit? b).isSome = true)
      ∧ (wordAt c.rest).count 45 + negated.toNat ≤ 1
      ∧ n = (if negated = true ∨ 45 ∈ wordAt c.rest then
          -(digitsAfter value (wordAt c.rest) : Int) else digitsAfter value (wordAt c.rest))
      ∧ c'.rest = (pastWord c.rest).tail := by
  fun_induction integerFrom start c value negated with
  | case1 => cases h
  | case2 c value negated hnil =>
    obtain ⟨rfl, rfl⟩ := Prod.mk.inj (Except.ok.inj h)
    rw [hnil]
    cases negated <;> simp [wordAt, pastWord, digitsAfter]
  | case3 => cases h
  | case4 c value negated tail next hfresh hc ih =>
    obtain ⟨hbytes, hsign, hn, hrest⟩ := ih h
    rw [show next.rest = tail from rest_advance_one hc] at hbytes hsign hn hrest
    obtain ⟨hword, hpast⟩ := wordAt_cons (show isBlank 45 = false by decide) tail
    have hnone : digit? 45 = none := by decide
    rw [hc, hword, hpast]
    refine ⟨List.forall_mem_cons.mpr ⟨Or.inl rfl, hbytes⟩, ?_, ?_, hrest⟩
    · rw [List.count_cons_self, Bool.eq_false_iff.mpr hfresh]
      exact hsign
    · rw [hn, if_pos (Or.inl rfl), if_pos (Or.inr List.mem_cons_self)]
      rfl
  | case5 c value negated b tail hc next hminus d hd hlt ih =>
    obtain ⟨hbytes, hsign, hn, hrest⟩ := ih h
    rw [show next.rest = tail from rest_advance_one hc] at hbytes hsign hn hrest
    have hblank : isBlank b = false := by
      refine Bool.eq_false_iff.mpr fun hb => ?_
      rw [(digit?_blank hb).1] at hd
      cases hd
    obtain ⟨hword, hpast⟩ := wordAt_cons hblank tail
    rw [hc, hword, hpast]
    refine ⟨List.forall_mem_cons.mpr ⟨Or.inr (by rw [hd]; rfl), hbytes⟩, ?_, ?_, hrest⟩
    · rw [List.count_cons_of_ne hminus]
      exact hsign
    · have hvalue : digitsAfter value (b :: wordAt tail)
          = digitsAfter (10 * value + d) (wordAt tail) := by
        unfold digitsAfter
        rw [List.foldl_cons, hd]
      simp only [hn, hvalue, List.mem_cons, Ne.symm hminus, false_or]
  | case6 => cases h
  | case7 c value negated b tail hc next hminus hd hb =>
    obtain ⟨rfl, rfl⟩ := Prod.mk.inj (Except.ok.inj h)
    obtain ⟨hword, hpast⟩ := wordAt_blank hb tail
    rw [rest_advance_one_tail, hc, hword, hpast]
    cases negated <;> simp [digitsAfter]
  | case8 => cases h

theorem integer_word {low high n : Int} (h : c.integer low high = .ok (n, c')) :
    LooseInteger (wordAt c.rest) ∧ looseValue (wordAt c.rest) = n
      ∧ c'.rest = (pastWord c.rest).tail := by
  unfold integer at h
  split at h
  · cases h
  · rename_i hn
    split at h
    · obtain ⟨rfl, rfl⟩ := Prod.mk.inj (Except.ok.inj h)
      obtain ⟨hbytes, hsign, hvalue, hrest⟩ := integerFrom_word hn
      exact ⟨⟨hbytes, hsign⟩, by rw [hvalue]; simp [looseValue], hrest⟩
    · cases h

/-! ## Clauses -/

/-- **The words of some clauses**: their literals, a zero behind each clause. -/
structure Words (ws : List (List UInt8)) (cs : List Clause) : Prop where
  loose : ∀ w ∈ ws, LooseInteger w
  values : ws.map looseValue = cs.flatMap fun lits => lits.map Lit.number ++ [0]

theorem Words.nil : Words [] [] := ⟨fun _ hw => absurd hw List.not_mem_nil, rfl⟩

theorem Words.append {ws vs : List (List UInt8)} {cs ds : List Clause} (h : Words ws cs)
    (h' : Words vs ds) : Words (ws ++ vs) (cs ++ ds) :=
  ⟨List.forall_mem_append.mpr ⟨h.loose, h'.loose⟩,
    by rw [List.map_append, List.flatMap_append, h.values, h'.values]⟩

theorem LooseInteger.not_comment {b : UInt8} {w : List UInt8} (h : LooseInteger (b :: w)) :
    b ≠ 99 := by
  rintro rfl
  rcases h.bytes 99 List.mem_cons_self with h | h <;> cases h

/-- A word that is read is the next one outside comments. -/
theorem bareWords_integer {low high n : Int} (hne : c.rest ≠ []) (hstart : c.skipBlanks = c)
    (h : c.integer low high = .ok (n, c')) :
    bareWords c.rest = wordAt c.rest :: bareWords c'.rest := by
  obtain ⟨hloose, -, hrest⟩ := integer_word h
  obtain ⟨b, rest, hc⟩ := List.exists_cons_of_ne_nil hne
  have hblank : isBlank b = false := by
    have hpast := rest_skipBlanks c
    rw [hstart, hc] at hpast
    exact head_dropWhile hpast.symm
  have hnot : b ≠ 99 := by
    rw [hc, (wordAt_cons hblank rest).1] at hloose
    exact hloose.not_comment
  rw [hrest, bareWords_blank.tail_pastWord, hc, bareWords_word hblank hnot]

theorem skipBlanks_of_nil (h : c.rest = []) : c.skipBlanks = c := by
  simp [skipBlanks, h]

theorem skipBlanks_skipBlanks (c : Cursor) : c.skipBlanks.skipBlanks = c.skipBlanks := by
  cases h : c.skipBlanks.rest with
  | nil => exact skipBlanks_of_nil h
  | cons b rest =>
    exact skipBlanks_of_not_blank h (head_dropWhile ((rest_skipBlanks c).symm.trans h))

theorem bareWords_skipBlanks (c : Cursor) : bareWords c.skipBlanks.rest = bareWords c.rest := by
  rw [rest_skipBlanks, bareWords_blank.pastBlanks]

/-- **A clause is read** from its words, by induction on the literals. -/
theorem literals_words {lits : Clause} (h : c.literals = .ok (lits, c')) :
    ∃ ws, bareWords c.rest = ws ++ bareWords c'.rest ∧ Words ws [lits] := by
  fun_induction literals c generalizing lits c' with
  | case1 => cases h
  | case2 => cases h
  | case3 =>
    rename_i c here hne next hn hlt
    obtain ⟨rfl, rfl⟩ := Prod.mk.inj (Except.ok.inj h)
    obtain ⟨hloose, hvalue, -⟩ := integer_word hn
    refine ⟨[wordAt here.rest], ?_, List.forall_mem_singleton.mpr hloose, ?_⟩
    · rw [← bareWords_skipBlanks, bareWords_integer hne (skipBlanks_skipBlanks c) hn]
      rfl
    · rw [List.map_singleton, hvalue]
      rfl
  | case4 => cases h
  | case5 =>
    rename_i c here hne n next hn hlt hzero l hl ih
    obtain ⟨⟨more, last⟩, hmore, heq⟩ := Except.map_eq_ok.mp h
    obtain ⟨rfl, rfl⟩ := Prod.mk.inj heq
    obtain ⟨hloose, hvalue, -⟩ := integer_word hn
    obtain ⟨ws, hws, hwords⟩ := ih hmore
    refine ⟨wordAt here.rest :: ws, ?_, List.forall_mem_cons.mpr ⟨hloose, hwords.loose⟩, ?_⟩
    · rw [← bareWords_skipBlanks, bareWords_integer hne (skipBlanks_skipBlanks c) hn, hws]
      rfl
    · rw [List.map_cons, hwords.values, hvalue, ← Lit.number_of_ofNumber? hl]
      simp

/-- **The clause section** is read word by word. Comments state no clause. -/
theorem clauses_words {items : List Item} (h : c.clauses = .ok items) :
    Words (bareWords c.rest) (items.filterMap Item.clause?) := by
  fun_induction clauses c generalizing items with
  | case1 =>
    rename_i c here hnil
    cases h
    rw [← bareWords_skipBlanks, show c.skipBlanks.rest = [] from hnil, bareWords]
    exact .nil
  | case2 => cases h
  | case3 =>
    rename_i c here tail found next hcomment hc hlt ih
    obtain ⟨more, hmore, rfl⟩ := Except.map_eq_ok.mp h
    have hnone : found.filterMap Item.clause? = [] :=
      List.filterMap_eq_nil_iff.mpr fun item hitem => (comment_inBounds hcomment item hitem).2
    have htail : (here.advance 1).rest = tail := rest_advance_one hc
    rw [List.filterMap_append, hnone, List.nil_append, ← bareWords_skipBlanks,
      show c.skipBlanks.rest = 99 :: tail from hc, bareWords_comment,
      ← bareWords_blank.tail_pastLine, ← htail, ← rest_comment hcomment]
    exact ih hmore
  | case4 => cases h
  | case5 =>
    rename_i c here b tail hc hnot hstart lits next hlits hlt ih
    obtain ⟨more, hmore, rfl⟩ := Except.map_eq_ok.mp h
    obtain ⟨ws, hws, hwords⟩ := literals_words hlits
    rw [← bareWords_skipBlanks, show bareWords c.skipBlanks.rest = _ from hws]
    exact hwords.append (ih hmore)
  | case6 => cases h

/-! ## The header -/

theorem expect_rest {expected : List UInt8} (hc : c.expect expected = .ok c') :
    c'.rest = c.rest.drop expected.length := by
  induction expected generalizing c with
  | nil => obtain rfl := Except.ok.inj hc; rfl
  | cons b expected ih =>
    unfold expect at hc
    split at hc
    · rename_i hnil
      split at hc
      · cases hc
      · obtain rfl := Except.ok.inj hc
        simp [hnil]
    · rename_i found rest hcons
      simp only at hc
      split at hc
      · rw [ih hc, rest_advance_one hcons, hcons]
        rfl
      · cases hc

theorem headerCount_rest {fault : HeaderFault} {n : Nat} (h : c.headerCount fault = .ok (n, c')) :
    c'.rest = (pastWord (pastBlanks c.rest)).tail := by
  unfold headerCount at h
  simp only at h
  split at h
  · cases h
  · split at h
    · rename_i hn
      obtain ⟨-, rfl⟩ := Prod.mk.inj (Except.ok.inj h)
      rw [(integer_word hn).2.2, rest_skipBlanks]
    · cases h

theorem pastBlanks_blank : IgnoresBlanks pastBlanks := fun hb => List.dropWhile_cons_of_pos hb

theorem header_rest {counts : Nat × Nat} (h : c.header = .ok (counts, c')) :
    c'.rest = (pastCounts (c.rest.drop 4)).tail := by
  have hmarker : " cnf".toUTF8.toList.length = 4 := by
    rw [Text.toUTF8_toList _ (Text.ascii_of_all (by decide))]
    rfl
  unfold header at h
  split at h
  · cases h
  · rename_i c₁ h₁
    obtain ⟨⟨vars, c₂⟩, h₂, h⟩ := Except.bind_eq_ok.mp h
    obtain ⟨⟨clauses, c₃⟩, h₃, h⟩ := Except.bind_eq_ok.mp h
    obtain ⟨-, rfl⟩ := Prod.mk.inj (Except.ok.inj h)
    rw [headerCount_rest h₃, headerCount_rest h₂, pastBlanks_blank.tail_pastWord, expect_rest h₁,
      hmarker]
    rfl

theorem headerText?_blank : IgnoresBlanks headerText? := fun {b rest} hb => by
  have hnot : b ≠ 99 ∧ b ≠ 112 := by
    constructor <;> rintro rfl <;> cases hb
  rw [headerText?, if_neg hnot.1, if_neg hnot.2]

/-- **The preamble ends where the clause section starts.** -/
theorem preamble_rest {expected : Nat} {items : List Item}
    (h : c.preamble = .ok (expected, items, c')) :
    ∃ header, headerText? c.rest = some header ∧ c'.rest = (pastCounts (header.drop 4)).tail := by
  fun_induction preamble c generalizing expected items c' with
  | case1 => cases h
  | case2 => cases h
  | case3 =>
    rename_i c tail next found c₁ hcomment hc hlt ih
    obtain ⟨⟨count, more, c₂⟩, hmore, heq⟩ := Except.map_eq_ok.mp h
    cases heq
    rw [hc, headerText?, if_pos rfl, ← show next.rest = tail from rest_advance_one hc,
      ← headerText?_blank.tail_pastLine, ← rest_comment hcomment]
    exact ih hmore
  | case4 =>
    rename_i c tail next hc hnot
    obtain ⟨⟨⟨vars, count⟩, c₁⟩, hheader, heq⟩ := Except.map_eq_ok.mp h
    cases heq
    refine ⟨tail, ?_, ?_⟩
    · rw [hc, headerText?, if_neg hnot, if_pos rfl]
    · rw [header_rest hheader, show next.rest = tail from rest_advance_one hc]
  | case5 =>
    rename_i c b tail hc next hcomment hheader hb ih
    rw [hc, headerText?, if_neg hcomment, if_neg hheader,
      ← show next.rest = tail from rest_advance_one hc]
    exact ih h
  | case6 => cases h

theorem rest_of_preamble {expected : Nat} {items : List Item}
    (h : c.preamble = .ok (expected, items, c')) : c'.rest = (clauseText c.rest).tail := by
  obtain ⟨header, hheader, hrest⟩ := preamble_rest h
  rw [hrest, clauseText, hheader]

/-! ## Words that are no integers -/

theorem wordAt_ne_nil_of_mem {bs w : List UInt8} (h : w ∈ bareWords bs) : w ≠ [] := by
  fun_induction bareWords bs with
  | case1 => cases h
  | case2 => rename_i ih; exact ih h
  | case3 => rename_i ih; exact ih h
  | case4 =>
    rename_i ih
    rcases List.mem_cons.mp h with rfl | h
    · exact List.cons_ne_nil _ _
    · exact ih h

theorem isDigit_of_digit? {b : UInt8} (h : (digit? b).isSome = true) :
    (Char.ofNat b.toNat).isDigit = true := by
  unfold digit? at h
  split at h
  · rename_i hb
    have hbounds : 48 ≤ (Char.ofNat b.toNat).toNat ∧ (Char.ofNat b.toNat).toNat ≤ 57 := by
      rw [toNat_ofNat_byte]
      simpa [UInt8.le_iff_toNat_le] using hb
    simpa [Char.isDigit, UInt32.le_iff_toNat_le] using hbounds
  · cases h

/-- A run of digits without a sign has a value, unless it is empty. -/
theorem digits?_isSome {ds : List UInt8} (hne : ds ≠ [])
    (hds : ∀ b ∈ ds, b = 45 ∨ (digit? b).isSome = true) (hsign : 45 ∉ ds) :
    (Text.digits? (ds.map fun b => Char.ofNat b.toNat)).isSome = true := by
  have hall : (ds.map fun b => Char.ofNat b.toNat).all Char.isDigit = true := by
    rw [List.all_map, List.all_eq_true]
    intro b hb
    exact isDigit_of_digit? ((hds b hb).resolve_left fun heq => hsign (heq ▸ hb))
  unfold Text.digits?
  rw [hall, List.isEmpty_eq_false_iff.mpr (by simpa using hne)]
  rfl

/-- **The words that are read though they write no integer**: a minus sign
alone, and those with the sign behind a digit. -/
theorem decimal?_eq_none_iff {w : List UInt8} (h : LooseInteger w) (hne : w ≠ []) :
    decimal? w = none ↔ w = [45] ∨ 45 ∈ w.tail := by
  unfold decimal?
  simp only
  split
  · rename_i ds
    have hsign : 45 ∉ ds := by
      have := h.sign
      rw [List.count_cons_self] at this
      exact List.count_eq_zero.mp (by omega)
    rw [Option.map_eq_none_iff]
    constructor
    · intro hnone
      refine Or.inl (congrArg _ ?_)
      by_contra hds
      have := digits?_isSome hds (fun b hb => h.bytes b (List.mem_cons_of_mem _ hb)) hsign
      rw [hnone] at this
      cases this
    · rintro (heq | hin)
      · obtain rfl := List.tail_eq_of_cons_eq heq
        rfl
      · exact absurd hin hsign
  · rename_i hstart
    obtain ⟨b, rest, rfl⟩ := List.exists_cons_of_ne_nil hne
    have hb : b ≠ 45 := by rintro rfl; exact hstart rest rfl
    rw [Option.map_eq_none_iff]
    constructor
    · intro hnone
      refine Or.inr ?_
      by_contra hin
      have := digits?_isSome hne h.bytes fun hmem => (List.mem_cons.mp hmem).elim
        (fun heq => hb heq.symm) hin
      rw [hnone] at this
      cases this
    · rintro (heq | hin)
      · exact absurd (List.head_eq_of_cons_eq heq) hb
      · cases hdigits : Text.digits? ((b :: rest).map fun b => Char.ofNat b.toNat) with
        | none => rfl
        | some n => exact absurd (List.mem_cons_of_mem _ hin) (digitsAfter_of_digits? hdigits).2

end Cursor

open Cursor (bareWords clauseText decimal? looseValue LooseInteger Words)

namespace Formula

variable {c : Cursor} {f : Formula}

/-- The clauses of a file are its words behind the header. -/
theorem words_of_read (h : read c = .ok f) : Words (bareWords (clauseText c.rest)) f.clauses := by
  obtain ⟨items, hitems, rfl⟩ := Except.map_eq_ok.mp h
  obtain ⟨⟨expected, stated, c'⟩, hpreamble, hrest⟩ := Except.bind_eq_ok.mp hitems
  obtain ⟨more, hmore, hcount⟩ := Except.bind_eq_ok.mp hrest
  have hnone : stated.filterMap Item.clause? = [] :=
    List.filterMap_eq_nil_iff.mpr fun item hitem =>
      ((Cursor.preamble_inBounds hpreamble).2 item hitem).2
  have hwords := Cursor.clauses_words hmore
  rw [Cursor.rest_of_preamble hpreamble, Cursor.bareWords_blank.tail_clauseText] at hwords
  simp only at hcount
  split at hcount
  · obtain rfl := Except.ok.inj hcount
    show Words _ ((stated ++ more).filterMap Item.clause?)
    rw [List.filterMap_append, hnone, List.nil_append]
    exact hwords
  · cases hcount

/-- **The clauses of a file** are the words behind its header and outside
comments, cut at the zeros. A word has digits and at most one minus sign, and
stands for its digits in one, negative if there is a sign. Where all words are
integers their values are the decimal ones; the words read besides these are a
minus sign alone and those with a sign behind a digit. -/
theorem read_clauseSection (h : read c = .ok f) :
    let ws := bareWords (clauseText c.rest)
    (∀ w ∈ ws, LooseInteger w)
      ∧ ws.map looseValue = (f.clauses.flatMap fun lits => lits.map Lit.number ++ [0])
      ∧ (∀ lits ∈ f.clauses, 0 ∉ lits.map Lit.number)
      ∧ (∀ w ∈ ws, ∀ n, decimal? w = some n → looseValue w = n)
      ∧ ∀ w ∈ ws, decimal? w = none ↔ w = [45] ∨ 45 ∈ w.tail := by
  have hwords := words_of_read h
  refine ⟨hwords.loose, hwords.values, fun lits _ hzero => ?_,
    fun w _ n hn => Cursor.looseValue_of_decimal? hn,
    fun w hw => Cursor.decimal?_eq_none_iff (hwords.loose w hw) (Cursor.wordAt_ne_nil_of_mem hw)⟩
  obtain ⟨l, -, hl⟩ := List.mem_map.mp hzero
  exact l.number_ne_zero hl

/-- Two clauses with comments around them, the second with a sign behind its
digit: `2-`. -/
def trailingSign : List UInt8 := "c\np cnf 2 2\nc note\n-1 2 0 c more\n2- 0\n".toUTF8.toList

theorem read_clauseSection_trailing : ∃ f, read { rest := trailingSign } = .ok f
    ∧ bareWords (clauseText trailingSign) = [[45, 49], [50], [48], [50, 45], [48]]
    ∧ ([-1, 2, 0, -2, 0] : List Int)
        = f.clauses.flatMap fun lits => lits.map Lit.number ++ [0] := by
  have hread : (read { rest := trailingSign }).toOption.isSome = true := by decide +kernel
  obtain ⟨f, hf⟩ := Option.isSome_iff_exists.mp hread
  have hfile := Except.toOption_eq_some.mp hf
  have hwords : bareWords (clauseText trailingSign)
      = [[45, 49], [50], [48], [50, 45], [48]] := by decide +kernel
  have hvalues := (read_clauseSection hfile).2.1
  refine ⟨f, hfile, hwords, ?_⟩
  rw [← hvalues, show (Cursor.mk trailingSign 0 false).rest = trailingSign from rfl, hwords]
  decide

/-- **A word that is no integer is read as a literal**: in the clause section
`1-2 0` there is a clause with the literal -12. -/
theorem misplaced_sign_read : ∃ f,
    read { rest := "p cnf 12 1\n1-2 0\n".toUTF8.toList } = .ok f
      ∧ f.clauses.map (·.map Lit.number) = [[-12]]
      ∧ ∃ w ∈ bareWords (clauseText "p cnf 12 1\n1-2 0\n".toUTF8.toList), decimal? w = none := by
  have hread : (read { rest := "p cnf 12 1\n1-2 0\n".toUTF8.toList }).toOption.any
      (fun f => f.clauses.map (·.map Lit.number) = [[-12]]) = true := by decide +kernel
  obtain ⟨f, hf, hclauses⟩ := (Option.any_eq_true _ _).mp hread
  exact ⟨f, Except.toOption_eq_some.mp hf, of_decide_eq_true hclauses, [49, 45, 50],
    by decide +kernel, by decide +kernel⟩

end Formula

end Cleave
