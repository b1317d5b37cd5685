import Cleave.Formula.Reader
import Mathlib.Data.List.Basic

/-!
# What the reader makes of printed text

The reader works on bytes, the printer on characters. Printed text is ASCII,
so a byte stands for a character (`Text.toUTF8_toList`) and every comment is
valid. Each part of the reader is described on the bytes of a text that
another part may follow: an integer up to a blank (`Cursor.integer_number`),
the words of a comment (`Cursor.words_spaced`), the literals of a clause up to
its zero (`Cursor.literals_line`). Each leaves what follows it untouched.
-/

namespace Cleave

/-! ## Bytes of a text -/

namespace Text

/-- The bytes of a text in ASCII. -/
def bytes (cs : List Char) : List UInt8 := cs.map Char.toUInt8

/-- **A visible character** of ASCII, neither blank nor control. -/
def Visible (c : Char) : Prop := 32 < c.toNat ∧ c.toNat < 127

/-- A nonempty run of visible characters. -/
structure IsWord (w : List Char) : Prop where
  nonempty : w ≠ []
  visible : ∀ c ∈ w, Visible c

instance (c : Char) : Decidable (Visible c) :=
  inferInstanceAs (Decidable (32 < c.toNat ∧ c.toNat < 127))

instance (w : List Char) : Decidable (IsWord w) :=
  decidable_of_iff (w ≠ [] ∧ (w.all fun c => decide (Visible c)) = true)
    ⟨fun h => ⟨h.1, fun c hc => of_decide_eq_true (List.all_eq_true.mp h.2 c hc)⟩,
      fun h => ⟨h.nonempty, List.all_eq_true.mpr fun c hc => decide_eq_true (h.visible c hc)⟩⟩

theorem ascii_of_all {cs : List Char} (h : (cs.all fun c => decide (c.toNat < 128)) = true) :
    ∀ c ∈ cs, c.toNat < 128 := fun c hc => of_decide_eq_true (List.all_eq_true.mp h c hc)

@[simp] theorem bytes_nil : bytes [] = [] := rfl

@[simp] theorem bytes_cons (c : Char) (cs : List Char) : bytes (c :: cs) = c.toUInt8 :: bytes cs :=
  rfl

@[simp] theorem bytes_append (cs ds : List Char) : bytes (cs ++ ds) = bytes cs ++ bytes ds :=
  List.map_append

@[simp] theorem length_bytes (cs : List Char) : (bytes cs).length = cs.length := List.length_map _

theorem toNat_toUInt8 {c : Char} (h : c.toNat < 128) : c.toUInt8.toNat = c.toNat := by
  show c.val.toUInt8.toNat = c.val.toNat
  rw [UInt32.toNat_toUInt8]
  exact Nat.mod_eq_of_lt (Nat.lt_trans h (by decide))

theorem utf8EncodeChar_ascii {c : Char} (h : c.toNat < 128) :
    String.utf8EncodeChar c = [c.toUInt8] := by
  refine String.utf8EncodeChar_eq_singleton (Char.utf8Size_eq_one_iff.mpr ?_)
  rw [UInt32.le_iff_toNat_le]
  exact Nat.lt_succ_iff.mp h

theorem utf8Encode_ascii (cs : List Char) (h : ∀ c ∈ cs, c.toNat < 128) :
    cs.utf8Encode = (bytes cs).toByteArray := by
  rw [List.utf8Encode, List.flatMap_congr fun c hc => utf8EncodeChar_ascii (h c hc)]
  exact congrArg _ List.map_eq_flatMap.symm

theorem toList_loop (b : ByteArray) (i : Nat) (r : List UInt8) :
    ByteArray.toList.loop b i r = r.reverse ++ b.data.toList.drop i := by
  fun_induction ByteArray.toList.loop b i r with
  | case1 i r hlt ih =>
    have hi : i < b.data.toList.length := by simpa using hlt
    rw [ih, List.drop_eq_getElem_cons hi, List.reverse_cons, List.append_assoc]
    simp [ByteArray.get!, hlt]
  | case2 i r hge =>
    rw [List.drop_eq_nil_of_le (by simpa using Nat.le_of_not_lt hge), List.append_nil]

theorem toList_byteArray (b : ByteArray) : b.toList = b.data.toList := by
  simp [ByteArray.toList, toList_loop]

/-- **Printed text is read byte by byte**: in ASCII a byte is a character. -/
theorem toUTF8_toList (s : String) (h : ∀ c ∈ s.toList, c.toNat < 128) :
    s.toUTF8.toList = bytes s.toList := by
  rw [toList_byteArray, String.toUTF8_eq_toByteArray, ← String.utf8Encode_toList,
    utf8Encode_ascii _ h, List.toList_data_toByteArray]

theorem validateUTF8_bytes (cs : List Char) (h : ∀ c ∈ cs, c.toNat < 128) :
    (ByteArray.mk (bytes cs).toArray).validateUTF8 = true := by
  refine ByteArray.validateUTF8_eq_true_iff.mpr (.intro cs ?_)
  rw [utf8Encode_ascii cs h]
  refine ByteArray.ext (Array.toList_inj.mp ?_)
  rw [List.toList_data_toByteArray]

theorem Visible.lt {c : Char} (h : Visible c) : c.toNat < 128 := Nat.lt_succ_of_lt h.2

theorem Visible.not_blank {c : Char} (h : Visible c) : Cursor.isBlank c.toUInt8 = false := by
  have hne : ∀ b : UInt8, b.toNat ≤ 32 → c.toUInt8 ≠ b := by
    intro b hb heq
    have := congrArg UInt8.toNat heq
    rw [toNat_toUInt8 h.lt] at this
    have := h.1
    omega
  unfold Cursor.isBlank
  simp [hne 32 (by decide), hne 9 (by decide), hne 10 (by decide), hne 12 (by decide),
    hne 13 (by decide)]

theorem Visible.ofNat_byte {c : Char} (h : Visible c) : Char.ofNat c.toUInt8.toNat = c := by
  rw [toNat_toUInt8 h.lt, Char.ofNat_toNat]

theorem visible_of_isDigit {c : Char} (h : c.isDigit = true) : Visible c := by
  have hle : 48 ≤ c.toNat ∧ c.toNat ≤ 57 := by
    simpa [Char.isDigit, UInt32.le_iff_toNat_le] using h
  exact ⟨by omega, by omega⟩

/-! ## Numbers in digits -/

theorem isDigit_bounds {c : Char} (h : c.isDigit = true) : 48 ≤ c.toNat ∧ c.toNat ≤ 57 := by
  simpa [Char.isDigit, UInt32.le_iff_toNat_le] using h

theorem isDigit_of_mem_repr {n : Nat} {c : Char} (h : c ∈ n.repr.toList) : c.isDigit = true := by
  rw [Nat.toList_repr] at h
  exact Nat.isDigit_of_mem_toDigits (by decide) (by decide) h

theorem isWord_repr (n : Nat) : IsWord n.repr.toList where
  nonempty := by
    rw [Nat.toList_repr]
    exact Nat.toDigits_ne_nil
  visible := fun _ hc => visible_of_isDigit (isDigit_of_mem_repr hc)

/-- The text of an integer: its digits, behind a minus sign if it is negative. -/
theorem toList_toString (n : Int) : (toString n).toList
    = if n < 0 then '-' :: n.natAbs.repr.toList else n.natAbs.repr.toList := by
  rw [Int.toString_eq_repr, Int.repr_eq_if]
  split
  · rw [if_neg (by omega), show n.toNat = n.natAbs by omega]
  · rw [if_pos (by omega), String.toList_append, show (-n).toNat = n.natAbs by omega]
    rfl

theorem isWord_toString (n : Int) : IsWord (toString n).toList := by
  rw [toList_toString]
  split
  · refine ⟨List.cons_ne_nil _ _, fun c hc => ?_⟩
    rcases List.mem_cons.mp hc with rfl | hc
    · exact ⟨by decide, by decide⟩
    · exact (isWord_repr _).visible c hc
  · exact isWord_repr _

theorem digits?_repr (n : Nat) : digits? n.repr.toList = some n := by
  have hall : n.repr.toList.all Char.isDigit = true :=
    List.all_eq_true.mpr fun _ hc => isDigit_of_mem_repr hc
  unfold digits?
  rw [hall, List.isEmpty_eq_false_iff.mpr (isWord_repr n).nonempty]
  simp only [Bool.not_true, Bool.or_false, Bool.false_eq_true, if_false, Option.some.injEq]
  rw [← Nat.ofDigitChars_eq_foldl, Nat.toList_repr, Nat.ofDigitChars_ten_toDigits]

/-- **A printed integer is read back** as a word. -/
theorem integer?_toString {n : Int} (hlow : -9223372036854775808 ≤ n)
    (hhigh : n < 9223372036854775808) :
    integer? (toString n).toList = some n := by
  have hbounds : decide (-(Nat.pow 2 63 : Int) ≤ n ∧ n < (Nat.pow 2 63 : Int)) = true :=
    decide_eq_true ⟨hlow, hhigh⟩
  rw [toList_toString]
  split
  · rename_i hneg
    have hn : -(n.natAbs : Int) = n := by omega
    unfold integer?
    simp only [digits?_repr]
    show Option.filter _ (some (-(n.natAbs : Int))) = some n
    rw [hn, Option.filter_some, hbounds, if_pos rfl]
  · rename_i hpos
    have hn : Int.ofNat n.natAbs = n := by
      show (n.natAbs : Int) = n
      omega
    obtain ⟨d, ds, hds⟩ := List.exists_cons_of_ne_nil (isWord_repr n.natAbs).nonempty
    have hd := isDigit_bounds (isDigit_of_mem_repr (hds ▸ List.mem_cons_self : d ∈ _))
    have hplus : d ≠ '+' := by rintro rfl; exact absurd hd.1 (by decide)
    have hminus : d ≠ '-' := by rintro rfl; exact absurd hd.1 (by decide)
    unfold integer?
    split
    · rename_i heq
      rw [hds] at heq
      exact absurd (List.cons.inj heq).1 hplus
    · rename_i heq
      rw [hds] at heq
      exact absurd (List.cons.inj heq).1 hminus
    · simp only [digits?_repr, Option.map_some, hn, Option.filter_some, hbounds, if_true]

end Text

/-! ## Moving the cursor -/

namespace Cursor

open Text (bytes IsWord Visible)

variable {c : Cursor} {b : UInt8} {rest : List UInt8}

@[simp] theorem advance_zero (c : Cursor) : c.advance 0 = c := rfl

@[simp] theorem advance_advance (c : Cursor) (m n : Nat) :
    (c.advance m).advance n = c.advance (m + n) := by
  simp [advance, Nat.add_assoc]

theorem rest_advance {xs : List UInt8} {n : Nat} (h : c.rest = xs ++ rest) (hn : n = xs.length) :
    (c.advance n).rest = rest := by
  simp [advance, h, hn]

theorem rest_advance_one (h : c.rest = b :: rest) : (c.advance 1).rest = rest := by
  simp [advance, h]

theorem skipBlanks_of_not_blank (h : c.rest = b :: rest) (hb : isBlank b = false) :
    c.skipBlanks = c := by
  simp [skipBlanks, h, hb]

/-! ## Integers -/

theorem digit?_byte {d : Char} (h : d.isDigit = true) :
    digit? d.toUInt8 = some (d.toNat - 48) ∧ d.toUInt8 ≠ 45 := by
  have hd := Text.isDigit_bounds h
  have hbyte : d.toUInt8.toNat = d.toNat := Text.toNat_toUInt8 (by omega)
  refine ⟨?_, fun heq => ?_⟩
  · unfold digit?
    simp [UInt8.le_iff_toNat_le, hbyte, hd]
  · rw [heq] at hbyte
    have : (45 : UInt8).toNat = 45 := rfl
    omega

theorem digit?_blank (hb : isBlank b = true) : digit? b = none ∧ b ≠ 45 := by
  have hcases : b = 32 ∨ b = 9 ∨ b = 10 ∨ b = 12 ∨ b = 13 := by
    simpa [isBlank, or_assoc] using hb
  rcases hcases with rfl | rfl | rfl | rfl | rfl <;> decide

theorem le_ofDigitChars (ds : List Char) (value : Nat) : value ≤ Nat.ofDigitChars 10 ds value := by
  rw [Nat.ofDigitChars_eq_ofDigitChars_zero]
  have : value ≤ 10 ^ ds.length * value := Nat.le_mul_of_pos_left _ (Nat.pow_pos (by decide))
  omega

/-- **Digits up to a blank**, by induction on the digits: what was read before
them is shifted to the left. -/
theorem integerFrom_digits (start : Nat) (ds : List Char) (hds : ∀ d ∈ ds, d.isDigit = true)
    (hb : isBlank b = true) (value : Nat) (negated : Bool) (hc : c.rest = bytes ds ++ b :: rest)
    (hlt : Nat.ofDigitChars 10 ds value < 9223372036854775808) :
    integerFrom start c value negated
      = .ok (if negated then -(Nat.ofDigitChars 10 ds value : Int)
          else Nat.ofDigitChars 10 ds value, c.advance (ds.length + 1)) := by
  induction ds generalizing c value with
  | nil =>
    obtain ⟨hdigit, hminus⟩ := digit?_blank hb
    rw [integerFrom.eq_def]
    split
    · rename_i hnil
      rw [hnil] at hc
      cases hc
    · rename_i b' tail hcons
      rw [hcons] at hc
      obtain ⟨rfl, rfl⟩ := List.cons.inj hc
      simp [hminus, hdigit, hb]
  | cons d ds ih =>
    obtain ⟨hdigit, hminus⟩ := digit?_byte (hds d List.mem_cons_self)
    rw [Nat.ofDigitChars_cons, show '0'.toNat = 48 from rfl] at hlt ⊢
    rw [integerFrom.eq_def]
    split
    · rename_i hnil
      rw [hnil] at hc
      cases hc
    · rename_i b' tail hcons
      have hstep := hc
      rw [hcons] at hstep
      obtain ⟨rfl, rfl⟩ := List.cons.inj hstep
      have hbound : 10 * value + (d.toNat - 48) < Nat.pow 2 63 :=
        Nat.lt_of_le_of_lt (le_ofDigitChars ds _) hlt
      have hnext : (c.advance 1).rest = bytes ds ++ b :: rest := rest_advance_one hc
      simp only [hminus, hdigit, hbound, if_true, if_false]
      rw [ih (fun e he => hds e (List.mem_cons_of_mem _ he)) _ hnext hlt]
      simp [Nat.add_comm]

/-- **A printed integer** up to a blank, which is read as well. -/
theorem integer_number {n : Int} (low high : Int) (hb : isBlank b = true)
    (hc : c.rest = bytes (toString n).toList ++ b :: rest) (hlow : low ≤ n) (hhigh : n ≤ high)
    (hn : n.natAbs < 9223372036854775808) :
    ∃ c' : Cursor, c.integer low high = .ok (n, c') ∧ c'.rest = rest := by
  have hsplit : c.rest = (bytes (toString n).toList ++ [b]) ++ rest := by
    rw [hc, List.append_assoc]
    rfl
  have hdigits : ∀ d ∈ n.natAbs.repr.toList, d.isDigit = true := fun _ =>
    Text.isDigit_of_mem_repr
  have hvalue : Nat.ofDigitChars 10 n.natAbs.repr.toList 0 = n.natAbs := by
    rw [Nat.toList_repr, Nat.ofDigitChars_ten_toDigits]
  have hread : integerFrom c.offset c 0 false
      = .ok (n, c.advance ((toString n).toList.length + 1)) := by
    rw [Text.toList_toString] at hc ⊢
    split at hc
    · rename_i hneg
      rw [if_pos hneg, integerFrom.eq_def]
      split
      · rename_i hnil
        rw [hnil] at hc
        cases hc
      · rename_i b' tail hcons
        have hstep := hc
        rw [hcons] at hstep
        obtain ⟨rfl, rfl⟩ := List.cons.inj hstep
        have hnext : (c.advance 1).rest = bytes n.natAbs.repr.toList ++ b :: rest :=
          rest_advance_one hc
        have hminus : ('-' : Char).toUInt8 = 45 := by decide
        simp only [hminus, if_true, Bool.false_eq_true, if_false]
        rw [integerFrom_digits _ _ hdigits hb _ _ hnext (by rw [hvalue]; exact hn), hvalue]
        simp only [if_true, advance_advance, List.length_cons]
        rw [show -(n.natAbs : Int) = n by omega, Nat.add_comm 1]
    · rename_i hpos
      rw [if_neg hpos, integerFrom_digits _ _ hdigits hb _ _ hc (by rw [hvalue]; exact hn), hvalue]
      simp only [Bool.false_eq_true, if_false]
      rw [show (n.natAbs : Int) = n by omega]
  refine ⟨c.advance ((toString n).toList.length + 1), ?_, rest_advance hsplit ?_⟩
  · unfold integer
    rw [hread]
    simp only [hlow, hhigh, and_self, if_true]
  · rw [List.length_append, Text.length_bytes, List.length_singleton]

/-! ## Comments -/

/-- Words with a blank before each. -/
def spaced (ws : List (List Char)) : List Char := ws.flatMap (' ' :: ·)

@[simp] theorem spaced_nil : spaced [] = [] := rfl

@[simp] theorem spaced_cons (w : List Char) (ws : List (List Char)) :
    spaced (w :: ws) = ' ' :: (w ++ spaced ws) := rfl

theorem word_run {w : List Char} (hw : ∀ ch ∈ w, Visible ch) (pos : Nat) :
    (wordsFrom.word pos (bytes w).reverse).1 = w := by
  show (bytes w).reverse.reverse.map _ = w
  rw [List.reverse_reverse, bytes, List.map_map]
  exact (List.map_congr_left fun ch hch => (hw ch hch).ofNat_byte).trans (List.map_id w)

theorem wordsFrom_visible (hb : isBlank b = false) (pos : Nat) (run : List UInt8) :
    wordsFrom pos (b :: rest) run = wordsFrom (pos + 1) rest (b :: run) := by
  cases run <;> simp [wordsFrom, hb]

theorem wordsFrom_blank (hb : isBlank b = true) (pos : Nat) :
    wordsFrom pos (b :: rest) [] = wordsFrom (pos + 1) rest [] := by
  simp [wordsFrom, hb]

theorem wordsFrom_end {run : List UInt8} (hrun : run ≠ []) (pos : Nat) :
    wordsFrom pos [] run = [wordsFrom.word pos run] := by
  cases run with
  | nil => exact absurd rfl hrun
  | cons x xs => simp [wordsFrom]

theorem wordsFrom_blank_run (hb : isBlank b = true) {run : List UInt8} (hrun : run ≠ [])
    (pos : Nat) :
    wordsFrom pos (b :: rest) run = wordsFrom.word pos run :: wordsFrom (pos + 1) rest [] := by
  cases run with
  | nil => exact absurd rfl hrun
  | cons x xs => simp [wordsFrom, hb]

/-- A word is collected backwards. -/
theorem wordsFrom_word (w : List Char) (hw : ∀ ch ∈ w, Visible ch) (pos : Nat)
    (run : List UInt8) : wordsFrom pos (bytes w ++ rest) run
      = wordsFrom (pos + w.length) rest ((bytes w).reverse ++ run) := by
  induction w generalizing pos run with
  | nil => rfl
  | cons ch w ih =>
    rw [Text.bytes_cons, List.cons_append, wordsFrom_visible (hw ch List.mem_cons_self).not_blank,
      ih (fun d hd => hw d (List.mem_cons_of_mem _ hd)), List.reverse_cons, List.append_assoc,
      List.length_cons, Nat.add_assoc, Nat.add_comm 1]
    rfl

/-- **The words of a comment**, by induction on those still to come, with one
under way. -/
theorem words_run (ws : List (List Char)) (hws : ∀ w ∈ ws, IsWord w) (w : List Char)
    (hw : IsWord w) (pos : Nat) :
    (wordsFrom pos (bytes (spaced ws)) (bytes w).reverse).map Prod.fst = w :: ws := by
  have hrun : ∀ {w : List Char}, IsWord w → (bytes w).reverse ≠ [] := fun hw => by
    simpa [bytes] using hw.nonempty
  induction ws generalizing w pos with
  | nil =>
    rw [spaced_nil, Text.bytes_nil, wordsFrom_end (hrun hw), List.map_cons,
      word_run hw.visible, List.map_nil]
  | cons v ws ih =>
    have hv := hws v List.mem_cons_self
    rw [spaced_cons, Text.bytes_cons, Text.bytes_append,
      wordsFrom_blank_run (by decide) (hrun hw), List.map_cons, word_run hw.visible,
      wordsFrom_word v hv.visible, List.append_nil,
      ih (fun u hu => hws u (List.mem_cons_of_mem _ hu)) v hv]

theorem words_spaced (ws : List (List Char)) (hws : ∀ w ∈ ws, IsWord w) (pos : Nat) :
    (wordsFrom pos (bytes (spaced ws)) []).map Prod.fst = ws := by
  cases ws with
  | nil => rfl
  | cons w ws =>
    have hw := hws w List.mem_cons_self
    rw [spaced_cons, Text.bytes_cons, Text.bytes_append, wordsFrom_blank (by decide),
      wordsFrom_word w hw.visible, List.append_nil,
      words_run ws (fun u hu => hws u (List.mem_cons_of_mem _ hu)) w hw]

theorem ascii_spaced {ws : List (List Char)} (hws : ∀ w ∈ ws, IsWord w) :
    ∀ ch ∈ spaced ws, ch = ' ' ∨ Visible ch := by
  intro ch hch
  obtain ⟨w, hw, hin⟩ := List.mem_flatMap.mp hch
  exact (List.mem_cons.mp hin).imp_right ((hws w hw).visible ch)

/-- **A comment line** states what its words do. -/
theorem comment_line {ws : List (List Char)} (hws : ∀ w ∈ ws, IsWord w) {items : List Item}
    (hc : c.rest = bytes (spaced ws) ++ 10 :: rest)
    (hitems : commentItems (bytes (spaced ws)) c.offset = .ok items) :
    ∃ c' : Cursor, c.comment = .ok (items, c') ∧ c'.rest = rest := by
  have hsplit : c.rest = (bytes (spaced ws) ++ [10]) ++ rest := by
    rw [hc, List.append_assoc]
    rfl
  have hno : ∀ x ∈ bytes (spaced ws), (x != 10) = true := by
    intro x hx
    obtain ⟨ch, hch, rfl⟩ := List.mem_map.mp hx
    rcases ascii_spaced hws ch hch with rfl | hvis
    · decide
    · have hblank := hvis.not_blank
      refine bne_iff_ne.mpr fun heq => ?_
      rw [heq] at hblank
      cases hblank
  have hline : c.rest.takeWhile (· != 10) = bytes (spaced ws) := by
    rw [hc, List.takeWhile_append_of_pos hno]
    simp
  refine ⟨c.advance ((spaced ws).length + 1), ?_, rest_advance hsplit ?_⟩
  · unfold comment takeLine
    simp only [hline]
    rw [if_pos (by rw [hc]; simp)]
    simp only [hitems, Text.length_bytes]
  · rw [List.length_append, Text.length_bytes, List.length_singleton]

/-- What a comment states depends on its words only. -/
theorem commentItems_spaced {ws : List (List Char)} (hws : ∀ w ∈ ws, IsWord w) (pos : Nat) :
    ∃ found : List (List Char × Span), found.map Prod.fst = ws ∧
      commentItems (bytes (spaced ws)) pos = match found with
        | (['p'], _) :: (keyword, span) :: rest =>
          if keyword = "show".toList then (projectionVars rest).map fun vars => [.projection vars]
          else if keyword = "weight".toList then (weightItem span rest).map fun item => [item]
          else .ok []
        | _ => .ok [] := by
  have hascii : ∀ ch ∈ spaced ws, ch.toNat < 128 := by
    intro ch hch
    rcases ascii_spaced hws ch hch with rfl | hvis
    · decide
    · exact hvis.lt
  refine ⟨_, words_spaced ws hws pos, ?_⟩
  unfold commentItems
  rw [Text.validateUTF8_bytes _ hascii]
  rfl

/-! ## Clauses -/

theorem skipBlanks_word {w : List Char} (hw : IsWord w) (hc : c.rest = bytes w ++ rest) :
    c.skipBlanks = c ∧ c.rest ≠ [] := by
  obtain ⟨ch, w, rfl⟩ := List.exists_cons_of_ne_nil hw.nonempty
  exact ⟨skipBlanks_of_not_blank hc (hw.visible ch List.mem_cons_self).not_blank,
    by rw [hc]; exact List.cons_ne_nil _ _⟩

end Cursor

theorem Var.ofNumber?_number {v : Var} (h : v.index ≤ Var.maxIndex) :
    Var.ofNumber? v.number = some v := by
  have hpos : (0 : Int) < (v.index : Int) + 1 := by omega
  simp [ofNumber?, ofIndex?, number, hpos, h]

theorem Lit.ofNumber?_number {l : Lit} (h : l.var.index ≤ Var.maxIndex) :
    Lit.ofNumber? l.number = some l := by
  obtain ⟨v, positive⟩ := l
  have hpos : (0 : Int) < v.number := Int.natCast_pos.mpr (Nat.succ_pos _)
  unfold ofNumber? number
  cases positive with
  | true =>
    rw [if_pos rfl, if_pos hpos, Var.ofNumber?_number h, decide_eq_true hpos]
    rfl
  | false =>
    rw [if_neg Bool.false_ne_true, if_neg (by omega), Int.neg_neg, Var.ofNumber?_number h]
    simp [Var.lit]

theorem Lit.number_bounds {l : Lit} (h : l.var.index ≤ Var.maxIndex) :
    -2147483648 ≤ l.number ∧ l.number ≤ 2147483647 ∧ l.number ≠ 0 := by
  have : l.var.index ≤ 2147483646 := h
  unfold Lit.number Var.number
  split <;> refine ⟨?_, ?_, ?_⟩ <;> omega

namespace Cursor

open Text (bytes IsWord Visible)

variable {c : Cursor} {b : UInt8} {rest : List UInt8}

/-- The characters of a clause line up to its zero. -/
def litsChars (lits : Clause) : List Char := lits.flatMap fun l => l.text.toList ++ [' ']

theorem literals_word {w : List Char} (hw : IsWord w) (hc : c.rest = bytes w ++ rest) {n : Int}
    {next : Cursor} (hread : c.integer (-2147483648) 2147483647 = .ok (n, next)) :
    c.literals = if n = 0 then .ok ([], next)
      else match Lit.ofNumber? n with
        | none => .error (.literalOutOfBound n (.between c.offset next.offset))
        | some l => next.literals.map fun (lits, c'') => (l :: lits, c'') := by
  obtain ⟨hskip, hne⟩ := skipBlanks_word hw hc
  rw [literals.eq_def]
  simp only [hskip, hne, dite_false]
  split
  · rename_i hn
    rw [hskip, hread] at hn
    cases hn
  · rename_i hn
    rw [hskip, hread] at hn
    cases hn
    rfl

/-- **The literals of a clause** up to its zero and the line feed, by induction
on the clause. -/
theorem literals_line (lits : Clause) (hlits : ∀ l ∈ lits, l.var.index ≤ Var.maxIndex)
    (hc : c.rest = bytes (litsChars lits ++ ['0', '\n']) ++ rest) :
    ∃ c' : Cursor, c.literals = .ok (lits, c') ∧ c'.rest = rest := by
  induction lits generalizing c with
  | nil =>
    have hzero : c.rest = bytes (toString (0 : Int)).toList ++ 10 :: rest := hc
    obtain ⟨c', hread, hrest⟩ := integer_number (-2147483648) 2147483647 (by decide) hzero
      (by decide) (by decide) (by decide)
    exact ⟨c', literals_word (Text.isWord_toString 0) hzero hread, hrest⟩
  | cons l lits ih =>
    have hl := hlits l List.mem_cons_self
    obtain ⟨hlow, hhigh, hnonzero⟩ := Lit.number_bounds hl
    have hword : c.rest = bytes (toString l.number).toList
        ++ 32 :: (bytes (litsChars lits ++ ['0', '\n']) ++ rest) := by
      rw [hc, show (32 : UInt8) = ' '.toUInt8 from rfl]
      simp [litsChars, Lit.text]
    obtain ⟨next, hread, hnext⟩ := integer_number _ _ (by decide) hword hlow hhigh (by omega)
    obtain ⟨c', hmore, hrest⟩ := ih (fun m hm => hlits m (List.mem_cons_of_mem _ hm)) hnext
    refine ⟨c', ?_, hrest⟩
    rw [literals_word (Text.isWord_toString l.number) hword hread, if_neg hnonzero,
      Lit.ofNumber?_number hl, hmore]
    rfl

end Cursor

end Cleave
