import Cleave.Proofs.ErrorSpans

/-!
# Where errors point at

An error of the clause section blames the first word outside comments that is
not read (`Cursor.FirstUnread`): the word with a byte that starts neither a
number nor a comment, or the number that is out of bound. Words are found
together with their places (`Cursor.placedWords`), without any reading of
numbers.

An unexpected byte is pointed at exactly in the clause section, where the reader
has only looked at it. Before the header the byte has been read already, and the
place behind it is given.

The span of a number that is out of bound ends one byte early or late in some
files (`Cursor.blamedLength`). The number is read up to and including the blank
behind it. If it does not fit into 32 bits, the last byte is taken off as that
blank, which is wrong at the end of the file. If it does, and is no literal for
all that, the blank is left in.
-/

namespace Cleave

/-- A nonzero number is that of a literal up to the largest variable. -/
theorem Lit.ofNumber?_eq_none_iff {n : Int} (hn : n ≠ 0) :
    ofNumber? n = none ↔ 2147483647 < n.natAbs := by
  unfold ofNumber? Var.ofNumber? Var.ofIndex? Var.maxIndex
  rw [Option.map_eq_none_iff]
  split <;> split <;> simp <;> omega

namespace Cursor

/-! ## Words and their places -/

/-- What follows the blanks and the comments a text starts with. -/
def pastComments : List UInt8 → List UInt8
  | [] => []
  | b :: rest =>
    if isBlank b then pastComments rest
    else if b = 99 then pastComments (pastLine rest)
    else b :: rest
termination_by bs => bs.length
decreasing_by
  · simp
  · exact Nat.lt_succ_of_le (length_pastLine_le rest)

/-- **The words of a text outside comments with their places**, in an input of
`total` bytes that ends with the text. -/
def placedWords (total : Nat) : List UInt8 → List (Nat × List UInt8)
  | [] => []
  | b :: rest =>
    if isBlank b then placedWords total rest
    else if b = 99 then placedWords total (pastLine rest)
    else (total - (b :: rest).length, b :: wordAt rest) :: placedWords total (pastWord rest)
termination_by bs => bs.length
decreasing_by
  · simp
  · exact Nat.lt_succ_of_le (length_pastLine_le rest)
  · exact Nat.lt_succ_of_le (length_pastWord_le rest)

variable {bs text : List UInt8} {total : Nat} {c c' : Cursor} {e : ReadError}

theorem pastComments_cons (b : UInt8) (rest : List UInt8) : pastComments (b :: rest)
    = if isBlank b then pastComments rest
      else if b = 99 then pastComments (pastLine rest)
      else b :: rest := by
  rw [pastComments]

theorem pastComments_blank : IgnoresBlanks pastComments := fun {b rest} hb => by
  rw [pastComments_cons, if_pos hb]

theorem pastComments_comment (rest : List UInt8) :
    pastComments (99 :: rest) = pastComments (pastLine rest) := by
  rw [pastComments_cons, if_neg (by decide), if_pos rfl]

theorem pastComments_word {b : UInt8} {rest : List UInt8} (hb : isBlank b = false) (hc : b ≠ 99) :
    pastComments (b :: rest) = b :: rest := by
  rw [pastComments_cons, hb, if_neg Bool.false_ne_true, if_neg hc]

theorem pastComments_suffix (bs : List UInt8) : pastComments bs <:+ bs := by
  fun_induction pastComments bs with
  | case1 => exact List.suffix_refl _
  | case2 b rest hb ih => exact ih.trans (List.suffix_cons b rest)
  | case3 rest hb ih =>
    exact (ih.trans (List.dropWhile_suffix _)).trans (List.suffix_cons _ rest)
  | case4 => exact List.suffix_refl _

theorem placedWords_cons (b : UInt8) (rest : List UInt8) : placedWords total (b :: rest)
    = if isBlank b then placedWords total rest
      else if b = 99 then placedWords total (pastLine rest)
      else (total - (b :: rest).length, b :: wordAt rest)
        :: placedWords total (pastWord rest) := by
  rw [placedWords]

theorem placedWords_blank : IgnoresBlanks (placedWords total) := fun {b rest} hb => by
  rw [placedWords_cons, if_pos hb]

theorem placedWords_comment (rest : List UInt8) :
    placedWords total (99 :: rest) = placedWords total (pastLine rest) := by
  rw [placedWords_cons, if_neg (by decide), if_pos rfl]

theorem placedWords_word {b : UInt8} {rest : List UInt8} (hb : isBlank b = false) (hc : b ≠ 99) :
    placedWords total (b :: rest) = (total - (b :: rest).length, wordAt (b :: rest))
      :: placedWords total (pastWord (b :: rest)) := by
  rw [placedWords_cons, hb, if_neg Bool.false_ne_true, if_neg hc, (wordAt_cons hb rest).1,
    (wordAt_cons hb rest).2]

/-- Without their places these are the words outside comments. -/
theorem placedWords_words (total : Nat) (bs : List UInt8) :
    (placedWords total bs).map Prod.snd = bareWords bs := by
  fun_induction placedWords total bs with
  | case1 => rw [bareWords]; rfl
  | case2 b rest hb ih => rw [bareWords_blank hb, ih]
  | case3 rest hb ih => rw [bareWords_comment, ih]
  | case4 b rest hb hc ih =>
    have hblank := Bool.eq_false_iff.mpr hb
    rw [bareWords_word hblank hc, List.map_cons, ih, (wordAt_cons hblank rest).1,
      (wordAt_cons hblank rest).2]

/-- **A word stands at its place**, which lies within the text. -/
theorem placedWords_at (hsuffix : text <:+ bs) : ∀ p ∈ placedWords bs.length text,
    wordAt (bs.drop p.1) = p.2 ∧ bs.length - text.length ≤ p.1 := by
  -- what a smaller text has is at least as far behind
  have hweaken : ∀ {short long : List UInt8}, short.length ≤ long.length →
      ∀ {p : Nat × List UInt8}, wordAt (bs.drop p.1) = p.2 ∧ bs.length - short.length ≤ p.1 →
        wordAt (bs.drop p.1) = p.2 ∧ bs.length - long.length ≤ p.1 :=
    fun hlen p hp => ⟨hp.1, by omega⟩
  fun_induction placedWords bs.length text with
  | case1 => simp
  | case2 b rest hb ih =>
    have hrest := (List.suffix_cons b rest)
    exact fun p hp => hweaken hrest.length_le (ih (hrest.trans hsuffix) p hp)
  | case3 rest hb ih =>
    have hline : pastLine rest <:+ 99 :: rest :=
      (List.dropWhile_suffix _).trans (List.suffix_cons _ rest)
    exact fun p hp => hweaken hline.length_le (ih (hline.trans hsuffix) p hp)
  | case4 b rest hb hc ih =>
    have hword : pastWord rest <:+ b :: rest :=
      (List.dropWhile_suffix _).trans (List.suffix_cons _ rest)
    refine List.forall_mem_cons.mpr ⟨⟨?_, Nat.le_refl _⟩, fun p hp =>
      hweaken hword.length_le (ih (hword.trans hsuffix) p hp)⟩
    rw [← List.suffix_iff_eq_drop.mp hsuffix, (wordAt_cons (Bool.eq_false_iff.mpr hb) rest).1]

/-! ## The first word that is not read -/

/-- **A word that is read in the clause section**: an integer that is zero or the
number of a literal. -/
structure Readable (w : List UInt8) : Prop where
  loose : LooseInteger w
  small : (looseValue w).natAbs ≤ 2147483647

/-- **The words before a place are read**, and the word there is the next one. -/
def FirstUnread (total : Nat) (text : List UInt8) (place : Nat) (w : List UInt8) : Prop :=
  ∃ before after, placedWords total text = before ++ (place, w) :: after
    ∧ ∀ p ∈ before, Readable p.2

/-- How many bytes are blamed for a number that is written in `len` bytes: with the
blank behind it, if one follows, and without the last byte unless the number is the
one that fits into 32 bits and is no literal. -/
def blamedLength (n : Int) (len : Nat) (followed : Bool) : Nat :=
  len + followed.toNat - if n = -2147483648 then 0 else 1

/-- The blame is exact for numbers that a blank follows, but for the one that
fits into 32 bits and is no literal: there it is exact at the end of the file. -/
theorem blamedLength_eq_iff {n : Int} {len : Nat} {followed : Bool} (hlen : 0 < len) :
    blamedLength n len followed = len ↔ (followed = true ↔ n ≠ -2147483648) := by
  unfold blamedLength
  cases followed <;> by_cases hn : n = -2147483648 <;> simp [hn]
  omega

/-- **A number that is blamed**: the first word that is not read writes it, and
it is out of bound. -/
structure BlamesNumber (bs text : List UInt8) (n : Int) (span : Span) (w : List UInt8) : Prop where
  first : FirstUnread bs.length text span.offset w
  loose : LooseInteger w
  value : looseValue w = n
  large : 2147483647 < n.natAbs
  length : span.length = blamedLength n w.length (span.offset + w.length < bs.length)

/-- **What an error of the clause section blames**, if `text` was still to be
read: a byte that no number starts with, a number, or a word of a comment. -/
def Blames (bs text : List UInt8) : ReadError → Prop
  | .unexpectedByte span => span.length = 0 ∧ ∃ b w,
      FirstUnread bs.length text span.offset (b :: w) ∧ b ≠ 45 ∧ digit? b = none
  | .literalOutOfBound n span => (∃ w, BlamesNumber bs text n span w)
      ∨ (span.IsWord bs ∧ bs.length - text.length ≤ span.offset
        ∧ ∀ w, (span.offset, w) ∉ placedWords bs.length text)
  | _ => True

/-- **Words that were read** before some text, at places before it. -/
structure ReadBefore (bs text rest : List UInt8) (ws : List (Nat × List UInt8)) : Prop where
  words : placedWords bs.length text = ws ++ placedWords bs.length rest
  readable : ∀ p ∈ ws, Readable p.2
  place : ∀ p ∈ ws, p.1 < bs.length - rest.length
  shorter : rest.length ≤ text.length

theorem ReadBefore.firstUnread {rest w : List UInt8} {ws : List (Nat × List UInt8)} {place : Nat}
    (h : ReadBefore bs text rest ws) (hfirst : FirstUnread bs.length rest place w) :
    FirstUnread bs.length text place w := by
  obtain ⟨before, after, hwords, hbefore⟩ := hfirst
  refine ⟨ws ++ before, after, ?_, List.forall_mem_append.mpr ⟨h.readable, hbefore⟩⟩
  rw [h.words, hwords, List.append_assoc]

/-- What is blamed in the rest of a text is blamed in the text. -/
theorem ReadBefore.blames {rest : List UInt8} {ws : List (Nat × List UInt8)}
    (h : ReadBefore bs text rest ws) (he : Blames bs rest e) : Blames bs text e := by
  have hshorter := h.shorter
  cases e with
  | unexpectedByte span =>
    obtain ⟨hpoint, b, w, hfirst, hbyte⟩ := he
    exact ⟨hpoint, b, w, h.firstUnread hfirst, hbyte⟩
  | literalOutOfBound n span =>
    rcases he with ⟨w, hnumber⟩ | ⟨hword, hplace, hnot⟩
    · exact Or.inl ⟨w, { hnumber with first := h.firstUnread hnumber.first }⟩
    · refine Or.inr ⟨hword, by omega, fun w hw => ?_⟩
      rw [h.words] at hw
      rcases List.mem_append.mp hw with hw | hw
      · have := h.place _ hw
        omega
      · exact hnot w hw
  | _ => trivial

namespace ReadBefore

variable {middle rest : List UInt8} {ws vs : List (Nat × List UInt8)}

theorem of_eq (hwords : placedWords bs.length text = placedWords bs.length rest)
    (hshorter : rest.length ≤ text.length) : ReadBefore bs text rest [] :=
  ⟨hwords, by simp, by simp, hshorter⟩

theorem skipBlanks (bs : List UInt8) (c : Cursor) : ReadBefore bs c.rest c.skipBlanks.rest [] :=
  .of_eq (by rw [rest_skipBlanks, placedWords_blank.pastBlanks]) (length_skipBlanks_le c)

theorem trans (h : ReadBefore bs text middle ws) (h' : ReadBefore bs middle rest vs) :
    ReadBefore bs text rest (ws ++ vs) := by
  have hshorter := h'.shorter
  refine ⟨by rw [h.words, h'.words, List.append_assoc],
    List.forall_mem_append.mpr ⟨h.readable, h'.readable⟩,
    List.forall_mem_append.mpr ⟨fun p hp => ?_, h'.place⟩, Nat.le_trans hshorter h.shorter⟩
  have := h.place p hp
  omega

end ReadBefore

/-! ## Numbers -/

theorem On.offset_eq (h : c.On bs) : bs.length - c.rest.length = c.offset := by
  have := h.offset_add
  omega

theorem AtWord.placedWords (hword : c.AtWord) (h : c.On bs) (hnot : c.rest.head? ≠ some 99) :
    placedWords bs.length c.rest
      = (c.offset, wordAt c.rest) :: placedWords bs.length (pastWord c.rest) := by
  obtain ⟨b, rest, hc, hb⟩ := hword
  have hplace := h.offset_eq
  rw [hc] at hplace hnot ⊢
  rw [placedWords_word hb (by simpa using hnot), hplace]

/-- **A number that was read** is the next word, and the blank behind it was read
as well. -/
structure ReadsNumber (bs : List UInt8) (c c' : Cursor) (n : Int) : Prop where
  loose : LooseInteger (wordAt c.rest)
  value : looseValue (wordAt c.rest) = n
  words : placedWords bs.length c.rest = (c.offset, wordAt c.rest) :: placedWords bs.length c'.rest
  stop : c'.offset = c.offset + (wordAt c.rest).length
    + (decide (c.offset + (wordAt c.rest).length < bs.length)).toNat

theorem AtWord.readsNumber {n : Int} (hword : c.AtWord) (h : c.On bs)
    (hread : integerFrom c.offset c 0 false = .ok (n, c')) : ReadsNumber bs c c' n := by
  have hinteger : c.integer n n = .ok (n, c') := by
    unfold integer
    simp [hread]
  obtain ⟨hloose, hvalue, hrest⟩ := integer_word hinteger
  have hnot : c.rest.head? ≠ some 99 := by
    obtain ⟨b, rest, hc, hb⟩ := hword
    rw [hc, (wordAt_cons hb rest).1] at hloose
    rw [hc]
    simpa using hloose.not_comment
  have hsplit : (wordAt c.rest).length + (pastWord c.rest).length = c.rest.length := by
    rw [← List.length_append]
    exact congrArg _ List.takeWhile_append_dropWhile
  have hstop := ((h.integer n n).ok hinteger).offset_add
  have hadd := h.offset_add
  refine ⟨hloose, hvalue, ?_, ?_⟩
  · rw [hword.placedWords h hnot, hrest, placedWords_blank.tail_pastWord]
  · simp only [hrest, List.length_tail] at hstop
    by_cases hfollowed : c.offset + (wordAt c.rest).length < bs.length
    · rw [decide_eq_true hfollowed, Bool.toNat_true]
      omega
    · rw [decide_eq_false hfollowed, Bool.toNat_false]
      omega

/-- A number that is zero or that of a literal. -/
theorem ReadsNumber.readBefore {n : Int} (h : ReadsNumber bs c c' n) (hc : c.On bs) (hc' : c'.On bs)
    (hlt : c'.rest.length < c.rest.length) (hsmall : n.natAbs ≤ 2147483647) :
    ReadBefore bs c.rest c'.rest [(c.offset, wordAt c.rest)] := by
  have := hc.offset_add
  have := hc'.offset_add
  exact ⟨h.words, List.forall_mem_singleton.mpr ⟨h.loose, h.value ▸ hsmall⟩,
    List.forall_mem_singleton.mpr (by omega), Nat.le_of_lt hlt⟩

/-- A number that is out of bound, and up to where it is blamed. -/
theorem ReadsNumber.blames {n : Int} (h : ReadsNumber bs c c' n) (hlarge : 2147483647 < n.natAbs) :
    Blames bs c.rest (.literalOutOfBound n
      (.between c.offset (c'.offset - if n = -2147483648 then 0 else 1))) := by
  refine Or.inl ⟨wordAt c.rest, ⟨[], _, h.words, by simp⟩, h.loose, h.value, hlarge, ?_⟩
  show c'.offset - _ - c.offset = blamedLength n (wordAt c.rest).length
    (decide (c.offset + (wordAt c.rest).length < bs.length))
  unfold blamedLength
  rw [h.stop]
  omega

/-- The ways in which a number of a clause is out of bound. -/
theorem integer_outOfBound {low high n : Int} {span : Span}
    (h : c.integer low high = .error (.literalOutOfBound n span)) :
    ∃ c', integerFrom c.offset c 0 false = .ok (n, c') ∧ ¬ (low ≤ n ∧ n ≤ high)
      ∧ span = .between c.offset (c'.offset - 1) := by
  unfold integer at h
  split at h
  · rename_i hread
    obtain rfl := Except.error.inj h
    rcases integerFrom_error hread with ⟨heq, -⟩ | ⟨_, heq⟩ <;> cases heq
  · rename_i next hread
    split at h
    · cases h
    · rename_i hout
      cases h
      exact ⟨next, hread, hout, rfl⟩

theorem integerFrom_of_integer {low high n : Int} (h : c.integer low high = .ok (n, c')) :
    integerFrom c.offset c 0 false = .ok (n, c') ∧ low ≤ n ∧ n ≤ high := by
  unfold integer at h
  split at h
  · cases h
  · rename_i hread
    split at h
    · rename_i hbounds
      cases h
      exact ⟨hread, hbounds⟩
    · cases h

/-! ## Clauses -/

/-- A number of a clause that was read, behind some blanks. -/
theorem On.number_readBefore {low high n : Int} (h : c.On bs) (hne : c.skipBlanks.rest ≠ [])
    (hn : c.skipBlanks.integer low high = .ok (n, c')) (hsmall : n.natAbs ≤ 2147483647) :
    ∃ ws, ReadBefore bs c.rest c'.rest ws := by
  have hnumber := (atWord_skipBlanks hne).readsNumber h.skipBlanks (integerFrom_of_integer hn).1
  have hnext := (h.skipBlanks.integer _ _).ok hn
  exact ⟨_, (ReadBefore.skipBlanks bs c).trans
    (hnumber.readBefore h.skipBlanks hnext (integer_lt hne hn) hsmall)⟩

theorem natAbs_le_of_ofNumber? {n : Int} {l : Lit} (hzero : n ≠ 0) (hl : Lit.ofNumber? n = some l) :
    n.natAbs ≤ 2147483647 := by
  by_contra hlarge
  rw [(Lit.ofNumber?_eq_none_iff hzero).mpr (Nat.lt_of_not_le hlarge)] at hl
  cases hl

/-- **A clause that was read**, by induction on its literals. -/
theorem On.literals_readBefore {lits : Clause} (h : c.On bs) (hread : c.literals = .ok (lits, c')) :
    ∃ ws, ReadBefore bs c.rest c'.rest ws := by
  fun_induction Cursor.literals c generalizing lits c' with
  | case1 => cases hread
  | case2 => cases hread
  | case3 =>
    rename_i c here hne next hn hlt
    obtain ⟨-, rfl⟩ := Prod.mk.inj (Except.ok.inj hread)
    exact h.number_readBefore hne hn (by decide)
  | case4 => cases hread
  | case5 =>
    rename_i c here hne n next hn hlt hzero l hl ih
    obtain ⟨⟨more, last⟩, hmore, heq⟩ := Except.map_eq_ok.mp hread
    obtain ⟨-, rfl⟩ := Prod.mk.inj heq
    obtain ⟨ws, hws⟩ := h.number_readBefore hne hn (natAbs_le_of_ofNumber? hzero hl)
    obtain ⟨vs, hvs⟩ := ih ((h.skipBlanks.integer _ _).ok hn) hmore
    exact ⟨_, hws.trans hvs⟩

/-- **A clause that is not read**, by induction on its literals. A number that is
out of bound does not fit into 32 bits, or is the one that fits and is no
literal. -/
theorem On.literals_blames (h : c.On bs) (he : c.literals = .error e) : Blames bs c.rest e := by
  fun_induction Cursor.literals c with
  | case1 =>
    obtain rfl := Except.error.inj he
    trivial
  | case2 c here hne e' hn =>
    obtain rfl := Except.error.inj he
    rcases integer_error hn with ⟨rfl, -⟩ | ⟨span, rfl⟩ | ⟨n, span, rfl⟩
    · trivial
    · trivial
    · -- refused by the bounds of 32 bits, so it is not the lowest number
      obtain ⟨next, hread, hout, rfl⟩ := integer_outOfBound hn
      have hblames := ((atWord_skipBlanks hne).readsNumber h.skipBlanks hread).blames (by omega)
      rw [if_neg (by omega)] at hblames
      exact (ReadBefore.skipBlanks bs c).blames hblames
  | case3 => cases he
  | case4 c here hne n next hn hlt hzero hl =>
    obtain rfl := Except.error.inj he
    -- within the bounds of 32 bits, so it is the lowest number
    obtain ⟨hread, hlow, hhigh⟩ := integerFrom_of_integer hn
    have hlarge := (Lit.ofNumber?_eq_none_iff hzero).mp hl
    have hblames := ((atWord_skipBlanks hne).readsNumber h.skipBlanks hread).blames hlarge
    rw [if_pos (by omega)] at hblames
    exact (ReadBefore.skipBlanks bs c).blames hblames
  | case5 c here hne n next hn hlt hzero l hl ih =>
    obtain ⟨ws, hws⟩ := h.number_readBefore hne hn (natAbs_le_of_ofNumber? hzero hl)
    exact hws.blames (ih ((h.skipBlanks.integer _ _).ok hn) (Except.map_eq_error.mp he))

/-- A comment between clauses is passed over. -/
theorem ReadBefore.comment {rest : List UInt8} {items : List Item} (hc : c.rest = 99 :: rest)
    (hread : (c.advance 1).comment = .ok (items, c')) : ReadBefore bs c.rest c'.rest [] := by
  have hline := rest_comment hread
  rw [rest_advance_one hc] at hline
  refine .of_eq ?_ ?_
  · rw [hc, placedWords_comment, hline, placedWords_blank.tail_pastLine]
  · have := length_pastLine_le rest
    rw [hc, hline, List.length_tail, List.length_cons]
    omega

/-- **A comment that is not read** is blamed by one of its words, which is none of
those outside comments. -/
theorem On.comment_blames {rest : List UInt8} (h : c.On bs) (hc : c.rest = 99 :: rest)
    (he : (c.advance 1).comment = .error e) : Blames bs c.rest e := by
  rcases (h.next hc).comment_error he with rfl | ⟨⟨span, hspan, hline⟩, hbyte⟩
  · trivial
  cases e with
  | unexpectedByte other => exact absurd rfl (hbyte other)
  | literalOutOfBound n other =>
    obtain rfl := Option.some.inj hspan
    have hfirst : c.offset + 1 ≤ other.offset := hline.first
    have hlast := hline.last
    have hpos := hline.isWord.pos
    rw [rest_advance_one hc] at hlast
    refine Or.inr ⟨hline.isWord, by rw [h.offset_eq]; omega, fun w hw => ?_⟩
    -- the next word outside comments stands behind the line
    rw [hc, placedWords_comment] at hw
    have hsuffix : pastLine rest <:+ bs := by
      refine (List.dropWhile_suffix _).trans ?_
      rw [← rest_advance_one hc, (h.next hc).rest]
      exact List.drop_suffix _ _
    have := (placedWords_at hsuffix _ hw).2
    simp only at this
    omega
  | _ => trivial

/-- **The clause section**, by induction on the bytes left. -/
theorem On.clauses_blames (h : c.On bs) (he : c.clauses = .error e) : Blames bs c.rest e := by
  fun_induction Cursor.clauses c with
  | case1 => cases he
  | case2 c here tail e' hread hc =>
    obtain rfl := Except.error.inj he
    exact (ReadBefore.skipBlanks bs c).blames (h.skipBlanks.comment_blames hc hread)
  | case3 c here tail items next hread hc hlt ih =>
    have hnext := ih ((h.skipBlanks.next hc).comment.ok hread) (Except.map_eq_error.mp he)
    exact ((ReadBefore.skipBlanks bs c).trans (.comment hc hread)).blames hnext
  | case4 c here b tail hc hcomment hstart e' hread =>
    obtain rfl := Except.error.inj he
    exact (ReadBefore.skipBlanks bs c).blames (h.skipBlanks.literals_blames hread)
  | case5 c here b tail hc hcomment hstart lits next hread hlt ih =>
    obtain ⟨ws, hws⟩ := h.skipBlanks.literals_readBefore hread
    exact ((ReadBefore.skipBlanks bs c).trans hws).blames
      (ih (h.skipBlanks.literals.ok hread) (Except.map_eq_error.mp he))
  | case6 c here b tail hc hcomment hstart =>
    obtain rfl := Except.error.inj he
    have hne : c.skipBlanks.rest ≠ [] := by
      rw [show c.skipBlanks.rest = b :: tail from hc]
      exact List.cons_ne_nil _ _
    have hword := atWord_skipBlanks hne
    have hwords := hword.placedWords h.skipBlanks (by rw [hc]; simpa using hcomment)
    obtain ⟨_, _, hc', hb⟩ := hword
    obtain ⟨rfl, rfl⟩ := List.cons.inj (hc.symm.trans hc')
    rw [show wordAt c.skipBlanks.rest = b :: wordAt tail by
      rw [show c.skipBlanks.rest = b :: tail from hc, (wordAt_cons hb tail).1]] at hwords
    simp only [Bool.or_eq_true, decide_eq_true_eq, not_or, Bool.not_eq_true,
      Option.isSome_eq_false_iff, Option.isNone_iff_eq_none] at hstart
    exact (ReadBefore.skipBlanks bs c).blames
      ⟨rfl, b, wordAt tail, ⟨[], _, hwords, by simp⟩, hstart⟩

/-! ## Before the clauses -/

theorem clauseText_blank : IgnoresBlanks clauseText := fun hb => by
  unfold clauseText
  rw [headerText?_blank hb]

theorem clauseText_comment (rest : List UInt8) :
    clauseText (99 :: rest) = clauseText (pastLine rest) := by
  unfold clauseText
  rw [headerText?, if_pos rfl]

theorem headerText?_suffix {rest : List UInt8} (h : headerText? bs = some rest) : rest <:+ bs := by
  fun_induction headerText? bs with
  | case1 => cases h
  | case2 tail ih => exact ((ih h).trans (List.dropWhile_suffix _)).trans (List.suffix_cons _ tail)
  | case3 =>
    obtain rfl := Option.some.inj h
    exact List.suffix_cons _ _
  | case4 b tail hcomment hheader ih => exact (ih h).trans (List.suffix_cons b tail)

theorem clauseText_suffix (bs : List UInt8) : clauseText bs <:+ bs := by
  unfold clauseText
  split
  · rename_i rest hrest
    refine List.IsSuffix.trans ?_ (headerText?_suffix hrest)
    have hpast : pastCounts (rest.drop 4) <:+ rest.drop 4 :=
      (List.dropWhile_suffix _).trans ((List.dropWhile_suffix _).trans
        ((List.dropWhile_suffix _).trans (List.dropWhile_suffix _)))
    exact hpast.trans (List.drop_suffix 4 rest)
  · exact List.nil_suffix

theorem counts_error (he : c.counts = .error e) : e.BlamesHeader := by
  have hcount : ∀ {c : Cursor} {fault : HeaderFault}, c.headerCount fault = .error e →
      e.BlamesHeader := fun {c fault} h => by
    by_cases hnil : c.skipBlanks.rest = []
    · rw [headerCount_of_nil fault hnil] at h
      obtain rfl := Except.error.inj h
      exact Or.inr ⟨_, rfl⟩
    · rw [headerCount_of_ne fault hnil] at h
      split at h
      · cases h
      · obtain rfl := Except.error.inj h
        exact Or.inl ⟨_, _, rfl⟩
  rcases Except.bind_eq_error.mp he with hvars | ⟨x, -, hmore⟩
  · exact hcount hvars
  rcases Except.bind_eq_error.mp hmore with hclauses | ⟨y, -, hnone⟩
  · exact hcount hclauses
  · cases hnone

/-- A header that is not read is blamed as a header. -/
theorem header_error (he : c.header = .error e) : e.BlamesHeader := by
  rw [header_eq] at he
  split at he
  · obtain rfl := Except.error.inj he
    exact Or.inl ⟨_, _, rfl⟩
  · exact counts_error he

/-- **What an error before the clauses blames**, if `text` was still to be read:
the byte before the place it gives, or a word of a comment before the header. -/
def PreambleBlames (bs text : List UInt8) : ReadError → Prop
  | .unexpectedByte span => span.length = 0 ∧ ∃ b rest,
      pastComments text = b :: rest ∧ b ≠ 112 ∧ span.offset = bs.length - rest.length
  | .literalOutOfBound _ span =>
    span.IsWord bs ∧ span.offset < bs.length - (clauseText text).length
  | _ => True

/-- Only what is behind comments and behind the header matters. -/
theorem PreambleBlames.congr {rest : List UInt8} (h : PreambleBlames bs rest e)
    (hcomments : pastComments text = pastComments rest)
    (hclauses : clauseText text = clauseText rest) : PreambleBlames bs text e := by
  cases e with
  | unexpectedByte span =>
    unfold PreambleBlames
    rw [hcomments]
    exact h
  | literalOutOfBound n span =>
    unfold PreambleBlames
    rw [hclauses]
    exact h
  | _ => trivial

/-- **The preamble**, by induction on the bytes left. -/
theorem On.preamble_blames (h : c.On bs) (he : c.preamble = .error e) :
    PreambleBlames bs c.rest e := by
  fun_induction Cursor.preamble c with
  | case1 c hc =>
    obtain rfl := Except.error.inj he
    split <;> trivial
  | case2 c tail next e' hread hc =>
    obtain rfl := Except.error.inj he
    rcases (h.next hc).comment_error hread with rfl | ⟨⟨span, hspan, hline⟩, hbyte⟩
    · trivial
    cases e' with
    | unexpectedByte other => exact absurd rfl (hbyte other)
    | literalOutOfBound n other =>
      obtain rfl := Option.some.inj hspan
      have hlast := hline.last
      have hpos := hline.isWord.pos
      have hsuffix := (clauseText_suffix (pastLine tail)).length_le
      rw [rest_advance_one hc] at hlast
      refine ⟨hline.isWord, ?_⟩
      rw [hc, clauseText_comment]
      omega
    | _ => trivial
  | case3 c tail next items c₁ hread hc hlt ih =>
    have hline : c₁.rest = (pastLine tail).tail := by
      rw [rest_comment hread, rest_advance_one hc]
    refine (ih ((h.next hc).comment.ok hread) (Except.map_eq_error.mp he)).congr ?_ ?_
    · rw [hc, pastComments_comment, hline, pastComments_blank.tail_pastLine]
    · rw [hc, clauseText_comment, hline, clauseText_blank.tail_pastLine]
  | case4 c tail next hc =>
    rcases header_error (Except.map_eq_error.mp he) with ⟨_, _, rfl⟩ | ⟨_, rfl⟩ <;> trivial
  | case5 c b tail hc next hcomment hheader hb ih =>
    have hnext : next.rest = tail := rest_advance_one hc
    refine (ih (h.next hc) he).congr ?_ ?_
    · rw [hc, pastComments_blank hb, hnext]
    · rw [hc, clauseText_blank hb, hnext]
  | case6 c b tail hc next hcomment hheader hb =>
    obtain rfl := Except.error.inj he
    have hplace := (h.next hc).offset_eq
    rw [rest_advance_one hc] at hplace
    refine ⟨rfl, b, tail, ?_, hheader, hplace.symm⟩
    rw [hc, pastComments_word (Bool.eq_false_iff.mpr hb) hcomment]

/-- A preamble that was read has its header behind the comments. -/
theorem pastComments_of_preamble {x : Nat × List Item × Cursor} (h : c.preamble = .ok x) :
    (pastComments c.rest).head? = some 112 := by
  fun_induction Cursor.preamble c generalizing x with
  | case1 => cases h
  | case2 => cases h
  | case3 =>
    rename_i c tail next items c₁ hread hc hlt ih
    obtain ⟨y, hy, -⟩ := Except.map_eq_ok.mp h
    have hline : c₁.rest = (pastLine tail).tail := by
      rw [rest_comment hread, rest_advance_one hc]
    rw [hc, pastComments_comment, ← pastComments_blank.tail_pastLine, ← hline]
    exact ih hy
  | case4 =>
    rename_i c tail next hc hnot
    rw [hc, pastComments_word (by decide) (by decide)]
    rfl
  | case5 =>
    rename_i c b tail hc next hcomment hheader hb ih
    rw [hc, pastComments_blank hb, ← rest_advance_one hc]
    exact ih h
  | case6 => cases h

end Cursor

open Cursor (bareWords clauseText digit? pastComments placedWords wordAt Blames BlamesNumber
  FirstUnread PreambleBlames)

variable {bs : List UInt8} {breaks : Bool} {e : ReadError}

theorem Cursor.FirstUnread.mem {total place : Nat} {text w : List UInt8}
    (h : FirstUnread total text place w) : (place, w) ∈ placedWords total text := by
  obtain ⟨before, after, hwords, -⟩ := h
  rw [hwords]
  exact List.mem_append_right _ List.mem_cons_self

theorem readItems_blames (h : readItems { rest := bs, breaks } = .error e) :
    PreambleBlames bs bs e
      ∨ ((pastComments bs).head? = some 112 ∧ Blames bs (clauseText bs) e) := by
  have hstart := Cursor.On.start bs breaks
  rcases Except.bind_eq_error.mp h with hpreamble | ⟨x, hx, hmore⟩
  · exact Or.inl (hstart.preamble_blames hpreamble)
  refine Or.inr ⟨Cursor.pastComments_of_preamble hx, ?_⟩
  rcases Except.bind_eq_error.mp hmore with hclauses | ⟨more, -, hcount⟩
  · have hrest : x.2.2.rest = (clauseText bs).tail := Cursor.rest_of_preamble hx
    have hblames := (hstart.preamble.1 x hx).clauses_blames hclauses
    rw [hrest] at hblames
    exact (Cursor.ReadBefore.of_eq (Cursor.placedWords_blank.tail_clauseText bs).symm
      (by simp)).blames hblames
  · simp only at hcount
    split at hcount
    · cases hcount
    · obtain rfl := Except.error.inj hcount
      trivial

/-- **Where errors of reading point at.** Every span lies within the input. An
unexpected byte before the header is the first one outside blanks and comments,
and the place given is the one behind it; behind the header it is the first one
of the first word that is not read, and the place is exact. A literal that is out
of bound is the first word of the clause section that is not read. Its span starts
with the word and covers exactly the word if a blank follows, and only then,
unless the number is -2147483648: there it does at the end of the file and only
then. In a comment the span is a word. -/
theorem readItems_points (h : readItems { rest := bs, breaks } = .error e) :
    (∀ span, e.span? = some span → span.Within bs.length)
      ∧ (∀ span, e = .unexpectedByte span → span.length = 0
        ∧ ((∃ passed b rest, bs = passed ++ b :: rest ∧ pastComments bs = b :: rest ∧ b ≠ 112
            ∧ span.offset = passed.length + 1)
          ∨ ((pastComments bs).head? = some 112
            ∧ ∃ b w, FirstUnread bs.length (clauseText bs) span.offset (b :: w)
              ∧ bs[span.offset]? = some b ∧ b ≠ 45 ∧ digit? b = none)))
      ∧ ∀ n span, e = .literalOutOfBound n span →
        (∃ w, BlamesNumber bs (clauseText bs) n span w ∧ wordAt (bs.drop span.offset) = w
            ∧ (span.length = w.length
              ↔ (span.offset + w.length < bs.length ↔ n ≠ -2147483648)))
          ∨ (span.IsWord bs ∧ ∀ w, (span.offset, w) ∉ placedWords bs.length (clauseText bs)) := by
  have hplaced := Cursor.placedWords_at (Cursor.clauseText_suffix bs)
  have hblames := readItems_blames h
  refine ⟨readItems_within h, ?_, ?_⟩
  · rintro span rfl
    rcases hblames with ⟨hpoint, b, rest, hrest, hb, hplace⟩ | ⟨hheader, hpoint, b, w, hfirst, hb⟩
    · obtain ⟨passed, hpassed⟩ := Cursor.pastComments_suffix bs
      rw [hrest] at hpassed
      refine ⟨hpoint, Or.inl ⟨passed, b, rest, hpassed.symm, hrest, hb, ?_⟩⟩
      rw [hplace, ← hpassed]
      simp only [List.length_append, List.length_cons]
      omega
    · have hword : wordAt (bs.drop span.offset) = b :: w := (hplaced _ hfirst.mem).1
      refine ⟨hpoint, Or.inr ⟨hheader, b, w, hfirst, ?_, hb⟩⟩
      obtain ⟨more, hmore⟩ := List.takeWhile_prefix (!Cursor.isBlank ·) (l := bs.drop span.offset)
      rw [show (bs.drop span.offset).takeWhile _ = b :: w from hword] at hmore
      rw [← Nat.add_zero span.offset, ← List.getElem?_drop, ← hmore]
      rfl
  · rintro n span rfl
    rcases hblames with ⟨hword, hplace⟩ | ⟨-, ⟨w, hnumber⟩ | ⟨hword, -, hnot⟩⟩
    · refine Or.inr ⟨hword, fun w hw => ?_⟩
      exact absurd hplace (Nat.not_lt.mpr (hplaced _ hw).2)
    · have hmem := hnumber.first.mem
      have hbare : w ∈ bareWords (clauseText bs) := by
        rw [← Cursor.placedWords_words bs.length]
        exact List.mem_map_of_mem hmem
      have hne : w ≠ [] := Cursor.wordAt_ne_nil_of_mem hbare
      refine Or.inl ⟨w, hnumber, (hplaced _ hmem).1, ?_⟩
      rw [hnumber.length, Cursor.blamedLength_eq_iff (List.length_pos_iff.mpr hne),
        decide_eq_true_eq]
    · exact Or.inr ⟨hword, hnot⟩

/-- Comments and two clauses, the second with the number that fits into 32 bits and
is no literal. -/
def lowestNumber : List UInt8 :=
  "c\np cnf 2 2\nc p show 1 0\n1 -2 0\n2 -2147483648 0\n".toUTF8.toList

/-- The blank behind the number is blamed as well. -/
theorem readItems_points_lowest :
    readItems { rest := lowestNumber } = .error (.literalOutOfBound (-2147483648) ⟨34, 12⟩)
      ∧ ∃ w, BlamesNumber lowestNumber (clauseText lowestNumber) (-2147483648) ⟨34, 12⟩ w
        ∧ w = "-2147483648".toUTF8.toList ∧ (⟨34, 12⟩ : Span).length = w.length + 1 := by
  have hread : readItems { rest := lowestNumber }
      = .error (.literalOutOfBound (-2147483648) ⟨34, 12⟩) := by
    have hunit : (readItems { rest := lowestNumber }).map (fun _ => ())
        = .error (.literalOutOfBound (-2147483648) ⟨34, 12⟩) := by decide +kernel
    exact Except.map_eq_error.mp hunit
  have hword : wordAt (lowestNumber.drop 34) = "-2147483648".toUTF8.toList := by decide +kernel
  have hplaced : (34, "-2147483648".toUTF8.toList)
      ∈ placedWords lowestNumber.length (clauseText lowestNumber) := by decide +kernel
  refine ⟨hread, ?_⟩
  rcases (readItems_points hread).2.2 _ _ rfl with ⟨w, hnumber, hat, -⟩ | ⟨-, hnot⟩
  · obtain rfl : w = "-2147483648".toUTF8.toList := hat.symm.trans hword
    exact ⟨_, hnumber, rfl, by decide +kernel⟩
  · exact absurd hplaced (hnot _)

/-- A file that starts with a byte that starts no header. -/
def strayByte : List UInt8 := "q cnf 2 1\n1 -2 0\n".toUTF8.toList

/-- A file that ends with a number out of bound. -/
def largeAtEnd : List UInt8 := "p cnf 1 1\n1 99999999999".toUTF8.toList

/-- **Spans that are misplaced**: the first byte of a file is unexpected and the one
behind it is pointed at, and the last digit of a number that ends a file is left out. -/
theorem misplaced_spans :
    (readItems { rest := strayByte } = .error (.unexpectedByte ⟨1, 0⟩)
      ∧ pastComments strayByte = strayByte ∧ strayByte.head? = some 113)
    ∧ readItems { rest := largeAtEnd } = .error (.literalOutOfBound 99999999999 ⟨12, 10⟩)
      ∧ wordAt (largeAtEnd.drop 12) = "99999999999".toUTF8.toList
      ∧ "99999999999".toUTF8.toList.length = 11 := by
  have hstray : (readItems { rest := strayByte }).map (fun _ => ())
      = .error (.unexpectedByte ⟨1, 0⟩) := by decide +kernel
  have hlarge : (readItems { rest := largeAtEnd }).map (fun _ => ())
      = .error (.literalOutOfBound 99999999999 ⟨12, 10⟩) := by decide +kernel
  exact ⟨⟨Except.map_eq_error.mp hstray, by decide +kernel, by decide +kernel⟩,
    Except.map_eq_error.mp hlarge, by decide +kernel, by decide +kernel⟩

end Cleave
