import Cleave.Proofs.BrokenSource

/-!
# Errors point into the input

Most errors of reading come with a span, which is computed from the offset of
the cursor before or after something was read. A cursor that stands in an input
(`Cursor.On`) has read a part of it and still has the others to read, and every
reader keeps that. So whatever is blamed lies within the input (`readItems_within`).

The error of a comment points at one of the words of its line (`Span.InLine`),
and exactly at it.
-/

namespace Cleave

/-- **The span lies within** an input of so many bytes. -/
def Span.Within (span : Span) (total : Nat) : Prop := span.offset + span.length ≤ total

/-- Whatever the error points at lies within an input of so many bytes. -/
def ReadError.Within (e : ReadError) (total : Nat) : Prop :=
  ∀ span, e.span? = some span → span.Within total

/-- **The span is a word** of the input: it starts one and covers all of it. -/
structure Span.IsWord (span : Span) (bs : List UInt8) : Prop where
  pos : 0 < span.length
  length : span.length = (Cursor.wordAt (bs.drop span.offset)).length

theorem ReadError.Within.of_eq {e : ReadError} {span : Span} {total : Nat}
    (h : e.span? = some span) (hspan : span.Within total) : e.Within total := fun other hother => by
  obtain rfl := Option.some.inj (h.symm.trans hother)
  exact hspan

/-- An error that points at nothing. -/
theorem ReadError.Within.of_none {e : ReadError} {total : Nat} (h : e.span? = none) :
    e.Within total := fun span hspan => by
  rw [h] at hspan
  cases hspan

namespace Cursor

variable {α β : Type} {bs : List UInt8} {c c' : Cursor}

/-- **The cursor stands in an input**: it has read as many bytes of it as its
offset says, and the others are left. -/
structure On (c : Cursor) (bs : List UInt8) : Prop where
  rest : c.rest = bs.drop c.offset
  le : c.offset ≤ bs.length

namespace On

theorem start (bs : List UInt8) (breaks : Bool) : ({ rest := bs, breaks } : Cursor).On bs :=
  ⟨rfl, Nat.zero_le _⟩

theorem offset_add (h : c.On bs) : c.offset + c.rest.length = bs.length := by
  have := h.le
  rw [h.rest, List.length_drop]
  omega

theorem advance (h : c.On bs) {n : Nat} (hn : n ≤ c.rest.length) : (c.advance n).On bs := by
  have hadd := h.offset_add
  constructor
  · show c.rest.drop n = bs.drop (c.offset + n)
    rw [h.rest, List.drop_drop]
  · show c.offset + n ≤ bs.length
    omega

theorem next {b : UInt8} {rest : List UInt8} (h : c.On bs) (hc : c.rest = b :: rest) :
    (c.advance 1).On bs :=
  h.advance (by simp [hc])

theorem skipBlanks (h : c.On bs) : c.skipBlanks.On bs :=
  h.advance (List.takeWhile_sublist _).length_le

theorem lastByte (h : c.On bs) : c.lastByte.Within bs.length := by
  have := h.le
  show c.offset - 1 + 0 ≤ bs.length
  omega

/-- A span that ends where a cursor stands. -/
theorem between (h : c.On bs) {first : Nat} (hfirst : first ≤ bs.length) :
    (Span.between first c.offset).Within bs.length := by
  have := h.le
  show first + (c.offset - first) ≤ bs.length
  omega

end On

/-- **What a reader keeps**: its cursor stands in the input, or its error points
into it. -/
def Stays (bs : List UInt8) : Except ReadError (α × Cursor) → Prop
  | .ok x => x.2.On bs
  | .error e => e.Within bs.length

theorem Stays.map (f : α → β) {r : Except ReadError (α × Cursor)} (h : Stays bs r) :
    Stays bs (r.map fun x => (f x.1, x.2)) := by
  cases r <;> exact h

theorem Stays.bind {r : Except ReadError (α × Cursor)}
    {next : α × Cursor → Except ReadError (β × Cursor)} (h : Stays bs r)
    (hnext : ∀ x, r = .ok x → x.2.On bs → Stays bs (next x)) : Stays bs (r >>= next) := by
  cases r with
  | ok x => exact hnext x rfl h
  | error e => exact h

theorem Stays.ok {r : Except ReadError (α × Cursor)} {x : α × Cursor} (h : Stays bs r)
    (hr : r = .ok x) : x.2.On bs := by
  rw [hr] at h
  exact h

theorem Stays.error {r : Except ReadError (α × Cursor)} {e : ReadError} (h : Stays bs r)
    (hr : r = .error e) : e.Within bs.length := by
  rw [hr] at h
  exact h

/-! ## Comments -/

theorem wordAt_append {run more : List UInt8} (hrun : ∀ b ∈ run, isBlank b = false)
    (hmore : ∀ b ∈ more.head?, isBlank b = true) : wordAt (run ++ more) = run := by
  unfold wordAt
  rw [List.takeWhile_append_of_pos fun b hb => by simp [hrun b hb]]
  cases more with
  | nil => simp
  | cons b more => simp [hmore b rfl]

/-- The word under way, if it ends here: a blank or nothing follows. -/
theorem word_isWord {run more : List UInt8} {pos : Nat} (hne : run ≠ [])
    (hrun : ∀ b ∈ run, isBlank b = false) (hmore : ∀ b ∈ more.head?, isBlank b = true)
    (hbs : bs.drop (pos - run.length) = run.reverse ++ more) :
    (wordsFrom.word pos run).2.IsWord bs := by
  refine ⟨List.length_pos_iff.mpr hne, ?_⟩
  show run.length = (wordAt (bs.drop (pos - run.length))).length
  rw [hbs, wordAt_append (fun b hb => hrun b (List.mem_reverse.mp hb)) hmore, List.length_reverse]

/-- **The words of a line are words of the input.** What is left of the line
starts at `pos`, behind what was read of the word under way, and a blank or
nothing follows it. -/
theorem wordsFrom_isWord {line run more : List UInt8} {pos : Nat}
    (hmore : ∀ b ∈ more.head?, isBlank b = true) (hrun : ∀ b ∈ run, isBlank b = false)
    (hpos : run.length ≤ pos) (hbs : bs.drop (pos - run.length) = run.reverse ++ (line ++ more)) :
    ∀ p ∈ wordsFrom pos line run, p.2.IsWord bs ∧ pos - run.length ≤ p.2.offset
      ∧ p.2.offset + p.2.length ≤ pos + line.length := by
  fun_induction wordsFrom pos line run with
  | case1 => simp
  | case2 pos run hne =>
    refine List.forall_mem_singleton.mpr ⟨word_isWord hne hrun hmore hbs, Nat.le_refl _, ?_⟩
    exact Nat.le_of_eq (Nat.sub_add_cancel hpos)
  | case3 pos b rest hb ih =>
    have hrest : bs.drop (pos + 1) = rest ++ more := by
      rw [← List.drop_drop, show bs.drop pos = b :: (rest ++ more) from hbs]
      rfl
    intro p hp
    obtain ⟨hword, hle, hend⟩ := ih hrun (Nat.zero_le _) hrest p hp
    simp only [List.length_nil, List.length_cons] at hle hend ⊢
    exact ⟨hword, by omega, by omega⟩
  | case4 pos b rest hb run hne ih =>
    have hrest : bs.drop (pos + 1) = rest ++ more := by
      have hdrop : bs.drop (pos + 1) = (bs.drop (pos - run.length)).drop (run.length + 1) := by
        rw [List.drop_drop]
        congr 1
        omega
      rw [hdrop, hbs, List.drop_append, List.drop_eq_nil_of_le (by simp)]
      simp
    have hblank : ∀ x ∈ (b :: rest ++ more).head?, isBlank x = true := by simpa using hb
    have hword : (wordsFrom.word pos run).2.IsWord bs := word_isWord hne hrun hblank hbs
    refine List.forall_mem_cons.mpr ⟨⟨hword, Nat.le_refl _, ?_⟩, fun p hp => ?_⟩
    · show pos - run.length + run.length ≤ _
      omega
    · obtain ⟨hword, hle, hend⟩ := ih (by simp) (Nat.zero_le _) hrest p hp
      simp only [List.length_nil, List.length_cons] at hle hend ⊢
      exact ⟨hword, by omega, by omega⟩
  | case5 pos b rest run hb ih =>
    have hsame : pos + 1 - (b :: run).length = pos - run.length := by simp
    have hrest : bs.drop (pos + 1 - (b :: run).length) = (b :: run).reverse ++ (rest ++ more) := by
      rw [hsame, hbs]
      simp
    have hnot : ∀ x ∈ b :: run, isBlank x = false :=
      List.forall_mem_cons.mpr ⟨Bool.eq_false_iff.mpr hb, hrun⟩
    intro p hp
    obtain ⟨hword, hle, hend⟩ := ih hnot (Nat.succ_le_succ hpos) hrest p hp
    rw [hsame] at hle
    rw [List.length_cons]
    exact ⟨hword, hle, by omega⟩

end Cursor

/-- **The error blames a word**: it points at one of them, and it is not about a
single byte. -/
structure ReadError.BlamesWord (e : ReadError) (words : List (List Char × Span)) : Prop where
  span : ∃ p ∈ words, e.span? = some p.2
  noByte : ∀ span, e ≠ .unexpectedByte span

/-- A word that is pointed at is blamed, unless the error is about a single byte. -/
theorem ReadError.BlamesWord.of_mem {e : ReadError} {words : List (List Char × Span)}
    {p : List Char × Span} (hp : p ∈ words) (hspan : e.span? = some p.2)
    (hbyte : ∀ span, e ≠ .unexpectedByte span) : e.BlamesWord words :=
  ⟨⟨p, hp, hspan⟩, hbyte⟩

theorem ReadError.BlamesWord.mono {e : ReadError} {words more : List (List Char × Span)}
    (h : e.BlamesWord words) (hsub : words ⊆ more) : e.BlamesWord more := by
  obtain ⟨p, hp, hspan⟩ := h.span
  exact ⟨⟨p, hsub hp, hspan⟩, h.noByte⟩

namespace Cursor

variable {bs : List UInt8} {c : Cursor} {e : ReadError}

theorem projectionVars_error {words : List (List Char × Span)}
    (h : projectionVars words = .error e) : e.BlamesWord words := by
  fun_induction projectionVars words with
  | case1 => cases h
  | case2 word span rest =>
    obtain rfl := Except.error.inj h
    exact .of_mem List.mem_cons_self rfl fun _ => ReadError.noConfusion
  | case3 => cases h
  | case4 word span rest n =>
    obtain rfl := Except.error.inj h
    exact .of_mem List.mem_cons_self rfl fun _ => ReadError.noConfusion
  | case5 word span rest n _ _ v _ ih =>
    exact (ih (Except.map_eq_error.mp h)).mono (List.subset_cons_self _ _)

theorem weightItem_error (keyword : List Char × Span) {words : List (List Char × Span)}
    (h : weightItem keyword.2 words = .error e) : e.BlamesWord (keyword :: words) := by
  unfold weightItem at h
  split at h
  · obtain rfl := Except.error.inj h
    exact .of_mem List.mem_cons_self rfl fun _ => ReadError.noConfusion
  · refine ReadError.BlamesWord.mono ?_ (List.subset_cons_self _ _)
    split at h
    · obtain rfl := Except.error.inj h
      exact .of_mem List.mem_cons_self rfl fun _ => ReadError.noConfusion
    · split at h
      · obtain rfl := Except.error.inj h
        exact .of_mem List.mem_cons_self rfl fun _ => ReadError.noConfusion
      · obtain rfl := Except.error.inj h
        exact .of_mem List.mem_cons_self rfl fun _ => ReadError.noConfusion
      · split at h
        · cases h
        · obtain rfl := Except.error.inj h
          exact .of_mem (List.mem_cons_of_mem _ List.mem_cons_self) rfl
            fun _ => ReadError.noConfusion

theorem commentItems_error {line : List UInt8} {start : Nat}
    (h : commentItems line start = .error e) : e.BlamesWord (wordsFrom start line []) := by
  unfold commentItems at h
  split at h
  · cases h
  split at h
  · rename_i marker keyword span rest hwords
    rw [hwords]
    refine ReadError.BlamesWord.mono ?_ (List.subset_cons_self _ _)
    split at h
    · exact (projectionVars_error (Except.map_eq_error.mp h)).mono (List.subset_cons_self _ _)
    split at h
    · exact weightItem_error (keyword, span) (Except.map_eq_error.mp h)
    · cases h
  · cases h

theorem On.takeLine (h : c.On bs) {line : List UInt8} (hline : c.takeLine = .ok (line, c')) :
    c'.On bs ∧ line = c.rest.takeWhile (· != 10) := by
  have hle := (List.takeWhile_sublist (· != 10) (l := c.rest)).length_le
  unfold Cursor.takeLine at hline
  simp only at hline
  split at hline
  · rename_i hlt
    obtain ⟨rfl, rfl⟩ := Prod.mk.inj (Except.ok.inj hline)
    exact ⟨h.advance hlt, rfl⟩
  · split at hline
    · cases hline
    · obtain ⟨rfl, rfl⟩ := Prod.mk.inj (Except.ok.inj hline)
      exact ⟨h.advance hle, rfl⟩

end Cursor

/-- **The span is a word of the line** that the cursor stands in. -/
structure Span.InLine (span : Span) (c : Cursor) (bs : List UInt8) : Prop where
  isWord : span.IsWord bs
  first : c.offset ≤ span.offset
  last : span.offset + span.length + (Cursor.pastLine c.rest).length ≤ bs.length

namespace Cursor

variable {bs : List UInt8} {c c' : Cursor} {e : ReadError}

/-- **The words of the line under way.** -/
theorem On.inLine (h : c.On bs) :
    ∀ p ∈ wordsFrom c.offset (c.rest.takeWhile (· != 10)) [], p.2.InLine c bs := by
  have hline : c.rest.takeWhile (· != 10) ++ pastLine c.rest = c.rest :=
    List.takeWhile_append_dropWhile
  have hblank : ∀ b ∈ (pastLine c.rest).head?, isBlank b = true := fun b hb => by
    obtain ⟨rest, hrest⟩ := List.head?_eq_some_iff.mp hb
    obtain rfl : b = 10 := by simpa using head_dropWhile hrest
    rfl
  have hrest : bs.drop (c.offset - ([] : List UInt8).length)
      = [].reverse ++ (c.rest.takeWhile (· != 10) ++ pastLine c.rest) := by
    rw [hline]
    exact h.rest.symm
  have hwords := wordsFrom_isWord hblank (by simp) (Nat.zero_le c.offset) hrest
  have hadd := h.offset_add
  rw [← hline, List.length_append] at hadd
  intro p hp
  obtain ⟨hword, hfirst, hlast⟩ := hwords p hp
  exact ⟨hword, hfirst, by omega⟩

/-- **The error of a comment** points at a word of its line, or the source broke. -/
theorem On.comment_error (h : c.On bs) (he : c.comment = .error e) :
    e = .io ∨ (∃ span, e.span? = some span ∧ span.InLine c bs)
      ∧ ∀ span, e ≠ .unexpectedByte span := by
  unfold comment at he
  split at he
  · rename_i hline
    unfold Cursor.takeLine at hline
    simp only at hline
    obtain rfl := Except.error.inj he
    split at hline
    · cases hline
    · split at hline
      · exact Or.inl (Except.error.inj hline).symm
      · cases hline
  · rename_i line next hline
    split at he
    · rename_i hitems
      obtain rfl := Except.error.inj he
      obtain ⟨-, rfl⟩ := h.takeLine hline
      have hblamed := commentItems_error hitems
      obtain ⟨p, hp, hspan⟩ := hblamed.span
      exact Or.inr ⟨⟨p.2, hspan, h.inLine p hp⟩, hblamed.noByte⟩
    · cases he

theorem On.comment (h : c.On bs) : Stays bs c.comment := by
  cases hread : c.comment with
  | error e =>
    rcases h.comment_error hread with rfl | ⟨⟨span, hspan, hline⟩, -⟩
    · exact .of_none rfl
    · exact .of_eq hspan (by have := hline.last; unfold Span.Within; omega)
  | ok x =>
    unfold Cursor.comment at hread
    split at hread
    · cases hread
    · rename_i hline
      split at hread
      · cases hread
      · obtain rfl := Except.ok.inj hread
        exact (h.takeLine hline).1

/-! ## Integers -/

theorem On.integerFrom {start value : Nat} {negated : Bool} (h : c.On bs)
    (hstart : start ≤ bs.length) : Stays bs (integerFrom start c value negated) := by
  fun_induction Cursor.integerFrom start c value negated with
  | case1 => exact .of_none rfl
  | case2 => exact h
  | case3 c value tail next hc => exact .of_eq rfl (h.next hc).lastByte
  | case4 c value negated tail next hfresh hc ih => exact ih (h.next hc)
  | case5 c value negated b tail hc next hminus d hd hlt ih => exact ih (h.next hc)
  | case6 c value negated b tail hc next => exact .of_eq rfl ((h.next hc).between hstart)
  | case7 c value negated b tail hc next => exact h.next hc
  | case8 c value negated b tail hc next => exact .of_eq rfl ((h.next hc).between hstart)

theorem On.integer (h : c.On bs) (low high : Int) : Stays bs (c.integer low high) := by
  have hfrom : Stays bs (Cursor.integerFrom c.offset c 0 false) := h.integerFrom h.le
  unfold Cursor.integer
  split
  · rename_i hread
    exact hfrom.error hread
  · rename_i hread
    have hnext := hfrom.ok hread
    split
    · exact hnext
    · rename_i next _
      refine .of_eq rfl ?_
      have : next.offset ≤ bs.length := hnext.le
      have : c.offset ≤ bs.length := h.le
      show c.offset + (next.offset - 1 - c.offset) ≤ bs.length
      omega

/-! ## The header -/

theorem On.expect (h : c.On bs) (expected : List UInt8) :
    (∀ span, c.expect expected = .error span → span.Within bs.length)
      ∧ ∀ c', c.expect expected = .ok c' → c'.On bs := by
  induction expected generalizing c with
  | nil =>
    refine ⟨fun span hspan => ?_, fun c' hc' => ?_⟩
    · cases hspan
    · obtain rfl := Except.ok.inj hc'
      exact h
  | cons b expected ih =>
    unfold Cursor.expect
    split
    · refine ⟨fun span hspan => ?_, fun c' hc' => ?_⟩
      · split at hspan
        · obtain rfl := Except.error.inj hspan
          exact h.lastByte
        · cases hspan
      · split at hc'
        · cases hc'
        · obtain rfl := Except.ok.inj hc'
          exact h
    · rename_i found rest hc
      simp only
      split
      · exact ih (h.next hc)
      · refine ⟨fun span hspan => ?_, fun c' hc' => ?_⟩
        · obtain rfl := Except.error.inj hspan
          exact (h.next hc).lastByte
        · cases hc'

theorem On.headerCount (h : c.On bs) (fault : HeaderFault) : Stays bs (c.headerCount fault) := by
  have hskip := h.skipBlanks
  by_cases hnil : c.skipBlanks.rest = []
  · rw [headerCount_of_nil fault hnil]
    exact .of_eq rfl hskip.lastByte
  · rw [headerCount_of_ne fault hnil]
    have hinteger := hskip.integer 0 4294967295
    cases hread : c.skipBlanks.integer 0 4294967295 with
    | ok x => exact hinteger.ok hread
    | error e =>
      refine .of_eq rfl ?_
      have hwithin := hinteger.error hread
      rcases integer_error hread with ⟨rfl, -⟩ | ⟨span, rfl⟩ | ⟨n, span, rfl⟩
      · exact (hskip.advance (Nat.le_refl _)).lastByte
      · exact hwithin span rfl
      · exact hwithin span rfl

theorem On.header (h : c.On bs) : Stays bs c.header := by
  rw [header_eq]
  obtain ⟨hmarker, hcounts⟩ := h.expect " cnf".toUTF8.toList
  split
  · rename_i span hspan
    exact .of_eq rfl (hmarker span hspan)
  · rename_i c' hc'
    exact ((hcounts c' hc').headerCount _).bind fun x _ hx =>
      (hx.headerCount _).map (x.1, ·)

/-- **The preamble**, by induction on the bytes left. -/
theorem On.preamble (h : c.On bs) : (∀ x, c.preamble = .ok x → x.2.2.On bs)
    ∧ ∀ e, c.preamble = .error e → e.Within bs.length := by
  fun_induction Cursor.preamble c with
  | case1 c hc =>
    refine ⟨fun x hx => ?_, fun e he => ?_⟩
    · cases hx
    · obtain rfl := Except.error.inj he
      split <;> exact .of_none rfl
  | case2 c tail next e hread hc =>
    refine ⟨fun x hx => ?_, fun e he => ?_⟩
    · cases hx
    · obtain rfl := Except.error.inj he
      exact (h.next hc).comment.error hread
  | case3 c tail next items c₁ hread hc hlt ih =>
    obtain ⟨hok, herror⟩ := ih ((h.next hc).comment.ok hread)
    refine ⟨fun x hx => ?_, fun e he => herror e (Except.map_eq_error.mp he)⟩
    obtain ⟨y, hy, rfl⟩ := Except.map_eq_ok.mp hx
    exact hok y hy
  | case4 c tail next hc =>
    have hheader := (h.next hc).header
    refine ⟨fun x hx => ?_, fun e he => hheader.error (Except.map_eq_error.mp he)⟩
    obtain ⟨y, hy, rfl⟩ := Except.map_eq_ok.mp hx
    exact hheader.ok hy
  | case5 c b tail hc next hcomment hheader hb ih => exact ih (h.next hc)
  | case6 c b tail hc next =>
    refine ⟨fun x hx => ?_, fun e he => ?_⟩
    · cases hx
    · obtain rfl := Except.error.inj he
      exact .of_eq rfl (h.next hc).le

/-! ## Clauses -/

/-- **A clause**, by induction on its literals. -/
theorem On.literals (h : c.On bs) : Stays bs c.literals := by
  fun_induction Cursor.literals c with
  | case1 c here hnil => exact .of_eq rfl h.skipBlanks.lastByte
  | case2 c here hne e hread => exact (h.skipBlanks.integer _ _).error hread
  | case3 c here hne next hread => exact (h.skipBlanks.integer _ _).ok hread
  | case4 c here hne n next hread =>
    exact .of_eq rfl (((h.skipBlanks.integer _ _).ok hread).between h.skipBlanks.le)
  | case5 c here hne n next hread hlt hzero l hl ih =>
    exact (ih ((h.skipBlanks.integer _ _).ok hread)).map (l :: ·)

/-- **The clause section**, by induction on the bytes left. -/
theorem On.clauses_error (h : c.On bs) (he : c.clauses = .error e) : e.Within bs.length := by
  fun_induction Cursor.clauses c with
  | case1 => cases he
  | case2 c here tail e' hread hc =>
    obtain rfl := Except.error.inj he
    exact (h.skipBlanks.next hc).comment.error hread
  | case3 c here tail items next hread hc hlt ih =>
    exact ih ((h.skipBlanks.next hc).comment.ok hread) (Except.map_eq_error.mp he)
  | case4 c here b tail hc hcomment hstart e' hread =>
    obtain rfl := Except.error.inj he
    exact h.skipBlanks.literals.error hread
  | case5 c here b tail hc hcomment hstart lits next hread hlt ih =>
    exact ih (h.skipBlanks.literals.ok hread) (Except.map_eq_error.mp he)
  | case6 =>
    obtain rfl := Except.error.inj he
    exact .of_eq rfl h.skipBlanks.le

end Cursor

/-- **Whatever an error of reading points at** lies within the input. -/
theorem readItems_within {bs : List UInt8} {breaks : Bool} {e : ReadError}
    (h : readItems { rest := bs, breaks } = .error e) : e.Within bs.length := by
  obtain ⟨hok, herror⟩ := (Cursor.On.start bs breaks).preamble
  rcases Except.bind_eq_error.mp h with hpreamble | ⟨x, hx, h⟩
  · exact herror e hpreamble
  rcases Except.bind_eq_error.mp h with hclauses | ⟨more, -, h⟩
  · exact (hok x hx).clauses_error hclauses
  · simp only at h
    split at h
    · cases h
    · obtain rfl := Except.error.inj h
      exact .of_none rfl

end Cleave
