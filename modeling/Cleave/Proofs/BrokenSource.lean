import Cleave.Proofs.ClauseSection

/-!
# Sources that break

A source that breaks gives some bytes and then fails instead of ending. What a
reader answers is settled by the bytes at hand as soon as it stops inside them
(`Cursor.Stops`): nothing that may follow matters then, and a part that was read
leaves the rest to the next one.

A reader that does not stop meets the break. Inside a comment, before the header
and inside a number of the clause section it reports it. Inside the header it
calls the header wrong instead. And where the last word is complete it only
looks ahead for another one and takes the break for the end
(`Cursor.endsBetween`), so that a file that is cut off there is read like a
whole one (`readItems_broken`).
-/

namespace Cleave

namespace Cursor

variable {α : Type} {c c' : Cursor} {more : List UInt8} {breaks : Bool}

/-- The cursor before the same bytes with others behind them. -/
def followedBy (c : Cursor) (more : List UInt8) (breaks : Bool) : Cursor :=
  { c with rest := c.rest ++ more, breaks := breaks }

/-- **A reader stops inside the bytes at hand**: whatever follows them, it
answers the same and leaves the same bytes. -/
def Stops (read : Cursor → Except ReadError (α × Cursor)) (c : Cursor) : Prop :=
  ∀ more breaks, read (c.followedBy more breaks)
    = (read c).map fun x => (x.1, x.2.followedBy more breaks)

theorem Stops.of_error {read : Cursor → Except ReadError (α × Cursor)} {e : ReadError}
    (h : read c = .error e) (hmore : ∀ more breaks, read (c.followedBy more breaks) = .error e) :
    Stops read c := fun more breaks => by
  rw [hmore, h]
  rfl

theorem Stops.error {read : Cursor → Except ReadError (α × Cursor)} {e : ReadError}
    (hs : Stops read c) (h : read c = .error e) (more : List UInt8) (breaks : Bool) :
    read (c.followedBy more breaks) = .error e := by
  rw [hs, h]
  rfl

theorem Stops.ok {read : Cursor → Except ReadError (α × Cursor)} {a : α} (hs : Stops read c)
    (h : read c = .ok (a, c')) (more : List UInt8) (breaks : Bool) :
    read (c.followedBy more breaks) = .ok (a, c'.followedBy more breaks) := by
  rw [hs, h]
  rfl

theorem followedBy_nil (hc : c.breaks = true) : c.followedBy [] true = c := by
  cases c
  simp_all [followedBy]

/-- Reading does not change whether the source breaks. -/
theorem Stops.stays_broken {read : Cursor → Except ReadError (α × Cursor)} {a : α} (hs : Stops read c)
    (hc : c.breaks = true) (h : read c = .ok (a, c')) : c'.breaks = true := by
  have hsame := hs.ok h [] true
  rw [followedBy_nil hc, h] at hsame
  obtain ⟨-, heq⟩ := Prod.mk.inj (Except.ok.inj hsame)
  rw [heq]
  rfl

theorem advance_followedBy {n : Nat} (hn : n ≤ c.rest.length) :
    (c.followedBy more breaks).advance n = (c.advance n).followedBy more breaks := by
  simp [followedBy, advance, List.drop_append_of_le_length hn]

theorem advance_one_followedBy {b : UInt8} {rest : List UInt8} (hc : c.rest = b :: rest) :
    (c.followedBy more breaks).advance 1 = (c.advance 1).followedBy more breaks :=
  advance_followedBy (by simp [hc])

theorem rest_followedBy {b : UInt8} {rest : List UInt8} (hc : c.rest = b :: rest) :
    (c.followedBy more breaks).rest = b :: (rest ++ more) := by
  simp [followedBy, hc]

theorem takeWhile_append_of_dropWhile {p : UInt8 → Bool} {bs : List UInt8}
    (h : bs.dropWhile p ≠ []) (more : List UInt8) :
    (bs ++ more).takeWhile p = bs.takeWhile p := by
  induction bs with
  | nil => exact absurd rfl h
  | cons b bs ih =>
    by_cases hb : p b = true
    · rw [List.cons_append, List.takeWhile_cons_of_pos hb, List.takeWhile_cons_of_pos hb]
      exact congrArg _ (ih (by rwa [List.dropWhile_cons_of_pos hb] at h))
    · rw [List.cons_append, List.takeWhile_cons_of_neg hb, List.takeWhile_cons_of_neg hb]

/-- Blanks end at a word, whatever follows it. -/
theorem skipBlanks_followedBy (h : c.skipBlanks.rest ≠ []) :
    (c.followedBy more breaks).skipBlanks = c.skipBlanks.followedBy more breaks := by
  rw [rest_skipBlanks] at h
  have htake : (c.followedBy more breaks).rest.takeWhile isBlank = c.rest.takeWhile isBlank :=
    takeWhile_append_of_dropWhile h more
  unfold skipBlanks
  rw [htake, advance_followedBy (List.takeWhile_sublist _).length_le]

/-! ## Where a text ends -/

/-- **The text ends between words**: its last word or comment is complete. -/
def endsBetween : List UInt8 → Bool
  | [] => true
  | b :: rest =>
    if isBlank b then endsBetween rest
    else if b = 99 then !(pastLine rest).isEmpty && endsBetween (pastLine rest)
    else !(pastWord rest).isEmpty && endsBetween (pastWord rest)
termination_by bs => bs.length
decreasing_by
  · simp
  · exact Nat.lt_succ_of_le (length_pastLine_le rest)
  · exact Nat.lt_succ_of_le (length_pastWord_le rest)

theorem endsBetween_cons (b : UInt8) (rest : List UInt8) : endsBetween (b :: rest)
    = if isBlank b then endsBetween rest
      else if b = 99 then !(pastLine rest).isEmpty && endsBetween (pastLine rest)
      else !(pastWord rest).isEmpty && endsBetween (pastWord rest) := by
  rw [endsBetween]

theorem endsBetween_blank : IgnoresBlanks endsBetween := fun {b rest} hb => by
  rw [endsBetween_cons, if_pos hb]

theorem endsBetween_comment (rest : List UInt8) :
    endsBetween (99 :: rest) = (!(pastLine rest).isEmpty && endsBetween (pastLine rest).tail) := by
  rw [endsBetween_cons, if_neg (by decide), if_pos rfl, endsBetween_blank.tail_pastLine]

theorem endsBetween_word {b : UInt8} (hb : isBlank b = false) (hc : b ≠ 99) (rest : List UInt8) :
    endsBetween (b :: rest)
      = (!(pastWord (b :: rest)).isEmpty && endsBetween (pastWord (b :: rest)).tail) := by
  rw [endsBetween_blank.tail_pastWord, (wordAt_cons hb rest).2, endsBetween_cons, hb,
    if_neg Bool.false_ne_true, if_neg hc]

theorem endsBetween_skipBlanks (c : Cursor) :
    endsBetween c.skipBlanks.rest = endsBetween c.rest := by
  rw [rest_skipBlanks, endsBetween_blank.pastBlanks]

/-! ## Lines and integers -/

theorem takeLine_broken (hc : c.breaks = true) :
    (c.takeLine = .error .io ∧ pastLine c.rest = [])
      ∨ (Stops takeLine c ∧ pastLine c.rest ≠ []) := by
  have hdrop := drop_length_takeWhile (· != 10) c.rest
  by_cases hnil : pastLine c.rest = []
  · refine Or.inl ⟨?_, hnil⟩
    have hlen : ¬ (c.rest.takeWhile (· != 10)).length < c.rest.length := by
      rw [show c.rest.dropWhile (· != 10) = [] from hnil] at hdrop
      exact Nat.not_lt.mpr (List.drop_eq_nil_iff.mp hdrop)
    unfold takeLine
    simp only [if_neg hlen, hc, if_true]
  · refine Or.inr ⟨fun more breaks => ?_, hnil⟩
    have hlen : (c.rest.takeWhile (· != 10)).length < c.rest.length := by
      by_contra hge
      refine hnil ?_
      unfold pastLine
      rw [← hdrop]
      exact List.drop_eq_nil_of_le (Nat.le_of_not_lt hge)
    have htake : (c.followedBy more breaks).rest.takeWhile (· != 10)
        = c.rest.takeWhile (· != 10) := takeWhile_append_of_dropWhile hnil more
    have hlen' : (c.rest.takeWhile (· != 10)).length < (c.followedBy more breaks).rest.length := by
      simp only [followedBy, List.length_append]
      omega
    unfold takeLine
    simp only [htake, if_pos hlen', if_pos hlen, advance_followedBy hlen]
    rfl

/-- **A comment** that a break cuts off is not read. -/
theorem comment_broken (hc : c.breaks = true) :
    (c.comment = .error .io ∧ pastLine c.rest = [])
      ∨ (Stops comment c ∧ pastLine c.rest ≠ []) := by
  rcases takeLine_broken hc with ⟨hline, hnil⟩ | ⟨hstops, hne⟩
  · refine Or.inl ⟨?_, hnil⟩
    unfold comment
    rw [hline]
  · refine Or.inr ⟨fun more breaks => ?_, hne⟩
    have hoffset : (c.followedBy more breaks).offset = c.offset := rfl
    unfold comment
    rw [hoffset]
    cases hline : c.takeLine with
    | error e => rw [hstops.error hline]; rfl
    | ok x =>
      obtain ⟨line, next⟩ := x
      rw [hstops.ok hline]
      simp only
      cases commentItems line c.offset <;> rfl

theorem integerFrom_cons {start value : Nat} {negated : Bool} {b : UInt8} {rest : List UInt8}
    (hc : c.rest = b :: rest) : integerFrom start c value negated
      = if b = 45 then
          if negated then .error (.invalidInteger (c.advance 1).lastByte)
          else integerFrom start (c.advance 1) value true
        else match digit? b with
          | some d =>
            if 10 * value + d < Nat.pow 2 63 then
              integerFrom start (c.advance 1) (10 * value + d) negated
            else .error (.invalidInteger (.between start (c.advance 1).offset))
          | none =>
            if isBlank b then .ok (if negated then -(value : Int) else value, c.advance 1)
            else .error (.invalidInteger (.between start (c.advance 1).offset)) := by
  rw [integerFrom.eq_def]
  split
  · rename_i hnil
    rw [hnil] at hc
    cases hc
  · rename_i hcons
    rw [hcons] at hc
    obtain ⟨rfl, -⟩ := List.cons.inj hc
    rfl

/-- **An integer** that a break cuts off is not read; one that is read ends at a
blank. -/
theorem integerFrom_broken (start value : Nat) (negated : Bool) (hc : c.breaks = true) :
    (integerFrom start c value negated = .error .io ∧ pastWord c.rest = [])
      ∨ (Stops (fun c => integerFrom start c value negated) c
        ∧ ∀ n c', integerFrom start c value negated = .ok (n, c') → pastWord c.rest ≠ []) := by
  fun_induction integerFrom start c value negated with
  | case1 c value negated hnil => exact Or.inl ⟨rfl, by rw [hnil]; rfl⟩
  | case2 c value negated hnil hends => exact absurd hc hends
  | case3 c value tail next hcons =>
    refine Or.inr ⟨.of_error (integerFrom_cons hcons) fun more breaks => ?_, fun n c' h => ?_⟩
    · rw [integerFrom_cons (rest_followedBy hcons), advance_one_followedBy hcons]
      rfl
    · cases h
  | case4 c value negated tail next hfresh hcons ih =>
    have hpast := (wordAt_cons (show isBlank 45 = false by decide) tail).2
    have hrest : next.rest = tail := rest_advance_one hcons
    rw [hrest] at ih
    rw [hcons, hpast]
    refine (ih hc).imp_right (And.imp_left fun hstops more breaks => ?_)
    simp only [integerFrom_cons (rest_followedBy hcons), integerFrom_cons hcons,
      advance_one_followedBy hcons, if_true, hfresh]
    exact hstops more breaks
  | case5 c value negated b tail hcons next hminus d hd hlt ih =>
    have hblank : isBlank b = false := by
      refine Bool.eq_false_iff.mpr fun hb => ?_
      rw [(digit?_blank hb).1] at hd
      cases hd
    have hpast := (wordAt_cons hblank tail).2
    have hrest : next.rest = tail := rest_advance_one hcons
    rw [hrest] at ih
    rw [hcons, hpast]
    refine (ih hc).imp_right (And.imp_left fun hstops more breaks => ?_)
    simp only [integerFrom_cons (rest_followedBy hcons), integerFrom_cons hcons,
      advance_one_followedBy hcons, if_neg hminus, hd, if_pos hlt]
    exact hstops more breaks
  | case6 c value negated b tail hcons next hminus d hd hge =>
    have hfails : integerFrom start c value negated
        = .error (.invalidInteger (.between start next.offset)) := by
      rw [integerFrom_cons hcons]
      simp only [if_neg hminus, hd, if_neg hge]
      rfl
    refine Or.inr ⟨.of_error hfails fun more breaks => ?_, fun n c' h => ?_⟩
    · simp only [integerFrom_cons (rest_followedBy hcons), advance_one_followedBy hcons,
        if_neg hminus, hd, if_neg hge]
      rfl
    · cases h
  | case7 c value negated b tail hcons next hminus hd hb =>
    refine Or.inr ⟨fun more breaks => ?_, fun n c' _ => ?_⟩
    · simp only [integerFrom_cons (rest_followedBy hcons), integerFrom_cons hcons,
        advance_one_followedBy hcons, if_neg hminus, hd, if_pos hb]
      rfl
    · rw [hcons, (wordAt_blank hb tail).2]
      exact List.cons_ne_nil _ _
  | case8 c value negated b tail hcons next hminus hd hb =>
    have hfails : integerFrom start c value negated
        = .error (.invalidInteger (.between start next.offset)) := by
      rw [integerFrom_cons hcons]
      simp only [if_neg hminus, hd, if_neg hb]
      rfl
    refine Or.inr ⟨.of_error hfails fun more breaks => ?_, fun n c' h => ?_⟩
    · simp only [integerFrom_cons (rest_followedBy hcons), advance_one_followedBy hcons,
        if_neg hminus, hd, if_neg hb]
      rfl
    · cases h

theorem integer_broken (low high : Int) (hc : c.breaks = true) :
    (c.integer low high = .error .io ∧ pastWord c.rest = [])
      ∨ (Stops (fun c => c.integer low high) c
        ∧ ∀ n c', c.integer low high = .ok (n, c') → pastWord c.rest ≠ []) := by
  rcases integerFrom_broken c.offset 0 false hc with
    ⟨hread, hnil⟩ | ⟨hstops, hblank⟩
  · refine Or.inl ⟨?_, hnil⟩
    unfold integer
    rw [hread]
  · refine Or.inr ⟨fun more breaks => ?_, fun n c' h => ?_⟩
    · have hoffset : (c.followedBy more breaks).offset = c.offset := rfl
      simp only [integer, hoffset]
      cases hread : integerFrom c.offset c 0 false with
      | error e => rw [hstops.error hread]; rfl
      | ok x =>
        obtain ⟨m, next⟩ := x
        rw [hstops.ok hread]
        simp only
        split <;> rfl
    · unfold integer at h
      cases hread : integerFrom c.offset c 0 false with
      | error e => rw [hread] at h; cases h
      | ok x => exact hblank x.1 x.2 hread

/-! ## Readers that meet the break -/

/-- **What a break does to a reader** that starts between words: it is reported,
or the reader stops before it, or it is taken for the end by a reader that only
looks ahead. -/
inductive Meets (read : Cursor → Except ReadError (α × Cursor)) (c : Cursor) : Prop where
  | reported (h : read c = .error .io) (hends : endsBetween c.rest = false)
  | stopped (h : Stops read c)
      (hends : ∀ a c', read c = .ok (a, c') → endsBetween c.rest = endsBetween c'.rest)
  | ended (hends : endsBetween c.rest = true) {e : ReadError} (h : read c = .error e)
      (h' : read (c.followedBy [] false) = .error e)

/-- The same for a reader of everything there is. -/
inductive Finishes (read : Cursor → Except ReadError α) (c : Cursor) : Prop where
  | reported (h : read c = .error .io) (hends : endsBetween c.rest = false)
  | stopped {e : ReadError} (h : read c = .error e)
      (h' : ∀ more breaks, read (c.followedBy more breaks) = .error e)
  | ended (hends : endsBetween c.rest = true) (h : read c = read (c.followedBy [] false))

/-- Only what a reader does at the cursor, whatever follows, matters. -/
theorem Meets.congr {read read' : Cursor → Except ReadError (α × Cursor)} (h : Meets read c)
    (hc : c.breaks = true)
    (heq : ∀ more breaks, read' (c.followedBy more breaks) = read (c.followedBy more breaks)) :
    Meets read' c := by
  have hhere : read' c = read c := by
    have hsame := heq [] true
    rwa [followedBy_nil hc] at hsame
  cases h with
  | reported h hends => exact .reported (hhere.trans h) hends
  | stopped h hends =>
    exact .stopped (fun more breaks => by rw [heq, h, hhere]) fun a c' ha =>
      hends a c' (hhere.symm.trans ha)
  | ended hends h h' => exact .ended hends (hhere.trans h) ((heq [] false).trans h')

theorem Finishes.congr {read read' : Cursor → Except ReadError α} (h : Finishes read c)
    (hc : c.breaks = true)
    (heq : ∀ more breaks, read' (c.followedBy more breaks) = read (c.followedBy more breaks)) :
    Finishes read' c := by
  have hhere : read' c = read c := by
    have hsame := heq [] true
    rwa [followedBy_nil hc] at hsame
  cases h with
  | reported h hends => exact .reported (hhere.trans h) hends
  | stopped h h' => exact .stopped (hhere.trans h) fun more breaks => (heq more breaks).trans (h' more breaks)
  | ended hends h => exact .ended hends (hhere.trans (h.trans (heq [] false).symm))

/-- Blanks before a word are passed over. -/
theorem Meets.skipBlanks {read : Cursor → Except ReadError (α × Cursor)}
    (h : Meets read c.skipBlanks) (hne : c.skipBlanks.rest ≠ []) :
    Meets (fun c => read c.skipBlanks) c := by
  have hskip : ∀ more breaks, (c.followedBy more breaks).skipBlanks
      = c.skipBlanks.followedBy more breaks := fun _ _ => skipBlanks_followedBy hne
  have hends := endsBetween_skipBlanks c
  cases h with
  | reported h hcut => exact .reported h (hends ▸ hcut)
  | stopped h hsame =>
    exact .stopped (fun more breaks => by rw [hskip, h]) fun a c' ha => hends ▸ hsame a c' ha
  | ended hbetween h h' => exact .ended (hends ▸ hbetween) h (by rw [hskip]; exact h')

section Chains

variable {β : Type} {first : Cursor → Except ReadError (α × Cursor)}

theorem Meets.pure (a : α) : Meets (fun c => .ok (a, c)) c :=
  .stopped (fun _ _ => rfl) fun _ _ h => by obtain ⟨-, rfl⟩ := Prod.mk.inj (Except.ok.inj h); rfl

theorem Meets.fail {read : Cursor → Except ReadError (α × Cursor)} {e : ReadError}
    (h : read c = .error e) (h' : ∀ more breaks, read (c.followedBy more breaks) = .error e) :
    Meets read c :=
  .stopped (.of_error h h') fun a c' ha => by rw [h] at ha; cases ha

theorem Meets.map (f : α → β) (h : Meets first c) :
    Meets (fun c => (first c).map fun (a, c') => (f a, c')) c := by
  cases h with
  | reported h hends => exact .reported (by rw [h]; rfl) hends
  | stopped h hends =>
    refine .stopped (fun more breaks => ?_) fun b c' hb => ?_
    · simp only [h more breaks]
      cases first c <;> rfl
    · obtain ⟨x, hx, heq⟩ := Except.map_eq_ok.mp hb
      obtain ⟨-, rfl⟩ := Prod.mk.inj heq
      exact hends x.1 x.2 hx
  | ended hends h h' => exact .ended hends (by rw [h]; rfl) (by rw [h']; rfl)

/-- **Readers one after the other**: the second one starts where the first one
stops. -/
theorem Meets.bind (next : α → Cursor → Except ReadError (β × Cursor)) (h : Meets first c)
    (hc : c.breaks = true)
    (hnext : ∀ a c', first c = .ok (a, c') → c'.breaks = true → Meets (next a) c') :
    Meets (fun c => first c >>= fun x => next x.1 x.2) c := by
  cases h with
  | reported h hends => exact .reported (by rw [h]; rfl) hends
  | ended hends h h' => exact .ended hends (by rw [h]; rfl) (by rw [h']; rfl)
  | stopped h hends =>
    cases hfirst : first c with
    | error e =>
      exact .fail (by rw [hfirst]; rfl) fun more breaks => by rw [h.error hfirst]; rfl
    | ok x =>
      obtain ⟨a, c'⟩ := x
      have hrest : ∀ more breaks, (first (c.followedBy more breaks) >>= fun x => next x.1 x.2)
          = next a (c'.followedBy more breaks) := fun more breaks => by
        rw [h.ok hfirst]
        rfl
      have hsame := hends a c' hfirst
      have hhere : (first c >>= fun x => next x.1 x.2) = next a c' := by rw [hfirst]; rfl
      cases hnext a c' hfirst (Stops.stays_broken h hc hfirst) with
      | reported h₂ hends₂ => exact .reported (hhere.trans h₂) (hsame.trans hends₂)
      | stopped h₂ hends₂ =>
        refine .stopped (fun more breaks => ?_) fun b c'' hb => ?_
        · simp only [hrest, hhere, h₂ more breaks]
        · exact hsame.trans (hends₂ b c'' (hhere.symm.trans hb))
      | ended hends₂ h₂ h₂' =>
        exact .ended (hsame.trans hends₂) (hhere.trans h₂) ((hrest [] false).trans h₂')

/-- The last reader of a chain reads everything there is. -/
theorem Meets.finish (next : α → Cursor → Except ReadError β) (h : Meets first c)
    (hc : c.breaks = true)
    (hnext : ∀ a c', first c = .ok (a, c') → c'.breaks = true → Finishes (next a) c') :
    Finishes (fun c => first c >>= fun x => next x.1 x.2) c := by
  cases h with
  | reported h hends => exact .reported (by rw [h]; rfl) hends
  | ended hends h h' => exact .ended hends (by rw [h, h'])
  | stopped h hends =>
    cases hfirst : first c with
    | error e =>
      exact .stopped (by rw [hfirst]; rfl) fun more breaks => by rw [h.error hfirst]; rfl
    | ok x =>
      obtain ⟨a, c'⟩ := x
      have hrest : ∀ more breaks, (first (c.followedBy more breaks) >>= fun x => next x.1 x.2)
          = next a (c'.followedBy more breaks) := fun more breaks => by
        rw [h.ok hfirst]
        rfl
      have hsame := hends a c' hfirst
      have hhere : (first c >>= fun x => next x.1 x.2) = next a c' := by rw [hfirst]; rfl
      cases hnext a c' hfirst (Stops.stays_broken h hc hfirst) with
      | reported h₂ hends₂ => exact .reported (hhere.trans h₂) (hsame.trans hends₂)
      | stopped h₂ h₂' =>
        exact .stopped (hhere.trans h₂) fun more breaks => (hrest more breaks).trans (h₂' more breaks)
      | ended hends₂ h₂ =>
        exact .ended (hsame.trans hends₂) (hhere.trans (h₂.trans (hrest [] false).symm))

end Chains

theorem Finishes.map {β : Type} {read : Cursor → Except ReadError α} (f : α → β)
    (h : Finishes read c) : Finishes (fun c => (read c).map f) c := by
  cases h with
  | reported h hends => exact .reported (by rw [h]; rfl) hends
  | stopped h h' => exact .stopped (by rw [h]; rfl) fun more breaks => by rw [h']; rfl
  | ended hends h => exact .ended hends (congrArg _ h)

/-! ## Clauses -/

/-- A cursor at the start of a word. -/
def AtWord (c : Cursor) : Prop := ∃ b rest, c.rest = b :: rest ∧ isBlank b = false

theorem atWord_skipBlanks (h : c.skipBlanks.rest ≠ []) : c.skipBlanks.AtWord := by
  obtain ⟨b, rest, hc⟩ := List.exists_cons_of_ne_nil h
  exact ⟨b, rest, hc, head_dropWhile ((rest_skipBlanks c).symm.trans hc)⟩

/-- **An integer** at the start of a word. -/
theorem AtWord.meets_integer (h : c.AtWord) (hc : c.breaks = true) (low high : Int) :
    Meets (fun c => c.integer low high) c := by
  obtain ⟨b, rest, hcons, hblank⟩ := h
  by_cases hcomment : b = 99
  · -- a comment is no integer, whatever follows
    subst hcomment
    have hfails : ∀ d : Cursor, d.offset = c.offset → (∃ tail, d.rest = 99 :: tail) →
        d.integer low high = .error (.invalidInteger (.between c.offset (c.offset + 1))) := by
      rintro d hoffset ⟨tail, hd⟩
      unfold integer
      rw [integerFrom_cons hd, hoffset]
      show _ = Except.error (ReadError.invalidInteger (.between c.offset (c.offset + 1)))
      rw [← hoffset]
      rfl
    exact .fail (hfails c rfl ⟨rest, hcons⟩) fun more breaks =>
      hfails _ rfl ⟨_, rest_followedBy hcons⟩
  · have hword := endsBetween_word hblank hcomment rest
    rw [← hcons] at hword
    rcases integer_broken low high hc with ⟨hread, hpast⟩ | ⟨hstops, hpast⟩
    · exact .reported hread (by rw [hword, hpast]; rfl)
    · refine .stopped hstops fun n c' hn => ?_
      rw [hword, List.isEmpty_eq_false_iff.mpr (hpast n c' hn), (integer_word hn).2.2]
      rfl

theorem literals_of_nil (h : c.skipBlanks.rest = []) :
    c.literals = .error (.unexpectedEnd c.skipBlanks.lastByte) := by
  rw [literals.eq_def]
  simp only [h, dite_true]

/-- What is read behind a number of a clause that starts at an offset. -/
def literalsAfter (start : Nat) (n : Int) (next : Cursor) : Except ReadError (Clause × Cursor) :=
  if n = 0 then .ok ([], next)
  else match Lit.ofNumber? n with
    | none => .error (.literalOutOfBound n (.between start next.offset))
    | some l => next.literals.map fun (lits, c'') => (l :: lits, c'')

theorem literals_of_ne (h : c.skipBlanks.rest ≠ []) :
    c.literals = c.skipBlanks.integer (-2147483648) 2147483647 >>= fun x =>
      literalsAfter c.skipBlanks.offset x.1 x.2 := by
  rw [literals.eq_def]
  simp only [h, dite_false]
  split
  · rename_i hn
    rw [hn]
    rfl
  · rename_i hn
    rw [hn]
    rfl

/-- **A clause**, by induction on the bytes left. Ahead of a number the break is
taken for the end. -/
theorem meets_literals (hc : c.breaks = true) : Meets literals c := by
  induction hlen : c.rest.length using Nat.strongRecOn generalizing c with
  | _ len ih =>
    subst hlen
    by_cases hnil : c.skipBlanks.rest = []
    · have hskip : (c.followedBy [] false).skipBlanks = c.skipBlanks.followedBy [] false := by
        simp [followedBy, Cursor.skipBlanks, advance]
      refine .ended ?_ (literals_of_nil hnil) ?_
      · rw [← endsBetween_skipBlanks, hnil, endsBetween]
      · rw [literals_of_nil (by rw [hskip]; simp [followedBy, hnil]), hskip]
        rfl
    · have hfirst := ((atWord_skipBlanks hnil).meets_integer hc (-2147483648) 2147483647).skipBlanks
        hnil
      have hchain := hfirst.bind (literalsAfter c.skipBlanks.offset) hc
        fun n next hn hbreaks => by
          have hlt : next.rest.length < c.rest.length :=
            Nat.lt_of_lt_of_le (integer_lt hnil hn) (length_skipBlanks_le c)
          unfold literalsAfter
          by_cases hzero : n = 0
          · simp only [if_pos hzero]
            exact .pure []
          · simp only [if_neg hzero]
            cases Lit.ofNumber? n with
            | none => exact .fail rfl fun _ _ => rfl
            | some l => exact (ih _ hlt hbreaks rfl).map (l :: ·)
      refine hchain.congr hc fun more breaks => ?_
      have hskip : (c.followedBy more breaks).skipBlanks = c.skipBlanks.followedBy more breaks :=
        skipBlanks_followedBy hnil
      have hne : (c.followedBy more breaks).skipBlanks.rest ≠ [] := by
        rw [hskip]
        exact List.append_ne_nil_of_left_ne_nil hnil more
      rw [literals_of_ne hne, hskip]
      rfl

/-- **A comment** between two words. -/
theorem meets_comment {rest : List UInt8} (hc : c.breaks = true) (hcons : c.rest = 99 :: rest) :
    Meets (fun c => (c.advance 1).comment) c := by
  have htail : (c.advance 1).rest = rest := rest_advance_one hcons
  rcases comment_broken (c := c.advance 1) hc with ⟨hread, hpast⟩ | ⟨hstops, hpast⟩
  · refine .reported hread ?_
    rw [hcons, endsBetween_comment, ← htail, hpast]
    rfl
  · refine .stopped (fun more breaks => ?_) fun items c' hitems => ?_
    · rw [advance_one_followedBy hcons, hstops]
    · rw [hcons, endsBetween_comment, ← htail, List.isEmpty_eq_false_iff.mpr hpast,
        rest_comment hitems]
      rfl

theorem clauses_of_nil (h : c.skipBlanks.rest = []) : c.clauses = .ok [] := by
  rw [clauses.eq_def]
  simp only
  split
  · rfl
  · rename_i hcons
    rw [h] at hcons
    cases hcons

theorem clauses_of_cons {b : UInt8} {rest : List UInt8} (h : c.skipBlanks.rest = b :: rest) :
    c.clauses = if b = 99 then
        (c.skipBlanks.advance 1).comment >>= fun x => x.2.clauses.map (x.1 ++ ·)
      else if b = 45 || (digit? b).isSome then
        c.skipBlanks.literals >>= fun x => x.2.clauses.map (.clause x.1 :: ·)
      else .error (.unexpectedByte (.point c.skipBlanks.offset)) := by
  rw [clauses.eq_def]
  simp only
  split
  · rename_i hnil
    rw [h] at hnil
    cases hnil
  · rename_i hcons
    rw [h] at hcons
    obtain ⟨rfl, -⟩ := List.cons.inj hcons
    split
    · split
      · rename_i hn
        rw [hn]
        rfl
      · rename_i hn
        rw [hn]
        rfl
    · split
      · split
        · rename_i hn
          rw [hn]
          rfl
        · rename_i hn
          rw [hn]
          rfl
      · rfl

/-- **The clause section**, by induction on the bytes left. Ahead of another
clause the break is taken for the end. -/
theorem finishes_clauses (hc : c.breaks = true) : Finishes clauses c := by
  induction hlen : c.rest.length using Nat.strongRecOn generalizing c with
  | _ len ih =>
    subst hlen
    have hle := length_skipBlanks_le c
    cases hrest : c.skipBlanks.rest with
    | nil =>
      have hnil : (c.followedBy [] false).skipBlanks.rest = [] := by
        rw [rest_skipBlanks, show (c.followedBy [] false).rest = c.rest from List.append_nil _,
          ← rest_skipBlanks, hrest]
      refine .ended ?_ ?_
      · rw [← endsBetween_skipBlanks, hrest, endsBetween]
      · rw [clauses_of_nil hrest, clauses_of_nil hnil]
    | cons b rest =>
      have hne : c.skipBlanks.rest ≠ [] := by
        rw [hrest]
        exact List.cons_ne_nil _ _
      have hskip : ∀ more breaks, (c.followedBy more breaks).skipBlanks
          = c.skipBlanks.followedBy more breaks := fun _ _ => skipBlanks_followedBy hne
      have hcons : ∀ more breaks, (c.followedBy more breaks).skipBlanks.rest
          = b :: (rest ++ more) := fun more breaks => by
        rw [hskip, rest_followedBy hrest]
      by_cases hcomment : b = 99
      · subst hcomment
        have hchain := ((meets_comment (c := c.skipBlanks) hc hrest).skipBlanks hne).finish
          (fun items next => next.clauses.map (items ++ ·)) hc fun items next hn hbreaks => by
            have hlt := comment_le hn
            rw [length_advance] at hlt
            have hpos := List.length_pos_iff.mpr hne
            exact (ih _ (by omega) hbreaks rfl).map (items ++ ·)
        refine hchain.congr hc fun more breaks => ?_
        rw [clauses_of_cons (hcons more breaks), if_pos rfl]
      · by_cases hstart : (b = 45 || (digit? b).isSome) = true
        · have hchain := ((meets_literals (c := c.skipBlanks) hc).skipBlanks hne).finish
            (fun lits next => next.clauses.map (.clause lits :: ·)) hc
            fun lits next hn hbreaks =>
              (ih _ (Nat.lt_of_lt_of_le (literals_lt hn) hle) hbreaks rfl).map (.clause lits :: ·)
          refine hchain.congr hc fun more breaks => ?_
          rw [clauses_of_cons (hcons more breaks), if_neg hcomment, if_pos hstart]
        · refine .stopped (e := .unexpectedByte (.point c.skipBlanks.offset)) ?_
            fun more breaks => ?_
          · rw [clauses_of_cons hrest, if_neg hcomment, if_neg hstart]
          · rw [clauses_of_cons (hcons more breaks), if_neg hcomment, if_neg hstart, hskip]
            rfl

/-! ## The header -/

end Cursor

/-- **The header is blamed**: it is called wrong or too short. -/
def ReadError.BlamesHeader (e : ReadError) : Prop :=
  (∃ fault span, e = .invalidHeader fault span) ∨ ∃ span, e = .unexpectedEnd span

namespace Cursor

variable {c c' : Cursor}

theorem expect_broken (expected : List UInt8) (hc : c.breaks = true) :
    (c.rest.drop expected.length = [] ∧ ∃ span, c.expect expected = .error span)
      ∨ ∀ more breaks, (c.followedBy more breaks).expect expected
          = (c.expect expected).map fun c' => c'.followedBy more breaks := by
  induction expected generalizing c with
  | nil => exact Or.inr fun more breaks => rfl
  | cons b expected ih =>
    cases hrest : c.rest with
    | nil =>
      refine Or.inl ⟨rfl, c.lastByte, ?_⟩
      unfold expect
      simp only [hrest, hc, if_true]
    | cons found rest =>
      have hnext : (c.advance 1).rest = rest := rest_advance_one hrest
      unfold expect
      have hfound : ∀ more breaks, (c.followedBy more breaks).rest = found :: (rest ++ more) := fun _ _ =>
        rest_followedBy hrest
      have hadvance : ∀ more breaks,
          (c.followedBy more breaks).advance 1 = (c.advance 1).followedBy more breaks := fun _ _ =>
        advance_one_followedBy hrest
      simp only [hrest, hfound, hadvance]
      split
      · rw [← hnext]
        exact ih (c := c.advance 1) hc
      · exact Or.inr fun more breaks => rfl

/-- The ways in which an integer cannot be read. -/
theorem integerFrom_error {start value : Nat} {negated : Bool} {e : ReadError}
    (h : integerFrom start c value negated = .error e) :
    (e = .io ∧ c.breaks = true) ∨ ∃ span, e = .invalidInteger span := by
  fun_induction integerFrom start c value negated with
  | case1 c value negated hnil hbreaks =>
    obtain rfl := Except.error.inj h
    exact Or.inl ⟨rfl, hbreaks⟩
  | case2 => cases h
  | case3 =>
    obtain rfl := Except.error.inj h
    exact Or.inr ⟨_, rfl⟩
  | case4 => rename_i ih; exact ih h
  | case5 => rename_i ih; exact ih h
  | case6 =>
    obtain rfl := Except.error.inj h
    exact Or.inr ⟨_, rfl⟩
  | case7 => cases h
  | case8 =>
    obtain rfl := Except.error.inj h
    exact Or.inr ⟨_, rfl⟩

theorem integer_error {low high : Int} {e : ReadError} (h : c.integer low high = .error e) :
    (e = .io ∧ c.breaks = true) ∨ (∃ span, e = .invalidInteger span)
      ∨ ∃ n span, e = .literalOutOfBound n span := by
  unfold integer at h
  split at h
  · rename_i hfrom
    obtain rfl := Except.error.inj h
    exact (integerFrom_error hfrom).imp_right Or.inl
  · split at h
    · cases h
    · obtain rfl := Except.error.inj h
      exact Or.inr (Or.inr ⟨_, _, rfl⟩)

/-- Where a header is called wrong when one of its counts cannot be read. -/
def countSpan (c : Cursor) : ReadError → Span
  | .invalidInteger span | .literalOutOfBound _ span => span
  | _ => (c.advance c.rest.length).lastByte

theorem headerCount_of_nil (fault : HeaderFault) (h : c.skipBlanks.rest = []) :
    c.headerCount fault = .error (.unexpectedEnd c.skipBlanks.lastByte) := by
  unfold headerCount
  simp only [h, List.isEmpty_nil, if_true]

theorem headerCount_of_ne (fault : HeaderFault) (h : c.skipBlanks.rest ≠ []) :
    c.headerCount fault = match c.skipBlanks.integer 0 4294967295 with
      | .ok (n, c') => .ok (n.toNat, c')
      | .error e => .error (.invalidHeader fault (c.skipBlanks.countSpan e)) := by
  unfold headerCount
  simp only [List.isEmpty_eq_false_iff.mpr h, Bool.false_eq_true, if_false]
  rfl

/-- **One of the two counts**: a break inside it, or ahead of it, is not told
apart from a wrong header. -/
theorem headerCount_broken (fault : HeaderFault) (hc : c.breaks = true) :
    (pastWord (pastBlanks c.rest) = [] ∧ ∃ e, c.headerCount fault = .error e ∧ e.BlamesHeader)
      ∨ (Stops (fun c => c.headerCount fault) c
        ∧ ∀ n c', c.headerCount fault = .ok (n, c') → pastWord (pastBlanks c.rest) ≠ []) := by
  by_cases hnil : c.skipBlanks.rest = []
  · refine Or.inl ⟨?_, _, headerCount_of_nil fault hnil, Or.inr ⟨_, rfl⟩⟩
    rw [← rest_skipBlanks, hnil]
    rfl
  rw [← rest_skipBlanks]
  have hhere := headerCount_of_ne fault hnil
  rcases integer_broken (c := c.skipBlanks) 0 4294967295 hc with
    ⟨hread, hpast⟩ | ⟨hstops, hpast⟩
  · refine Or.inl ⟨hpast, .invalidHeader fault (c.skipBlanks.countSpan .io), ?_, Or.inl ⟨_, _, rfl⟩⟩
    rw [hhere, hread]
  · refine Or.inr ⟨fun more breaks => ?_, fun n c' hn => ?_⟩
    · have hskip : (c.followedBy more breaks).skipBlanks = c.skipBlanks.followedBy more breaks :=
        skipBlanks_followedBy hnil
      have hne : (c.followedBy more breaks).skipBlanks.rest ≠ [] := by
        rw [hskip]
        exact List.append_ne_nil_of_left_ne_nil hnil more
      simp only [hhere, headerCount_of_ne fault hne, hskip]
      cases hread : c.skipBlanks.integer 0 4294967295 with
      | ok x => rw [hstops.ok hread]; rfl
      | error e =>
        have hread' := hstops.error hread more breaks
        rw [hread']
        -- a reader that stops does not report a break, so the span is inside the bytes at hand
        rcases integer_error (hstops.error hread [] false) with
          ⟨-, hbreaks⟩ | ⟨span, rfl⟩ | ⟨n, span, rfl⟩
        · cases hbreaks
        · rfl
        · rfl
    · cases hread : c.skipBlanks.integer 0 4294967295 with
      | error e => rw [hhere, hread] at hn; cases hn
      | ok x => exact hpast x.1 x.2 hread

/-- What is read behind the marker of a header. -/
def counts (c : Cursor) : Except ReadError ((Nat × Nat) × Cursor) :=
  c.headerCount .variableCount >>= fun x =>
    x.2.headerCount .clauseCount >>= fun y => .ok ((x.1, y.1), y.2)

theorem header_eq (c : Cursor) : c.header = match c.expect " cnf".toUTF8.toList with
    | .error span => .error (.invalidHeader .marker span)
    | .ok c' => c'.counts := rfl

theorem counts_broken (hc : c.breaks = true) :
    (pastCounts c.rest = [] ∧ ∃ e, c.counts = .error e ∧ e.BlamesHeader)
      ∨ (Stops counts c ∧ ∀ n c', c.counts = .ok (n, c') → pastCounts c.rest ≠ []) := by
  rcases headerCount_broken .variableCount hc with ⟨hpast, e, he, hblamed⟩ | ⟨hstops, hpast⟩
  · refine Or.inl ⟨?_, e, ?_, hblamed⟩
    · unfold pastCounts
      rw [hpast]
      rfl
    · unfold counts
      rw [he]
      rfl
  cases hvars : c.headerCount .variableCount with
  | error e =>
    have hhere : c.counts = .error e := by unfold counts; rw [hvars]; rfl
    refine Or.inr ⟨.of_error hhere fun more breaks => ?_, fun n c' hn => ?_⟩
    · unfold counts
      rw [hstops.error hvars]
      rfl
    · rw [hhere] at hn
      cases hn
  | ok x =>
    obtain ⟨vars, c₁⟩ := x
    have hhere : c.counts = (c₁.headerCount .clauseCount).map fun y => ((vars, y.1), y.2) := by
      unfold counts
      rw [hvars]
      rfl
    have hbehind : ∀ more breaks, (c.followedBy more breaks).counts
        = ((c₁.followedBy more breaks).headerCount .clauseCount).map fun y => ((vars, y.1), y.2) :=
      fun more breaks => by
        unfold counts
        rw [hstops.ok hvars]
        rfl
    have hrest : pastWord (pastBlanks c₁.rest) = pastCounts c.rest := by
      rw [headerCount_rest hvars, pastBlanks_blank.tail_pastWord]
      rfl
    rw [← hrest, hhere]
    rcases headerCount_broken .clauseCount (hstops.stays_broken hc hvars) with
      ⟨hpast₁, e, he, hblamed⟩ | ⟨hstops₁, hpast₁⟩
    · refine Or.inl ⟨hpast₁, e, ?_, hblamed⟩
      rw [he]
      rfl
    · refine Or.inr ⟨fun more breaks => ?_, fun n c' hn => ?_⟩
      · have hsame := hstops₁ more breaks
        simp only at hsame
        rw [hbehind, hhere, hsame]
        cases c₁.headerCount .clauseCount <;> rfl
      · obtain ⟨y, hy, -⟩ := Except.map_eq_ok.mp hn
        exact hpast₁ y.1 y.2 hy

/-- **The header**: a break inside it is not told apart from a wrong header. -/
theorem header_broken (hc : c.breaks = true) :
    (pastCounts (c.rest.drop 4) = [] ∧ ∃ e, c.header = .error e ∧ e.BlamesHeader)
      ∨ (Stops header c ∧ ∀ n c', c.header = .ok (n, c') → pastCounts (c.rest.drop 4) ≠ []) := by
  have hmarker : " cnf".toUTF8.toList.length = 4 := by decide +kernel
  rcases expect_broken " cnf".toUTF8.toList hc with ⟨hrest, span, hspan⟩ | hstops
  · rw [hmarker] at hrest
    refine Or.inl ⟨by rw [hrest]; rfl, .invalidHeader .marker span, ?_, Or.inl ⟨_, _, rfl⟩⟩
    rw [header_eq, hspan]
  cases hexpect : c.expect " cnf".toUTF8.toList with
  | error span =>
    have hhere : c.header = .error (.invalidHeader .marker span) := by rw [header_eq, hexpect]
    refine Or.inr ⟨.of_error hhere fun more breaks => ?_, fun n c' hn => ?_⟩
    · rw [header_eq, hstops, hexpect]
      rfl
    · rw [hhere] at hn
      cases hn
  | ok c₁ =>
    have hhere : c.header = c₁.counts := by rw [header_eq, hexpect]
    have hbehind : ∀ more breaks, (c.followedBy more breaks).header
        = (c₁.followedBy more breaks).counts := fun more breaks => by
      rw [header_eq, hstops, hexpect]
      rfl
    have hbreaks : c₁.breaks = true := by
      have hsame := hstops [] true
      rw [followedBy_nil hc, hexpect] at hsame
      rw [Except.ok.inj hsame]
      rfl
    rw [← hmarker, ← expect_rest hexpect, hhere]
    refine (counts_broken hbreaks).imp_right (And.imp_left fun hcounts more breaks => ?_)
    rw [hbehind, hcounts, hhere]

/-! ## Before the header -/

theorem preamble_cons {b : UInt8} {rest : List UInt8} (h : c.rest = b :: rest) :
    c.preamble = if b = 99 then
        (c.advance 1).comment >>= fun x => x.2.preamble.map fun y => (y.1, x.1 ++ y.2.1, y.2.2)
      else if b = 112 then
        (c.advance 1).header.map fun x => (x.1.2, [.varCount x.1.1], x.2)
      else if isBlank b then (c.advance 1).preamble
      else .error (.unexpectedByte (.point (c.advance 1).offset)) := by
  rw [preamble.eq_def]
  split
  · rename_i hnil
    rw [h] at hnil
    cases hnil
  · rename_i hcons
    rw [h] at hcons
    obtain ⟨rfl, -⟩ := List.cons.inj hcons
    simp only
    split
    · split
      · rename_i hn
        rw [hn]
        rfl
      · rename_i hn
        rw [hn]
        rfl
    · rfl

/-- **What a break does to the preamble.** Before the header it is reported, and
in the header it is taken for a wrong header. -/
inductive PreambleMeets (c : Cursor) : Prop where
  | reported (h : c.preamble = .error .io) (htext : headerText? c.rest = none)
  | failed {e : ReadError} (h : ∀ more breaks, (c.followedBy more breaks).preamble = .error e)
  | read {x : Nat × List Item × Cursor} (h : c.preamble = .ok x) (hbreaks : x.2.2.breaks = true)
      (hfollowed : ∀ more breaks, (c.followedBy more breaks).preamble
        = .ok (x.1, x.2.1, x.2.2.followedBy more breaks))
      (htext : clauseText c.rest ≠ [])
  | blamed {e : ReadError} (h : c.preamble = .error e) (hblamed : e.BlamesHeader)
      (htext : (headerText? c.rest).isSome = true) (hnil : clauseText c.rest = [])

/-- Something that is passed over before the rest of the preamble. -/
theorem PreambleMeets.behind {c₁ : Cursor} (h : PreambleMeets c₁) (hc : c.breaks = true)
    (hc₁ : c₁.breaks = true) (items : List Item)
    (hsame : ∀ more breaks, (c.followedBy more breaks).preamble
      = (c₁.followedBy more breaks).preamble.map fun y => (y.1, items ++ y.2.1, y.2.2))
    (htext : headerText? c.rest = headerText? c₁.rest) : PreambleMeets c := by
  have hhere : c.preamble = c₁.preamble.map fun y => (y.1, items ++ y.2.1, y.2.2) := by
    have hbroken := hsame [] true
    rwa [followedBy_nil hc, followedBy_nil hc₁] at hbroken
  have hclause : clauseText c.rest = clauseText c₁.rest := by
    unfold clauseText
    rw [htext]
  cases h with
  | reported h hnone => exact .reported (by rw [hhere, h]; rfl) (htext.trans hnone)
  | failed h => exact .failed fun more breaks => by rw [hsame, h]; rfl
  | @read x h hbreaks hfollowed hne =>
    exact .read (x := (x.1, items ++ x.2.1, x.2.2)) (by rw [hhere, h]; rfl) hbreaks
      (fun more breaks => by rw [hsame, hfollowed]; rfl) (hclause ▸ hne)
  | blamed h hblamed hsome hnil =>
    exact .blamed (by rw [hhere, h]; rfl) hblamed (htext ▸ hsome) (hclause.trans hnil)

theorem preamble_header_broken {rest : List UInt8} (hc : c.breaks = true)
    (hrest : c.rest = 112 :: rest) : PreambleMeets c := by
  have htail : (c.advance 1).rest = rest := rest_advance_one hrest
  have htext : headerText? c.rest = some rest := by
    rw [hrest, headerText?, if_neg (by decide), if_pos rfl]
  have hclause : clauseText c.rest = pastCounts ((c.advance 1).rest.drop 4) := by
    unfold clauseText
    rw [htext, htail]
  have hhere : c.preamble
      = (c.advance 1).header.map fun x => (x.1.2, [.varCount x.1.1], x.2) := by
    rw [preamble_cons hrest, if_neg (by decide), if_pos rfl]
  have hbehind : ∀ more breaks, (c.followedBy more breaks).preamble
      = ((c.advance 1).followedBy more breaks).header.map
        fun x => (x.1.2, [.varCount x.1.1], x.2) := fun more breaks => by
    rw [preamble_cons (rest_followedBy hrest), if_neg (by decide), if_pos rfl,
      advance_one_followedBy hrest]
  rcases header_broken (c := c.advance 1) hc with ⟨hpast, e, he, hblamed⟩ | ⟨hstops, hpast⟩
  · refine .blamed ?_ hblamed (by rw [htext]; rfl) (hclause.trans hpast)
    rw [hhere, he]
    rfl
  cases hread : (c.advance 1).header with
  | error e => exact .failed fun more breaks => by rw [hbehind, hstops.error hread]; rfl
  | ok x =>
    obtain ⟨counts, c₁⟩ := x
    exact .read (x := (counts.2, [.varCount counts.1], c₁)) (by rw [hhere, hread]; rfl)
      (hstops.stays_broken hc hread) (fun more breaks => by rw [hbehind, hstops.ok hread]; rfl)
      (hclause ▸ hpast _ _ hread)

theorem preamble_comment_broken {rest : List UInt8} (hc : c.breaks = true)
    (hrest : c.rest = 99 :: rest)
    (ih : ∀ c', c'.rest.length < c.rest.length → c'.breaks = true → PreambleMeets c') :
    PreambleMeets c := by
  have htail : (c.advance 1).rest = rest := rest_advance_one hrest
  have htext : headerText? c.rest = headerText? (pastLine rest).tail := by
    rw [hrest, headerText?, if_pos rfl, headerText?_blank.tail_pastLine]
  have hbehind : ∀ more breaks, (c.followedBy more breaks).preamble
      = ((c.advance 1).followedBy more breaks).comment >>= fun x =>
          x.2.preamble.map fun y => (y.1, x.1 ++ y.2.1, y.2.2) := fun more breaks => by
    rw [preamble_cons (rest_followedBy hrest), if_pos rfl, advance_one_followedBy hrest]
  rcases comment_broken (c := c.advance 1) hc with ⟨hread, hpast⟩ | ⟨hstops, hpast⟩
  · refine .reported ?_ ?_
    · rw [preamble_cons hrest, if_pos rfl, hread]
      rfl
    · rw [htext, ← htail, hpast, List.tail_nil, headerText?]
  cases hread : (c.advance 1).comment with
  | error e => exact .failed fun more breaks => by rw [hbehind, hstops.error hread]; rfl
  | ok x =>
    obtain ⟨items, c₁⟩ := x
    have hbreaks := hstops.stays_broken hc hread
    have hlt : c₁.rest.length < c.rest.length := by
      have := comment_le hread
      rw [htail] at this
      rw [hrest, List.length_cons]
      omega
    refine (ih c₁ hlt hbreaks).behind hc hbreaks items (fun more breaks => ?_) ?_
    · rw [hbehind, hstops.ok hread]
      rfl
    · rw [htext, ← htail, rest_comment hread]

/-- **The preamble**, by induction on the bytes left. -/
theorem preamble_broken (hc : c.breaks = true) : PreambleMeets c := by
  induction hlen : c.rest.length using Nat.strongRecOn generalizing c with
  | _ len ih =>
    subst hlen
    cases hrest : c.rest with
    | nil =>
      refine .reported ?_ (by rw [hrest, headerText?])
      rw [preamble.eq_def]
      split
      · rw [if_pos hc]
      · rename_i hcons
        rw [hrest] at hcons
        cases hcons
    | cons b rest =>
      have htail : (c.advance 1).rest = rest := rest_advance_one hrest
      by_cases hcomment : b = 99
      · subst hcomment
        exact preamble_comment_broken hc hrest fun c' hlt hc' => ih _ hlt hc' rfl
      by_cases hheader : b = 112
      · subst hheader
        exact preamble_header_broken hc hrest
      by_cases hblank : isBlank b = true
      · have hlt : (c.advance 1).rest.length < c.rest.length := by
          rw [htail, hrest]
          exact Nat.lt_succ_self _
        refine (ih _ hlt (c := c.advance 1) hc rfl).behind hc hc [] (fun more breaks => ?_) ?_
        · rw [preamble_cons (rest_followedBy hrest), if_neg hcomment, if_neg hheader,
            if_pos hblank, advance_one_followedBy hrest]
          cases ((c.advance 1).followedBy more breaks).preamble <;> rfl
        · rw [hrest, headerText?, if_neg hcomment, if_neg hheader, htail]
      · refine .failed (e := .unexpectedByte (.point (c.advance 1).offset)) fun more breaks => ?_
        rw [preamble_cons (rest_followedBy hrest), if_neg hcomment, if_neg hheader, if_neg hblank]
        rfl

end Cursor

open Cursor (clauseText endsBetween headerText?)

/-- **Reading stops within the bytes**: whatever follows them, and whether or
not the source breaks, the error is the same. -/
def StopsWithin (bs : List UInt8) (e : ReadError) : Prop :=
  ∀ more breaks, readItems { rest := bs ++ more, breaks } = .error e

/-- **The bytes end between two words** of the clause section. -/
def EndsBetween (bs : List UInt8) : Prop :=
  clauseText bs ≠ [] ∧ endsBetween (clauseText bs) = true

/-- **The bytes end in the header**, which is not complete before a blank
follows its second count. -/
def EndsInHeader (bs : List UInt8) : Prop :=
  (headerText? bs).isSome = true ∧ clauseText bs = []

/-- A file is read through the preamble and the clauses. -/
theorem readItems_of_preamble {c : Cursor} {x : Nat × List Item × Cursor}
    (h : c.preamble = .ok x) : readItems c = x.2.2.clauses >>= fun more =>
      if (more.filterMap Item.clause?).length = x.1 then .ok (x.2.1 ++ more)
      else .error (.clauseCountMismatch x.1 (more.filterMap Item.clause?).length) := by
  unfold readItems
  rw [h]
  rfl

/-- What reading a source that breaks comes to. -/
theorem readItems_broken_cases (bs : List UInt8) :
    (∃ e, StopsWithin bs e)
      ∨ (EndsBetween bs ∧ readItems { rest := bs, breaks := true } = readItems { rest := bs })
      ∨ (EndsInHeader bs
        ∧ ∃ e, readItems { rest := bs, breaks := true } = .error e ∧ e.BlamesHeader)
      ∨ (¬ EndsBetween bs ∧ ¬ EndsInHeader bs
        ∧ readItems { rest := bs, breaks := true } = .error .io) := by
  have hbehind : ∀ more breaks, ({ rest := bs ++ more, breaks } : Cursor)
      = ({ rest := bs, breaks := true } : Cursor).followedBy more breaks := fun _ _ => rfl
  have hwhole : ({ rest := bs } : Cursor)
      = ({ rest := bs, breaks := true } : Cursor).followedBy [] false := by
    rw [← hbehind, List.append_nil]
  cases Cursor.preamble_broken (c := { rest := bs, breaks := true }) rfl with
  | reported h htext =>
    have hnil : clauseText bs = [] := by
      unfold clauseText
      rw [show headerText? bs = none from htext]
    refine Or.inr (Or.inr (Or.inr ⟨fun hends => hends.1 hnil, fun hin => ?_, ?_⟩))
    · have hsome := hin.1
      rw [show headerText? bs = none from htext] at hsome
      cases hsome
    · unfold readItems
      rw [h]
      rfl
  | @failed e h =>
    refine Or.inl ⟨e, fun more breaks => ?_⟩
    rw [hbehind]
    unfold readItems
    rw [h]
    rfl
  | blamed h hblamed htext hnil =>
    refine Or.inr (Or.inr (Or.inl ⟨⟨htext, hnil⟩, _, ?_, hblamed⟩))
    unfold readItems
    rw [h]
    rfl
  | read h hbreaks hfollowed hne =>
    have hrest := Cursor.rest_of_preamble (c := { rest := bs, breaks := true }) h
    have hends : endsBetween _ = endsBetween (clauseText bs) :=
      (congrArg _ hrest).trans (Cursor.endsBetween_blank.tail_clauseText bs)
    have hread := readItems_of_preamble h
    have hreadMore := fun more breaks => readItems_of_preamble (hfollowed more breaks)
    cases Cursor.finishes_clauses hbreaks with
    | reported hio hcut =>
      refine Or.inr (Or.inr (Or.inr ⟨fun hbetween => ?_, fun hin => hne hin.2, ?_⟩))
      · rw [hends, hbetween.2] at hcut
        cases hcut
      · rw [hread, hio]
        rfl
    | @stopped e _ hstopped =>
      refine Or.inl ⟨e, fun more breaks => ?_⟩
      rw [hbehind, hreadMore, hstopped]
      rfl
    | ended hbetween hsame =>
      refine Or.inr (Or.inl ⟨⟨hne, hends ▸ hbetween⟩, ?_⟩)
      rw [hread, hsame, hwhole, hreadMore]

/-- What is read from a source that breaks after its bytes. -/
def readBroken (bs : List UInt8) : Except ReadError (List Item) :=
  readItems { rest := bs, breaks := true }

/-- **Reading a source that breaks** after its bytes gives the error that was
met within them, if there is one. Otherwise the break is reported, except in two
places: between two words of the clause section it is taken for the end of the
file, and in the header for a fault of the header. So a file is read in spite of
the break exactly if its bytes end between two words and are one as they are. -/
theorem readItems_broken (bs : List UInt8) :
    ((∃ e, StopsWithin bs e ∧ readBroken bs = .error e)
      ∨ (EndsBetween bs ∧ readBroken bs = readItems { rest := bs })
      ∨ (EndsInHeader bs ∧ ∃ e, readBroken bs = .error e ∧ e.BlamesHeader)
      ∨ (¬ EndsBetween bs ∧ ¬ EndsInHeader bs ∧ readBroken bs = .error .io))
    ∧ ∀ items, readBroken bs = .ok items ↔ EndsBetween bs ∧ readItems { rest := bs } = .ok items := by
  unfold readBroken
  have hwithin : ∀ e, StopsWithin bs e → ∀ breaks, readItems { rest := bs, breaks } = .error e :=
    fun e he breaks => by
      have hnone := he [] breaks
      rwa [List.append_nil] at hnone
  refine ⟨?_, fun items => ⟨fun hok => ?_, fun ⟨hends, hok⟩ => ?_⟩⟩
  · exact (readItems_broken_cases bs).imp_left fun ⟨e, he⟩ => ⟨e, he, hwithin e he true⟩
  · rcases readItems_broken_cases bs with ⟨e, he⟩ | ⟨hends, hsame⟩ | ⟨-, e, he, -⟩ | ⟨-, -, hio⟩
    · rw [hwithin e he] at hok
      cases hok
    · exact ⟨hends, hsame.symm.trans hok⟩
    · rw [he] at hok
      cases hok
    · rw [hio] at hok
      cases hok
  · rcases readItems_broken_cases bs with ⟨e, he⟩ | ⟨-, hsame⟩ | ⟨hin, -⟩ | ⟨hnot, -, -⟩
    · rw [hwithin e he] at hok
      cases hok
    · exact hsame.trans hok
    · exact absurd hin.2 hends.1
    · exact absurd hends hnot

/-- **A break that goes unnoticed**: behind a header that announces no clauses. -/
theorem readItems_unnoticed_break :
    ∃ items, readItems { rest := "p cnf 0 0\n".toUTF8.toList, breaks := true } = .ok items := by
  have hread : (readItems { rest := "p cnf 0 0\n".toUTF8.toList, breaks := true }).toOption.isSome
      = true := by decide +kernel
  obtain ⟨items, hitems⟩ := Option.isSome_iff_exists.mp hread
  exact ⟨items, Except.toOption_eq_some.mp hitems⟩

end Cleave
