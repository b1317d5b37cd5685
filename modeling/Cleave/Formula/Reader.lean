import Cleave.Formula
import Cleave.Text.Whole

/-!
# Reading formulas

A formula file is a header `p cnf VARIABLES CLAUSES`, followed by clauses:
integers apart by blanks, each clause closed by a zero. Comment lines start
with `c` and may stand before the header and between clauses. Two kinds of
comments carry meaning: `c p show VARIABLES 0` names variables to project
onto, `c p weight LITERAL WEIGHT 0` gives a literal a weight.

`readItems` turns the bytes of a file into the list of what the file states,
in order; `Formula.ofItems` collects a formula from it. An error names its
cause and, where there is one, the span of bytes it points at.

A source may break: after its bytes, it fails instead of ending. Where the
reader only looks ahead for another clause, a broken source is not told apart
from one that ends.
-/

namespace Cleave

/-- A run of bytes in the input. -/
structure Span where
  /-- The index of the first byte. -/
  offset : Nat
  /-- The number of bytes. -/
  length : Nat
deriving DecidableEq

namespace Span

/-- The span of a single place, which has no length. -/
def point (offset : Nat) : Span := ⟨offset, 0⟩

/-- The span from one offset up to another. -/
def between (first last : Nat) : Span := ⟨first, last - first⟩

end Span

/-- What is wrong with a header. -/
inductive HeaderFault where
  /-- It does not start with `p cnf`. -/
  | marker
  /-- The variable count cannot be read. -/
  | variableCount
  /-- The clause count cannot be read. -/
  | clauseCount
deriving DecidableEq

/-- The text of a header fault. -/
def HeaderFault.message : HeaderFault → String
  | marker => "`p cnf` prefix missing or invalid"
  | variableCount => "Invalid variable count"
  | clauseCount => "Invalid clause count"

/-- Why a file cannot be read. -/
inductive ReadError where
  /-- The source broke. -/
  | io
  /-- The header cannot be read. -/
  | invalidHeader (fault : HeaderFault) (span : Span)
  /-- There is no header. -/
  | missingHeader
  /-- The file ends too early. -/
  | unexpectedEnd (span : Span)
  /-- A byte that cannot stand where it does. -/
  | unexpectedByte (span : Span)
  /-- Something that is not an integer. -/
  | invalidInteger (span : Span)
  /-- A weight that is not a finite number. -/
  | invalidWeight (span : Span)
  /-- A variable that is not positive or too large. -/
  | variableOutOfBound (value : Int) (span : Span)
  /-- A literal that is zero or too large. -/
  | literalOutOfBound (value : Int) (span : Span)
  /-- The header announces another number of clauses. -/
  | clauseCountMismatch (expected found : Nat)
deriving DecidableEq

namespace ReadError

/-- The text of the error. -/
def message : ReadError → String
  | io => "The underlying IO has failed"
  | invalidHeader fault _ => "Invalid header: " ++ fault.message
  | missingHeader => "Missing DIMACS header, i.e., `p cnf ...`"
  | unexpectedEnd _ => "Unexpected end of file"
  | unexpectedByte _ => "Unexpected character"
  | invalidInteger _ => "Invalid integer"
  | invalidWeight _ => "Invalid weight, expected a finite number"
  | variableOutOfBound value _ => "Variable " ++ toString value ++ " is out of bound"
  | literalOutOfBound value _ => "Literal " ++ toString value ++ " is out of bound"
  | clauseCountMismatch expected found =>
    "Number of clauses does not match header: expected " ++ toString expected
      ++ ", but found " ++ toString found ++ " clauses"

/-- Where the error points at. -/
def span? : ReadError → Option Span
  | invalidHeader _ span | unexpectedEnd span | unexpectedByte span | invalidInteger span
  | invalidWeight span | variableOutOfBound _ span | literalOutOfBound _ span => some span
  | io | missingHeader | clauseCountMismatch .. => none

end ReadError

/-- What a file states. -/
inductive Item where
  /-- The header announces variables. -/
  | varCount (count : Nat)
  /-- A clause. -/
  | clause (lits : Clause)
  /-- Variables to project onto. -/
  | projection (vars : List Var)
  /-- The weight of a literal. -/
  | weight (l : Lit) (value : Float)

/-- Where the reader stands in its input. -/
structure Cursor where
  /-- The bytes still to be read. -/
  rest : List UInt8
  /-- The number of bytes read. -/
  offset : Nat := 0
  /-- Whether the source fails after its bytes instead of ending. -/
  breaks : Bool := false

namespace Cursor

/-- Blank, tabulator, line feed, form feed and carriage return. -/
def isBlank (b : UInt8) : Bool := b = 32 || b = 9 || b = 10 || b = 12 || b = 13

/-- The place of the byte read last. -/
def lastByte (c : Cursor) : Span := .point (c.offset - 1)

/-- Moves past a number of bytes. -/
def advance (c : Cursor) (count : Nat) : Cursor :=
  { c with rest := c.rest.drop count, offset := c.offset + count }

/-- Moves past blanks. -/
def skipBlanks (c : Cursor) : Cursor := c.advance (c.rest.takeWhile isBlank).length

theorem length_advance (c : Cursor) (count : Nat) :
    (c.advance count).rest.length = c.rest.length - count := by
  simp [advance]

theorem length_skipBlanks_le (c : Cursor) : c.skipBlanks.rest.length ≤ c.rest.length := by
  simp [skipBlanks, length_advance]

/-- The rest of the line; the cursor then stands behind the line feed. -/
def takeLine (c : Cursor) : Except ReadError (List UInt8 × Cursor) :=
  let line := c.rest.takeWhile (· != 10)
  if line.length < c.rest.length then .ok (line, c.advance (line.length + 1))
  else if c.breaks then .error .io
  else .ok (line, c.advance line.length)

theorem takeLine_le {c c' : Cursor} {line : List UInt8} (h : c.takeLine = .ok (line, c')) :
    c'.rest.length ≤ c.rest.length := by
  simp only [takeLine] at h
  split at h
  · cases h; simp [length_advance]
  · split at h
    · cases h
    · cases h; simp [length_advance]

/-! ## Integers -/

/-- The digit a byte stands for. -/
def digit? (b : UInt8) : Option Nat :=
  if 48 ≤ b && b ≤ 57 then some (b.toNat - 48) else none

/-- Reads an integer from `start` up to a blank, which is read as well, or
to the end. A minus sign may stand anywhere in it, but once. -/
def integerFrom (start : Nat) (c : Cursor) (value : Nat) (negated : Bool) :
    Except ReadError (Int × Cursor) :=
  match _hc : c.rest with
  | [] =>
    if c.breaks then .error .io else .ok (if negated then -(value : Int) else value, c)
  | b :: _ =>
    let next := c.advance 1
    if b = 45 then
      if negated then .error (.invalidInteger next.lastByte)
      else integerFrom start next value true
    else
      match digit? b with
      | some d =>
        if 10 * value + d < Nat.pow 2 63 then integerFrom start next (10 * value + d) negated
        else .error (.invalidInteger (.between start next.offset))
      | none =>
        if isBlank b then .ok (if negated then -(value : Int) else value, next)
        else .error (.invalidInteger (.between start next.offset))
termination_by c.rest.length
decreasing_by all_goals simp [length_advance, *]

theorem integerFrom_le {start : Nat} {c c' : Cursor} {value : Nat} {negated : Bool} {n : Int}
    (h : integerFrom start c value negated = .ok (n, c')) :
    c'.rest.length ≤ c.rest.length := by
  fun_induction integerFrom start c value negated with
  | case1 => cases h
  | case2 => cases h; exact Nat.le_refl _
  | case3 => cases h
  | case4 => rename_i next _ _ ih; have := ih h; simp [next, length_advance] at this; omega
  | case5 => rename_i next _ _ _ _ ih; have := ih h; simp [next, length_advance] at this; omega
  | case6 => cases h
  | case7 =>
    rename_i next _ _ _
    simp only [Except.ok.injEq, Prod.mk.injEq] at h
    rw [← h.2]
    simp [next, length_advance]
  | case8 => cases h

/-- Reads an integer between two bounds. -/
def integer (c : Cursor) (low high : Int) : Except ReadError (Int × Cursor) :=
  match integerFrom c.offset c 0 false with
  | .error e => .error e
  | .ok (n, c') =>
    if low ≤ n ∧ n ≤ high then .ok (n, c')
    else .error (.literalOutOfBound n (.between c.offset (c'.offset - 1)))

/-- An integer that does start takes at least one byte. -/
theorem integer_lt {c c' : Cursor} {low high n : Int} (hne : c.rest ≠ [])
    (h : c.integer low high = .ok (n, c')) : c'.rest.length < c.rest.length := by
  unfold integer at h
  split at h
  · cases h
  · rename_i m d hd
    split at h
    · cases h
      rw [integerFrom.eq_def] at hd
      split at hd
      · contradiction
      · rename_i b tail hb
        have hlen : c.rest.length = tail.length + 1 := by simp [hb]
        split at hd
        · simp at hd
          have := integerFrom_le hd; simp [length_advance] at this; omega
        · split at hd
          · split at hd
            · have := integerFrom_le hd; simp [length_advance] at this; omega
            · cases hd
          · split at hd
            · cases hd; simp [length_advance]; omega
            · cases hd
    · cases h

/-! ## Comments -/

/-- The words of a line that starts at byte `pos`, with their spans; `run`
is the word under way, backwards. -/
def wordsFrom (pos : Nat) : List UInt8 → List UInt8 → List (List Char × Span)
  | [], [] => []
  | [], run => [word pos run]
  | b :: rest, run =>
    if isBlank b then
      match run with
      | [] => wordsFrom (pos + 1) rest []
      | run => word pos run :: wordsFrom (pos + 1) rest []
    else wordsFrom (pos + 1) rest (b :: run)
where
  /-- The word that ends at `pos`. -/
  word (pos : Nat) (run : List UInt8) : List Char × Span :=
    (run.reverse.map fun b => Char.ofNat b.toNat, ⟨pos - run.length, run.length⟩)

/-- The variables of a projection line, up to a zero or the end. -/
def projectionVars : List (List Char × Span) → Except ReadError (List Var)
  | [] => .ok []
  | (word, span) :: rest =>
    match Text.integer? word with
    | none => .error (.invalidInteger span)
    | some n =>
      if n = 0 then .ok []
      else
        match Var.ofNumber? n with
        | none => .error (.variableOutOfBound n span)
        | some v => (projectionVars rest).map (v :: ·)

/-- The literal and weight of a weight line; `keyword` is where the keyword
stands. -/
def weightItem (keyword : Span) : List (List Char × Span) → Except ReadError Item
  | [] => .error (.unexpectedEnd keyword)
  | (word, span) :: rest =>
    match Text.integer? word with
    | none => .error (.invalidInteger span)
    | some n =>
      match Lit.ofNumber? n, rest with
      | none, _ => .error (.literalOutOfBound n span)
      | some _, [] => .error (.unexpectedEnd span)
      | some l, (word, span) :: _ =>
        match (Decimal.read? word).filter fun w => w.isFinite with
        | some value => .ok (.weight l value)
        | none => .error (.invalidWeight span)

/-- What a comment states, if anything; `start` is the offset behind its
`c`. A comment that is not UTF-8 states nothing. -/
def commentItems (line : List UInt8) (start : Nat) : Except ReadError (List Item) :=
  if !(ByteArray.mk line.toArray).validateUTF8 then .ok []
  else
    match wordsFrom start line [] with
    | (['p'], _) :: (keyword, span) :: rest =>
      if keyword = "show".toList then (projectionVars rest).map fun vars => [.projection vars]
      else if keyword = "weight".toList then (weightItem span rest).map fun item => [item]
      else .ok []
    | _ => .ok []

/-- Reads the rest of a comment line behind its `c`. -/
def comment (c : Cursor) : Except ReadError (List Item × Cursor) :=
  match c.takeLine with
  | .error e => .error e
  | .ok (line, c') =>
    match commentItems line c.offset with
    | .error e => .error e
    | .ok items => .ok (items, c')

theorem comment_le {c c' : Cursor} {items : List Item} (h : c.comment = .ok (items, c')) :
    c'.rest.length ≤ c.rest.length := by
  unfold comment at h
  split at h
  · cases h
  · rename_i line d hd
    split at h
    · cases h
    · cases h; exact takeLine_le hd

/-! ## The header -/

/-- Reads the given bytes as far as the input goes. Fails with where it
stands at another byte or when the source breaks. -/
def expect (c : Cursor) : List UInt8 → Except Span Cursor
  | [] => .ok c
  | b :: expected =>
    match c.rest with
    | [] => if c.breaks then .error c.lastByte else .ok c
    | found :: _ =>
      let next := c.advance 1
      if found = b then expect next expected else .error next.lastByte

/-- Reads one of the two counts of the header. -/
def headerCount (c : Cursor) (fault : HeaderFault) : Except ReadError (Nat × Cursor) :=
  let c := c.skipBlanks
  if c.rest.isEmpty then .error (.unexpectedEnd c.lastByte)
  else
    match c.integer 0 4294967295 with
    | .ok (n, c') => .ok (n.toNat, c')
    | .error e =>
      let span := match e with
        | .invalidInteger span | .literalOutOfBound _ span => span
        | _ => (c.advance c.rest.length).lastByte
      .error (.invalidHeader fault span)

/-- Reads a header behind its `p`: the variable and the clause count. -/
def header (c : Cursor) : Except ReadError ((Nat × Nat) × Cursor) :=
  match c.expect " cnf".toUTF8.toList with
  | .error span => .error (.invalidHeader .marker span)
  | .ok c => do
    let (vars, c) ← c.headerCount .variableCount
    let (clauses, c) ← c.headerCount .clauseCount
    .ok ((vars, clauses), c)

/-- Reads comments up to and including the header. Gives the announced
clause count and what was stated. -/
def preamble (c : Cursor) : Except ReadError (Nat × List Item × Cursor) :=
  match hc : c.rest with
  | [] => .error (if c.breaks then .io else .missingHeader)
  | b :: _ =>
    let next := c.advance 1
    if b = 99 then
      match hn : next.comment with
      | .error e => .error e
      | .ok (items, c') =>
        have : c'.rest.length < c.rest.length := by
          have := comment_le hn
          have : c.rest.length = _ := congrArg List.length hc
          simp [next, length_advance] at *; omega
        (preamble c').map fun (clauses, more, c'') => (clauses, items ++ more, c'')
    else if b = 112 then
      next.header.map fun ((vars, clauses), c') => (clauses, [.varCount vars], c')
    else if isBlank b then preamble next
    else .error (.unexpectedByte (.point next.offset))
termination_by c.rest.length
decreasing_by
  · assumption
  · simp [length_advance, hc]

/-! ## Clauses -/

/-- Reads the literals of a clause up to its zero. -/
def literals (c : Cursor) : Except ReadError (Clause × Cursor) :=
  let c' := c.skipBlanks
  if hc : c'.rest = [] then .error (.unexpectedEnd c'.lastByte)
  else
    match hn : c'.integer (-2147483648) 2147483647 with
    | .error e => .error e
    | .ok (n, next) =>
      have : next.rest.length < c.rest.length :=
        Nat.lt_of_lt_of_le (integer_lt hc hn) (length_skipBlanks_le c)
      if n = 0 then .ok ([], next)
      else
        match Lit.ofNumber? n with
        | none => .error (.literalOutOfBound n (.between c'.offset next.offset))
        | some l => (literals next).map fun (lits, c'') => (l :: lits, c'')
termination_by c.rest.length

theorem literals_lt {c c' : Cursor} {lits : Clause} (h : c.literals = .ok (lits, c')) :
    c'.rest.length < c.rest.length := by
  fun_induction literals c generalizing lits c' with
  | case1 => cases h
  | case2 => cases h
  | case3 => cases h; assumption
  | case4 => cases h
  | case5 =>
    rename_i next _ hlt _ l _ ih
    cases hr : next.literals with
    | error e => rw [hr] at h; cases h
    | ok r =>
      rw [hr] at h; cases h
      have := ih hr
      omega

/-- Reads clauses and comments up to the end. -/
def clauses (c : Cursor) : Except ReadError (List Item) :=
  let c' := c.skipBlanks
  match hc : c'.rest with
  | [] => .ok []
  | b :: _ =>
    if b = 99 then
      match hn : (c'.advance 1).comment with
      | .error e => .error e
      | .ok (items, next) =>
        have : next.rest.length < c.rest.length := by
          have := comment_le hn
          have := length_skipBlanks_le c
          have : c'.rest.length = _ := congrArg List.length hc
          simp [c', length_advance] at *; omega
        (clauses next).map (items ++ ·)
    else if b = 45 || (digit? b).isSome then
      match hn : c'.literals with
      | .error e => .error e
      | .ok (lits, next) =>
        have : next.rest.length < c.rest.length :=
          Nat.lt_of_lt_of_le (literals_lt hn) (length_skipBlanks_le c)
        (clauses next).map (.clause lits :: ·)
    else .error (.unexpectedByte (.point c'.offset))
termination_by c.rest.length

end Cursor

namespace Item

/-- The announced number of variables, if the item announces one. -/
def varCount? : Item → Option Nat
  | varCount count => some count
  | _ => none

/-- The clause, if the item is one. -/
def clause? : Item → Option Clause
  | clause lits => some lits
  | _ => none

/-- The variables to project onto, if the item names some. -/
def projection? : Item → Option (List Var)
  | projection vars => some vars
  | _ => none

/-- The weight of a literal, if the item gives one. -/
def weight? : Item → Option (Lit × Float)
  | weight l value => some (l, value)
  | _ => none

end Item

/-- Everything a file states, in order. The header has to announce the
number of clauses that follow. An announced number has 32 bits
(`Cursor.headerCount`) and the count of what follows has no bound, so where a
counter of 32 bits would overflow the parse fails. -/
def readItems (c : Cursor) : Except ReadError (List Item) := do
  let (expected, items, c) ← c.preamble
  let more ← c.clauses
  let found := (more.filterMap Item.clause?).length
  if found = expected then .ok (items ++ more)
  else .error (.clauseCountMismatch expected found)

namespace Formula

/-- The formula that items state. Several projections are joined. -/
def ofItems (items : List Item) : Formula :=
  { varCount := (items.filterMap Item.varCount?).getLastD 0
    clauses := items.filterMap Item.clause?
    projection := match items.filterMap Item.projection? with
      | [] => none
      | lines => some lines.flatten
    weights := items.filterMap Item.weight? }

/-- Reads a formula from bytes. -/
def read (c : Cursor) : Except ReadError Formula := (readItems c).map ofItems

end Formula

end Cleave
