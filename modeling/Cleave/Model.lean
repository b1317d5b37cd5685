import Cleave.Table

/-!
# Models in shared, recycled buffers

A model is a partial assignment. Its values sit in a buffer of a pool, and
several owners may hold the same buffer: copying a model only adds an owner.
Assigning in a buffer with other owners moves the assigning owner to a buffer
of its own first, so owners never see each other's changes. When the last
owner gives a model back, its buffer is recycled for a later allocation.

A `Model` is the name of a buffer; whoever holds it counts as one owner. All
questions about a model go through the pool.
-/

namespace Cleave

/-- A buffer of values and the number of its owners. -/
structure ModelBuffer where
  /-- The value of every variable that has one. -/
  values : VarTable (Option Bool)
  /-- How many hold the buffer. -/
  owners : Nat
deriving Inhabited

/-- A model, known by its buffer. -/
structure Model where
  /-- The number of the buffer. -/
  buffer : Nat
deriving DecidableEq, Inhabited

/-- The buffers of all models. -/
structure ModelPool where
  /-- All buffers ever made; those without owners are empty. -/
  buffers : Array ModelBuffer := #[]
  /-- The values of buffers given back, latest first. -/
  spare : List (VarTable (Option Bool)) := []
  /-- The number of models handed out. -/
  allocated : Nat := 0
  /-- How many of them reused a buffer. -/
  recycled : Nat := 0

namespace ModelPool

instance : Inhabited ModelPool := ⟨{}⟩

/-- The buffer of a model. -/
def bufferOf (p : ModelPool) (m : Model) : ModelBuffer := p.buffers.getD m.buffer default

/-- The values of a model. -/
def valuesOf (p : ModelPool) (m : Model) : VarTable (Option Bool) := (p.bufferOf m).values

/-- The number of variables of a model. -/
def varCount (p : ModelPool) (m : Model) : Nat := (p.valuesOf m).size

/-- The value of a variable in a model. -/
def value (p : ModelPool) (m : Model) (v : Var) : Option Bool := (p.valuesOf m)[v]

/-- Whether a literal is true in a model. -/
def satisfies (p : ModelPool) (m : Model) (l : Lit) : Bool :=
  p.value m l.var == some l.positive

/-- The true literals of a model, by variable. -/
def lits (p : ModelPool) (m : Model) : List Lit :=
  (p.valuesOf m).toList.filterMap fun (v, value) => value.map v.lit

/-- The text of a model: its true literals. -/
def text (p : ModelPool) (m : Model) : String := litsText (p.lits m)

/-- Whether two models have the same variables and values. -/
def same (p : ModelPool) (m n : Model) : Bool :=
  (p.valuesOf m).entries == (p.valuesOf n).entries

/-- Puts values into a new buffer with one owner. -/
def newBuffer (p : ModelPool) (values : VarTable (Option Bool)) : Model × ModelPool :=
  (⟨p.buffers.size⟩, { p with buffers := p.buffers.push ⟨values, 1⟩ })

/-- A model of `count` variables without values, in a recycled buffer if
there is one. -/
def allocate (p : ModelPool) (count : Nat) : Model × ModelPool :=
  let p := { p with allocated := p.allocated + 1 }
  match p.spare with
  | [] => p.newBuffer (VarTable.sized count)
  | values :: spare =>
    { p with spare := spare, recycled := p.recycled + 1 }.newBuffer
      ((values.fill none).resize count)

/-- Adds an owner to a model. -/
def copy (p : ModelPool) (m : Model) : ModelPool :=
  { p with buffers := p.buffers.modify m.buffer fun b => { b with owners := b.owners + 1 } }

/-- Takes an owner away from a model. Says what the buffer held if this was
the last one. -/
def disown (p : ModelPool) (m : Model) : Option (VarTable (Option Bool)) × ModelPool :=
  let b := p.bufferOf m
  if b.owners ≤ 1 then
    (some b.values, { p with buffers := p.buffers.setIfInBounds m.buffer ⟨default, 0⟩ })
  else
    (none, { p with buffers := p.buffers.setIfInBounds m.buffer ⟨b.values, b.owners - 1⟩ })

/-- Gives a model back: its buffer is recycled if this was its last owner. -/
def free (p : ModelPool) (m : Model) : ModelPool :=
  match p.disown m with
  | (some values, p) => { p with spare := values :: p.spare }
  | (none, p) => p

/-- Abandons a model: its buffer is not recycled. -/
def abandon (p : ModelPool) (m : Model) : ModelPool := (p.disown m).2

/-- Writes a value, with room for its variable. -/
def write (values : VarTable (Option Bool)) (l : Lit) : VarTable (Option Bool) :=
  let values := if values.size ≤ l.var.index then values.resize (l.var.index + 1) else values
  values.set l.var (some l.positive)

/-- Makes a literal true in a model. A model with other owners moves to a
buffer of its own first. -/
def assign (p : ModelPool) (m : Model) (l : Lit) : Model × ModelPool :=
  let b := p.bufferOf m
  if b.owners ≤ 1 then
    (m, { p with buffers := p.buffers.modify m.buffer fun b => { b with values := write b.values l } })
  else (p.abandon m).newBuffer (write b.values l)

/-- Makes several literals true, in order. -/
def assignAll (p : ModelPool) (m : Model) (ls : List Lit) : Model × ModelPool :=
  ls.foldl (fun (m, p) l => p.assign m l) (m, p)

end ModelPool

/-- The models known for a component. -/
structure ModelLedger where
  /-- The models, in the order they were found. -/
  models : List Model := []

namespace ModelLedger

instance : Inhabited ModelLedger := ⟨{}⟩

/-- Enters a model. -/
def add (l : ModelLedger) (m : Model) : ModelLedger := ⟨l.models ++ [m]⟩

/-- The number of models. -/
def size (l : ModelLedger) : Nat := l.models.length

/-- Whether no model is known. -/
def isEmpty (l : ModelLedger) : Bool := l.models.isEmpty

/-- The value every model gives a variable: none if there is no model, if a
model has no value for it, or if two models disagree. -/
def unanimous (l : ModelLedger) (p : ModelPool) (v : Var) : Option Bool :=
  match l.models with
  | [] => none
  | first :: rest =>
    (p.value first v).filter fun value => rest.all fun m => p.value m v == some value

/-- The literals over some variables that are true in every model. -/
def candidates (l : ModelLedger) (p : ModelPool) (vs : List Var) : List Lit :=
  vs.filterMap fun v => (l.unanimous p v).map v.lit

/-- Makes a literal true in every model. -/
def extend (l : ModelLedger) (p : ModelPool) (lit : Lit) : ModelLedger × ModelPool :=
  let (models, p) := l.models.foldl
    (fun (done, p) m => let (m, p) := p.assign m lit; (m :: done, p)) ([], p)
  (⟨models.reverse⟩, p)

/-- Enters every model of a ledger into another one as well. -/
def shareInto (l other : ModelLedger) (p : ModelPool) : ModelLedger × ModelPool :=
  (⟨other.models ++ l.models⟩, l.models.foldl ModelPool.copy p)

/-- Moves every model of another ledger behind those of this one. -/
def takeFrom (l other : ModelLedger) : ModelLedger := ⟨l.models ++ other.models⟩

/-- Gives every model back to the pool. -/
def release (l : ModelLedger) (p : ModelPool) : ModelPool := l.models.foldl ModelPool.free p

end ModelLedger

end Cleave
