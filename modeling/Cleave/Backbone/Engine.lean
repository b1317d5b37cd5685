import Cleave.Backbone.Lookup

/-!
# Backbones by assumption probing

The engine computes the literals that hold in all models of a set of clauses
over the variables below a count. Known models narrow down the candidates; a
candidate is implied exactly if no model has its opposite. On request, the
engine also finds the two-literal clauses over the other variables that hold
in all models.

The answers do not depend on which models the SAT procedure finds.
-/

namespace Cleave

/-- What the engine is to report besides satisfiability. -/
structure EngineRequest where
  /-- The models found on the way. -/
  models : Bool := true
  /-- The implied literals. -/
  units : Bool := true
  /-- The implied binary clauses. -/
  binaries : Bool := false

/-- What the engine found. -/
structure EngineAnswer where
  /-- Whether the clauses have a model. -/
  satisfiable : Bool := false
  /-- The implied literals, by variable. -/
  units : List Lit := []
  /-- Implied binary clauses over variables without an implied literal. -/
  binaries : List (Lit × Lit) := []
  /-- The models found. -/
  models : List (List Lit) := []

/-- The engine over a SAT procedure. -/
structure BackboneEngine (P : SatProcedure) where
  /-- The procedure, by variable. -/
  solver : LookupSolver P
  /-- The number of variables. -/
  varCount : Nat
  /-- The values that all known models share. -/
  shared : VarTable (Option Bool)
  /-- The number of known models. -/
  known : Nat

namespace BackboneEngine

variable {P : SatProcedure}

/-- The engine without clauses over `count` variables. -/
def new (P : SatProcedure) (count : Nat) : BackboneEngine P :=
  ⟨.new P count, count, VarTable.sized count, 0⟩

/-- Adds a clause. -/
def addClause (e : BackboneEngine P) (c : Clause) : BackboneEngine P :=
  { e with solver := e.solver.addClause c }

/-- What is left of a shared value when another model is known. -/
def narrow (known : Nat) (old new : Option Bool) : Option Bool :=
  if known = 0 then new else if old = new then old else none

/-- Takes a model into account. -/
def addModel (e : BackboneEngine P) (model : List Lit) : BackboneEngine P :=
  let values : VarTable (Option Bool) :=
    model.foldl (fun t l => t.set l.var (some l.positive)) (VarTable.sized e.varCount)
  let shared := (Var.range e.varCount).foldl
    (fun t v => t.set v (narrow e.known t[v] values[v])) e.shared
  { e with shared := shared, known := e.known + 1 }

/-- What the procedure replies to a question. -/
inductive Reply where
  /-- There is no model. -/
  | refuted
  /-- There is one, which can be read or not. -/
  | satisfiable (model : Option (List Lit))

/-- Asks whether the clauses have a model in which some literals are true, and for the
model. -/
def ask (e : BackboneEngine P) (assumptions : List Lit) :
    Except String (Reply × BackboneEngine P) := do
  let (satisfiable, solver) ← e.solver.solve assumptions
  return (if satisfiable then .satisfiable solver.originalModel else .refuted,
    { e with solver := solver })

/-- Records a model in the answer, if models are asked for. -/
def record (request : EngineRequest) (answer : EngineAnswer) (model : List Lit) : EngineAnswer :=
  if request.models then { answer with models := answer.models ++ [model] } else answer

/-- Takes a model that was found into account, and records it. -/
def recordFound (request : EngineRequest) (answer : EngineAnswer) (e : BackboneEngine P) :
    Option (List Lit) → EngineAnswer × BackboneEngine P
  | none => (answer, e)
  | some model => (record request answer model, e.addModel model)

/-- Probes the candidates among some variables, in order. -/
def probeUnits (request : EngineRequest) :
    List Var → EngineAnswer → BackboneEngine P →
      Except String (EngineAnswer × BackboneEngine P)
  | [], answer, e => .ok (answer, e)
  | v :: rest, answer, e =>
    match e.shared[v] with
    | none => probeUnits request rest answer e
    | some value => do
      let l := v.lit value
      match ← e.ask [l.neg] with
      | (.satisfiable model, e) =>
        let (answer, e) := recordFound request answer e model
        probeUnits request rest answer e
      | (.refuted, e) =>
        let answer := if request.units then { answer with units := answer.units ++ [l] } else answer
        probeUnits request rest answer (e.addClause [l])

/-- Narrows down the literals that hold in all models with `l`: each is
refuted by a model, which narrows down the others too, or implied. The last
one is tried first. -/
def probeImplied (l : Lit) :
    Nat → List Lit → List Lit → BackboneEngine P →
      Except String (List Lit × BackboneEngine P)
  | 0, _, found, e => .ok (found, e)
  | fuel + 1, implied, found, e =>
    match implied.getLast? with
    | none => .ok (found, e)
    | some other => do
      let implied := implied.dropLast
      match ← e.ask [l, other.neg] with
      | (.satisfiable (some model), e) =>
        probeImplied l fuel (implied.filter model.contains) found e
      | (.satisfiable none, e) => probeImplied l fuel implied found e
      | (.refuted, e) => probeImplied l fuel implied (other :: found) e

/-- A binary clause with its smaller literal first. -/
def ordered (a b : Lit) : Lit × Lit := if a.ble b then (a, b) else (b, a)

/-- The implied binary clauses with the opposite of one of some literals. -/
def probeBinaries (isOpen : Var → Bool) :
    List Lit → List (Lit × Lit) → BackboneEngine P →
      Except String (List (Lit × Lit) × BackboneEngine P)
  | [], found, e => .ok (found, e)
  | l :: rest, found, e => do
    match ← e.ask [l] with
    | (.refuted, e) | (.satisfiable none, e) => probeBinaries isOpen rest found e
    | (.satisfiable (some model), e) =>
      let implied := model.filter fun other => other.var ≠ l.var && isOpen other.var
      let (others, e) ← probeImplied l implied.length implied [] e
      probeBinaries isOpen rest (found ++ others.map fun other => ordered l.neg other) e

/-- The order of binary clauses: by the smaller literal, then by the other. -/
def pairLe (x y : Lit × Lit) : Bool := x.1.blt y.1 || (x.1 = y.1 && x.2.ble y.2)

/-- The implied binary clauses over variables that the models found do not
share, each once. Only valid after the candidates were probed. -/
def impliedBinaries (e : BackboneEngine P) :
    Except String (List (Lit × Lit) × BackboneEngine P) := do
  let isOpen (v : Var) : Bool := e.shared[v].isNone
  let lits := ((Var.range e.varCount).filter isOpen).flatMap Var.lits
  let (found, e) ← probeBinaries isOpen lits [] e
  return (squeeze (found.mergeSort pairLe), e)

/-- Looks up all variables, also those without a clause. -/
def lookupVars (e : BackboneEngine P) : BackboneEngine P :=
  { e with solver := (e.solver.lookupAll ((Var.range e.varCount).map Var.pos)).2 }

/-- Solves, probes every candidate, and finds what else is asked for. -/
def run (e : BackboneEngine P) (request : EngineRequest) :
    Except String (EngineAnswer × BackboneEngine P) := do
  match ← e.lookupVars.ask [] with
  | (.refuted, e) => return ({}, e)
  | (.satisfiable model, e) =>
    let (answer, e) := recordFound request { satisfiable := true } e model
    let (answer, e) ← probeUnits request (Var.range e.varCount) answer e
    if request.binaries then
      let (binaries, e) ← e.impliedBinaries
      return ({ answer with binaries := binaries }, e)
    else return (answer, e)

end BackboneEngine

end Cleave
