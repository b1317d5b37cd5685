import Cleave.Proofs.Ownership
import Mathlib.Data.List.InsertIdx

/-!
# Models that share buffers

A client of a pool keeps models and ledgers of models. The same actions are defined
for a client whose models share buffers (`SharedModels.step`) and for one whose models
have values of their own (`OwnModels.step`), which has no pool at all. What a client
observes depends on the values alone (`SharedModels.answer_values`), and every action
does to the shared values what it does to one's own. Beside this, an action is told by
what it does to the handles (`SharedModels.Effect`).
-/

namespace Cleave

/-! ## A client of a pool -/

/-- Where a client keeps a model: with itself or in a ledger. -/
inductive ModelPlace where
  | own (i : Nat)
  | entry (k i : Nat)

/-- **What a client does** with models and ledgers, which it knows by their positions.
Nothing happens to a model or ledger that is not there, and no ledger is handed to
itself. -/
inductive ModelAction where
  /-- Allocates a model for some variables. -/
  | allocate (count : Nat)
  /-- Copies a model. -/
  | copy (x : ModelPlace)
  /-- Makes a literal true in a model of the client's. -/
  | assign (i : Nat) (l : Lit)
  /-- Gives a model of the client's back. -/
  | free (i : Nat)
  /-- Opens a ledger without models. -/
  | newLedger
  /-- Moves a model of the client's into a ledger. -/
  | add (i k : Nat)
  /-- Makes a literal true in all models of a ledger. -/
  | extend (k : Nat) (l : Lit)
  /-- Enters the models of a ledger into the other one as well. -/
  | shareInto (k other : Nat)
  /-- Moves the models of the other ledger into one. -/
  | takeFrom (k other : Nat)
  /-- Gives all models of a ledger back. -/
  | release (k : Nat)

/-- **What a client can observe.** -/
inductive ModelQuery where
  | models
  | ledgers
  | varCount (x : ModelPlace)
  | value (x : ModelPlace) (v : Var)
  | satisfies (x : ModelPlace) (l : Lit)
  | lits (x : ModelPlace)
  | text (x : ModelPlace)
  | same (x y : ModelPlace)
  | size (k : Nat)
  | isEmpty (k : Nat)
  | unanimous (k : Nat) (v : Var)
  | candidates (k : Nat) (vs : List Var)

/-- What an observation gives; nothing if it is about a model or ledger that is not
there. -/
def ModelQuery.Answer : ModelQuery → Type
  | models | ledgers => Nat
  | varCount _ | size _ => Option Nat
  | satisfies _ _ | same _ _ | isEmpty _ => Option Bool
  | value _ _ | unanimous _ _ => Option (Option Bool)
  | lits _ | candidates _ _ => Option (List Lit)
  | text _ => Option String

/-- A client whose models share the buffers of a pool. -/
structure SharedModels where
  /-- The pool. -/
  pool : ModelPool := {}
  /-- The models that are in no ledger. -/
  models : List Model := []
  /-- The ledgers. -/
  ledgers : List ModelLedger := []

namespace SharedModels

/-- The model at a place. -/
def find (s : SharedModels) : ModelPlace → Option Model
  | .own i => s.models[i]?
  | .entry k i => s.ledgers[k]?.bind fun l => l.models[i]?

/-- **One action**, as the pool and the ledgers do it. -/
def step (s : SharedModels) : ModelAction → SharedModels
  | .allocate count =>
    let (m, p) := s.pool.allocate count
    { s with pool := p, models := s.models ++ [m] }
  | .copy x =>
    match s.find x with
    | none => s
    | some m => { s with pool := s.pool.copy m, models := s.models ++ [m] }
  | .assign i l =>
    match s.models[i]? with
    | none => s
    | some m =>
      let (m, p) := s.pool.assign m l
      { s with pool := p, models := s.models.set i m }
  | .free i =>
    match s.models[i]? with
    | none => s
    | some m => { s with pool := s.pool.free m, models := s.models.eraseIdx i }
  | .newLedger => { s with ledgers := s.ledgers ++ [{}] }
  | .add i k =>
    match s.models[i]?, s.ledgers[k]? with
    | some m, some l =>
      { s with models := s.models.eraseIdx i, ledgers := s.ledgers.set k (l.add m) }
    | _, _ => s
  | .extend k lit =>
    match s.ledgers[k]? with
    | none => s
    | some l =>
      let (l, p) := l.extend s.pool lit
      { s with pool := p, ledgers := s.ledgers.set k l }
  | .shareInto k other =>
    match s.ledgers[k]?, s.ledgers[other]? with
    | some l, some l' =>
      if k = other then s else
        let (l', p) := l.shareInto l' s.pool
        { s with pool := p, ledgers := s.ledgers.set other l' }
    | _, _ => s
  | .takeFrom k other =>
    match s.ledgers[k]?, s.ledgers[other]? with
    | some l, some l' =>
      if k = other then s else
        { s with ledgers := (s.ledgers.set other {}).set k (l.takeFrom l') }
    | _, _ => s
  | .release k =>
    match s.ledgers[k]? with
    | none => s
    | some l => { s with pool := l.release s.pool, ledgers := s.ledgers.set k {} }

/-- What the client observes through the pool. -/
def answer (s : SharedModels) : (q : ModelQuery) → q.Answer
  | .models => s.models.length
  | .ledgers => s.ledgers.length
  | .varCount x => (s.find x).map s.pool.varCount
  | .value x v => (s.find x).map fun m => s.pool.value m v
  | .satisfies x l => (s.find x).map fun m => s.pool.satisfies m l
  | .lits x => (s.find x).map s.pool.lits
  | .text x => (s.find x).map s.pool.text
  | .same x y => (s.find x).bind fun m => (s.find y).map fun n => s.pool.same m n
  | .size k => s.ledgers[k]?.map ModelLedger.size
  | .isEmpty k => s.ledgers[k]?.map ModelLedger.isEmpty
  | .unanimous k v => s.ledgers[k]?.map fun l => l.unanimous s.pool v
  | .candidates k vs => s.ledgers[k]?.map fun l => l.candidates s.pool vs

end SharedModels

/-! ## Values of one's own -/

namespace OwnValues

/-- Whether a literal is true. -/
def satisfies (t : VarTable (Option Bool)) (l : Lit) : Bool := t[l.var] == some l.positive

/-- The true literals, by variable. -/
def lits (t : VarTable (Option Bool)) : List Lit :=
  t.toList.filterMap fun (v, value) => value.map v.lit

/-- The value that all give a variable. -/
def unanimous (ts : List (VarTable (Option Bool))) (v : Var) : Option Bool :=
  match ts with
  | [] => none
  | first :: rest => first[v].filter fun value => rest.all fun t => t[v] == some value

/-- The literals over some variables that are true in all. -/
def candidates (ts : List (VarTable (Option Bool))) (vs : List Var) : List Lit :=
  vs.filterMap fun v => (unanimous ts v).map v.lit

end OwnValues

/-- **A client whose models have values of their own.** There is nothing to share. -/
structure OwnModels where
  /-- The values of the models that are in no ledger. -/
  models : List (VarTable (Option Bool)) := []
  /-- The values of the models in every ledger. -/
  ledgers : List (List (VarTable (Option Bool))) := []

namespace OwnModels

/-- The values at a place. -/
def find (o : OwnModels) : ModelPlace → Option (VarTable (Option Bool))
  | .own i => o.models[i]?
  | .entry k i => o.ledgers[k]?.bind fun ts => ts[i]?

/-- **One action.** -/
def step (o : OwnModels) : ModelAction → OwnModels
  | .allocate count => { o with models := o.models ++ [VarTable.sized count] }
  | .copy x =>
    match o.find x with
    | none => o
    | some t => { o with models := o.models ++ [t] }
  | .assign i l =>
    match o.models[i]? with
    | none => o
    | some t => { o with models := o.models.set i (ModelPool.write t l) }
  | .free i => { o with models := o.models.eraseIdx i }
  | .newLedger => { o with ledgers := o.ledgers ++ [[]] }
  | .add i k =>
    match o.models[i]?, o.ledgers[k]? with
    | some t, some ts =>
      { o with models := o.models.eraseIdx i, ledgers := o.ledgers.set k (ts ++ [t]) }
    | _, _ => o
  | .extend k l =>
    match o.ledgers[k]? with
    | none => o
    | some ts => { o with ledgers := o.ledgers.set k (ts.map (ModelPool.write · l)) }
  | .shareInto k other =>
    match o.ledgers[k]?, o.ledgers[other]? with
    | some ts, some us =>
      if k = other then o else { o with ledgers := o.ledgers.set other (us ++ ts) }
    | _, _ => o
  | .takeFrom k other =>
    match o.ledgers[k]?, o.ledgers[other]? with
    | some ts, some us =>
      if k = other then o else { o with ledgers := (o.ledgers.set other []).set k (ts ++ us) }
    | _, _ => o
  | .release k => { o with ledgers := o.ledgers.set k [] }

/-- What the client observes. -/
def answer (o : OwnModels) : (q : ModelQuery) → q.Answer
  | .models => o.models.length
  | .ledgers => o.ledgers.length
  | .varCount x => (o.find x).map VarTable.size
  | .value x v => (o.find x).map fun t => t[v]
  | .satisfies x l => (o.find x).map fun t => OwnValues.satisfies t l
  | .lits x => (o.find x).map OwnValues.lits
  | .text x => (o.find x).map fun t => litsText (OwnValues.lits t)
  | .same x y => (o.find x).bind fun t => (o.find y).map fun u => t.entries == u.entries
  | .size k => o.ledgers[k]?.map List.length
  | .isEmpty k => o.ledgers[k]?.map List.isEmpty
  | .unanimous k v => o.ledgers[k]?.map fun ts => OwnValues.unanimous ts v
  | .candidates k vs => o.ledgers[k]?.map fun ts => OwnValues.candidates ts vs

end OwnModels

namespace SharedModels

variable {s s' : SharedModels}

/-- The values that the pool has for the models. -/
def values (s : SharedModels) : OwnModels where
  models := s.models.map s.pool.valuesOf
  ledgers := s.ledgers.map fun l => l.models.map s.pool.valuesOf

/-- All handles, the client's and those of its ledgers. -/
def handles (s : SharedModels) : List Model := s.models ++ s.ledgers.flatMap ModelLedger.models

theorem find_values (x : ModelPlace) : s.values.find x = (s.find x).map s.pool.valuesOf := by
  cases x with
  | own i => exact List.getElem?_map
  | entry k i =>
    show (s.ledgers.map _)[k]?.bind _ = _
    rw [List.getElem?_map]
    show _ = (s.ledgers[k]?.bind _).map _
    cases s.ledgers[k]? with
    | none => rfl
    | some l => exact List.getElem?_map

theorem ledgers_values (k : Nat) : s.values.ledgers[k]?
    = s.ledgers[k]?.map fun l : ModelLedger => l.models.map s.pool.valuesOf :=
  List.getElem?_map

theorem unanimous_values (l : ModelLedger) (p : ModelPool) (v : Var) :
    OwnValues.unanimous (l.models.map p.valuesOf) v = l.unanimous p v := by
  unfold OwnValues.unanimous ModelLedger.unanimous
  cases l.models with
  | nil => rfl
  | cons first rest =>
    simp only [List.map_cons, List.all_map]
    rfl

/-- **Observations are about values alone.** -/
theorem answer_values (q : ModelQuery) : s.values.answer q = s.answer q := by
  cases q with
  | models => exact List.length_map _
  | ledgers => exact List.length_map _
  | varCount x | value x v | satisfies x l | lits x | text x =>
    simp only [OwnModels.answer, answer, find_values, Option.map_map]
    rfl
  | same x y =>
    simp only [OwnModels.answer, answer, find_values]
    cases s.find x <;> cases s.find y <;> rfl
  | size k | isEmpty k =>
    simp only [OwnModels.answer, answer, ledgers_values, Option.map_map]
    congr 1
    funext l
    simp [ModelLedger.size, ModelLedger.isEmpty]
  | unanimous k v =>
    simp only [OwnModels.answer, answer, ledgers_values, Option.map_map]
    congr 1
    funext l
    exact unanimous_values l s.pool v
  | candidates k vs =>
    simp only [OwnModels.answer, answer, ledgers_values, Option.map_map]
    congr 1
    funext l
    simp only [Function.comp, OwnValues.candidates, ModelLedger.candidates, unanimous_values]

/-! ## What an action does to the handles -/

/-- What all actions but allocations do: new handles have new names, and what has lost
its last handle is recycled with the values it had. -/
structure Effect (s s' : SharedModels) : Prop where
  counted : s'.pool.Counted s'.handles
  size : s.pool.buffers.size ≤ s'.pool.buffers.size
  old : ∀ m ∈ s'.handles, m ∈ s.handles ∨ s.pool.buffers.size ≤ m.buffer
  spare : s'.pool.spare
    = ((ModelPool.lost s.handles s'.handles).map s.pool.valuesOf).reverse ++ s.pool.spare
  allocated : s'.pool.allocated = s.pool.allocated
  recycled : s'.pool.recycled = s.pool.recycled

/-- Nothing is recycled as long as no buffer loses its last handle. -/
theorem Effect.of_grows (hcounted : s'.pool.Counted s'.handles) (hgrows : s.pool.Grows s'.pool)
    (hold : ∀ m ∈ s'.handles, m ∈ s.handles ∨ s.pool.buffers.size ≤ m.buffer)
    (hlive : ∀ m ∈ s.handles, m ∈ s'.handles) : s.Effect s' := by
  refine ⟨hcounted, hgrows.size, hold, ?_, hgrows.allocated, hgrows.recycled⟩
  rw [ModelPool.lost_eq_nil hlive, hgrows.spare]
  rfl

/-- Handles are passed on. -/
theorem Effect.of_perm (h : s.pool.Counted s.handles) (hpool : s'.pool = s.pool)
    (hperm : s'.handles.Perm s.handles) : s.Effect s' :=
  .of_grows (hpool ▸ h.perm hperm.symm) (hpool ▸ .refl _)
    (fun _ hm => Or.inl (hperm.mem_iff.mp hm)) fun _ hm => hperm.mem_iff.mpr hm

theorem step_newLedger (h : s.pool.Counted s.handles) :
    s.Effect (s.step .newLedger) ∧ (s.step .newLedger).values = s.values.step .newLedger := by
  refine ⟨.of_perm h rfl ?_, ?_⟩
  · simp [step, handles]
  · simp [step, OwnModels.step, values]

/-- Handles are given back. -/
theorem Effect.of_free {before ms after : List Model} (h : s.pool.Counted s.handles)
    (hpool : s'.pool = ms.foldl ModelPool.free s.pool)
    (hhandles : s.handles = before ++ ms ++ after)
    (hperm' : s'.handles.Perm (before ++ after)) : s.Effect s' := by
  have hperm : s.handles.Perm (ms ++ (before ++ after)) :=
    .trans (.of_eq (hhandles.trans (List.append_assoc ..))) (List.perm_append_comm_assoc ..)
  obtain ⟨hcounted, -, hsize, hspare, hallocated, hrecycled⟩ := (h.perm hperm).foldl_free
  have hlost : ModelPool.lost s.handles s'.handles = ModelPool.lost ms (before ++ after) := by
    rw [hhandles, ModelPool.lost_append
      (fun m hm => hperm'.mem_iff.mpr (List.mem_append_left _ hm))
      fun m hm => hperm'.mem_iff.mpr (List.mem_append_right _ hm)]
    exact congrArg List.dedup (List.filter_congr fun m _ => by simp only [hperm'.mem_iff])
  refine ⟨hpool ▸ hcounted.perm hperm'.symm, hpool ▸ Nat.le_of_eq hsize.symm,
    fun m hm => Or.inl (hperm.mem_iff.mpr (List.mem_append_right _ (hperm'.mem_iff.mp hm))),
    ?_, hpool ▸ hallocated, hpool ▸ hrecycled⟩
  rw [hlost, hpool, hspare]

/-- A literal is made true for handles. -/
theorem Effect.of_assign (ms : List Model) {rest : List Model} (h : s.pool.Counted s.handles)
    (l : Lit)
    (hpool : s'.pool = (s.pool.assignEach l ms).2) (hperm : s.handles.Perm (ms ++ rest))
    (hperm' : s'.handles.Perm ((s.pool.assignEach l ms).1 ++ rest)) : s.Effect s' := by
  obtain ⟨hcounted, -, -, hgrows, hnames, hlive⟩ := (h.perm hperm).assignEach l
  refine .of_grows (hpool ▸ hcounted.perm hperm'.symm) (hpool ▸ hgrows) (fun m hm => ?_)
    fun m hm => hperm'.mem_iff.mpr (hlive m (hperm.mem_iff.mp hm))
  rw [hperm.mem_iff, List.mem_append]
  rcases List.mem_append.mp (hperm'.mem_iff.mp hm) with hm | hm
  · exact (hnames m hm).imp_left Or.inl
  · exact Or.inl (Or.inr hm)

/-! ## One handle or ledger, and the rest of them -/

section Lists

variable {α β : Type} {xs : List α} {i : Nat} {x : α}

/-- What stands before and after an element. -/
theorem split_eraseIdx (h : xs[i]? = some x) : ∃ before after, xs = before ++ [x] ++ after
    ∧ xs.eraseIdx i = before ++ after ∧ ∀ y, xs.set i y = before ++ [y] ++ after := by
  obtain ⟨hi, rfl⟩ := List.getElem?_eq_some_iff.mp h
  have hset : ∀ y, xs.set i y = xs.take i ++ [y] ++ xs.drop (i + 1) := fun y => by
    rw [List.set_eq_take_append_cons_drop, if_pos hi, List.append_assoc]
    rfl
  exact ⟨xs.take i, xs.drop (i + 1), (List.set_getElem_self hi).symm.trans (hset _),
    List.eraseIdx_eq_take_drop_succ .., hset⟩

theorem perm_eraseIdx (h : xs[i]? = some x) : xs.Perm (x :: xs.eraseIdx i) := by
  obtain ⟨before, after, heq, herase, -⟩ := split_eraseIdx h
  rw [herase]
  exact .trans (.of_eq (heq.trans (List.append_assoc ..))) List.perm_middle

theorem set_perm_eraseIdx (h : xs[i]? = some x) (y : α) :
    (xs.set i y).Perm (y :: xs.eraseIdx i) := by
  obtain ⟨before, after, -, herase, hset⟩ := split_eraseIdx h
  rw [herase]
  exact .trans (.of_eq ((hset y).trans (List.append_assoc ..))) List.perm_middle

/-- Two functions that agree on the rest. -/
theorem map_set_of_eraseIdx {f f' : α → β} (h : ∀ x ∈ xs.eraseIdx i, f' x = f x) (y : α) :
    (xs.set i y).map f' = (xs.map f).set i (f' y) := by
  rw [List.map_set]
  refine List.ext_getElem (by simp) fun j hj hj' => ?_
  simp only [List.getElem_set, List.getElem_map]
  split
  · rfl
  · rename_i hne
    simp only [List.length_set, List.length_map] at hj
    exact h _ (List.mem_eraseIdx_iff_getElem.mpr ⟨j, hj, Ne.symm hne, rfl⟩)

theorem map_eraseIdx_of_eraseIdx {f f' : α → β} (h : ∀ x ∈ xs.eraseIdx i, f' x = f x) :
    (xs.eraseIdx i).map f' = (xs.map f).eraseIdx i := by
  rw [List.map_congr_left h, List.eraseIdx_map]

end Lists

variable {i k : Nat} {m : Model} {l : ModelLedger}

/-- The handles beside one of the client's. -/
theorem handles_of_model (h : s.models[i]? = some m) : s.handles.Perm
    (m :: (s.models.eraseIdx i ++ s.ledgers.flatMap ModelLedger.models)) :=
  (perm_eraseIdx h).append_right _

/-- The handles beside those of a ledger. -/
theorem handles_of_ledger (h : s.ledgers[k]? = some l) : s.handles.Perm
    (l.models ++ (s.models ++ (s.ledgers.eraseIdx k).flatMap ModelLedger.models)) :=
  (((perm_eraseIdx h).flatMap_right _).append_left _).trans (List.perm_append_comm_assoc ..)

/-- The handles once a ledger has others. -/
theorem handles_set (h : s.ledgers[k]? = some l) (l' : ModelLedger) (models : List Model) :
    (models ++ (s.ledgers.set k l').flatMap ModelLedger.models).Perm
      (l'.models ++ (models ++ (s.ledgers.eraseIdx k).flatMap ModelLedger.models)) :=
  (((set_perm_eraseIdx h l').flatMap_right _).append_left _).trans
    (List.perm_append_comm_assoc ..)

/-- A handle at a place. -/
theorem find_mem {x : ModelPlace} (h : s.find x = some m) : m ∈ s.handles := by
  cases x with
  | own i => exact List.mem_append_left _ (List.mem_of_getElem? h)
  | entry k i =>
    obtain ⟨l, hl, hm⟩ := Option.bind_eq_some_iff.mp h
    exact List.mem_append_right _
      (List.mem_flatMap.mpr ⟨l, List.mem_of_getElem? hl, List.mem_of_getElem? hm⟩)

/-- What keeps its values, handle by handle and ledger by ledger. -/
theorem values_rest {p p' : ModelPool} {models : List Model} {ledgers : List ModelLedger}
    (h : ∀ m ∈ models ++ ledgers.flatMap ModelLedger.models, p'.valuesOf m = p.valuesOf m) :
    (∀ m ∈ models, p'.valuesOf m = p.valuesOf m)
      ∧ ∀ l ∈ ledgers, l.models.map p'.valuesOf = l.models.map p.valuesOf :=
  ⟨fun m hm => h m (List.mem_append_left _ hm), fun l hl => List.map_congr_left fun m hm =>
    h m (List.mem_append_right _ (List.mem_flatMap.mpr ⟨l, hl, hm⟩))⟩

/-! ## One step

For every action, what it does to the handles, and that the values after it are those
that the action gives from the values before. -/

section Steps

variable (h : s.pool.Counted s.handles)

include h

theorem step_copy (x : ModelPlace) :
    s.Effect (s.step (.copy x)) ∧ (s.step (.copy x)).values = s.values.step (.copy x) := by
  simp only [step, OwnModels.step, find_values]
  cases hx : s.find x with
  | none => exact ⟨.of_perm h rfl (.refl _), rfl⟩
  | some m =>
    obtain ⟨hcounted, hvalues, hgrows⟩ := h.copy (find_mem hx)
    have hperm : (s.models ++ [m] ++ s.ledgers.flatMap ModelLedger.models).Perm
        (m :: s.handles) := by
      rw [List.append_assoc]
      exact List.perm_middle
    have hvalues : (s.pool.copy m).valuesOf = s.pool.valuesOf := funext hvalues
    refine ⟨.of_grows (hcounted.perm hperm.symm) hgrows (fun k hk => ?_)
      fun k hk => hperm.mem_iff.mpr (List.mem_cons_of_mem _ hk), ?_⟩
    · rcases List.mem_cons.mp (hperm.mem_iff.mp hk) with rfl | hk
      · exact Or.inl (find_mem hx)
      · exact Or.inl hk
    · simp only [values, hvalues, List.map_append, List.map_cons, List.map_nil, Option.map_some]

theorem step_assign (i : Nat) (l : Lit) :
    s.Effect (s.step (.assign i l))
      ∧ (s.step (.assign i l)).values = s.values.step (.assign i l) := by
  have hown : s.values.models[i]? = s.models[i]?.map s.pool.valuesOf := List.getElem?_map
  simp only [step, OwnModels.step, hown]
  cases hi : s.models[i]? with
  | none => exact ⟨.of_perm h rfl (.refl _), rfl⟩
  | some m =>
    have hperm := handles_of_model hi
    obtain ⟨-, hnew, hkeep, -⟩ := (h.perm hperm).assign l
    obtain ⟨hmodels, hledgers⟩ := values_rest hkeep
    refine ⟨.of_assign [m] h l rfl hperm ((set_perm_eraseIdx hi _).append_right _), ?_⟩
    simp only [Option.map_some]
    refine congrArg₂ OwnModels.mk ?_ ?_
    · exact hnew ▸ map_set_of_eraseIdx hmodels _
    · exact List.map_congr_left hledgers

theorem step_free (i : Nat) :
    s.Effect (s.step (.free i)) ∧ (s.step (.free i)).values = s.values.step (.free i) := by
  simp only [step, OwnModels.step]
  cases hi : s.models[i]? with
  | none =>
    have hle : s.models.length ≤ i := List.getElem?_eq_none_iff.mp hi
    refine ⟨.of_perm h rfl (.refl _), ?_⟩
    show s.values = { s.values with models := s.values.models.eraseIdx i }
    rw [List.eraseIdx_of_length_le (by simpa [values] using hle)]
  | some m =>
    have hperm := handles_of_model hi
    obtain ⟨-, hkeep, -⟩ := (h.perm hperm).free
    obtain ⟨hmodels, hledgers⟩ := values_rest hkeep
    obtain ⟨before, after, heq, herase, -⟩ := split_eraseIdx hi
    have hhandles : s.handles
        = before ++ [m] ++ (after ++ s.ledgers.flatMap ModelLedger.models) := by
      rw [handles, heq, List.append_assoc]
    refine ⟨.of_free h rfl hhandles (.of_eq ?_), congrArg₂ OwnModels.mk ?_ ?_⟩
    · rw [handles, herase, List.append_assoc]
    · exact map_eraseIdx_of_eraseIdx hmodels
    · exact List.map_congr_left hledgers

theorem step_add (i k : Nat) :
    s.Effect (s.step (.add i k)) ∧ (s.step (.add i k)).values = s.values.step (.add i k) := by
  have hown : s.values.models[i]? = s.models[i]?.map s.pool.valuesOf := List.getElem?_map
  simp only [step, OwnModels.step, hown, ledgers_values]
  cases hi : s.models[i]? with
  | none => exact ⟨.of_perm h rfl (.refl _), rfl⟩
  | some m =>
    cases hk : s.ledgers[k]? with
    | none => exact ⟨.of_perm h rfl (.refl _), rfl⟩
    | some l =>
      refine ⟨.of_perm h rfl ?_, ?_⟩
      · refine (handles_set hk (l.add m) _).trans ?_
        refine .trans ?_ (handles_of_ledger hk).symm
        refine .trans (.of_eq (List.append_assoc ..)) (.append_left _ ?_)
        exact (perm_eraseIdx hi).symm.append_right _
      · simp [values, ModelLedger.add, List.map_set, List.eraseIdx_map]

theorem step_extend (k : Nat) (lit : Lit) :
    s.Effect (s.step (.extend k lit))
      ∧ (s.step (.extend k lit)).values = s.values.step (.extend k lit) := by
  simp only [step, OwnModels.step, ledgers_values]
  cases hk : s.ledgers[k]? with
  | none => exact ⟨.of_perm h rfl (.refl _), rfl⟩
  | some l =>
    have hperm := handles_of_ledger hk
    obtain ⟨-, hnew, hkeep, -⟩ := (h.perm hperm).assignEach lit
    obtain ⟨hmodels, hledgers⟩ := values_rest hkeep
    simp only [ModelLedger.extend_eq, Option.map_some]
    refine ⟨.of_assign l.models h lit rfl hperm (handles_set hk _ _), congrArg₂ OwnModels.mk ?_ ?_⟩
    · exact List.map_congr_left hmodels
    · refine (map_set_of_eraseIdx hledgers _).trans ?_
      rw [hnew, List.map_map]
      rfl

theorem step_shareInto (k other : Nat) :
    s.Effect (s.step (.shareInto k other))
      ∧ (s.step (.shareInto k other)).values = s.values.step (.shareInto k other) := by
  simp only [step, OwnModels.step, ledgers_values]
  cases hk : s.ledgers[k]? with
  | none => exact ⟨.of_perm h rfl (.refl _), rfl⟩
  | some l =>
    cases hother : s.ledgers[other]? with
    | none => exact ⟨.of_perm h rfl (.refl _), rfl⟩
    | some l' =>
      simp only [Option.map_some]
      split
      · exact ⟨.of_perm h rfl (.refl _), rfl⟩
      · have hmem : ∀ m ∈ l.models, m ∈ s.handles := fun m hm =>
          List.mem_append_right _ (List.mem_flatMap.mpr ⟨l, List.mem_of_getElem? hk, hm⟩)
        obtain ⟨hcounted, hvalues, hgrows⟩ := h.foldl_copy hmem
        have hvalues : (l.models.foldl ModelPool.copy s.pool).valuesOf = s.pool.valuesOf :=
          funext hvalues
        have hperm : (s.models ++ (s.ledgers.set other (l.shareInto l' s.pool).1).flatMap
            ModelLedger.models).Perm (l.models ++ s.handles) := by
          refine (handles_set hother _ _).trans ?_
          refine .trans ?_ ((handles_of_ledger hother).symm.append_left _)
          exact .trans (.of_eq (List.append_assoc ..)) (List.perm_append_comm_assoc ..)
        refine ⟨.of_grows (hcounted.perm hperm.symm) hgrows (fun m hm => Or.inl ?_)
          fun m hm => hperm.mem_iff.mpr (List.mem_append_right _ hm), ?_⟩
        · exact (List.mem_append.mp (hperm.mem_iff.mp hm)).elim (hmem m) id
        · simp [values, ModelLedger.shareInto, hvalues, List.map_set]

theorem step_takeFrom (k other : Nat) :
    s.Effect (s.step (.takeFrom k other))
      ∧ (s.step (.takeFrom k other)).values = s.values.step (.takeFrom k other) := by
  simp only [step, OwnModels.step, ledgers_values]
  cases hk : s.ledgers[k]? with
  | none => exact ⟨.of_perm h rfl (.refl _), rfl⟩
  | some l =>
    cases hother : s.ledgers[other]? with
    | none => exact ⟨.of_perm h rfl (.refl _), rfl⟩
    | some l' =>
      simp only [Option.map_some]
      split
      · exact ⟨.of_perm h rfl (.refl _), rfl⟩
      · rename_i hne
        let emptied : SharedModels := { s with ledgers := s.ledgers.set other {} }
        have hk' : emptied.ledgers[k]? = some l :=
          (List.getElem?_set_ne (Ne.symm hne)).trans hk
        have hemptied : emptied.handles.Perm
            (s.models ++ (s.ledgers.eraseIdx other).flatMap ModelLedger.models) :=
          handles_set hother {} s.models
        refine ⟨.of_perm h rfl ?_, ?_⟩
        · refine (handles_set (s := emptied) hk' (l.takeFrom l') s.models).trans ?_
          refine .trans ?_ (handles_of_ledger hother).symm
          refine .trans ?_ (hemptied.append_left _)
          refine .trans ?_ ((handles_of_ledger hk').symm.append_left _)
          exact .trans (.of_eq (List.append_assoc ..)) (List.perm_append_comm_assoc ..)
        · simp [values, ModelLedger.takeFrom, List.map_set]

theorem step_release (k : Nat) :
    s.Effect (s.step (.release k)) ∧ (s.step (.release k)).values = s.values.step (.release k) := by
  simp only [step, OwnModels.step]
  cases hk : s.ledgers[k]? with
  | none =>
    have hle : s.ledgers.length ≤ k := List.getElem?_eq_none_iff.mp hk
    refine ⟨.of_perm h rfl (.refl _), ?_⟩
    show s.values = { s.values with ledgers := s.values.ledgers.set k [] }
    rw [List.set_eq_of_length_le (by simpa [values] using hle)]
  | some l =>
    have hperm := handles_of_ledger hk
    obtain ⟨-, hkeep, -⟩ := (h.perm hperm).foldl_free
    obtain ⟨hmodels, hledgers⟩ := values_rest hkeep
    obtain ⟨before, after, heq, -, hset⟩ := split_eraseIdx hk
    have hhandles : s.handles = s.models ++ before.flatMap ModelLedger.models ++ l.models
        ++ after.flatMap ModelLedger.models := by
      rw [handles, heq, List.flatMap_append, List.flatMap_append, List.flatMap_singleton,
        List.append_assoc, List.append_assoc, List.append_assoc]
    refine ⟨.of_free h rfl hhandles (.of_eq ?_), congrArg₂ OwnModels.mk ?_ ?_⟩
    · show s.models ++ (s.ledgers.set k {}).flatMap ModelLedger.models = _
      simp [hset]
    · exact List.map_congr_left hmodels
    · exact map_set_of_eraseIdx hledgers _

/-- A new model has the next name. -/
theorem step_allocate (count : Nat) :
    (s.step (.allocate count)).pool.Counted (s.step (.allocate count)).handles
      ∧ (s.step (.allocate count)).handles.Perm (⟨s.pool.buffers.size⟩ :: s.handles)
      ∧ (s.step (.allocate count)).values = s.values.step (.allocate count) := by
  obtain ⟨hcounted, hnew, hkeep⟩ := h.allocate count
  obtain ⟨hname, -⟩ := s.pool.allocate_counts count
  obtain ⟨hmodels, hledgers⟩ := values_rest hkeep
  have hperm : (s.step (.allocate count)).handles.Perm
      ((s.pool.allocate count).1 :: s.handles) := by
    show (s.models ++ [(s.pool.allocate count).1] ++ _).Perm _
    rw [List.append_assoc]
    exact List.perm_middle
  refine ⟨hcounted.perm hperm.symm, hname ▸ hperm, congrArg₂ OwnModels.mk ?_ ?_⟩
  · show (s.models ++ [(s.pool.allocate count).1]).map (s.pool.allocate count).2.valuesOf = _
    rw [List.map_append, List.map_congr_left hmodels, List.map_singleton, hnew]
    rfl
  · exact List.map_congr_left hledgers

end Steps

end SharedModels

end Cleave
