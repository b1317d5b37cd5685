import Cleave.Proofs.SharedModels

/-!
# Sessions with a pool

A session is a whole run of a client, with its models shared and, beside that, with
values of their own. Buffers have a new name whenever they are handed out, so the names
do not tell where recycling leads. The blocks of memory do (`Blocks`): a buffer that
loses its last handle leaves its block waiting, and an allocation takes a block that
waits. No two buffers ever share a block (`Blocks.Behind`).

One step keeps all of it (`ModelSession.Sound.step`), and so do whole runs
(`ModelSession.run_faithful`).
-/

namespace Cleave

/-! ## Blocks of memory -/

/-- **The blocks of memory behind the buffers**, as the handles alone tell. A buffer with
a new name lies in a new block, or, if a model is allocated, in a block that waits; a
buffer that loses its last handle leaves its block waiting. -/
structure Blocks where
  /-- The block of a buffer. -/
  block : Model → Nat := fun _ => 0
  /-- The blocks that wait for another use, latest first. -/
  waiting : List Nat := []
  /-- What a block that waits was left with. -/
  left : Nat → VarTable (Option Bool) := fun _ => default
  /-- How many blocks there are. -/
  made : Nat := 0
  /-- How many models were allocated. -/
  allocated : Nat := 0
  /-- How many of them got a block that had waited. -/
  reused : Nat := 0
  /-- How often a buffer has lost its last handle. -/
  returned : Nat := 0

namespace Blocks

variable {b : Blocks} {s s' : SharedModels}

/-- Buffers with new names, and buffers that have lost their last handle. -/
def follow (b : Blocks) (s s' : SharedModels) : Blocks :=
  let lost := ModelPool.lost s.handles s'.handles
  { b with
    block := fun m => if m.buffer < s.pool.buffers.size then b.block m
      else b.made + (m.buffer - s.pool.buffers.size)
    waiting := (lost.map b.block).reverse ++ b.waiting
    left := fun i => ((lost.find? (b.block · = i)).map s.pool.valuesOf).getD (b.left i)
    made := b.made + (s'.pool.buffers.size - s.pool.buffers.size)
    returned := b.returned + lost.length }

/-- A buffer gets a block that has waited. -/
def reuse (b : Blocks) (m : Model) (i : Nat) (waiting : List Nat) : Blocks :=
  { b with
    block := fun k => if k = m then i else b.block k
    waiting := waiting
    reused := b.reused + 1 }

/-- The blocks after an action. -/
def after (b : Blocks) (s : SharedModels) : ModelAction → Blocks
  | .allocate count =>
    match b.waiting with
    | [] => { b.follow s (s.step (.allocate count)) with allocated := b.allocated + 1 }
    | i :: waiting =>
      { b.reuse ⟨s.pool.buffers.size⟩ i waiting with allocated := b.allocated + 1 }
  | a => b.follow s (s.step a)

/-- **The blocks lie behind the models**: no two buffers share a block, no block that
waits has a handle or waits twice, and the pool holds what they were left with. -/
structure Behind (b : Blocks) (s : SharedModels) : Prop where
  inj : ∀ m ∈ s.handles, ∀ n ∈ s.handles, b.block m = b.block n → m = n
  apart : ∀ m ∈ s.handles, b.block m ∉ b.waiting
  nodup : b.waiting.Nodup
  blockLt : ∀ m ∈ s.handles, b.block m < b.made
  waitingLt : ∀ i ∈ b.waiting, i < b.made
  spare : s.pool.spare = b.waiting.map b.left
  returned : b.reused + b.waiting.length = b.returned

theorem mem_waiting_follow {i : Nat} : i ∈ (b.follow s s').waiting
    ↔ (∃ m ∈ ModelPool.lost s.handles s'.handles, b.block m = i) ∨ i ∈ b.waiting := by
  refine List.mem_append.trans (or_congr_left ?_)
  rw [List.mem_reverse, List.mem_map]

/-- **What is recycled is what the blocks are left with**, and the others still hold what
they were left with. -/
theorem Behind.spare_follow (h : b.Behind s) (hspare : s'.pool.spare
    = ((ModelPool.lost s.handles s'.handles).map s.pool.valuesOf).reverse ++ s.pool.spare) :
    s'.pool.spare = (b.follow s s').waiting.map (b.follow s s').left := by
  have hlost : ∀ m ∈ ModelPool.lost s.handles s'.handles,
      s.pool.valuesOf m = (b.follow s s').left (b.block m) := fun m hm => by
    obtain ⟨n, hfind⟩ := Option.isSome_iff_exists.mp (List.find?_isSome
      (p := fun n => b.block n = b.block m).mpr ⟨m, hm, decide_eq_true rfl⟩)
    have heq : b.block n = b.block m := of_decide_eq_true (List.find?_some hfind :)
    obtain rfl := h.inj n (ModelPool.mem_lost.mp (List.mem_of_find?_eq_some hfind)).1 m
      (ModelPool.mem_lost.mp hm).1 heq
    show _ = (Option.map _ (List.find? _ _)).getD _
    rw [hfind]
    rfl
  have hwaiting : ∀ i ∈ b.waiting, b.left i = (b.follow s s').left i := fun i hi => by
    have hfind : (ModelPool.lost s.handles s'.handles).find? (b.block · = i) = none :=
      List.find?_eq_none.mpr fun m hm heq =>
        h.apart m (ModelPool.mem_lost.mp hm).1 (of_decide_eq_true heq ▸ hi)
    show _ = (Option.map _ (List.find? _ _)).getD _
    rw [hfind]
    rfl
  rw [hspare, h.spare, List.map_congr_left hwaiting, List.map_congr_left hlost]
  show _ = ((List.map _ _).reverse ++ _).map _
  rw [List.map_append, List.map_reverse, List.map_map]
  rfl

/-- **Blocks follow the handles.** -/
theorem Behind.follow (h : b.Behind s) (hcounted : s'.pool.Counted s'.handles)
    (hsize : s.pool.buffers.size ≤ s'.pool.buffers.size)
    (hold : ∀ m ∈ s'.handles, m ∈ s.handles ∨ s.pool.buffers.size ≤ m.buffer)
    (hspare : s'.pool.spare
      = ((ModelPool.lost s.handles s'.handles).map s.pool.valuesOf).reverse ++ s.pool.spare) :
    (b.follow s s').Behind s' := by
  have hlost : ∀ m ∈ ModelPool.lost s.handles s'.handles, m ∈ s.handles ∧ m ∉ s'.handles :=
    fun m hm => ModelPool.mem_lost.mp hm
  have hmade : (b.follow s s').made = b.made + (s'.pool.buffers.size - s.pool.buffers.size) := rfl
  -- A handle has its old block, or a new block of its own.
  have hblock : ∀ m ∈ s'.handles, (m ∈ s.handles ∧ (b.follow s s').block m = b.block m)
      ∨ (s.pool.buffers.size ≤ m.buffer
        ∧ (b.follow s s').block m = b.made + (m.buffer - s.pool.buffers.size)) := fun m hm => by
    by_cases hlt : m.buffer < s.pool.buffers.size
    · exact Or.inl ⟨(hold m hm).resolve_right (Nat.not_le.mpr hlt), if_pos hlt⟩
    · exact Or.inr ⟨Nat.le_of_not_lt hlt, if_neg hlt⟩
  -- What waits is older than every new block.
  have hwaitingLt : ∀ i ∈ (b.follow s s').waiting, i < b.made := fun i hi => by
    rcases mem_waiting_follow.mp hi with ⟨m, hm, rfl⟩ | hi
    · exact h.blockLt m (hlost m hm).1
    · exact h.waitingLt i hi
  refine ⟨fun m hm n hn heq => ?_, fun m hm hin => ?_, ?_, fun m hm => ?_, fun i hi => ?_,
    h.spare_follow hspare, ?_⟩
  · rcases hblock m hm with ⟨hm, hbm⟩ | ⟨hm, hbm⟩ <;> rcases hblock n hn with ⟨hn, hbn⟩ | ⟨hn, hbn⟩
    · exact h.inj m hm n hn (hbm.symm.trans (heq.trans hbn))
    · have := h.blockLt m hm
      omega
    · have := h.blockLt n hn
      omega
    · cases m
      cases n
      simp only at hm hn hbm hbn
      exact congrArg Model.mk (by omega)
  · rcases hblock m hm with ⟨hold, hbm⟩ | ⟨-, hbm⟩
    · rcases mem_waiting_follow.mp hin with ⟨n, hn, heq⟩ | hw
      · obtain ⟨hin, hout⟩ := hlost n hn
        exact hout (h.inj n hin m hold (heq.trans hbm) ▸ hm)
      · exact h.apart m hold (hbm ▸ hw)
    · have := hwaitingLt _ hin
      omega
  · refine List.nodup_append.mpr ⟨List.nodup_reverse.mpr (List.Nodup.map_on
      (fun m hm n hn => h.inj m (hlost m hm).1 n (hlost n hn).1)
      (List.nodup_dedup _)), h.nodup, fun i hi j hj heq => ?_⟩
    obtain ⟨m, hm, rfl⟩ := List.mem_map.mp (List.mem_reverse.mp hi)
    exact h.apart m (hlost m hm).1 (heq ▸ hj)
  · have hlt := hcounted.lt hm
    rcases hblock m hm with ⟨hm, hbm⟩ | ⟨hm, hbm⟩
    · have := h.blockLt m hm
      omega
    · omega
  · have := hwaitingLt i hi
    omega
  · show b.reused + ((List.map _ _).reverse ++ b.waiting).length = b.returned + _
    rw [List.length_append, List.length_reverse, List.length_map, ← h.returned]
    omega

/-- **A block is used again** for a buffer that had no handle. -/
theorem Behind.reuse (h : b.Behind s) {i : Nat} {waiting : List Nat}
    (hwaiting : b.waiting = i :: waiting) {m : Model} (hm : m ∉ s.handles)
    (hperm : s'.handles.Perm (m :: s.handles)) (hspare : s'.pool.spare = s.pool.spare.tail) :
    (b.reuse m i waiting).Behind s' := by
  obtain ⟨hi, hnodup⟩ := List.nodup_cons.mp (hwaiting ▸ h.nodup)
  have hin : ∀ j ∈ waiting, j ∈ b.waiting := fun j hj => hwaiting ▸ List.mem_cons_of_mem _ hj
  have hblock : (b.reuse m i waiting).block m = i := if_pos rfl
  have hblocks : ∀ k ∈ s.handles, (b.reuse m i waiting).block k = b.block k ∧ b.block k ≠ i :=
    fun k hk => ⟨if_neg fun heq : k = m => hm (heq ▸ hk), fun heq =>
      h.apart k hk (hwaiting ▸ heq ▸ List.mem_cons_self)⟩
  have hforall : ∀ {P : Model → Prop}, P m → (∀ k ∈ s.handles, P k) → ∀ k ∈ s'.handles, P k :=
    fun hnew hold k hk => (List.mem_cons.mp (hperm.mem_iff.mp hk)).elim (· ▸ hnew) (hold k)
  refine ⟨hforall (hforall (fun _ => rfl) fun k hk heq => ?_) fun n hn => hforall (fun heq => ?_)
    fun k hk heq => ?_, hforall ?_ fun k hk => ?_, hnodup, hforall ?_ fun k hk => ?_,
    fun j hj => h.waitingLt j (hin j hj), ?_, ?_⟩
  · exact absurd ((hblocks k hk).1.symm.trans (heq.symm.trans hblock)) (hblocks k hk).2
  · exact absurd ((hblocks n hn).1.symm.trans (heq.trans hblock)) (hblocks n hn).2
  · exact h.inj n hn k hk ((hblocks n hn).1.symm.trans (heq.trans (hblocks k hk).1))
  · rw [hblock]
    exact hi
  · exact (hblocks k hk).1 ▸ fun hw => h.apart k hk (hin _ hw)
  · rw [hblock]
    exact h.waitingLt i (hwaiting ▸ List.mem_cons_self)
  · exact (hblocks k hk).1 ▸ h.blockLt k hk
  · rw [hspare, h.spare, hwaiting]
    rfl
  · have hreturned := h.returned
    rw [hwaiting, List.length_cons] at hreturned
    show b.reused + 1 + waiting.length = b.returned
    omega

end Blocks

/-! ## Whole runs -/

/-- A client's models twice, shared in a pool and with values of their own, and the
blocks of memory behind the pool. -/
structure ModelSession where
  shared : SharedModels := {}
  own : OwnModels := {}
  blocks : Blocks := {}

namespace ModelSession

variable {x : ModelSession}

/-- The same action on both. -/
def step (x : ModelSession) (a : ModelAction) : ModelSession :=
  ⟨x.shared.step a, x.own.step a, x.blocks.after x.shared a⟩

/-- A run from an empty pool. -/
def run (actions : List ModelAction) : ModelSession := actions.foldl step {}

/-- **What every step keeps.** -/
structure Sound (x : ModelSession) : Prop where
  counted : x.shared.pool.Counted x.shared.handles
  values : x.shared.values = x.own
  behind : x.blocks.Behind x.shared
  allocated : x.shared.pool.allocated = x.blocks.allocated
  recycled : x.shared.pool.recycled = x.blocks.reused

theorem sound_empty : Sound {} where
  counted _ := rfl
  values := rfl
  behind := ⟨fun _ hm => absurd hm List.not_mem_nil, fun _ hm => absurd hm List.not_mem_nil,
    List.nodup_nil, fun _ hm => absurd hm List.not_mem_nil, fun _ hi => absurd hi List.not_mem_nil,
    rfl, rfl⟩
  allocated := rfl
  recycled := rfl

theorem Sound.step_allocate (h : x.Sound) (count : Nat) : (x.step (.allocate count)).Sound := by
  obtain ⟨hcounted, hperm, hvalues⟩ := SharedModels.step_allocate h.counted count
  obtain ⟨-, hsize, hallocated, hspare, hrecycled⟩ := x.shared.pool.allocate_counts count
  have hnew : (⟨x.shared.pool.buffers.size⟩ : Model) ∉ x.shared.handles := fun hin =>
    Nat.lt_irrefl _ (h.counted.lt hin)
  have hempty : x.shared.pool.spare = [] ↔ x.blocks.waiting = [] := by
    rw [h.behind.spare, List.map_eq_nil_iff]
  have hblocks : (x.step (.allocate count)).blocks.Behind (x.shared.step (.allocate count))
      ∧ (x.step (.allocate count)).blocks.allocated = x.blocks.allocated + 1
      ∧ (x.step (.allocate count)).blocks.reused
        = x.blocks.reused + (if x.shared.pool.spare = [] then 0 else 1) := by
    simp only [step, Blocks.after, hempty]
    cases hwaiting : x.blocks.waiting with
    | nil =>
      have hlost := ModelPool.lost_eq_nil fun m hm =>
        hperm.mem_iff.mpr (List.mem_cons_of_mem _ hm)
      have hbehind := h.behind.follow hcounted (hsize ▸ Nat.le_succ _) (fun m hm => by
        rcases List.mem_cons.mp (hperm.mem_iff.mp hm) with rfl | hm
        · exact Or.inr (Nat.le_refl _)
        · exact Or.inl hm) (hspare.trans (by
          rw [hlost, hempty.mpr hwaiting]
          rfl))
      exact ⟨{ hbehind with }, rfl, rfl⟩
    | cons i waiting =>
      exact ⟨{ h.behind.reuse hwaiting hnew hperm hspare with }, rfl, rfl⟩
  exact ⟨hcounted, hvalues.trans (congrArg (OwnModels.step · _) h.values), hblocks.1,
    hallocated.trans (h.allocated ▸ hblocks.2.1.symm),
    hrecycled.trans (h.recycled ▸ hblocks.2.2.symm)⟩

/-- An action that allocates nothing. -/
theorem Sound.of_effect (h : x.Sound) {a : ModelAction}
    (hafter : x.blocks.after x.shared a = x.blocks.follow x.shared (x.shared.step a))
    (heffect : x.shared.Effect (x.shared.step a)
      ∧ (x.shared.step a).values = x.shared.values.step a) : (x.step a).Sound := by
  obtain ⟨heffect, hvalues⟩ := heffect
  have hblocks : (x.step a).blocks = x.blocks.follow x.shared (x.shared.step a) := hafter
  exact ⟨heffect.counted, hvalues.trans (congrArg (OwnModels.step · a) h.values),
    hblocks ▸ h.behind.follow heffect.counted heffect.size heffect.old heffect.spare,
    hblocks ▸ heffect.allocated.trans h.allocated, hblocks ▸ heffect.recycled.trans h.recycled⟩

/-- **Every action keeps all of it.** -/
theorem Sound.step (h : x.Sound) (a : ModelAction) : (x.step a).Sound := by
  cases a with
  | allocate count => exact h.step_allocate count
  | copy place => exact h.of_effect rfl (SharedModels.step_copy h.counted place)
  | assign i l => exact h.of_effect rfl (SharedModels.step_assign h.counted i l)
  | free i => exact h.of_effect rfl (SharedModels.step_free h.counted i)
  | newLedger => exact h.of_effect rfl (SharedModels.step_newLedger h.counted)
  | add i k => exact h.of_effect rfl (SharedModels.step_add h.counted i k)
  | extend k l => exact h.of_effect rfl (SharedModels.step_extend h.counted k l)
  | shareInto k other => exact h.of_effect rfl (SharedModels.step_shareInto h.counted k other)
  | takeFrom k other => exact h.of_effect rfl (SharedModels.step_takeFrom h.counted k other)
  | release k => exact h.of_effect rfl (SharedModels.step_release h.counted k)

/-- **Whole runs**, by induction on the actions. -/
theorem Sound.foldl (h : x.Sound) (actions : List ModelAction) :
    (actions.foldl ModelSession.step x).Sound := by
  induction actions generalizing x with
  | nil => exact h
  | cons a actions ih => exact ih (h.step a)

/-- **Shared models are like private copies**, after every run. Whatever is observed
is what values of one's own would give. A new model has the size that was asked for, no
values, and a buffer without another handle. The owners of a buffer are its handles. No
block that waits is behind a handle or waits twice, and no block is behind two buffers;
the pool holds the blocks that wait, with what they were left with. It counts the
allocations and those that used a block again, which are the buffers that lost their
last handle without those whose blocks still wait. -/
theorem run_faithful (actions : List ModelAction) :
    let x := run actions
    (∀ q, x.shared.answer q = x.own.answer q)
    ∧ (∀ count v, let r := x.shared.pool.allocate count
      r.1 ∉ x.shared.handles ∧ r.2.varCount r.1 = count ∧ r.2.value r.1 v = none)
    ∧ (∀ m, (x.shared.pool.bufferOf m).owners = x.shared.handles.count m)
    ∧ (∀ m ∈ x.shared.handles, x.blocks.block m ∉ x.blocks.waiting
      ∧ ∀ n ∈ x.shared.handles, x.blocks.block m = x.blocks.block n → m = n)
    ∧ x.blocks.waiting.Nodup ∧ x.shared.pool.spare = x.blocks.waiting.map x.blocks.left
    ∧ x.shared.pool.allocated = x.blocks.allocated
    ∧ x.shared.pool.recycled = x.blocks.reused
    ∧ x.blocks.reused + x.shared.pool.spare.length = x.blocks.returned := by
  have h : (run actions).Sound := sound_empty.foldl actions
  refine ⟨fun q => ?_, fun count v => ?_, h.counted, fun m hm => ⟨h.behind.apart m hm,
    h.behind.inj m hm⟩, h.behind.nodup, h.behind.spare, h.allocated, h.recycled,
    by rw [h.behind.spare, List.length_map, h.behind.returned]⟩
  · rw [← SharedModels.answer_values, h.values]
  · obtain ⟨-, hnew, -⟩ := h.counted.allocate count
    obtain ⟨hname, -⟩ := (run actions).shared.pool.allocate_counts count
    refine ⟨hname ▸ fun hin => Nat.lt_irrefl _ (h.counted.lt hin), ?_, ?_⟩
    · show (ModelPool.valuesOf _ _).size = count
      rw [hnew, VarTable.size_sized]
    · show (ModelPool.valuesOf _ _)[v] = none
      rw [hnew]
      exact VarTable.get_sized count v

/-- A buffer with a copy is not recycled before the copy is given back, too. -/
example : let x := run [.allocate 2, .copy (.own 0), .free 0, .free 0, .allocate 4]
    (x.shared.pool.allocated, x.shared.pool.recycled, x.blocks.returned) = (2, 1, 1) := by
  rfl

end ModelSession

end Cleave
