import Cleave.Proofs.GraphText

/-!
# The exchange with decomposers

A decomposer answers in PACE form. What a line of its answer says is an `Entry`, and
`Entry.Says` has one case per kind of line; a text in this form is made of such lines
(`InForm`). Reading follows the lines: a line that says what a draft has room for is
read as that (`Entry.Says.readLine`), and so are all lines, one after the other
(`readLines_eq`). As every bag has one line, the order of the lines does not matter
(`filled_eq`).

What a description says in numbers (`Describes`), its translation says about the
vertices (`Describes.decomposes`), as no two numbers stand for one vertex. The answer
to a printed graph is therefore accepted (`Graph.Built.exchange_faithful`).
-/

namespace Cleave

namespace TreeDecomposition

/-! ## Solutions in PACE form -/

/-- What a line of a solution says. Bags and vertices are counted from zero here. -/
inductive Entry where
  /-- A blank line, or a comment: a line whose first word is `c`. -/
  | remark
  /-- The solution line: the number of bags. -/
  | solution (bags : Nat)
  /-- A bag line: the number of the bag, and the places of its vertices. -/
  | bag (i : Nat) (members : List Nat)
  /-- A tree edge between two bags. -/
  | edge (i j : Nat)

namespace Entry

/-- **How a line says it**, in words. In the text, counting starts from one. What
follows the number of bags in a solution line does not matter. -/
inductive Says : List (List Char) → Entry → Prop where
  | blank : Says [] remark
  | comment (rest : List (List Char)) : Says (['c'] :: rest) remark
  | solution {word : List Char} {bags : Nat} (more : List (List Char))
      (h : Text.digits? word = some bags) :
      Says (['s'] :: ['t', 'd'] :: word :: more) (solution bags)
  | bag {word : List Char} {words : List (List Char)} {i : Nat} {members : List Nat}
      (hi : Text.digits? word = some (i + 1))
      (hmembers : List.Forall₂ (fun word k => Text.digits? word = some (k + 1)) words members) :
      Says (['b'] :: word :: words) (bag i members)
  | edge {first second : List Char} {i j : Nat} (hi : Text.digits? first = some (i + 1))
      (hj : Text.digits? second = some (j + 1)) : Says [first, second] (edge i j)

/-- The bag of a bag line, with its number. -/
def bag? : Entry → Option (List Nat × Nat)
  | bag i members => some (members, i)
  | _ => none

/-- The edge of an edge line. -/
def edge? : Entry → Option (Nat × Nat)
  | edge i j => some (i, j)
  | _ => none

end Entry

/-- **A text in PACE form** for some bags and tree edges: after the solution line,
which only remarks may precede, there is a bag line for every bag, without repeated
vertices, and a line for every tree edge; the lines may stand in any order, with
remarks between them. -/
structure InForm (text : List Char) (preamble body : List Entry) (bags : List (List Nat))
    (tree : List (Nat × Nat)) : Prop where
  lines : List.Forall₂ Entry.Says ((Text.lines text).map Text.words)
    (preamble ++ .solution bags.length :: body)
  remarks : ∀ e ∈ preamble, e = .remark
  oneSolution : ∀ e ∈ body, ∀ count, e ≠ .solution count
  bagLines : (body.filterMap Entry.bag?).Perm bags.zipIdx
  edgeLines : body.filterMap Entry.edge? = tree
  once : ∀ bag ∈ bags, bag.Nodup

/-- **A tree decomposition of a printed graph**, which has some number of vertices and
the edges that its lines list: bags of vertices in a forest, every vertex and edge in
some bag, and the bags of a vertex connected. -/
structure Describes (count : Nat) (pairs : List (Nat × Nat)) (bags : List (List Nat))
    (tree : List (Nat × Nat)) : Prop where
  members : ∀ bag ∈ bags, ∀ k ∈ bag, k < count
  ends : ∀ e ∈ tree, e.1 < bags.length ∧ e.2 < bags.length
  forest : IsForest tree
  vertices : ∀ k < count, ∃ i, k ∈ bags.getD i []
  edges : ∀ p ∈ pairs, ∃ i, p.1 ∈ bags.getD i [] ∧ p.2 ∈ bags.getD i []
  connected : ∀ k < count, ((edgeGraph tree).induce {i | k ∈ bags.getD i []}).Preconnected

/-! ## Reading a solution -/

variable {vertices : List Var} {program : String}

/-- A number that an address space has room for is read. -/
theorem number_eq {word : List Char} {n : Nat} (h : Text.digits? word = some n) (hn : n < 2 ^ 64) :
    number word = .ok n := by
  have hcount : Text.count? word = some n := by
    unfold Text.count?
    split
    · exact absurd h (by simp [Text.digits?])
    · rw [h, Option.filter_some]
      exact if_pos (decide_eq_true hn)
  unfold number
  rw [hcount]

theorem vertex_eq {word : List Char} {k : Nat} (h : Text.digits? word = some (k + 1))
    (hk : k < vertices.length) (hsize : vertices.length < 2 ^ 64) :
    vertex vertices word = .ok (vertices.getD k default) := by
  have hget : vertices[k]? = some (vertices.getD k default) := by
    rw [List.getD_eq_getElem _ _ hk, List.getElem?_eq_getElem hk]
  refine Except.bind_eq_ok.mpr ⟨k + 1, number_eq h (by omega), ?_⟩
  rw [if_neg (Nat.succ_ne_zero k), Nat.add_sub_cancel, hget]
  rfl

/-- The vertices of a bag line. -/
theorem vertices_eq {words : List (List Char)} {members : List Nat}
    (h : List.Forall₂ (fun word k => Text.digits? word = some (k + 1)) words members)
    (hmembers : ∀ k ∈ members, k < vertices.length) (hsize : vertices.length < 2 ^ 64) :
    words.mapM (vertex vertices) = .ok (members.map (vertices.getD · default)) := by
  rw [Except.mapM_eq_ok, List.forall₂_map_right_iff]
  induction h with
  | nil => exact .nil
  | cons hword _ ih =>
    obtain ⟨hk, hrest⟩ := List.forall_mem_cons.mp hmembers
    exact .cons (vertex_eq hword hk hsize) (ih hrest)

namespace Entry

/-- What an entry does to a draft. -/
def enter (vertices : List Var) (d : Draft) : Entry → Draft
  | remark => d
  | solution count => { d with bags := some (Array.replicate count []) }
  | bag i members => { d with
      bags := d.bags.map (·.modify i (· ++ members.map (vertices.getD · default))) }
  | edge i j => { d with edges := (i, j) :: d.edges }

/-- An entry that a draft has room for. -/
def Fits (vertices : List Var) (d : Draft) : Entry → Prop
  | remark => True
  | solution count => count ≤ maxBags
  | bag i members => (∃ bags, d.bags = some bags ∧ i < bags.size ∧ bags.size ≤ maxBags)
      ∧ ∀ k ∈ members, k < vertices.length
  | edge i j => i < maxBags ∧ j < maxBags

/-- **A line is read as what it says.** -/
theorem Says.readLine {line : List Char} {e : Entry} {d : Draft} (h : Says (Text.words line) e)
    (hfits : e.Fits vertices d) (hsize : vertices.length < 2 ^ 64) :
    readLine vertices d line = .ok (.ok (e.enter vertices d)) := by
  have hbags : maxBags < 2 ^ 64 := by decide
  unfold TreeDecomposition.readLine
  generalize Text.words line = words at h
  cases h with
  | blank => rfl
  | comment rest => rfl
  | @solution word count more hword =>
    have hfits : count ≤ maxBags := hfits
    have hannounced : announced (['t', 'd'] :: word :: more) = .ok count :=
      number_eq hword (by omega)
    simp only [hannounced, if_neg (Nat.not_lt.mpr hfits)]
    rfl
  | @bag word words i members hi hmembers =>
    obtain ⟨⟨bags, hbags', hlt, hle⟩, hin⟩ := hfits
    have hfill : fillBag vertices d.bags (word :: words)
        = .ok (bags.modify i (· ++ members.map (vertices.getD · default))) := by
      rw [hbags']
      refine Except.bind_eq_ok.mpr ⟨i + 1, number_eq hi (by omega), ?_⟩
      rw [if_neg (by omega)]
      exact Except.bind_eq_ok.mpr ⟨_, vertices_eq hmembers hin hsize, rfl⟩
    show Except.ok ((fillBag vertices d.bags (word :: words)).map _) = _
    rw [hfill]
    unfold enter
    rw [hbags']
    rfl
  | @edge first second i j hi hj =>
    obtain ⟨hilt, hjlt⟩ := hfits
    have hpair : bagPair first [second] = .ok (i, j) := by
      refine Except.bind_eq_ok.mpr ⟨i + 1, number_eq hi (by omega), ?_⟩
      refine Except.bind_eq_ok.mpr ⟨j + 1, number_eq hj (by omega), ?_⟩
      rw [if_neg (by omega)]
      rfl
    have hword : ∀ c : Char, c.isDigit = false → first ≠ [c] := fun c hc heq => by
      rw [heq] at hi
      simp [Text.digits?, hc] at hi
    simp only [if_neg (hword 'c' (by decide)), if_neg (hword 's' (by decide)),
      if_neg (hword 'b' (by decide)), hpair]
    rfl

end Entry

open Entry

/-- Entries that fit one after the other. -/
def FitsFrom (vertices : List Var) : Draft → List Entry → Prop
  | _, [] => True
  | d, e :: es => e.Fits vertices d ∧ FitsFrom vertices (e.enter vertices d) es

theorem fitsFrom_append {d : Draft} {es es' : List Entry} : FitsFrom vertices d (es ++ es')
    ↔ FitsFrom vertices d es ∧ FitsFrom vertices (es.foldl (enter vertices) d) es' := by
  induction es generalizing d with
  | nil => exact (and_iff_right trivial).symm
  | cons e es ih => exact (and_congr_right fun _ => ih).trans and_assoc.symm

/-- **Lines are read one after the other**, by induction on them. -/
theorem readLines_eq (program : String) {lines : List (List Char)} {es : List Entry}
    (h : List.Forall₂ Says (lines.map Text.words) es) {d : Draft} (hfits : FitsFrom vertices d es)
    (hsize : vertices.length < 2 ^ 64) (start : Nat) :
    readLines vertices program start d lines = .ok (.ok (es.foldl (enter vertices) d)) := by
  induction lines generalizing es d start with
  | nil =>
    obtain rfl := List.forall₂_nil_left_iff.mp h
    rfl
  | cons line lines ih =>
    obtain ⟨e, es, hline, hrest, rfl⟩ := List.forall₂_cons_left_iff.mp h
    obtain ⟨hfit, hfits⟩ := hfits
    refine Except.bind_eq_ok.mpr ⟨_, hline.readLine hfit hsize, ?_⟩
    exact ih hrest hfits (start + 1)

/-! ## The bags that are read -/

/-- Bags after some bag lines. -/
def filled (vertices : List Var) (bags : Array (List Var)) (lines : List (List Nat × Nat)) :
    Array (List Var) :=
  lines.foldl (fun bags line => bags.modify line.2 (· ++ line.1.map (vertices.getD · default))) bags

theorem size_filled (bags : Array (List Var)) (lines : List (List Nat × Nat)) :
    (filled vertices bags lines).size = bags.size := by
  unfold filled
  induction lines generalizing bags with
  | nil => rfl
  | cons line lines ih => exact (ih _).trans Array.size_modify

/-- **A bag gets what its lines say**, in their order. -/
theorem getD_filled {bags : Array (List Var)} {lines : List (List Nat × Nat)} {i : Nat}
    (hi : i < bags.size) : (filled vertices bags lines).getD i [] = bags.getD i []
      ++ (lines.filter (·.2 = i)).flatMap fun line => line.1.map (vertices.getD · default) := by
  unfold filled
  induction lines generalizing bags with
  | nil => simp
  | cons line lines ih =>
    rw [List.foldl_cons, ih (by rwa [Array.size_modify]), List.filter_cons]
    have hget := getD_modify bags line.2 i (· ++ line.1.map (vertices.getD · default))
    have hget : (bags.modify line.2 (· ++ line.1.map (vertices.getD · default))).getD i []
        = if line.2 = i ∧ line.2 < bags.size
          then bags.getD i [] ++ line.1.map (vertices.getD · default) else bags.getD i [] := hget
    rw [hget]
    by_cases hline : line.2 = i
    · rw [if_pos ⟨hline, hline ▸ hi⟩, if_pos (decide_eq_true hline), List.flatMap_cons,
        List.append_assoc]
    · rw [if_neg fun hc => hline hc.1, if_neg (by simpa using hline)]

/-- The line of a bag is the only one with its number. -/
theorem filter_zipIdx {α : Type} {l : List α} {start i : Nat} (hi : i < l.length) :
    (l.zipIdx start).filter (·.2 = start + i) = [(l[i], start + i)] := by
  induction l generalizing start i with
  | nil => exact absurd hi (Nat.not_lt_zero i)
  | cons a l ih =>
    rw [List.zipIdx_cons]
    cases i with
    | zero =>
      have hlater : (l.zipIdx (start + 1)).filter (·.2 = start + 0) = [] :=
        List.filter_eq_nil_iff.mpr fun x hx => by
          have := List.le_snd_of_mem_zipIdx hx
          simp only [decide_eq_true_eq]
          omega
      rw [List.filter_cons_of_pos (by simp), hlater]
      rfl
    | succ i =>
      have hplace : start + (i + 1) = start + 1 + i := by omega
      rw [List.filter_cons_of_neg (by simp), hplace, ih (Nat.lt_of_succ_lt_succ hi)]
      rfl

/-- **A bag line for every bag** gives the bags, in whatever order the lines stand. -/
theorem filled_eq {bags : List (List Nat)} {lines : List (List Nat × Nat)}
    (h : lines.Perm bags.zipIdx) :
    filled vertices (Array.replicate bags.length []) lines
      = (bags.map fun bag => bag.map (vertices.getD · default)).toArray := by
  have hsize : (filled vertices (Array.replicate bags.length []) lines).size = bags.length :=
    (size_filled _ _).trans Array.size_replicate
  refine Array.ext (hsize.trans (by simp)) fun i hi _ => ?_
  have hi' : i < bags.length := hsize ▸ hi
  have hline : lines.filter (·.2 = i) = [(bags[i], i)] := by
    have hperm := h.filter (·.2 = i)
    have hone : bags.zipIdx.filter (·.2 = 0 + i) = [(bags[i], 0 + i)] := filter_zipIdx hi'
    rw [Nat.zero_add] at hone
    rw [hone] at hperm
    exact List.perm_singleton.mp hperm
  have hget : (filled vertices (Array.replicate bags.length []) lines).getD i []
      = (Array.replicate bags.length []).getD i []
        ++ (lines.filter (·.2 = i)).flatMap fun line => line.1.map (vertices.getD · default) :=
    getD_filled (by simpa using hi')
  rw [hline, Array.getD_eq_getD_getElem?, Array.getElem?_eq_getElem hi] at hget
  simpa [hi'] using hget

/-- **What the body of a solution gives**: a bag line for every bag, and all edges. -/
theorem foldl_enter (vertices : List Var) {body : List Entry}
    (hone : ∀ e ∈ body, ∀ count, e ≠ .solution count)
    (bags : Array (List Var)) (edges : List (Nat × Nat)) :
    body.foldl (enter vertices) ⟨some bags, edges⟩
      = ⟨some (filled vertices bags (body.filterMap bag?)),
        (body.filterMap edge?).reverse ++ edges⟩ := by
  induction body generalizing bags edges with
  | nil => rfl
  | cons e body ih =>
    obtain ⟨he, hrest⟩ := List.forall_mem_cons.mp hone
    rw [List.foldl_cons]
    cases e with
    | remark => exact ih hrest bags edges
    | solution count => exact absurd rfl (he count)
    | bag i members => exact ih hrest _ edges
    | edge i j =>
      refine (ih hrest bags ((i, j) :: edges)).trans ?_
      rw [List.filterMap_cons_none (f := bag?) rfl, List.filterMap_cons_some (f := edge?) rfl,
        List.reverse_cons, List.append_assoc]
      rfl

theorem foldl_remarks (vertices : List Var) {preamble : List Entry}
    (h : ∀ e ∈ preamble, e = .remark) (d : Draft) :
    FitsFrom vertices d preamble ∧ preamble.foldl (enter vertices) d = d := by
  induction preamble with
  | nil => exact ⟨trivial, rfl⟩
  | cons e preamble ih =>
    obtain ⟨rfl, hrest⟩ := List.forall_mem_cons.mp h
    exact ⟨⟨trivial, (ih hrest).1⟩, (ih hrest).2⟩

/-- **The body fits** as long as its numbers are those of bags and vertices. -/
theorem fitsFrom_body {body : List Entry} {count : Nat} (hcount : count ≤ maxBags)
    (hone : ∀ e ∈ body, ∀ count, e ≠ .solution count)
    (hbags : ∀ x ∈ body.filterMap bag?, x.2 < count ∧ ∀ k ∈ x.1, k < vertices.length)
    (hedges : ∀ x ∈ body.filterMap edge?, x.1 < count ∧ x.2 < count)
    {bags : Array (List Var)} (hsize : bags.size = count) (edges : List (Nat × Nat)) :
    FitsFrom vertices ⟨some bags, edges⟩ body := by
  induction body generalizing bags edges with
  | nil => trivial
  | cons e body ih =>
    obtain ⟨he, hrest⟩ := List.forall_mem_cons.mp hone
    cases e with
    | remark => exact ⟨trivial, ih hrest hbags hedges hsize edges⟩
    | solution count => exact absurd rfl (he count)
    | bag i members =>
      rw [List.filterMap_cons_some (f := bag?) rfl] at hbags
      obtain ⟨⟨hi, hmembers⟩, hbags⟩ := List.forall_mem_cons.mp hbags
      exact ⟨⟨⟨bags, rfl, hsize.symm ▸ hi, hsize.trans_le hcount⟩, hmembers⟩,
        ih hrest hbags hedges (Array.size_modify.trans hsize) edges⟩
    | edge i j =>
      rw [List.filterMap_cons_some (f := edge?) rfl] at hedges
      obtain ⟨⟨hi, hj⟩, hedges⟩ := List.forall_mem_cons.mp hedges
      exact ⟨⟨hi.trans_le hcount, hj.trans_le hcount⟩, ih hrest hbags hedges hsize _⟩

/-- **A text in PACE form is read** as the bags and tree edges it is for, translated
to vertices. -/
theorem InForm.read {text : List Char} {preamble body : List Entry} {bags : List (List Nat)}
    {tree : List (Nat × Nat)} (h : InForm text preamble body bags tree)
    (hmembers : ∀ bag ∈ bags, ∀ k ∈ bag, k < vertices.length)
    (hends : ∀ e ∈ tree, e.1 < bags.length ∧ e.2 < bags.length)
    (hsize : vertices.length < 2 ^ 64) (hcount : bags.length ≤ maxBags) :
    read vertices program text = .ok (.ok
      (ofBags (bags.map fun bag => bag.map (vertices.getD · default)).toArray tree)) := by
  obtain ⟨hfits, hstart⟩ := foldl_remarks vertices h.remarks {}
  have hlines : ∀ x ∈ body.filterMap bag?, x.2 < bags.length ∧ ∀ k ∈ x.1, k < vertices.length :=
    fun x hx => by
      obtain ⟨-, hlt, heq⟩ := List.mem_zipIdx (h.bagLines.mem_iff.mp hx)
      simp only [Nat.zero_add, Nat.sub_zero] at hlt heq
      exact ⟨hlt, hmembers _ (heq ▸ List.getElem_mem _)⟩
  have hbody : FitsFrom vertices ⟨some (Array.replicate bags.length []), []⟩ body :=
    fitsFrom_body hcount h.oneSolution hlines (h.edgeLines.symm ▸ hends) Array.size_replicate []
  have hall : FitsFrom vertices {} (preamble ++ .solution bags.length :: body) :=
    fitsFrom_append.mpr ⟨hfits, hstart.symm ▸ ⟨hcount, hbody⟩⟩
  have hrun := readLines_eq program h.lines hall hsize 1
  rw [List.foldl_append, hstart, List.foldl_cons] at hrun
  have hdraft := foldl_enter vertices h.oneSolution (Array.replicate bags.length []) []
  rw [filled_eq h.bagLines, h.edgeLines, List.append_nil] at hdraft
  refine Except.bind_eq_ok.mpr ⟨_, hrun.trans (congrArg (Except.ok ∘ Except.ok) hdraft), ?_⟩
  show Except.ok (Except.ok (ofBags _ tree.reverse.reverse)) = _
  rw [List.reverse_reverse]

/-! ## Decompositions of printed graphs -/

/-- The width is the one of the largest bag. -/
theorem width_ofBags (bags : Array (List Var)) (edges : List (Nat × Nat)) :
    (ofBags bags edges).width = (ofBags bags edges).largestBag - 1 := by
  have hmax : bags.toList.foldl (fun size bag => max size bag.length) 0
      = ((bags.toList.map List.length).max?).getD 0 := by
    cases bags.toList with
    | nil => rfl
    | cons bag rest =>
      rw [List.map_cons, List.max?_cons', List.foldl_map, Option.getD_some, List.foldl_cons,
        Nat.zero_max]
  show bags.foldl (fun size bag => max size bag.length) 0 - 1 = _
  rw [← Array.foldl_toList, hmax]
  rfl

variable {g : Graph} {pairs : List (Nat × Nat)} {bags : List (List Nat)} {tree : List (Nat × Nat)}

/-- A description with numbers replaced by the vertices at these places. -/
def translated (g : Graph) (bags : List (List Nat)) (tree : List (Nat × Nat)) : TreeDecomposition :=
  ofBags (bags.map fun bag => bag.map g.vertexAt).toArray tree

theorem bag_translated (i : Nat) :
    (translated g bags tree).bag i = (bags.getD i []).map g.vertexAt := by
  unfold translated bag ofBags
  simp only [Array.getD_eq_getD_getElem?, List.getElem?_toArray, List.getElem?_map, List.getD]
  cases bags[i]? <;> rfl

theorem size_translated : (translated g bags tree).bags.size = bags.length := by
  unfold translated ofBags
  simp

theorem getD_mem {i k : Nat} (hk : k ∈ bags.getD i []) :
    i < bags.length ∧ bags.getD i [] ∈ bags := by
  rcases Nat.lt_or_ge i bags.length with hi | hi
  · rw [List.getD_eq_getElem _ _ hi]
    exact ⟨hi, List.getElem_mem hi⟩
  · rw [List.getD_eq_default _ _ hi] at hk
    exact absurd hk List.not_mem_nil

namespace Describes

variable (h : Describes g.vertices.length pairs bags tree) (hg : g.Simple)

include h hg

theorem vertexAt_inj {i j k : Nat} (hj : j ∈ bags.getD i []) (hk : k < g.vertices.length)
    (heq : g.vertexAt j = g.vertexAt k) : j = k := by
  have hj := h.members _ (getD_mem hj).2 j hj
  rw [← Graph.idxOf_vertexAt hg.nodup hj, heq, Graph.idxOf_vertexAt hg.nodup hk]

/-- **A vertex is in the bags that have its place.** -/
theorem mem_bag {i k : Nat} (hk : k < g.vertices.length) :
    g.vertexAt k ∈ (translated g bags tree).bag i ↔ k ∈ bags.getD i [] := by
  rw [bag_translated, List.mem_map]
  constructor
  · rintro ⟨j, hj, heq⟩
    exact h.vertexAt_inj hg hj hk heq ▸ hj
  · exact fun hin => ⟨k, hin, rfl⟩

/-- **A description, translated**, is a tree decomposition of the graph. -/
theorem decomposes (hpairs : g.ListsEdges pairs) : (translated g bags tree).Decomposes g := by
  have hplace : ∀ v ∈ g.vertices, g.vertices.idxOf v < g.vertices.length
      ∧ g.vertexAt (g.vertices.idxOf v) = v := fun v hv =>
    ⟨List.idxOf_lt_length_of_mem hv, Graph.vertexAt_idxOf hv⟩
  refine ⟨fun e he => size_translated.symm ▸ h.ends e he, h.forest, fun v hv => ?_,
    fun v hv w hw => ?_, fun v hv => ?_⟩
  · obtain ⟨hlt, hat⟩ := hplace v hv
    obtain ⟨i, hi⟩ := h.vertices _ hlt
    exact ⟨i, size_translated.symm ▸ (getD_mem hi).1, hat ▸ (h.mem_bag hg hlt).mpr hi⟩
  · have hne : v ≠ w := fun heq => hg.loopless v hv (heq ▸ hw)
    have hedge : s(v, w) ∈ g.simpleGraph.edgeSet := by
      rw [SimpleGraph.mem_edgeSet, Graph.simpleGraph, SimpleGraph.fromRel_adj]
      exact ⟨hne, Or.inl ⟨hv, hw⟩⟩
    obtain ⟨p, hp, heq⟩ := List.mem_map.mp ((hpairs.mem _).mpr hedge)
    obtain ⟨hp1, hp2⟩ := hpairs.places p hp
    obtain ⟨i, hi1, hi2⟩ := h.edges p hp
    have hin1 := (h.mem_bag hg hp1).mpr hi1
    have hin2 := (h.mem_bag hg hp2).mpr hi2
    refine ⟨i, size_translated.symm ▸ (getD_mem hi1).1, ?_⟩
    rcases Sym2.eq_iff.mp heq with ⟨rfl, rfl⟩ | ⟨rfl, rfl⟩
    · exact ⟨hin1, hin2⟩
    · exact ⟨hin2, hin1⟩
  · obtain ⟨hlt, hat⟩ := hplace v hv
    have hbags : {i | i < (translated g bags tree).bags.size ∧ v ∈ (translated g bags tree).bag i}
        = {i | g.vertices.idxOf v ∈ bags.getD i []} := Set.ext fun i => by
      show _ ∧ _ ↔ _
      rw [← hat, h.mem_bag hg hlt, hat, size_translated]
      exact and_iff_right_of_imp fun hi => (getD_mem hi).1
    exact hbags ▸ h.connected _ hlt

/-- **It passes**, as no bag repeats a vertex. -/
theorem verify (hpairs : g.ListsEdges pairs) (honce : ∀ bag ∈ bags, bag.Nodup) :
    (translated g bags tree).verify g = .ok () := by
  refine (h.decomposes hg hpairs).verify fun v _ i => List.nodup_iff_count_le_one.mp ?_ v
  rw [bag_translated]
  by_cases hnil : bags.getD i [] = []
  · rw [hnil]
    exact List.nodup_nil
  · obtain ⟨k, hk⟩ := List.exists_mem_of_ne_nil _ hnil
    have hin := (getD_mem hk).2
    exact List.Nodup.map_on (fun a ha b hb heq =>
      h.vertexAt_inj hg ha (h.members _ hin b hb) heq) (honce _ hin)

end Describes

end TreeDecomposition

open TreeDecomposition

/-- **The exchange is faithful.** The text of a graph is a header with the numbers of
vertices and of edge lines, and the lines list every edge once. A text in PACE form
that describes a tree decomposition of this graph is read as the decomposition with
these bags and tree edges, translated back; its width is the one of the largest bag
(zero if there is no bag), and it passes the checks. The vertices can be counted, and
an address space has room for the bags. -/
theorem Graph.Built.exchange_faithful {g : Graph} (h : g.Built) :
    (g.text = .ok (Graph.exchangeText g.vertices.length g.placedEdges)
      ∧ g.ListsEdges g.placedEdges)
    ∧ ∀ program text preamble body bags tree, InForm text preamble body bags tree →
      Describes g.vertices.length g.placedEdges bags tree →
      g.vertices.length < 2 ^ 64 → bags.length ≤ maxBags →
      read g.vertices program text = .ok (.ok (translated g bags tree))
      ∧ (translated g bags tree).width = (translated g bags tree).largestBag - 1
      ∧ (translated g bags tree).verify g = .ok () := by
  have hlists := Graph.listsEdges_placedEdges h.simple
  refine ⟨⟨Graph.text_eq h.simple, hlists⟩, fun program text preamble body bags tree hform hdesc
    hsize hcount => ⟨hform.read hdesc.members hdesc.ends hsize hcount, width_ofBags _ _,
    hdesc.verify h.simple hlists hform.once⟩⟩

/-- Two triangles decompose a square. -/
theorem TreeDecomposition.describes_square :
    Describes 4 [(0, 1), (0, 3), (1, 2), (2, 3)] [[0, 1, 3], [1, 2, 3]] [(0, 1)] := by
  have hforest : (checkForest 2 (Forest.singletons 2) [(0, 1)]).toOption.isSome := by cbv
  have hforest : ∃ f, checkForest 2 (Forest.singletons 2) [(0, 1)] = .ok f := by
    cases hrun : checkForest 2 (Forest.singletons 2) [(0, 1)] with
    | ok f => exact ⟨f, rfl⟩
    | error fault =>
      rw [hrun] at hforest
      exact absurd hforest Bool.false_ne_true
  have hvertices : ∀ k < 4, ∃ i < 2, k ∈ [[0, 1, 3], [1, 2, 3]].getD i [] := by decide
  have hedges : ∀ p ∈ [(0, 1), (0, 3), (1, 2), (2, 3)], ∃ i < 2,
      p.1 ∈ [[0, 1, 3], [1, 2, 3]].getD i [] ∧ p.2 ∈ [[0, 1, 3], [1, 2, 3]].getD i [] := by decide
  refine ⟨by decide, by decide, (checkForest_iff.mp hforest).2,
    fun k hk => (hvertices k hk).imp fun _ h => h.2,
    fun p hp => (hedges p hp).imp fun _ h => h.2, fun k _ => ?_⟩
  rintro ⟨i, hi⟩ ⟨j, hj⟩
  have hi2 : i < 2 := (getD_mem hi).1
  have hj2 : j < 2 := (getD_mem hj).1
  by_cases heq : i = j
  · subst heq
    rfl
  · have hends : (i = 0 ∧ j = 1) ∨ (j = 0 ∧ i = 1) := by omega
    have hadj : (edgeGraph [(0, 1)]).Adj i j := edgeGraph_adj.mpr
      ⟨heq, by simpa only [List.mem_singleton, Prod.mk.injEq] using hends⟩
    exact SimpleGraph.Adj.reachable hadj

/-- The sides of a square. -/
def squareEdges : List (Var × Var) := [(⟨1⟩, ⟨3⟩), (⟨3⟩, ⟨5⟩), (⟨5⟩, ⟨7⟩), (⟨7⟩, ⟨1⟩)]

/-- A solution for the square, with a comment and with more in its solution line. -/
def squareSolution : String := "c produced by hand\ns td 2 3 4\nb 1 1 2 4\nb 2 2 3 4\n1 2\n"

/-- The square as it is exchanged. -/
theorem Graph.Built.exchange_faithful_square : ∃ g,
    Graph.ofEdges [⟨1⟩, ⟨3⟩, ⟨5⟩, ⟨7⟩] squareEdges = .ok g
      ∧ g.text = .ok "p tw 4 4\n1 2\n1 4\n2 3\n3 4\n"
      ∧ read g.vertices "td" squareSolution.toList
        = .ok (.ok (ofBags #[[⟨1⟩, ⟨3⟩, ⟨7⟩], [⟨3⟩, ⟨5⟩, ⟨7⟩]] [(0, 1)]))
      ∧ (ofBags #[[⟨1⟩, ⟨3⟩, ⟨7⟩], [⟨3⟩, ⟨5⟩, ⟨7⟩]] [(0, 1)]).width = 2
      ∧ (ofBags #[[⟨1⟩, ⟨3⟩, ⟨7⟩], [⟨3⟩, ⟨5⟩, ⟨7⟩]] [(0, 1)]).verify g = .ok () := by
  have hends : ∀ e ∈ squareEdges, e.1 ∈ [⟨1⟩, ⟨3⟩, ⟨5⟩, ⟨7⟩] ∧ e.2 ∈ [⟨1⟩, ⟨3⟩, ⟨5⟩, ⟨7⟩] := by
    decide
  obtain ⟨g, hg, -⟩ := Graph.ofEdges_spec hends
  have hparts : (Graph.ofEdges [⟨1⟩, ⟨3⟩, ⟨5⟩, ⟨7⟩] squareEdges).toOption.map
      (fun g => (g.vertices, g.placedEdges))
        = some ([⟨1⟩, ⟨3⟩, ⟨5⟩, ⟨7⟩], [(0, 1), (0, 3), (1, 2), (2, 3)]) := by cbv
  rw [hg] at hparts
  obtain ⟨hvertices, hplaced⟩ := Prod.mk.inj (Option.some.inj hparts)
  have hform : InForm squareSolution.toList [.remark]
      [.bag 0 [0, 1, 3], .bag 1 [1, 2, 3], .edge 0 1] [[0, 1, 3], [1, 2, 3]] [(0, 1)] := by
    have hwords : (Text.lines squareSolution.toList).map Text.words
      = [["c".toList, "produced".toList, "by".toList, "hand".toList],
        ["s".toList, "td".toList, "2".toList, "3".toList, "4".toList],
        ["b".toList, "1".toList, "1".toList, "2".toList, "4".toList],
        ["b".toList, "2".toList, "2".toList, "3".toList, "4".toList],
        ["1".toList, "2".toList]] := by
      cbv
    refine ⟨hwords ▸ ?_, by simp, by simp, by decide, rfl, by decide⟩
    exact .cons (.comment _) (.cons (.solution _ (by decide))
      (.cons (.bag (by decide) (.cons (by decide) (.cons (by decide) (.cons (by decide) .nil))))
        (.cons (.bag (by decide) (.cons (by decide) (.cons (by decide) (.cons (by decide) .nil))))
          (.cons (.edge (by decide) (by decide)) .nil))))
  obtain ⟨⟨htext, -⟩, hread⟩ := (Graph.Built.ofEdges hends hg).exchange_faithful
  have hgoal : translated g [[0, 1, 3], [1, 2, 3]] [(0, 1)]
      = ofBags #[[⟨1⟩, ⟨3⟩, ⟨7⟩], [⟨3⟩, ⟨5⟩, ⟨7⟩]] [(0, 1)] := by
    unfold translated Graph.vertexAt
    rw [hvertices]
    rfl
  have hlength : g.vertices.length = 4 := by rw [hvertices]; rfl
  obtain ⟨hread, hwidth, hverify⟩ := hread "td" _ _ _ _ _ hform
    (by rw [hlength, hplaced]; exact describes_square) (by rw [hlength]; decide) (by decide)
  rw [hgoal] at hread hwidth hverify
  rw [hlength, hplaced] at htext
  exact ⟨g, hg, htext, hread, hwidth, hverify⟩

end Cleave
