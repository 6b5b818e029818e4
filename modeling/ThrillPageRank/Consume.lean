import ThrillPageRank.Basic
import Mathlib.Data.List.Basic
/-!
# Read budgets under `enable_consume()`, counted per operator

Every driver calls `ctx.enable_consume()`, after which a collection is read once,
once more per `Keep()`, and without limit after `KeepForever()`; a read of a spent
collection is a fatal UseAfterConsume. Which collections a driver builds and reads
depends on its iteration count and on whether an output path is given, never on
the data, so the model here is the dataflow graph alone: a ledger of budgets, one per
node, and the drivers as programs that create, keep and read nodes. This module counts
one read for every operator that pulls a collection, when the operator is called, and
none for `Execute()`. Counted so, the join drivers stay within their budgets for every
iteration count, and the index drivers, which read their cached `links` in every pass
with one read left, fail from the second pass on. The engine counts one read per push
instead, and one push feeds every child created so far (`Materialize`): for the index
drivers' `links` the two counts differ.
-/

namespace ThrillPageRank.Consume

/-- What is left of a collection's read budget. -/
inductive Budget where
  | reads (k : Nat)
  | forever
deriving DecidableEq, Repr

/-- A node of the dataflow graph, numbered in creation order. -/
abbrev NodeId := Nat

/-- The budgets of the nodes created so far, node `i`'s at index `i`. -/
abbrev Ledger := List Budget

/-- Building the dataflow graph; a failed run names the node read after its budget was
spent. -/
abbrev DiaM := StateT Ledger (Except NodeId)

/-- `Keep()`: one read more. -/
def Budget.keep : Budget → Budget
  | .reads k => .reads (k + 1)
  | .forever => .forever

/-- A read: `none` when the budget is spent. -/
def Budget.spend : Budget → Option Budget
  | .reads 0 => none
  | .reads (k + 1) => some (.reads k)
  | .forever => some .forever

@[simp] theorem Budget.spend_zero : (Budget.reads 0).spend = none := rfl

@[simp] theorem Budget.spend_succ (k : Nat) : (Budget.reads (k + 1)).spend = some (.reads k) :=
  rfl

@[simp] theorem Budget.spend_forever : Budget.forever.spend = some .forever := rfl

/-! ## The engine's operations -/

/-- Modelled from the spec: a new collection may be read once. -/
def newNode : DiaM NodeId := fun s => pure (s.length, s ++ [.reads 1])

/-- Modelled from the spec: `Keep()`, one read more. -/
def keep (n : NodeId) : DiaM Unit := modify fun s => s.modify Budget.keep n

/-- Modelled from the spec: `KeepForever()`, reads without limit. -/
def keepForever (n : NodeId) : DiaM Unit := modify fun s => s.modify (fun _ => .forever) n

/-- Modelled from the spec: an operator pulls the data of node `n`, spending one read; a
spent budget is a UseAfterConsume. -/
def pull (n : NodeId) : DiaM Unit := fun s =>
  match s[n]?.bind Budget.spend with
  | some b => pure ((), s.set n b)
  | none => throw n

/-- Modelled from the spec: a distributed operation pulls its parents when it is called
and creates a node. -/
def derive (parents : List NodeId) : DiaM NodeId := do
  parents.forM pull
  newNode

def readLines : DiaM NodeId := derive []

def generate : DiaM NodeId := derive []

def cache (a : NodeId) : DiaM NodeId := derive [a]

def collapse (a : NodeId) : DiaM NodeId := derive [a]

def groupToIndex (a : NodeId) : DiaM NodeId := derive [a]

def groupByKey (a : NodeId) : DiaM NodeId := derive [a]

def zip (a b : NodeId) : DiaM NodeId := derive [a, b]

def innerJoin (a b : NodeId) : DiaM NodeId := derive [a, b]

def reduceToIndex (a : NodeId) : DiaM NodeId := derive [a]

def reducePair (a : NodeId) : DiaM NodeId := derive [a]

def zipWithIndex (a : NodeId) : DiaM NodeId := derive [a]

def max (a : NodeId) : DiaM Unit := pull a

def sum (a : NodeId) : DiaM Unit := pull a

def sizeFuture (a : NodeId) : DiaM Unit := pull a

def writeLines (a : NodeId) : DiaM Unit := pull a

/-- `Execute()` computes a node without reading it. -/
def execute (_ : NodeId) : DiaM Unit := pure ()

/-! ## The three PageRank shapes -/

/-- `iterations` passes of a loop body that maps the ranks' node to the next one. -/
def loop {m : Type → Type} [Monad m] (body : NodeId → m NodeId) : Nat → NodeId → m NodeId
  | 0, ranks => pure ranks
  | n + 1, ranks => body ranks >>= loop body n

/-- One pass of `PageRank`'s loop; FlatMap is fused into ReduceToIndex, Map into
Collapse. -/
def pageRankIter (links ranks : NodeId) : DiaM NodeId := do
  let outsRank ← zip links ranks
  let reduced ← reduceToIndex outsRank
  collapse reduced

def pageRank (links : NodeId) (iterations : Nat) : DiaM NodeId := do
  let ranks ← generate >>= collapse
  loop (pageRankIter links) iterations ranks

/-- One pass of the loop of `PageRankJoinSelf` and `PageRankJoin`. -/
def pageRankJoinIter (links ranks : NodeId) : DiaM NodeId := do
  let outsRank ← innerJoin links ranks
  let reduced ← reducePair outsRank
  let ranks ← collapse reduced
  execute ranks
  pure ranks

/-- The first ranks are `links.Map(...)`, a node shared with `links`. -/
def pageRankJoinSelf (links : NodeId) (iterations : Nat) : DiaM NodeId :=
  loop (pageRankJoinIter links) iterations links

def pageRankJoin (links : NodeId) (iterations : Nat) : DiaM NodeId := do
  let ranks ← generate >>= collapse
  loop (pageRankJoinIter links) iterations ranks

/-! ## The four drivers -/

def runPageRankEdgePerLine (outputPath : String) (iterations : Nat) : DiaM Unit := do
  let input ← readLines
  keep input
  max input
  keep input
  sizeFuture input
  let links ← groupToIndex input >>= cache
  let ranks ← pageRank links iterations
  if outputPath.length ≠ 0 then zipWithIndex ranks >>= writeLines else execute ranks

def runJoinPageRankEdgePerLine (outputPath : String) (iterations : Nat) : DiaM Unit := do
  let input ← readLines
  let links ← groupByKey input >>= cache
  keepForever links
  let ranks ← pageRankJoinSelf links iterations
  if outputPath.length ≠ 0 then writeLines ranks else execute ranks

def runPageRankGenerated (outputPath : String) (iterations : Nat) : DiaM Unit := do
  let links ← generate >>= cache
  keep links
  sum links
  let ranks ← pageRank links iterations
  if outputPath.length ≠ 0 then zipWithIndex ranks >>= writeLines else execute ranks

def runPageRankJoinGenerated (outputPath : String) (iterations : Nat) : DiaM Unit := do
  let links ← generate >>= cache
  keepForever links
  let ranks ← pageRankJoin links iterations
  if outputPath.length ≠ 0 then writeLines ranks else execute ranks

/-! ## What one operation does -/

section Ops

variable {α : Type}

@[simp] theorem throw_bind {β : Type} (e : NodeId) (f : α → Except NodeId β) :
    (throw e >>= f) = throw e := rfl

theorem run_pull (s : Ledger) (n : NodeId) : (pull n).run s =
    match s[n]?.bind Budget.spend with
    | some b => pure ((), s.set n b)
    | none => throw n := rfl

@[simp] theorem run_newNode (s : Ledger) : newNode.run s = pure (s.length, s ++ [.reads 1]) :=
  rfl

theorem set_of_getElem? {l : List α} {i : Nat} {a : α} (h : l[i]? = some a) :
    l.set i a = l := by
  obtain ⟨hi, rfl⟩ := List.getElem?_eq_some_iff.1 h
  exact List.ext_getElem (by simp) fun j _ _ => by
    by_cases hij : i = j
    · subst hij; simp
    · simp [List.getElem_set_ne hij]

theorem set_concat_length (l : List α) (a c : α) : (l ++ [a]).set l.length c = l ++ [c] := by
  simp [List.set_append_right]

theorem lt_length_of_getElem? {l : List α} {i : Nat} {a : α} (h : l[i]? = some a) :
    i < l.length :=
  (List.getElem?_eq_some_iff.1 h).1

end Ops

/-! ## One pass of each loop -/

section Iter

variable {s : Ledger} {links ranks : NodeId} {k : Nat}

/-- A pass of `PageRank` reads `links` once. -/
theorem run_pageRankIter (hl : s[links]? = some (.reads (k + 1)))
    (hr : s[ranks]? = some (.reads 1)) (hne : links ≠ ranks) :
    (pageRankIter links ranks).run s = pure (s.length + 2,
      (s.set links (.reads k)).set ranks (.reads 0) ++ [.reads 0, .reads 0, .reads 1]) := by
  simp [pageRankIter, zip, derive, reduceToIndex, collapse, run_pull, hl, hr, hne,
    List.getElem?_set_ne, set_concat_length]

theorem run_pageRankIter_of_spent (hl : s[links]? = some (.reads 0)) :
    (pageRankIter links ranks).run s = throw links := by
  simp [pageRankIter, zip, derive, run_pull, hl]

/-- A pass of the join shapes leaves `links` unlimited and spends one read of the ranks,
which may be `links` itself. -/
theorem run_pageRankJoinIter {b b' : Budget} (hl : s[links]? = some .forever)
    (hr : s[ranks]? = some b) (hb : b.spend = some b') :
    (pageRankJoinIter links ranks).run s = pure (s.length + 2,
      s.set ranks b' ++ [.reads 0, .reads 0, .reads 1]) := by
  simp [pageRankJoinIter, innerJoin, derive, reducePair, collapse, execute, run_pull, hl, hr,
    hb, set_of_getElem?, set_concat_length]

end Iter

/-! ## Whole loops -/

/-- What a pass of `PageRank` needs: `links` has `k` reads left and the ranks are another
node, read once. -/
structure IndexInv (links : NodeId) (k : Nat) (s : Ledger) (ranks : NodeId) : Prop where
  links_reads : s[links]? = some (.reads k)
  ranks_reads : s[ranks]? = some (.reads 1)
  ne : links ≠ ranks

/-- What a pass of the join shapes needs: `links` is kept forever and the ranks can be
read. -/
structure JoinInv (links : NodeId) (s : Ledger) (ranks : NodeId) : Prop where
  links_forever : s[links]? = some .forever
  ranks_readable : s[ranks]? = some .forever ∨ s[ranks]? = some (.reads 1)

section Loop

variable {s : Ledger} {links ranks : NodeId} {k : Nat}

/-- The node a pass leaves as the ranks is its last, read once. -/
theorem getElem?_pass (t : Ledger) :
    (t ++ [.reads 0, .reads 0, .reads 1])[t.length + 2]? = some (.reads 1) := by
  rw [List.getElem?_append_right (by omega)]; simp

theorem IndexInv.iter (h : IndexInv links (k + 1) s ranks) :
    IndexInv links k ((s.set links (.reads k)).set ranks (.reads 0) ++
      [.reads 0, .reads 0, .reads 1]) (s.length + 2) := by
  have hl := lt_length_of_getElem? h.links_reads
  refine ⟨?_, by simpa using getElem?_pass ((s.set links (.reads k)).set ranks (.reads 0)),
    Nat.ne_of_lt (by omega)⟩
  rw [List.getElem?_append_left (by simpa using hl), List.getElem?_set_ne h.ne.symm,
    List.getElem?_set_self hl]

/-- With `k` reads of `links` left, `n ≤ k` passes of `PageRank` succeed. -/
theorem run_loop_pageRankIter {n : Nat} (hn : n ≤ k) (h : IndexInv links k s ranks) :
    ∃ r s', (loop (pageRankIter links) n ranks).run s = pure (r, s') ∧
      IndexInv links (k - n) s' r := by
  induction n generalizing k s ranks with
  | zero => exact ⟨ranks, s, rfl, h⟩
  | succ n ih =>
    obtain ⟨k, rfl⟩ : ∃ j, k = j + 1 := ⟨k - 1, by omega⟩
    obtain ⟨r, s', hrun, hinv⟩ := ih (by omega) h.iter
    refine ⟨r, s', ?_, by simpa using hinv⟩
    simp [loop, run_pageRankIter h.links_reads h.ranks_reads h.ne, hrun]

/-- With `k` reads of `links` left, pass `k + 1` reads it spent. -/
theorem run_loop_pageRankIter_of_lt {n : Nat} (hn : k < n) (h : IndexInv links k s ranks) :
    (loop (pageRankIter links) n ranks).run s = throw links := by
  induction n generalizing k s ranks with
  | zero => omega
  | succ n ih =>
    cases k with
    | zero => simp [loop, run_pageRankIter_of_spent h.links_reads]
    | succ k =>
      simp [loop, run_pageRankIter h.links_reads h.ranks_reads h.ne, ih (by omega) h.iter]

theorem JoinInv.iter (h : JoinInv links s ranks) :
    ∃ s', (pageRankJoinIter links ranks).run s = pure (s.length + 2, s') ∧
      JoinInv links s' (s.length + 2) := by
  obtain ⟨b, b', hr, hb, hlinks⟩ : ∃ b b', s[ranks]? = some b ∧ b.spend = some b' ∧
      (s.set ranks b')[links]? = some .forever := by
    rcases h.ranks_readable with hr | hr
    · exact ⟨_, _, hr, rfl, by rw [set_of_getElem? hr]; exact h.links_forever⟩
    · have hne : ranks ≠ links := by rintro rfl; simp [h.links_forever] at hr
      exact ⟨_, _, hr, rfl, by rw [List.getElem?_set_ne hne]; exact h.links_forever⟩
  refine ⟨_, run_pageRankJoinIter h.links_forever hr hb, ?_,
    .inr (by simpa using getElem?_pass (s.set ranks b'))⟩
  rw [List.getElem?_append_left (by simpa using lt_length_of_getElem? h.links_forever)]
  exact hlinks

/-- Every number of passes of the join shapes succeeds. -/
theorem run_loop_pageRankJoinIter (n : Nat) (h : JoinInv links s ranks) :
    ∃ r s', (loop (pageRankJoinIter links) n ranks).run s = pure (r, s') ∧
      JoinInv links s' r := by
  induction n generalizing s ranks with
  | zero => exact ⟨ranks, s, rfl, h⟩
  | succ n ih =>
    obtain ⟨s₁, hrun₁, hinv₁⟩ := h.iter
    obtain ⟨r, s', hrun, hinv⟩ := ih hinv₁
    exact ⟨r, s', by simp [loop, hrun₁, hrun], hinv⟩

end Loop

/-! ## The drivers -/

section Drivers

variable {s : Ledger} {r : NodeId}

theorem run_writeLines_or_execute (c : Prop) [Decidable c]
    (hr : s[r]? = some .forever ∨ s[r]? = some (.reads 1)) :
    ∃ s', (if c then writeLines r else execute r).run s = pure ((), s') := by
  split
  · rcases hr with hr | hr <;> simp [writeLines, run_pull, hr] <;> exact ⟨_, rfl⟩
  · exact ⟨s, rfl⟩

theorem run_zipWithIndex_or_execute (c : Prop) [Decidable c] (hr : s[r]? = some (.reads 1)) :
    ∃ s', (if c then zipWithIndex r >>= writeLines else execute r).run s = pure ((), s') := by
  split
  · simp [zipWithIndex, writeLines, derive, run_pull, hr, set_concat_length]
    exact ⟨_, rfl⟩
  · exact ⟨s, rfl⟩

/-- The index drivers after `links` is built: with one read of `links` left, the
loop and the output succeed exactly when there is at most one iteration. -/
theorem run_pageRank_output {links ranks : NodeId} (h : IndexInv links 1 s ranks) (c : Prop)
    [Decidable c] (iterations : Nat) :
    (do let r ← loop (pageRankIter links) iterations ranks
        if c then zipWithIndex r >>= writeLines else execute r).run' s =
      if iterations ≤ 1 then .ok () else .error links := by
  rw [StateT.run'_eq, StateT.run_bind]
  by_cases hit : iterations ≤ 1
  · obtain ⟨r, s', hloop, hinv⟩ := run_loop_pageRankIter hit h
    obtain ⟨s'', hout⟩ := run_zipWithIndex_or_execute c hinv.ranks_reads
    rw [if_pos hit, hloop, pure_bind, hout]; rfl
  · rw [if_neg hit, run_loop_pageRankIter_of_lt (by omega) h]; rfl

/-- The join drivers after `links` is built and kept forever: the loop and the output
succeed for every iteration count. -/
theorem run_pageRankJoin_output {links ranks : NodeId} (h : JoinInv links s ranks) (c : Prop)
    [Decidable c] (iterations : Nat) :
    (do let r ← loop (pageRankJoinIter links) iterations ranks
        if c then writeLines r else execute r).run' s = .ok () := by
  obtain ⟨r, s', hloop, hinv⟩ := run_loop_pageRankJoinIter iterations h
  obtain ⟨s'', hout⟩ := run_writeLines_or_execute c hinv.ranks_readable
  rw [StateT.run'_eq, StateT.run_bind, hloop, pure_bind, hout]; rfl

/-- Both index drivers read their cached `links` once per iteration with one read left:
`RunPageRankEdgePerLine` (links is node 2) never keeps it, `RunPageRankGenerated` (node 1)
spends its one `Keep()` on `Sum`. From the second iteration on, both fail. -/
theorem index_drivers_reread_links (outputPath : String) (iterations : Nat) :
    (runPageRankEdgePerLine outputPath iterations).run' [] =
      (if iterations ≤ 1 then .ok () else .error 2) ∧
    (runPageRankGenerated outputPath iterations).run' [] =
      (if iterations ≤ 1 then .ok () else .error 1) :=
  ⟨run_pageRank_output (s := [.reads 0, .reads 0, .reads 1, .reads 0, .reads 1])
      ⟨rfl, rfl, by decide⟩ (outputPath.length ≠ 0) iterations,
    run_pageRank_output (s := [.reads 0, .reads 1, .reads 0, .reads 1])
      ⟨rfl, rfl, by decide⟩ (outputPath.length ≠ 0) iterations⟩

/-- Counted per operator, `RunPageRankEdgePerLine` without an output path reads its cached
`links` (node 2) in its second pass, after the one read it had is spent. -/
theorem runPageRankEdgePerLine_rereads_links_second_pass :
    (runPageRankEdgePerLine "" 2).run' [] = .error 2 :=
  (index_drivers_reread_links "" 2).1

/-- The join drivers keep `links` forever after caching it, and every other node is read
once: they never read a spent collection. -/
theorem join_drivers_never_reread (outputPath : String) (iterations : Nat) :
    (runJoinPageRankEdgePerLine outputPath iterations).run' [] = .ok () ∧
    (runPageRankJoinGenerated outputPath iterations).run' [] = .ok () :=
  ⟨run_pageRankJoin_output (s := [.reads 0, .reads 0, .forever])
      ⟨rfl, .inl rfl⟩ (outputPath.length ≠ 0) iterations,
    run_pageRankJoin_output (s := [.reads 0, .forever, .reads 0, .reads 1])
      ⟨rfl, .inr rfl⟩ (outputPath.length ≠ 0) iterations⟩

end Drivers

end ThrillPageRank.Consume
