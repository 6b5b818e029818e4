import ThrillPageRank.Consume
/-!
# Read budgets when the engine pushes

Modelled from the spec (§4.1, §5, §9) and from where the drivers place `Keep()` and
`KeepForever()`: an operator only adds a node for its result to the dataflow graph; an
action (`Max`, `Sum`, `WriteLines`, `Execute()`, reading a `SizeFuture`) materializes a node:
the engine walks the graph from it once, executing every node not yet executed, parents first,
and never executes a node twice. An executed node holds its data until it pushes it; a push
hands the data to every child created so far and spends one read of the node's budget (one
read, one more per `Keep()`, unlimited after `KeepForever()`), and a node pushes again only
for a child created after its last push. This is the count the drivers' `Keep()` calls are
placed for: one before each eager `Max` or `Sum` that reads a collection used again later, and
`KeepForever()` only where `Execute()` runs inside a loop. Counted so, the index drivers read
their cached `links` once, in the one walk that runs the whole loop, and the join drivers,
whose loops call `Execute()` every pass, read it once per pass from the unlimited budget
`KeepForever()` gave it: all four drivers finish for every iteration count, with or without
an output path.
-/

namespace ThrillPageRank.Materialize

open Consume (Budget loop)

/-- Modelled from the spec: a node of the lazy dataflow graph. It holds its parents, what
is left of its read budget, whether it has been executed, and how far its last push
reached: the children numbered below `fedBelow` have its data. -/
structure Node where
  parents : List Nat
  budget : Budget
  executed : Bool
  fedBelow : Nat

/-- A node just created: not executed, one read, its data handed to no child. -/
def Node.fresh (parents : List Nat) : Node := ⟨parents, .reads 1, false, 0⟩

/-- Modelled from the spec: the graph built so far, how many nodes and each node's state. -/
structure Graph where
  size : Nat
  node : Nat → Node

namespace Graph

/-- No node yet. -/
def empty : Graph := ⟨0, fun _ => .fresh []⟩

/-- A fresh node over `parents` added as the last node. -/
def add (g : Graph) (parents : List Nat) : Graph :=
  ⟨g.size + 1, Function.update g.node g.size (.fresh parents)⟩

/-- Node `n` replaced by `x`. -/
def set (g : Graph) (n : Nat) (x : Node) : Graph := ⟨g.size, Function.update g.node n x⟩

@[simp] theorem size_empty : empty.size = 0 := rfl

@[simp] theorem node_empty (m : Nat) : empty.node m = .fresh [] := rfl

@[simp] theorem size_add (g : Graph) (ps : List Nat) : (g.add ps).size = g.size + 1 := rfl

@[simp] theorem node_add (g : Graph) (ps : List Nat) (m : Nat) :
    (g.add ps).node m = if m = g.size then .fresh ps else g.node m :=
  Function.update_apply _ _ _ _

@[simp] theorem size_set (g : Graph) (n : Nat) (x : Node) : (g.set n x).size = g.size := rfl

@[simp] theorem node_set (g : Graph) (n : Nat) (x : Node) (m : Nat) :
    (g.set n x).node m = if m = n then x else g.node m :=
  Function.update_apply _ _ _ _

end Graph

/-- Modelled from the spec: building the graph and running it; a failed run names the node
read after its budget was spent. -/
abbrev PushM := StateT Graph (Except Nat)

/-! ## The engine -/

/-- Modelled from the spec: an operator adds a node for its result and reads nothing; the
node is executed when an action needs it. -/
def op (parents : List Nat) : PushM Nat := fun g => pure (g.size, g.add parents)

/-- Modelled from the spec: `Keep()`, one read more. -/
def keep (n : Nat) : PushM Unit :=
  modify fun g => g.set n { g.node n with budget := (g.node n).budget.keep }

/-- Modelled from the spec: `KeepForever()`, reads without limit. -/
def keepForever (n : Nat) : PushM Unit :=
  modify fun g => g.set n { g.node n with budget := .forever }

/-- Modelled from the spec: node `p` hands its data to its child `c`. A child created
before `p`'s last push has it already; otherwise `p` pushes to every child created so
far, spending one read, and a spent budget is a UseAfterConsume. -/
def feed (p c : Nat) (g : Graph) : Except Nat Graph :=
  if c < (g.node p).fedBelow then .ok g
  else match (g.node p).budget.spend with
    | some b => .ok (g.set p { g.node p with budget := b, fedBelow := g.size })
    | none => .error p

/-- Node `n` marked executed. -/
def markExecuted (n : Nat) (g : Graph) : Graph := g.set n { g.node n with executed := true }

/-- Modelled from the spec: the walk that executes node `n`. Each parent is executed
first, unless it was already, and hands its data to `n`; then `n` runs. Parents are
numbered below their children, so fuel `n + 1` always suffices; running out of fuel
fails the walk, it never skips a read. -/
def materializeFuel : Nat → Nat → Graph → Except Nat Graph
  | 0, n, _ => .error n
  | fuel + 1, n, g =>
    if (g.node n).executed then .ok g
    else ((g.node n).parents.foldlM (fun g p => materializeFuel fuel p g >>= feed p n) g).map
      (markExecuted n)

/-- Modelled from the spec: an action's walk from node `n`. -/
def materialize (n : Nat) : PushM Unit := fun g => (materializeFuel (n + 1) n g).map ((), ·)

def readLines : PushM Nat := op []

def generate : PushM Nat := op []

def cache (a : Nat) : PushM Nat := op [a]

def collapse (a : Nat) : PushM Nat := op [a]

def groupToIndex (a : Nat) : PushM Nat := op [a]

def groupByKey (a : Nat) : PushM Nat := op [a]

def zip (a b : Nat) : PushM Nat := op [a, b]

def innerJoin (a b : Nat) : PushM Nat := op [a, b]

def reduceToIndex (a : Nat) : PushM Nat := op [a]

def reducePair (a : Nat) : PushM Nat := op [a]

def zipWithIndex (a : Nat) : PushM Nat := op [a]

/-- Modelled from the spec: `SizeFuture()` adds its node; reading the future materializes it. -/
def sizeFuture (a : Nat) : PushM Nat := op [a]

/-- Modelled from the spec: an action adds its node and materializes it at once. -/
def action (a : Nat) : PushM Unit := op [a] >>= materialize

def max (a : Nat) : PushM Unit := action a

def sum (a : Nat) : PushM Unit := action a

def writeLines (a : Nat) : PushM Unit := action a

/-- Modelled from the spec: `Execute()` materializes a node. -/
def execute (a : Nat) : PushM Unit := materialize a

/-! ## The three PageRank shapes and the four drivers -/

/-- One pass of `PageRank`'s loop; FlatMap is fused into ReduceToIndex, Map into
Collapse. -/
def pageRankIter (links ranks : Nat) : PushM Nat := do
  let outsRank ← zip links ranks
  let reduced ← reduceToIndex outsRank
  collapse reduced

def pageRank (links : Nat) (iterations : Nat) : PushM Nat := do
  let ranks ← generate >>= collapse
  loop (pageRankIter links) iterations ranks

/-- One pass of the loop of `PageRankJoinSelf` and `PageRankJoin`, which ends with
`ranks.Execute()`. -/
def pageRankJoinIter (links ranks : Nat) : PushM Nat := do
  let outsRank ← innerJoin links ranks
  let reduced ← reducePair outsRank
  let ranks ← collapse reduced
  execute ranks
  pure ranks

/-- The first ranks are `links.Map(...)`, a node shared with `links`. -/
def pageRankJoinSelf (links : Nat) (iterations : Nat) : PushM Nat :=
  loop (pageRankJoinIter links) iterations links

def pageRankJoin (links : Nat) (iterations : Nat) : PushM Nat := do
  let ranks ← generate >>= collapse
  loop (pageRankJoinIter links) iterations ranks

def runPageRankEdgePerLine (outputPath : String) (iterations : Nat) : PushM Unit := do
  let input ← readLines
  keep input
  max input
  keep input
  let numberEdges ← sizeFuture input
  let links ← groupToIndex input >>= cache
  let ranks ← pageRank links iterations
  if outputPath.length ≠ 0 then zipWithIndex ranks >>= writeLines else execute ranks
  materialize numberEdges

def runJoinPageRankEdgePerLine (outputPath : String) (iterations : Nat) : PushM Unit := do
  let input ← readLines
  let links ← groupByKey input >>= cache
  keepForever links
  let ranks ← pageRankJoinSelf links iterations
  if outputPath.length ≠ 0 then writeLines ranks else execute ranks

def runPageRankGenerated (outputPath : String) (iterations : Nat) : PushM Unit := do
  let links ← generate >>= cache
  keep links
  sum links
  let ranks ← pageRank links iterations
  if outputPath.length ≠ 0 then zipWithIndex ranks >>= writeLines else execute ranks

def runPageRankJoinGenerated (outputPath : String) (iterations : Nat) : PushM Unit := do
  let links ← generate >>= cache
  keepForever links
  let ranks ← pageRankJoin links iterations
  if outputPath.length ≠ 0 then writeLines ranks else execute ranks

/-! ## Evaluating the engine -/

section Eval

variable {α β : Type}

@[simp] theorem bind_apply (x : PushM α) (f : α → PushM β) (g : Graph) :
    (x >>= f) g = x g >>= fun p => f p.1 p.2 := rfl

@[simp] theorem pure_apply (a : α) (g : Graph) : (pure a : PushM α) g = .ok (a, g) := rfl

@[simp] theorem map_apply (f : α → β) (x : PushM α) (g : Graph) :
    (f <$> x) g = x g >>= fun p => .ok (f p.1, p.2) := rfl

@[simp] theorem except_pure (a : α) : (pure a : Except Nat α) = .ok a := rfl

@[simp] theorem ok_bind (a : α) (f : α → Except Nat β) : (Except.ok a >>= f) = f a := rfl

@[simp] theorem map_ok (f : α → β) (a : α) : (Except.ok a : Except Nat α).map f = .ok (f a) :=
  rfl

@[simp] theorem op_apply (ps : List Nat) (g : Graph) : op ps g = .ok (g.size, g.add ps) := rfl

@[simp] theorem keep_apply (n : Nat) (g : Graph) :
    keep n g = .ok ((), g.set n { g.node n with budget := (g.node n).budget.keep }) := rfl

@[simp] theorem keepForever_apply (n : Nat) (g : Graph) :
    keepForever n g = .ok ((), g.set n { g.node n with budget := .forever }) := rfl

@[simp] theorem materialize_apply (n : Nat) (g : Graph) :
    materialize n g = (materializeFuel (n + 1) n g).map ((), ·) := rfl

theorem run'_apply (x : PushM α) (g : Graph) : x.run' g = (x g).map Prod.fst := rfl

end Eval

/-! ## What one step of a walk does -/

/-- A node that has run and has not pushed yet. -/
def Node.ran (parents : List Nat) : Node := ⟨parents, .reads 1, true, 0⟩

@[simp] theorem Node.executed_fresh (ps : List Nat) : (Node.fresh ps).executed = false := rfl

@[simp] theorem Node.parents_fresh (ps : List Nat) : (Node.fresh ps).parents = ps := rfl

section Walk

variable {g g' g₁ g₂ g₃ g₄ gA gB : Graph} {L n p q r c lo hi lo' hi' fuel : Nat}
  {ps : List Nat}

@[simp] theorem size_markExecuted (n : Nat) (g : Graph) : (markExecuted n g).size = g.size :=
  rfl

@[simp] theorem node_markExecuted (n : Nat) (g : Graph) (m : Nat) :
    (markExecuted n g).node m = if m = n then { g.node n with executed := true } else g.node m :=
  Graph.node_set _ _ _ _

theorem node_markExecuted_fresh (ps : List Nat) (h : g.node n = .fresh ps) :
    (markExecuted n g).node n = .ran ps := by
  rw [node_markExecuted, if_pos rfl, h]
  rfl

/-- `g'` has as many nodes as `g`, and the same nodes outside `lo..hi`. -/
structure Frame (lo hi : Nat) (g g' : Graph) : Prop where
  size_eq : g'.size = g.size
  node_eq : ∀ m, m < lo ∨ hi < m → g'.node m = g.node m

theorem Frame.refl (lo hi : Nat) (g : Graph) : Frame lo hi g g := ⟨rfl, fun _ _ => rfl⟩

theorem Frame.trans (h₁ : Frame lo hi g₁ g₂) (h₂ : Frame lo hi g₂ g₃) : Frame lo hi g₁ g₃ :=
  ⟨h₂.size_eq.trans h₁.size_eq, fun m hm => (h₂.node_eq m hm).trans (h₁.node_eq m hm)⟩

theorem Frame.mono (h : Frame lo hi g g') (hlo : lo' ≤ lo) (hhi : hi ≤ hi') :
    Frame lo' hi' g g' :=
  ⟨h.size_eq, fun m hm => h.node_eq m (by omega)⟩

theorem frame_set (hlo : lo ≤ n) (hhi : n ≤ hi) (x : Node) : Frame lo hi g (g.set n x) :=
  ⟨rfl, fun m hm => by rw [Graph.node_set, if_neg (by omega)]⟩

/-- A child created before the parent's last push has its data already. -/
theorem feed_of_lt (h : c < (g.node p).fedBelow) : feed p c g = .ok g := if_pos h

/-- Otherwise the parent pushes, spending one read. -/
theorem feed_of_le {b : Budget} (h : (g.node p).fedBelow ≤ c)
    (hb : (g.node p).budget.spend = some b) :
    feed p c g = .ok (g.set p { g.node p with budget := b, fedBelow := g.size }) := by
  rw [feed, if_neg (Nat.not_lt.2 h), hb]

/-- A parent that has run and not pushed pushes now, spending its one read. -/
theorem feed_ran (h : g.node p = .ran ps) :
    feed p c g = .ok (g.set p ⟨ps, .reads 0, true, g.size⟩) := by
  simp [feed, h, Node.ran]

/-- A parent that reads without limit always pushes. -/
theorem feed_forever (hb : (g.node p).budget = .forever) :
    ∃ g', feed p c g = .ok g' ∧ Frame p p g g' ∧ (g'.node p).executed = (g.node p).executed ∧
      (g'.node p).budget = .forever := by
  unfold feed
  split
  · exact ⟨g, rfl, .refl _ _ _, rfl, hb⟩
  · rw [hb]
    exact ⟨_, rfl, frame_set le_rfl le_rfl _, by simp, by simp⟩

/-- A node that has run is not run again. -/
theorem materializeFuel_of_executed (h : (g.node n).executed = true) :
    materializeFuel (fuel + 1) n g = .ok g := if_pos h

/-- A node over no parent runs at once. -/
theorem materializeFuel_nil (hx : (g.node n).executed = false) (hp : (g.node n).parents = []) :
    materializeFuel (fuel + 1) n g = .ok (markExecuted n g) := by
  simp [materializeFuel, hx, hp]

/-- A node over one parent: the parent's walk, its push, then the node runs. -/
theorem materializeFuel_one (hx : (g.node n).executed = false) (hp : (g.node n).parents = [p])
    (h₁ : materializeFuel fuel p g = .ok g₁) (h₂ : feed p n g₁ = .ok g₂) :
    materializeFuel (fuel + 1) n g = .ok (markExecuted n g₂) := by
  simp [materializeFuel, hx, hp, h₁, h₂]

/-- A node over two parents walks and is fed by each in turn, then runs. -/
theorem materializeFuel_two (hx : (g.node n).executed = false)
    (hp : (g.node n).parents = [p, q]) (h₁ : materializeFuel fuel p g = .ok g₁)
    (h₂ : feed p n g₁ = .ok g₂) (h₃ : materializeFuel fuel q g₂ = .ok g₃)
    (h₄ : feed q n g₃ = .ok g₄) :
    materializeFuel (fuel + 1) n g = .ok (markExecuted n g₄) := by
  simp [materializeFuel, hx, hp, h₁, h₂, h₃, h₄]

/-- One pass of a PageRank loop, walked from its new ranks `r + 3`: the zip or join `r + 1` of
`links` and the ranks `r`, its reduce `r + 2` and its collapse `r + 3`. Once `links` and the
ranks have been walked and have handed their data to `r + 1`, the three run in turn, each
pushing its one read to the next. -/
theorem materializeFuel_pass (hz : g.node (r + 1) = .fresh [L, r])
    (hd : g.node (r + 2) = .fresh [r + 1]) (hc : g.node (r + 3) = .fresh [r + 2])
    (hL : materializeFuel (r + 1) L g = .ok gA) (hLz : feed L (r + 1) gA = .ok gB)
    (hr : materializeFuel (r + 1) r gB = .ok g₁) (hrz : feed r (r + 1) g₁ = .ok g₂)
    (hF : Frame 0 r g g₂) :
    ∃ g', materializeFuel (r + 4) (r + 3) g = .ok g' ∧ Frame (r + 1) (r + 3) g₂ g' ∧
      g'.node (r + 3) = .ran [r + 2] := by
  have hz₂ := (hF.node_eq (r + 1) (by omega)).trans hz
  have hd₂ := (hF.node_eq (r + 2) (by omega)).trans hd
  have hc₂ := (hF.node_eq (r + 3) (by omega)).trans hc
  have h₁ := materializeFuel_two (n := r + 1) (by simp [hz]) (by simp [hz]) hL hLz hr hrz
  have h₂ := materializeFuel_one (n := r + 2) (by simp [hd]) (by simp [hd]) h₁
    (feed_ran (node_markExecuted_fresh _ hz₂))
  have h₃ := materializeFuel_one (n := r + 3) (by simp [hc]) (by simp [hc]) h₂
    (feed_ran (node_markExecuted_fresh [r + 1] (by simp [hd₂])))
  exact ⟨_, h₃, ⟨rfl, fun m hm => by simp (disch := omega) only [node_markExecuted,
    Graph.node_set, if_neg]⟩, node_markExecuted_fresh _ (by simp [hc₂])⟩

/-- Walking node `r` succeeds; afterwards `r` has run and not pushed, and only the nodes
`lo..r` have changed. -/
def Walks (lo r : Nat) (g : Graph) : Prop :=
  ∃ g' ps, materializeFuel (r + 1) r g = .ok g' ∧ Frame lo r g g' ∧ g'.node r = .ran ps

/-- The first ranks, a collapse over a generator. -/
theorem walks_first (hgen : g.node n = .fresh []) (hr : g.node (n + 1) = .fresh [n]) :
    Walks n (n + 1) g :=
  ⟨_, _, materializeFuel_one (n := n + 1) (by simp [hr]) (by simp [hr])
      (materializeFuel_nil (by simp [hgen]) (by simp [hgen]))
      (feed_ran (node_markExecuted_fresh _ hgen)),
    ⟨rfl, fun m hm => by simp (disch := omega) only [node_markExecuted, Graph.node_set, if_neg]⟩,
    node_markExecuted_fresh [n] (by simp [hr])⟩

end Walk

/-! ## The index loop: one walk runs every pass -/

section IndexLoop

variable {g g' : Graph} {L r t lo : Nat}

/-- The three nodes of one pass over the ranks `r`, all fresh. -/
def Pass (g : Graph) (links r : Nat) : Prop :=
  g.node (r + 1) = .fresh [links, r] ∧ g.node (r + 2) = .fresh [r + 1] ∧
    g.node (r + 3) = .fresh [r + 2]

/-- The `t` passes a PageRank loop adds over its first ranks `r`. -/
def Chain (g : Graph) (links r t : Nat) : Prop := ∀ k < t, Pass g links (r + 3 * k)

/-- A graph that has kept every node from `r` on has kept the chain over `r`. -/
theorem Chain.of_frame {lo hi : Nat} (h : Chain g L r t) (hF : Frame lo hi g g') (hhi : hi ≤ r) :
    Chain g' L r t := fun k hk => by
  obtain ⟨hz, hd, hc⟩ := h k hk
  exact ⟨(hF.node_eq _ (by omega)).trans hz, (hF.node_eq _ (by omega)).trans hd,
    (hF.node_eq _ (by omega)).trans hc⟩

/-- Adding a node keeps the chain below it. -/
theorem Chain.add (h : Chain g L r t) (hs : r + 3 * t < g.size) (ps : List Nat) :
    Chain (g.add ps) L r t := fun k hk => by
  obtain ⟨hz, hd, hc⟩ := h k hk
  exact ⟨by simp [hz, show r + 3 * k + 1 ≠ g.size by omega],
    by simp [hd, show r + 3 * k + 2 ≠ g.size by omega],
    by simp [hc, show r + 3 * k + 3 ≠ g.size by omega]⟩

/-- Walking the passes of an index loop: when its first ranks `r` walk, so do the ranks of
every pass. `links` has run and its last push reached every zip, so no pass reads it. -/
theorem walks_chain (hx : (g.node L).executed = true) (hlo : lo ≤ r)
    (hch : Chain g L r t) (hfed : r + 3 * t < (g.node L).fedBelow) (h₀ : Walks lo r g) :
    Walks lo (r + 3 * t) g := by
  induction t with
  | zero => exact h₀
  | succ t ih =>
    obtain ⟨g₁, ps, hr, hF, hran⟩ := ih (fun k hk => hch k (by omega)) (by omega)
    obtain ⟨hz, hd, hc⟩ := hch t (by omega)
    have hF₂ := hF.trans (frame_set (by omega) le_rfl ⟨ps, .reads 0, true, g₁.size⟩)
    obtain ⟨g', hw, hF', hran'⟩ := materializeFuel_pass hz hd hc
      (materializeFuel_of_executed hx) (feed_of_lt (by omega)) hr (feed_ran hran)
      (hF₂.mono (Nat.zero_le _) le_rfl)
    rw [show r + 3 * (t + 1) = r + 3 * t + 3 by omega]
    exact ⟨g', _, hw, (hF₂.mono le_rfl (by omega)).trans (hF'.mono (by omega) le_rfl), hran'⟩

theorem pageRankIter_apply (hs : g.size = r + 1) :
    pageRankIter L r g = .ok (r + 3, ((g.add [L, r]).add [r + 1]).add [r + 2]) := by
  simp [pageRankIter, zip, reduceToIndex, collapse, hs]

/-- `PageRank`'s loop only adds nodes: after `t` passes over the ranks `r`, the last node, its
passes stand fresh over `r` and nothing below has changed. -/
theorem loop_pageRankIter (L : Nat) :
    ∀ t r (g : Graph), g.size = r + 1 → ∃ g', loop (pageRankIter L) t r g = .ok (r + 3 * t, g') ∧
      g'.size = r + 3 * t + 1 ∧ (∀ m ≤ r, g'.node m = g.node m) ∧ Chain g' L r t
  | 0, r, g, hs => ⟨g, rfl, hs, fun _ _ => rfl, fun _ h => absurd h (Nat.not_lt_zero _)⟩
  | t + 1, r, g, hs => by
    obtain ⟨g', hloop, hs', hnode, hch⟩ :=
      loop_pageRankIter L t (r + 3) (((g.add [L, r]).add [r + 1]).add [r + 2]) (by simp [hs])
    refine ⟨g', ?_, by rw [hs']; omega, fun m hm => by
      simp (disch := omega) only [hnode m (by omega), Graph.node_add, Graph.size_add, hs, if_neg],
      fun k hk => ?_⟩
    · rw [show r + 3 * (t + 1) = r + 3 + 3 * t by omega, ← hloop]
      simp [loop, pageRankIter_apply hs]
    · cases k with
      | zero => simp [Pass, hnode, hs]
      | succ k => simpa [show r + 3 * (k + 1) = r + 3 + 3 * k by omega] using hch k (by omega)

end IndexLoop

/-! ## The join loop: each pass walks its own ranks -/

section JoinLoop

variable {g : Graph} {L r : Nat}

/-- Between two passes of a join loop: `links` has run and reads without limit, and the ranks
`r`, the last node, have run and not pushed. -/
structure JoinInv (g : Graph) (links r : Nat) : Prop where
  links_executed : (g.node links).executed = true
  links_forever : (g.node links).budget = .forever
  links_lt : links < r
  size_eq : g.size = r + 1
  ranks_ran : ∃ ps, g.node r = .ran ps

theorem pageRankJoinIter_of_walk {g' : Graph} (hs : g.size = r + 1)
    (hw : materializeFuel (r + 4) (r + 3) (((g.add [L, r]).add [r + 1]).add [r + 2]) = .ok g') :
    pageRankJoinIter L r g = .ok (r + 3, g') := by
  simp_arith [pageRankJoinIter, innerJoin, reducePair, collapse, execute, hs, hw]

/-- One pass of a join loop keeps the invariant: `links` pushes to the join from its unlimited
budget, the ranks spend their one read on it, and the pass's `Execute()` runs the join, the
reduce and the new ranks. -/
theorem pageRankJoinIter_joinInv (h : JoinInv g L r) :
    ∃ g', pageRankJoinIter L r g = .ok (r + 3, g') ∧ JoinInv g' L (r + 3) := by
  obtain ⟨hx, hb, hlt, hs, ps, hran⟩ := h
  have hold : ∀ m ≤ r, (((g.add [L, r]).add [r + 1]).add [r + 2]).node m = g.node m :=
    fun m hm => by simp (disch := omega) only [Graph.node_add, Graph.size_add, hs, if_neg]
  obtain ⟨gB, hLz, hFB, hxB, hbB⟩ := feed_forever (c := r + 1)
    (by rw [hold L hlt.le]; exact hb)
  have hrB : gB.node r = .ran ps := (hFB.node_eq r (by omega)).trans ((hold r le_rfl).trans hran)
  obtain ⟨g', hw, hF', hran'⟩ := materializeFuel_pass (by simp [hs]) (by simp [hs])
    (by simp [hs]) (materializeFuel_of_executed (by rw [hold L hlt.le]; exact hx)) hLz
    (materializeFuel_of_executed (by simp [hrB, Node.ran])) (feed_ran hrB)
    ((hFB.mono (Nat.zero_le _) hlt.le).trans (frame_set (Nat.zero_le _) le_rfl _))
  have hL : g'.node L = gB.node L := by
    rw [hF'.node_eq L (by omega), Graph.node_set, if_neg (by omega)]
  exact ⟨g', pageRankJoinIter_of_walk hs hw,
    ⟨by rw [hL, hxB, hold L hlt.le, hx], by rw [hL, hbB], by omega,
      by rw [hF'.size_eq]; simp [hFB.size_eq, hs], _, hran'⟩⟩

/-- A join loop keeps the invariant over any number of passes. -/
theorem loop_pageRankJoinIter :
    ∀ t r (g : Graph), JoinInv g L r →
      ∃ r' g', loop (pageRankJoinIter L) t r g = .ok (r', g') ∧ JoinInv g' L r'
  | 0, r, g, h => ⟨r, g, rfl, h⟩
  | t + 1, r, g, h => by
    obtain ⟨g₁, h₁, hinv⟩ := pageRankJoinIter_joinInv h
    obtain ⟨r', g', hloop, hinv'⟩ := loop_pageRankJoinIter t (r + 3) g₁ hinv
    exact ⟨r', g', by simp [loop, h₁, hloop], hinv'⟩

end JoinLoop

/-! ## The ends of the drivers -/

section Ends

variable {g g' gA gB x : Graph} {L r t gen : Nat} {ps : List Nat}

/-- A push succeeds or fails on the parent's node alone. -/
theorem feed_congr {g₁ g₂ : Graph} {p c : Nat} (h : g₂.node p = g₁.node p)
    (hf : ∃ y, feed p c g₁ = .ok y) : ∃ y, feed p c g₂ = .ok y := by
  obtain ⟨y, hy⟩ := hf
  unfold feed at hy ⊢
  rw [h]
  by_cases hc : c < (g₁.node p).fedBelow
  · simp [hc]
  · cases hb : (g₁.node p).budget.spend <;> simp [hc, hb] at hy ⊢

/-- The walk of `WriteLines` after `ZipWithIndex` on the ranks `r`, the last node: it runs the
ranks, then the two nodes over them. -/
theorem materializeFuel_output (hs : g.size = r + 1)
    (hw : materializeFuel (r + 1) r ((g.add [r]).add [r + 1]) = .ok g')
    (hF : Frame 0 r ((g.add [r]).add [r + 1]) g') (hran : g'.node r = .ran ps) :
    ∃ gF, materializeFuel (r + 1 + 1 + 1) (r + 1 + 1) ((g.add [r]).add [r + 1]) = .ok gF ∧
      Frame r (r + 2) g' gF := by
  have h₁ : g'.node (r + 1) = .fresh [r] := (hF.node_eq _ (by omega)).trans (by simp [hs])
  have hw₁ := materializeFuel_one (n := r + 1) (by simp [hs]) (by simp [hs]) hw (feed_ran hran)
  exact ⟨_, materializeFuel_one (n := r + 1 + 1) (by simp [hs]) (by simp [hs]) hw₁
    (feed_ran (node_markExecuted_fresh [r] (by simp [h₁]))), by simp, fun m hm => by
    simp (disch := omega) only [node_markExecuted, Graph.node_set, if_neg]⟩

/-- The output of a join driver after its loop: the ranks have run, so `Execute()` walks
nothing, and `WriteLines` runs its one node over them. -/
theorem output_joinInv (h : JoinInv g L r) (o : String) :
    ∃ gF, (if o.length = 0 then execute r else writeLines r) g = .ok ((), gF) := by
  obtain ⟨ps, hran⟩ := h.ranks_ran
  have hx : (g.node r).executed = true := by simp [hran, Node.ran]
  split
  · exact ⟨g, by simp [execute, materializeFuel_of_executed hx]⟩
  · have hrun : writeLines r g =
        (materializeFuel (r + 1 + 1) (r + 1) (g.add [r])).map ((), ·) := by
      simp [writeLines, action, h.size_eq]
    rw [hrun, materializeFuel_one (n := r + 1) (p := r) (g := g.add [r]) (by simp [h.size_eq])
      (by simp [h.size_eq]) (materializeFuel_of_executed (by simp [h.size_eq, hx]))
      (feed_ran ((by simp [h.size_eq] : (g.add [r]).node r = g.node r).trans hran))]
    exact ⟨_, rfl⟩

/-- The last walk of an index driver with at least one pass, from the ranks `R` of its last
pass: the last pass's zip walks `links` first, which then pushes once, reaching every zip; the
passes then run from the first ranks on, none of them reading `links` again. -/
theorem walks_index_ranks (hgen : g.node gen = .fresh []) (hr0 : g.node (gen + 1) = .fresh [gen])
    (hch : Chain g L (gen + 1) (t + 1)) (hLgen : L < gen) (hs : gen + 3 * t + 4 < g.size)
    (hL : ∀ fuel, L < fuel → materializeFuel fuel L g = .ok gA)
    (hLz : ∀ z, gen < z → feed L z gA = .ok gB) (hB : Frame 0 L g gB)
    (hxB : (gB.node L).executed = true) (hfB : g.size ≤ (gB.node L).fedBelow)
    (R : Nat) (hR : R = gen + 1 + 3 * (t + 1)) :
    ∃ g', materializeFuel (R + 1) R g = .ok g' ∧ Frame 0 R g g' ∧ g'.node R = .ran [R - 1] ∧
      ∀ m < gen, g'.node m = gB.node m := by
  obtain ⟨g₁, ps, hr, hF₁, hran⟩ : Walks gen (gen + 1 + 3 * t) gB := walks_chain hxB (by omega)
    (fun k hk => hch.of_frame hB (by omega) k (by omega)) (by omega)
    (walks_first ((hB.node_eq _ (by omega)).trans hgen) ((hB.node_eq _ (by omega)).trans hr0))
  obtain ⟨hz, hd, hc⟩ := hch t (by omega)
  have hF₂ := hF₁.trans (frame_set (by omega) le_rfl ⟨ps, .reads 0, true, g₁.size⟩)
  obtain ⟨g', hw, hF', hran'⟩ := materializeFuel_pass hz hd hc (hL _ (by omega))
    (hLz _ (by omega)) hr (feed_ran hran)
    ((hB.mono le_rfl (by omega)).trans (hF₂.mono (Nat.zero_le _) le_rfl))
  subst hR
  rw [show gen + 1 + 3 * (t + 1) = gen + 1 + 3 * t + 3 by omega]
  refine ⟨g', hw, ((hB.mono le_rfl (by omega)).trans (hF₂.mono (Nat.zero_le _) (by omega))).trans
    (hF'.mono (Nat.zero_le _) le_rfl), by rw [hran']; rfl, fun m hm => ?_⟩
  rw [hF'.node_eq m (by omega), hF₂.node_eq m (by omega)]

/-- `RunPageRankEdgePerLine`'s last walk of its ranks, from any graph holding what its prefix
and its loop built: the input (node 0), which has run for `Max` and holds two reads; the
`SizeFuture` (node 2), `GroupToIndex` (node 3) and cached `links` (node 4) over it; the
generator and the first ranks (nodes 5 and 6), and the passes over them. Afterwards the input
can still push to the `SizeFuture`. -/
theorem walks_edgePerLine_ranks (h0 : g.node 0 = ⟨[], .reads 2, true, 2⟩)
    (h2 : g.node 2 = .fresh [0]) (h3 : g.node 3 = .fresh [0]) (h4 : g.node 4 = .fresh [3])
    (h5 : g.node 5 = .fresh []) (h6 : g.node 6 = .fresh [5]) (hch : Chain g 4 6 t)
    (hs : 6 + 3 * t < g.size) :
    ∃ g' ps, materializeFuel (6 + 3 * t + 1) (6 + 3 * t) g = .ok g' ∧
      Frame 0 (6 + 3 * t) g g' ∧ g'.node (6 + 3 * t) = .ran ps ∧
      (g'.node 0).executed = true ∧ g'.node 2 = .fresh [0] ∧ ∃ y, feed 0 2 g' = .ok y := by
  cases t with
  | zero =>
    obtain ⟨g', ps, hw, hF, hran⟩ := walks_first h5 h6
    have h0' : g'.node 0 = _ := (hF.node_eq 0 (by omega)).trans h0
    exact ⟨g', ps, hw, hF.mono (Nat.zero_le _) le_rfl, hran, by rw [h0'],
      (hF.node_eq 2 (by omega)).trans h2, _, feed_of_le (by rw [h0']) (by rw [h0']; rfl)⟩
  | succ t =>
    have hα : feed 0 3 g = .ok (g.set 0 ⟨[], .reads 1, true, g.size⟩) := by simp [feed, h0]
    have hβ : ∀ fuel, 4 < fuel → materializeFuel fuel 4 g =
        .ok (markExecuted 4 ((markExecuted 3 (g.set 0 ⟨[], .reads 1, true, g.size⟩)).set 3
          ⟨[0], .reads 0, true, g.size⟩)) := fun fuel hf => by
      obtain ⟨f, rfl⟩ : ∃ f, fuel = f + 3 := ⟨fuel - 3, by omega⟩
      exact materializeFuel_one (n := 4) (by simp [h4]) (by simp [h4])
        (materializeFuel_one (n := 3) (by simp [h3]) (by simp [h3])
          (materializeFuel_of_executed (by simp [h0])) hα)
        (feed_ran (node_markExecuted_fresh [0] (by simp [h3])))
    obtain ⟨g', hw, hF, hran, hlow⟩ := walks_index_ranks h5 h6 hch (by omega) (by omega) hβ
      (fun _ _ => feed_ran (node_markExecuted_fresh [3] (by simp [h4])))
      ⟨by simp, fun m hm => by simp (disch := omega) only [node_markExecuted, Graph.node_set,
        if_neg]⟩
      (by simp) (by simp) _ rfl
    have h0' : g'.node 0 = _ := hlow 0 (by omega)
    refine ⟨g', _, hw, hF, hran, by simp [h0'], by simp [hlow 2 (by omega), h2], ?_⟩
    exact ⟨_, feed_of_lt (by simp [h0']; omega)⟩

/-- The end of an index loop: `t` passes over the ranks `r`, then the rest of the driver. -/
theorem map_fst_loop_index {k : Nat × Graph → Except Nat (Unit × Graph)}
    (hs : g.size = r + 1)
    (hk : ∀ gC, gC.size = r + 3 * t + 1 → (∀ m ≤ r, gC.node m = g.node m) → Chain gC L r t →
      ∃ gF, k (r + 3 * t, gC) = .ok ((), gF)) :
    Except.map Prod.fst (loop (pageRankIter L) t r g >>= k) = .ok () := by
  obtain ⟨gC, hloop, hsC, hold, hch⟩ := loop_pageRankIter L t r g hs
  obtain ⟨gF, hF⟩ := hk gC hsC hold hch
  simp [hloop, hF]

/-- `RunPageRankGenerated`'s last walk of its ranks, from any graph holding what its prefix and
its loop built: `links` (node 1), which has run for `Sum` and holds one read, the generator and
the first ranks (nodes 3 and 4), and the passes over them. -/
theorem walks_generated_ranks (h1 : g.node 1 = ⟨[0], .reads 1, true, 3⟩)
    (h3 : g.node 3 = .fresh []) (h4 : g.node 4 = .fresh [3]) (hch : Chain g 1 4 t)
    (hs : 4 + 3 * t < g.size) :
    ∃ g' ps, materializeFuel (4 + 3 * t + 1) (4 + 3 * t) g = .ok g' ∧
      Frame 0 (4 + 3 * t) g g' ∧ g'.node (4 + 3 * t) = .ran ps := by
  cases t with
  | zero =>
    obtain ⟨g', ps, hw, hF, hran⟩ := walks_first h3 h4
    exact ⟨g', ps, hw, hF.mono (Nat.zero_le _) le_rfl, hran⟩
  | succ t =>
    obtain ⟨g', hw, hF, hran, -⟩ := walks_index_ranks h3 h4 hch (by omega) (by omega)
      (fun fuel hf => by
        obtain ⟨f, rfl⟩ : ∃ f, fuel = f + 1 := ⟨fuel - 1, by omega⟩
        exact materializeFuel_of_executed (by simp [h1]))
      (fun z hz => feed_of_le (b := .reads 0) (by simp [h1]; omega) (by rw [h1]; rfl))
      (frame_set (Nat.zero_le _) le_rfl _) (by simp [h1]) (by simp) _ rfl
    exact ⟨g', _, hw, hF, hran⟩

/-- The end of a join loop: its first pass has left the invariant, and the rest of the driver
runs on any graph that keeps it. -/
theorem map_fst_loop_join {k : Nat × Graph → Except Nat (Unit × Graph)} (h : JoinInv g L r)
    (hk : ∀ r' gJ, JoinInv gJ L r' → ∃ gF, k (r', gJ) = .ok ((), gF)) (t : Nat) :
    Except.map Prod.fst (loop (pageRankJoinIter L) t r g >>= k) = .ok () := by
  obtain ⟨r', gJ, hloop, hJ⟩ := loop_pageRankJoinIter t r g h
  obtain ⟨gF, hF⟩ := hk r' gJ hJ
  simp [hloop, hF]

end Ends

/-! ## Every driver runs to its end -/

theorem runPageRankEdgePerLine_ok (outputPath : String) (iterations : Nat) :
    (runPageRankEdgePerLine outputPath iterations).run' Graph.empty = .ok () := by
  rw [run'_apply]
  simp [runPageRankEdgePerLine, pageRank, readLines, generate, cache, collapse, groupToIndex,
    sizeFuture, Materialize.max, action, materializeFuel, feed, markExecuted, Node.fresh,
    Budget.keep]
  refine map_fst_loop_index (by simp) fun gC hsC hold hch => ?_
  have h0 : gC.node 0 = ⟨[], .reads 2, true, 2⟩ := by simp [hold]
  have h2 : gC.node 2 = .fresh [0] := by simp [hold, Node.fresh]
  have h3 : gC.node 3 = .fresh [0] := by simp [hold, Node.fresh]
  have h4 : gC.node 4 = .fresh [3] := by simp [hold, Node.fresh]
  have h5 : gC.node 5 = .fresh [] := by simp [hold, Node.fresh]
  have h6 : gC.node 6 = .fresh [5] := by simp [hold, Node.fresh]
  simp only []
  split
  · obtain ⟨g', ps, hw, -, -, hx, h2', y, hy⟩ :=
      walks_edgePerLine_ranks h0 h2 h3 h4 h5 h6 hch (by omega)
    apply Exists.intro
    simp only [bind_apply, execute, materialize_apply, hw, map_ok, ok_bind]
    rw [materializeFuel_one (n := 2) (p := 0) (by simp [h2']) (by simp [h2'])
      (materializeFuel_of_executed hx) hy]
    rfl
  · have hplus : ∀ m ≤ 6, ((gC.add [6 + 3 * iterations]).add [6 + 3 * iterations + 1]).node m =
        gC.node m := fun m hm => by
      simp (disch := omega) only [Graph.node_add, Graph.size_add, hsC, if_neg]
    obtain ⟨g', ps, hw, hF, hran, hx, h2', hy⟩ := walks_edgePerLine_ranks
      ((hplus 0 (by omega)).trans h0) ((hplus 2 (by omega)).trans h2)
      ((hplus 3 (by omega)).trans h3) ((hplus 4 (by omega)).trans h4)
      ((hplus 5 (by omega)).trans h5) ((hplus 6 (by omega)).trans h6)
      ((hch.add (by omega) _).add (by simp only [Graph.size_add, hsC]; omega) _)
      (by simp only [Graph.size_add, hsC]; omega)
    obtain ⟨gF, hout, hFF⟩ := materializeFuel_output hsC hw hF hran
    have h0F := hFF.node_eq 0 (by omega)
    have h2F := hFF.node_eq 2 (by omega)
    obtain ⟨y, hy⟩ := feed_congr h0F hy
    apply Exists.intro
    simp only [bind_apply, zipWithIndex, writeLines, action, op_apply, ok_bind, materialize_apply,
      hsC, Graph.size_add, hout, map_ok]
    rw [materializeFuel_one (n := 2) (p := 0) (by simp [h2F, h2']) (by simp [h2F, h2'])
      (materializeFuel_of_executed (by rw [h0F, hx])) hy]
    rfl

theorem runPageRankGenerated_ok (outputPath : String) (iterations : Nat) :
    (runPageRankGenerated outputPath iterations).run' Graph.empty = .ok () := by
  rw [run'_apply]
  simp [runPageRankGenerated, pageRank, generate, cache, collapse, sum, action, materializeFuel,
    feed, markExecuted, Node.fresh, Budget.keep]
  refine map_fst_loop_index (by simp) fun gC hsC hold hch => ?_
  have h1 : gC.node 1 = ⟨[0], .reads 1, true, 3⟩ := by simp [hold]
  have h3 : gC.node 3 = .fresh [] := by simp [hold, Node.fresh]
  have h4 : gC.node 4 = .fresh [3] := by simp [hold, Node.fresh]
  simp only []
  split
  · obtain ⟨g', ps, hw, -⟩ := walks_generated_ranks h1 h3 h4 hch (by omega)
    exact ⟨g', by simp [execute, hw]⟩
  · have hplus : ∀ m ≤ 4, ((gC.add [4 + 3 * iterations]).add [4 + 3 * iterations + 1]).node m =
        gC.node m := fun m hm => by
      simp (disch := omega) only [Graph.node_add, Graph.size_add, hsC, if_neg]
    obtain ⟨g', ps, hw, hF, hran⟩ := walks_generated_ranks ((hplus 1 (by omega)).trans h1)
      ((hplus 3 (by omega)).trans h3) ((hplus 4 (by omega)).trans h4)
      ((hch.add (by omega) _).add (by simp only [Graph.size_add, hsC]; omega) _)
      (by simp only [Graph.size_add, hsC]; omega)
    obtain ⟨gF, hout, -⟩ := materializeFuel_output hsC hw hF hran
    exact ⟨gF, by simp only [bind_apply, zipWithIndex, writeLines, action, op_apply, ok_bind,
      materialize_apply, hsC, Graph.size_add, hout, map_ok]⟩

theorem runJoinPageRankEdgePerLine_ok (outputPath : String) (iterations : Nat) :
    (runJoinPageRankEdgePerLine outputPath iterations).run' Graph.empty = .ok () := by
  rw [run'_apply]
  simp [runJoinPageRankEdgePerLine, pageRankJoinSelf, readLines, groupByKey, cache, Node.fresh]
  cases iterations with
  | zero =>
    split <;> simp [execute, writeLines, action, materializeFuel, feed, markExecuted, Node.fresh,
      loop]
  | succ t =>
    simp [loop, pageRankJoinIter, innerJoin, reducePair, collapse, execute, materializeFuel, feed,
      markExecuted, Node.fresh]
    exact map_fst_loop_join ⟨by simp, by simp, by decide, by simp, [4], by simp [Node.ran]⟩
      (fun _ _ hJ => output_joinInv hJ outputPath) t

theorem runPageRankJoinGenerated_ok (outputPath : String) (iterations : Nat) :
    (runPageRankJoinGenerated outputPath iterations).run' Graph.empty = .ok () := by
  rw [run'_apply]
  simp [runPageRankJoinGenerated, pageRankJoin, generate, cache, collapse, Node.fresh]
  cases iterations with
  | zero =>
    split <;> simp [execute, writeLines, action, materializeFuel, feed, markExecuted, Node.fresh,
      loop]
  | succ t =>
    simp [loop, pageRankJoinIter, innerJoin, reducePair, collapse, execute, materializeFuel, feed,
      markExecuted, Node.fresh]
    exact map_fst_loop_join ⟨by simp, by simp, by decide, by simp, [5], by simp [Node.ran]⟩
      (fun _ _ hJ => output_joinInv hJ outputPath) t

/-- Counted per push, the way the engine counts them, no read of the four drivers finds its
collection's budget spent: for every output path and every iteration count each driver runs to
its end. The index drivers' cached `links` is read once, by the one walk that runs their whole
loop; the join drivers' `links` is read once per pass, from the unlimited budget
`KeepForever()` gave it. -/
theorem drivers_never_read_spent (outputPath : String) (iterations : Nat) :
    (runPageRankEdgePerLine outputPath iterations).run' Graph.empty = .ok () ∧
    (runPageRankGenerated outputPath iterations).run' Graph.empty = .ok () ∧
    (runJoinPageRankEdgePerLine outputPath iterations).run' Graph.empty = .ok () ∧
    (runPageRankJoinGenerated outputPath iterations).run' Graph.empty = .ok () :=
  ⟨runPageRankEdgePerLine_ok outputPath iterations, runPageRankGenerated_ok outputPath iterations,
    runJoinPageRankEdgePerLine_ok outputPath iterations,
    runPageRankJoinGenerated_ok outputPath iterations⟩

end ThrillPageRank.Materialize
