import ThrillPageRank.JoinShapeOn
import ThrillPageRank.EdgePerLineOn
import ThrillPageRank.JoinSemantics
import ThrillPageRank.Output
/-!
# `RunJoinPageRankEdgePerLine` on the workers

Modelled from the spec (§4.3, §4.4, §5): the parser Map runs on each worker, `GroupByKey`
sends every edge to the worker `dest` names for its source page and groups there, and
`PageRankJoinSelf` runs on the workers with location detection on (`UseLocationDetection`
is `true`), its join sending each page to the same `dest`. The initial ranks are a Map of
the link records and every pass leaves each rank on its page's worker, so the join of
every pass, the first included, runs on each worker without a shuffle. When every page
of `[0, n)` has an in-link and an out-link, the ranks are `n` times the reference power
iteration on the graph of the input, whatever the placement of the lines and the orders
the engine picks.
-/

namespace ThrillPageRank.JoinEdgePerLineOn

open Dia PageRank PowerIteration JoinShape LineParser Grouping EdgePerLine LocationDetection
  ReduceOn JoinShapeOn EdgePerLineOn JoinSemantics Output

variable {workers : Nat}

/-- `links` of `RunJoinPageRankEdgePerLine` on the workers: `GroupByKey` with the lambda,
each worker's copy starting with an empty buffer. -/
abbrev linksOn (dest : PageId → Nat) (workers : Nat)
    (arriveE : Nat → List PagePageLink → List PagePageLink) (order : Nat → List PageId)
    (edges : Nat → List PagePageLink) : Nat → List LinkedPage :=
  groupByKeyOn PagePageLink.src groupByKeyLambda dest workers arriveE order edges []

/-- The ranks `RunJoinPageRankEdgePerLine` leaves on the workers. `GroupByKey` and the join
send page `k` to the worker `dest k`; the edges reach it in the order `arriveE`, it calls
the group lambda in the order `order`, and the folded contributions reach it in the order
`arriveC`. -/
def runJoinPageRankEdgePerLineOn (workers : Nat) (dest : PageId → Nat)
    (arriveE : Nat → List PagePageLink → List PagePageLink) (order : Nat → List PageId)
    (arriveC : Nat → List RankedPage → List RankedPage) (lines : Nat → List String)
    (iterations : Nat) : Option (Nat → List RankedPage) := do
  let edges ← parseEdgesOn workers lines
  pure (pageRankJoinSelfOn true dest workers arriveC (linksOn dest workers arriveE order edges)
    iterations)

/-- The link records of a list of edges: one per source page, with the page's targets in
the order of the edges. -/
def edgeLinks (edges : List PagePageLink) : List LinkedPage :=
  (edges.map PagePageLink.src).dedup.map fun k =>
    (k, (edges.filter (·.src = k)).map PagePageLink.tgt)

/-- A walk over the link records of edges, from a source page, ends at an id of an edge. -/
theorem lt_of_reachedIn_edgeLinks {E : List PagePageLink} {s : Nat}
    (hids : ∀ e ∈ E, e.src < s ∧ e.tgt < s) {t : Nat} {q : PageId}
    (hq : ReachedIn (edgeLinks E) (· ∈ E.map PagePageLink.src) t q) : q < s := by
  rcases reachedIn_start_or_target hq with hq | ⟨lp, hlp, hq⟩
  · obtain ⟨e, he, rfl⟩ := List.mem_map.1 hq
    exact (hids e he).1
  · obtain ⟨k, -, rfl⟩ := List.mem_map.1 hlp
    obtain ⟨e, he, rfl⟩ := List.mem_map.1 hq
    exact (hids e (List.mem_filter.1 he).1).2

/-! ## `GroupByKey` on the workers -/

section Group

variable {dest : PageId → Nat} {arriveE : Nat → List PagePageLink → List PagePageLink}
  {order : Nat → List PageId} {edges : Nat → List PagePageLink}

/-- The edges that reach worker `i`. -/
abbrev recv (dest : PageId → Nat) (workers : Nat)
    (arriveE : Nat → List PagePageLink → List PagePageLink) (edges : Nat → List PagePageLink)
    (i : Nat) : List PagePageLink :=
  arriveE i (received PagePageLink.src dest workers edges i)

theorem dest_of_mem_recv (harr : ∀ i xs, (arriveE i xs).Perm xs) {i : Nat} {e : PagePageLink}
    (he : e ∈ recv dest workers arriveE edges i) :
    e ∈ items workers edges ∧ dest e.src = i := by
  obtain ⟨he, hi⟩ := List.mem_filter.1 ((harr i _).subset he)
  exact ⟨he, of_decide_eq_true hi⟩

theorem mem_recv_dest (harr : ∀ i xs, (arriveE i xs).Perm xs) {e : PagePageLink}
    (he : e ∈ items workers edges) : e ∈ recv dest workers arriveE edges (dest e.src) :=
  (harr _ _).mem_iff.2 (List.mem_filter.2 ⟨he, by simp⟩)

/-- A key that some edge on worker `i` has is a key of the edges that `dest` sends to `i`. -/
theorem dest_of_any_recv (harr : ∀ i xs, (arriveE i xs).Perm xs) {i k : Nat}
    (h : (recv dest workers arriveE edges i).any (·.src = k)) :
    dest k = i ∧ ∃ e ∈ items workers edges, e.src = k := by
  obtain ⟨e, he, hek⟩ := List.any_eq_true.1 h
  obtain rfl : e.src = k := of_decide_eq_true hek
  exact ⟨(dest_of_mem_recv harr he).2, e, (dest_of_mem_recv harr he).1, rfl⟩

/-- Worker `i` holds one record per key of its order that reached it, with that key's
targets; each of them is a key `dest` sends to `i`. -/
theorem linksOn_eq (harr : ∀ i xs, (arriveE i xs).Perm xs) (i : Nat) :
    linksOn dest workers arriveE order edges i =
      ((order i).filter fun k => (recv dest workers arriveE edges i).any (·.src = k)).map
        fun k => (k, ((recv dest workers arriveE edges (dest k)).filter (·.src = k)).map
          PagePageLink.tgt) := by
  rw [linksOn, groupByKeyOn, groupByKey_targets]
  exact List.map_congr_left fun k hk => by
    rw [(dest_of_any_recv harr (List.mem_filter.1 hk).2).1]

theorem placed_linksOn (harr : ∀ i xs, (arriveE i xs).Perm xs) :
    Placed Prod.fst dest workers (linksOn dest workers arriveE order edges) := by
  intro i _ x hx
  rw [linksOn_eq harr] at hx
  obtain ⟨k, hk, rfl⟩ := List.mem_map.1 hx
  exact (dest_of_any_recv harr (List.mem_filter.1 hk).2).1

/-- The targets of page `k` on its worker, in the order they reached it. -/
abbrev targetsOn (dest : PageId → Nat) (workers : Nat)
    (arriveE : Nat → List PagePageLink → List PagePageLink) (edges : Nat → List PagePageLink)
    (n : Nat) : List OutgoingLinks :=
  (List.range n).map fun k =>
    ((recv dest workers arriveE edges (dest k)).filter (·.src = k)).map PagePageLink.tgt

/-- No target leaves `[0, n)` when no edge does. -/
theorem targetsOn_targets {n : Nat} (harr : ∀ i xs, (arriveE i xs).Perm xs)
    (hlt : ∀ e ∈ items workers edges, e.tgt < n) :
    ∀ ol ∈ targetsOn dest workers arriveE edges n, ∀ q ∈ ol, q < n := by
  intro ol hol q hq
  obtain ⟨k, -, rfl⟩ := List.mem_map.1 hol
  obtain ⟨e, he, rfl⟩ := List.mem_map.1 hq
  exact hlt e (dest_of_mem_recv harr (List.mem_filter.1 he).1).1

/-- Every page with an in-edge from `[0, n)` is a target of some page. -/
theorem targetsOn_inlinks {n : Nat} (harr : ∀ i xs, (arriveE i xs).Perm xs)
    (hlt : ∀ e ∈ items workers edges, e.src < n)
    (hin : ∀ i < n, ∃ e ∈ items workers edges, e.tgt = i) :
    ∀ q < n, ∃ ol ∈ targetsOn dest workers arriveE edges n, q ∈ ol := by
  intro q hq
  obtain ⟨e, he, rfl⟩ := hin q hq
  refine ⟨_, List.mem_map.2 ⟨e.src, List.mem_range.2 (hlt e he), rfl⟩, ?_⟩
  exact List.mem_map.2 ⟨e, List.mem_filter.2 ⟨mem_recv_dest harr he, by simp⟩, rfl⟩

/-- The pages of the link records on the workers, worker after worker, are the sources of
the edges, once each, when each worker's order visits the keys sent to it once each. -/
theorem keys_linksOn_perm (hdest : ∀ k, dest k < workers)
    (harr : ∀ i xs, (arriveE i xs).Perm xs) (hnodup : ∀ i, (order i).Nodup)
    (hord : ∀ i < workers, ∀ e ∈ items workers edges, dest e.src = i → e.src ∈ order i) :
    ((List.range workers).flatMap fun i =>
      (order i).filter fun k => (recv dest workers arriveE edges i).any (·.src = k)).Perm
      ((items workers edges).map PagePageLink.src).dedup := by
  refine (List.perm_ext_iff_of_nodup ?_ (List.nodup_dedup _)).2 fun k => ?_
  · refine List.nodup_flatMap.2 ⟨fun i _ => (hnodup i).filter _, ?_⟩
    refine (List.nodup_range workers).imp fun {i j} hij k hk hk' => ?_
    exact hij ((dest_of_any_recv harr (List.mem_filter.1 hk).2).1.symm.trans
      (dest_of_any_recv harr (List.mem_filter.1 hk').2).1)
  simp only [List.mem_flatMap, List.mem_filter, List.mem_range, List.mem_dedup, List.mem_map]
  constructor
  · rintro ⟨i, -, -, hk⟩
    exact (dest_of_any_recv harr hk).2
  · rintro ⟨e, he, rfl⟩
    exact ⟨dest e.src, hdest _, hord _ (hdest _) e he rfl,
      List.any_eq_true.2 ⟨e, mem_recv_dest harr he, by simp⟩⟩

theorem items_linksOn (harr : ∀ i xs, (arriveE i xs).Perm xs) :
    items workers (linksOn dest workers arriveE order edges) =
      ((List.range workers).flatMap fun i =>
        (order i).filter fun k => (recv dest workers arriveE edges i).any (·.src = k)).map
        fun k => (k, ((recv dest workers arriveE edges (dest k)).filter (·.src = k)).map
          PagePageLink.tgt) := by
  rw [List.map_flatMap, items]
  exact List.flatMap_congr fun i _ => linksOn_eq harr i

/-- When the pages with an out-edge are `[0, n)` and each worker's order visits the keys
sent to it, once each, the workers hold one link record per page, in some order. -/
theorem items_linksOn_perm {n : Nat} (hdest : ∀ k, dest k < workers)
    (harr : ∀ i xs, (arriveE i xs).Perm xs) (hnodup : ∀ i, (order i).Nodup)
    (hord : ∀ i < workers, ∀ e ∈ items workers edges, dest e.src = i → e.src ∈ order i)
    (hlt : ∀ e ∈ items workers edges, e.src < n)
    (hsrc : ∀ k < n, ∃ e ∈ items workers edges, e.src = k) :
    (items workers (linksOn dest workers arriveE order edges)).Perm
      ((List.range n).map fun k => (k, linksOf (targetsOn dest workers arriveE edges n) k)) := by
  have hsrcs : ((items workers edges).map PagePageLink.src).dedup.Perm (List.range n) := by
    refine (List.perm_ext_iff_of_nodup (List.nodup_dedup _) (List.nodup_range n)).2 fun k => ?_
    simp only [List.mem_dedup, List.mem_map, List.mem_range]
    exact ⟨fun ⟨e, he, hk⟩ => hk ▸ hlt e he, hsrc k⟩
  rw [items_linksOn harr]
  refine (((keys_linksOn_perm hdest harr hnodup hord).trans hsrcs).map _).trans
    (List.Perm.of_eq (List.map_congr_left fun k hk => ?_))
  rw [targetsOn, linksOf_map_range, if_pos (List.mem_range.1 hk)]

/-- Each page's targets on its worker are its targets in the edges, in some order. -/
theorem targets_recv_perm (harr : ∀ i xs, (arriveE i xs).Perm xs) (k : PageId) :
    (((recv dest workers arriveE edges (dest k)).filter (·.src = k)).map PagePageLink.tgt).Perm
      (((items workers edges).filter (·.src = k)).map PagePageLink.tgt) := by
  rw [← filter_received (fun k : PageId => k) PagePageLink.src edges (l := k) rfl]
  exact ((harr _ _).filter _).map _

theorem linksOf_targetsOn_perm {n : Nat} (harr : ∀ i xs, (arriveE i xs).Perm xs) (p : PageId) :
    (linksOf (targetsOn dest workers arriveE edges n) p).Perm
      (linksOf (adjacency (items workers edges) n) p) := by
  simp only [targetsOn, adjacency, linksOf_map_range]
  split_ifs
  · exact targets_recv_perm harr p
  · exact List.Perm.refl _

/-- Whatever the edges, the workers hold the link records of the edges, up to order, each
with its targets in the order they reached its worker. -/
theorem items_linksOn_perm_edgeLinks (hdest : ∀ k, dest k < workers)
    (harr : ∀ i xs, (arriveE i xs).Perm xs) (hnodup : ∀ i, (order i).Nodup)
    (hord : ∀ i < workers, ∀ e ∈ items workers edges, dest e.src = i → e.src ∈ order i) :
    (items workers (linksOn dest workers arriveE order edges)).Perm
      ((edgeLinks (items workers edges)).map fun lp => (lp.1,
        ((recv dest workers arriveE edges (dest lp.1)).filter (·.src = lp.1)).map
          PagePageLink.tgt)) := by
  rw [items_linksOn harr, edgeLinks, List.map_map]
  exact (keys_linksOn_perm hdest harr hnodup hord).map _

theorem keys_nodup_linksOn (hdest : ∀ k, dest k < workers)
    (harr : ∀ i xs, (arriveE i xs).Perm xs) (hnodup : ∀ i, (order i).Nodup)
    (hord : ∀ i < workers, ∀ e ∈ items workers edges, dest e.src = i → e.src ∈ order i) :
    ((items workers (linksOn dest workers arriveE order edges)).map Prod.fst).Nodup :=
  ((items_linksOn_perm_edgeLinks hdest harr hnodup hord).map Prod.fst).nodup_iff.2
    (by simpa [edgeLinks, List.map_map, Function.comp_def] using List.nodup_dedup _)

theorem targets_recv_perm_edgeLinks (harr : ∀ i xs, (arriveE i xs).Perm xs) {lp : LinkedPage}
    (hlp : lp ∈ edgeLinks (items workers edges)) :
    (((recv dest workers arriveE edges (dest lp.1)).filter (·.src = lp.1)).map
      PagePageLink.tgt).Perm lp.2 := by
  obtain ⟨k, -, rfl⟩ := List.mem_map.1 hlp
  exact targets_recv_perm harr k

end Group

/-! ## The driver -/

/-- When every worker's lines parse, the driver runs `PageRankJoinSelf` on the workers on the
link records `GroupByKey` leaves. -/
theorem runJoinPageRankEdgePerLineOn_eq {dest : PageId → Nat}
    {arriveE : Nat → List PagePageLink → List PagePageLink} {order : Nat → List PageId}
    {arriveC : Nat → List RankedPage → List RankedPage} {lines : Nat → List String}
    {edges : Nat → List PagePageLink} (hparse : ∀ w < workers, parseEdges (lines w) = some (edges w))
    (t : Nat) :
    runJoinPageRankEdgePerLineOn workers dest arriveE order arriveC lines t =
      some (pageRankJoinSelfOn true dest workers arriveC (linksOn dest workers arriveE order edges)
        t) := by
  obtain ⟨edges', hparse', hitems, -⟩ := parseEdgesOn_items hparse
  have hlinks : linksOn dest workers arriveE order edges' =
      linksOn dest workers arriveE order edges := by
    funext i
    simp only [linksOn, groupByKeyOn, received, hitems]
  simp only [runJoinPageRankEdgePerLineOn, hparse', Option.bind_eq_bind, Option.some_bind, hlinks]
  rfl

/-- For every number of workers, every destination of the pages below it (the same for
`GroupByKey` and the join), every placement of the input lines whose lines all parse,
every `n` such that every page of `[0, n)` has an in-link and an out-link and no edge
leaves `[0, n)`, every order in which the edges and the contributions reach their workers,
every duplicate-free order of each worker's keys that visits the keys sent to it, and
every iteration count `t ≥ 1`, `RunJoinPageRankEdgePerLine` run on the workers holds one
record `(i, n * r_t(i))` per page `i < n`, up to order, where `r_t` is the reference power
iteration on the graph of the edges; and location detection finds both sides of the join
of every pass placed, the first pass included, so every join takes the local path, without
a shuffle. -/
theorem runJoinPageRankEdgePerLine_on_workers (dest : PageId → Nat)
    (hdest : ∀ k, dest k < workers) (lines : Nat → List String) (edges : Nat → List PagePageLink)
    (hparse : ∀ w < workers, parseEdges (lines w) = some (edges w)) (n : Nat)
    (hlt : ∀ e ∈ items workers edges, e.src < n ∧ e.tgt < n)
    (hsrc : ∀ i < n, ∃ e ∈ items workers edges, e.src = i)
    (hin : ∀ i < n, ∃ e ∈ items workers edges, e.tgt = i)
    (arriveE : Nat → List PagePageLink → List PagePageLink)
    (harrE : ∀ i xs, (arriveE i xs).Perm xs) (order : Nat → List PageId)
    (hnodup : ∀ i, (order i).Nodup)
    (hord : ∀ i < workers, ∀ e ∈ items workers edges, dest e.src = i → e.src ∈ order i)
    (arriveC : Nat → List RankedPage → List RankedPage)
    (harrC : ∀ i xs, (arriveC i xs).Perm xs) (t : Nat) (ht : 1 ≤ t) :
    ∃ ranks, runJoinPageRankEdgePerLineOn workers dest arriveE order arriveC lines t = some ranks ∧
      (items workers ranks).Perm ((List.range n).map fun i =>
        (i, n * powerIteration (adjacency (items workers edges) n) n t i)) ∧
      ∀ t', JoinsLocally Prod.fst Prod.fst true dest workers
        (linksOn dest workers arriveE order edges)
        (pageRankJoinSelfOn true dest workers arriveC (linksOn dest workers arriveE order edges)
          t') := by
  have hperm := items_linksOn_perm hdest harrE hnodup hord (fun e he => (hlt e he).1) hsrc
  have hplaced : Placed Prod.fst dest workers (linksOn dest workers arriveE order edges) :=
    placed_linksOn harrE
  refine ⟨_, runJoinPageRankEdgePerLineOn_eq hparse t, ?_, fun t' =>
      ⟨rfl, hplaced, placed_pageRankJoinSelfOn hplaced harrC t'⟩⟩
  have hkeys := (hperm.map Prod.fst).nodup_iff.2
    (by simpa [List.map_map, Function.comp_def] using List.nodup_range n)
  refine (items_pageRankJoinSelfOn_perm hdest harrC hkeys t).trans ?_
  rw [← powerIteration_congr (linksOf_targetsOn_perm harrE)]
  exact pageRankJoinSelf_perm_canon (by simp) (targetsOn_targets harrE fun e he => (hlt e he).2)
    hperm (targetsOn_inlinks harrE (fun e he => (hlt e he).1) hin) ht

theorem runJoinPageRankEdgePerLine_on_two_workers :
    (∀ k : PageId, k % 2 < 2) ∧
    (∀ w < 2, parseEdges ((fun w => if w = 0 then ["0 1"] else ["1 0"]) w) =
      some ((fun w : Nat => if w = 0 then [PagePageLink.mk 0 1] else [⟨1, 0⟩]) w)) ∧
    (∀ e ∈ items 2 (fun w : Nat => if w = 0 then [PagePageLink.mk 0 1] else [⟨1, 0⟩]),
      e.src < 2 ∧ e.tgt < 2) ∧
    (∀ i < 2, ∃ e ∈ items 2 (fun w : Nat => if w = 0 then [PagePageLink.mk 0 1] else [⟨1, 0⟩]),
      e.src = i) ∧
    (∀ i < 2, ∃ e ∈ items 2 (fun w : Nat => if w = 0 then [PagePageLink.mk 0 1] else [⟨1, 0⟩]),
      e.tgt = i) ∧
    (∀ (_ : Nat) (xs : List PagePageLink), (List.reverse xs).Perm xs) ∧
    (∀ _ : Nat, [0, 1].Nodup) ∧
    (∀ i < 2, ∀ e ∈ items 2 (fun w : Nat => if w = 0 then [PagePageLink.mk 0 1] else [⟨1, 0⟩]),
      e.src % 2 = i → e.src ∈ [0, 1]) ∧
    (∀ (_ : Nat) (xs : List RankedPage), (List.reverse xs).Perm xs) ∧ 1 ≤ 1 ∧
    ∃ ranks, runJoinPageRankEdgePerLineOn 2 (· % 2) (fun _ => List.reverse) (fun _ => [0, 1])
        (fun _ => List.reverse) (fun w => if w = 0 then ["0 1"] else ["1 0"]) 1 = some ranks ∧
      (items 2 ranks).Perm ((List.range 2).map fun i =>
        (i, 2 * powerIteration (adjacency (items 2 fun w : Nat =>
          if w = 0 then [PagePageLink.mk 0 1] else [⟨1, 0⟩]) 2) 2 1 i)) ∧
      ∀ t', JoinsLocally Prod.fst Prod.fst true (· % 2) 2
        (linksOn (· % 2) 2 (fun _ => List.reverse) (fun _ => [0, 1])
          fun w : Nat => if w = 0 then [PagePageLink.mk 0 1] else [⟨1, 0⟩])
        (pageRankJoinSelfOn true (· % 2) 2 (fun _ => List.reverse)
          (linksOn (· % 2) 2 (fun _ => List.reverse) (fun _ => [0, 1])
            fun w : Nat => if w = 0 then [PagePageLink.mk 0 1] else [⟨1, 0⟩]) t') :=
  ⟨fun k => Nat.mod_lt k (by decide), by decide, by decide, by decide, by decide,
    fun _ xs => List.reverse_perm xs, fun _ => by decide, by decide,
    fun _ xs => List.reverse_perm xs, le_rfl,
    runJoinPageRankEdgePerLine_on_workers (· % 2) (fun k => Nat.mod_lt k (by decide))
      (fun w => if w = 0 then ["0 1"] else ["1 0"])
      (fun w : Nat => if w = 0 then [PagePageLink.mk 0 1] else [⟨1, 0⟩]) (by decide) 2
      (by decide) (by decide) (by decide) (fun _ => List.reverse)
      (fun _ xs => List.reverse_perm xs) (fun _ => [0, 1])
      (fun _ => (by decide : ([0, 1] : List PageId).Nodup)) (by decide)
      (fun _ => List.reverse) (fun _ xs => List.reverse_perm xs) 1 le_rfl⟩

/-- For every number of workers, every destination of the pages below it (the same for
`GroupByKey` and the join), every placement of the input lines whose lines all parse,
every order in which the edges and the contributions reach their workers, every
duplicate-free order of each worker's keys that visits the keys sent to it, and every
iteration count, `RunJoinPageRankEdgePerLine` run on the workers holds one record per
page, and page `p` has rank `v` exactly when the join-shape recurrence on the link records
of the edges gives `p` rank `v`. No page needs an in-link or an out-link. -/
theorem runJoinPageRankEdgePerLine_on_workers_ranks (dest : PageId → Nat)
    (hdest : ∀ k, dest k < workers) (lines : Nat → List String) (edges : Nat → List PagePageLink)
    (hparse : ∀ w < workers, parseEdges (lines w) = some (edges w))
    (arriveE : Nat → List PagePageLink → List PagePageLink)
    (harrE : ∀ i xs, (arriveE i xs).Perm xs) (order : Nat → List PageId)
    (hnodup : ∀ i, (order i).Nodup)
    (hord : ∀ i < workers, ∀ e ∈ items workers edges, dest e.src = i → e.src ∈ order i)
    (arriveC : Nat → List RankedPage → List RankedPage)
    (harrC : ∀ i xs, (arriveC i xs).Perm xs) (t : Nat) :
    ∃ ranks, runJoinPageRankEdgePerLineOn workers dest arriveE order arriveC lines t = some ranks ∧
      ((items workers ranks).map Prod.fst).Nodup ∧
      ∀ p v, (p, v) ∈ items workers ranks ↔
        (joinStep (1 - dampening) (edgeLinks (items workers edges)))^[t]
          (selfInit (edgeLinks (items workers edges))) p = some v := by
  have hperm := items_linksOn_perm_edgeLinks hdest harrE hnodup hord
  have hkeys := keys_nodup_linksOn hdest harrE hnodup hord
  have hrun : (items workers (pageRankJoinSelfOn true dest workers arriveC
      (linksOn dest workers arriveE order edges) t)).Perm _ :=
    items_pageRankJoinSelfOn_perm hdest harrC hkeys t
  have hnd := keys_nodup_pageRankJoinSelf hkeys t
  refine ⟨_, runJoinPageRankEdgePerLineOn_eq hparse t, (hrun.map Prod.fst).nodup_iff.2 hnd,
    fun p v => ?_⟩
  rw [hrun.mem_iff, mem_iff_rankOf hnd, rankOf_pageRankJoinSelf hkeys, joinStep_perm hperm,
    selfInit_perm hperm, selfInit_map_targets,
    joinStep_map_targets fun lp hlp => targets_recv_perm_edgeLinks harrE hlp]

theorem runJoinPageRankEdgePerLine_on_workers_ranks_dangling :
    (∀ k : PageId, k % 2 < 2) ∧
    (∀ w < 2, parseEdges ((fun w => if w = 0 then ["0 1"] else ["2 1"]) w) =
      some ((fun w : Nat => if w = 0 then [PagePageLink.mk 0 1] else [⟨2, 1⟩]) w)) ∧
    (∀ (_ : Nat) (xs : List PagePageLink), (List.reverse xs).Perm xs) ∧
    (∀ _ : Nat, [0, 1, 2].Nodup) ∧
    (∀ i < 2, ∀ e ∈ items 2 (fun w : Nat => if w = 0 then [PagePageLink.mk 0 1] else [⟨2, 1⟩]),
      e.src % 2 = i → e.src ∈ [0, 1, 2]) ∧
    (∀ (_ : Nat) (xs : List RankedPage), (List.reverse xs).Perm xs) ∧
    ∃ ranks, runJoinPageRankEdgePerLineOn 2 (· % 2) (fun _ => List.reverse)
        (fun _ => [0, 1, 2]) (fun _ => List.reverse)
        (fun w => if w = 0 then ["0 1"] else ["2 1"]) 1 = some ranks ∧
      ((items 2 ranks).map Prod.fst).Nodup ∧
      ∀ p v, (p, v) ∈ items 2 ranks ↔
        (joinStep (1 - dampening) (edgeLinks (items 2 fun w : Nat =>
          if w = 0 then [PagePageLink.mk 0 1] else [⟨2, 1⟩])))^[1]
          (selfInit (edgeLinks (items 2 fun w : Nat =>
            if w = 0 then [PagePageLink.mk 0 1] else [⟨2, 1⟩]))) p = some v :=
  ⟨fun k => Nat.mod_lt k (by decide), by decide, fun _ xs => List.reverse_perm xs,
    fun _ => by decide, by decide, fun _ xs => List.reverse_perm xs,
    runJoinPageRankEdgePerLine_on_workers_ranks (· % 2) (fun k => Nat.mod_lt k (by decide))
      (fun w => if w = 0 then ["0 1"] else ["2 1"])
      (fun w : Nat => if w = 0 then [PagePageLink.mk 0 1] else [⟨2, 1⟩]) (by decide)
      (fun _ => List.reverse) (fun _ xs => List.reverse_perm xs) (fun _ => [0, 1, 2])
      (fun _ => (by decide : ([0, 1, 2] : List PageId).Nodup)) (by decide)
      (fun _ => List.reverse) (fun _ xs => List.reverse_perm xs) 1⟩

/-- For every number of workers, every destination of the pages below it, every placement
of the input lines whose lines all parse, every order in which the edges and the
contributions reach their workers, every duplicate-free order of each worker's keys that
visits the keys sent to it, every `%g` formatting and every iteration count `t`, the page
field of the lines `RunJoinPageRankEdgePerLine` writes, read back with `strtoul`, names no
page twice, and the pages it names are exactly the ends of the walks of `t` edges from a
page with an out-edge. -/
theorem runJoinPageRankEdgePerLine_output_pages (formatG : Rank → String)
    (dest : PageId → Nat) (hdest : ∀ k, dest k < workers) (lines : Nat → List String)
    (edges : Nat → List PagePageLink)
    (hparse : ∀ w < workers, parseEdges (lines w) = some (edges w))
    (arriveE : Nat → List PagePageLink → List PagePageLink)
    (harrE : ∀ i xs, (arriveE i xs).Perm xs) (order : Nat → List PageId)
    (hnodup : ∀ i, (order i).Nodup)
    (hord : ∀ i < workers, ∀ e ∈ items workers edges, dest e.src = i → e.src ∈ order i)
    (arriveC : Nat → List RankedPage → List RankedPage)
    (harrC : ∀ i xs, (arriveC i xs).Perm xs) (t : Nat) :
    ∃ ranks, runJoinPageRankEdgePerLineOn workers dest arriveE order arriveC lines t = some ranks ∧
      ((items workers fun w => (ranks w).map (joinLine formatG)).map fun line =>
        (strtoul line.data).1).Nodup ∧
      ∀ q, q ∈ (items workers fun w => (ranks w).map (joinLine formatG)).map
          (fun line => (strtoul line.data).1) ↔
        ReachedIn (edgeLinks (items workers edges))
          (· ∈ (items workers edges).map PagePageLink.src) t q := by
  obtain ⟨-, -, -, hlogical⟩ := parseEdgesOn_items hparse
  have hperm := items_linksOn_perm_edgeLinks hdest harrE hnodup hord
  have hkeys := keys_nodup_linksOn hdest harrE hnodup hord
  have hrun : (items workers (pageRankJoinSelfOn true dest workers arriveC
      (linksOn dest workers arriveE order edges) t)).Perm _ :=
    items_pageRankJoinSelfOn_perm hdest harrC hkeys t
  have hpages : ∀ q, q ∈ (items workers (pageRankJoinSelfOn true dest workers arriveC
      (linksOn dest workers arriveE order edges) t)).map Prod.fst ↔
      ReachedIn (edgeLinks (items workers edges))
        (· ∈ (items workers edges).map PagePageLink.src) t q := fun q => by
    rw [(hrun.map Prod.fst).mem_iff, pageRankJoinSelf, pageRankJoinSelfStep,
      keys_iterate_joinRankStep, reachedIn_perm hperm,
      reachedIn_map_targets fun lp hlp => targets_recv_perm_edgeLinks harrE hlp]
    refine reachedIn_congr_start (fun p => ?_) t q
    rw [List.map_map, Function.comp_def, (hperm.map Prod.fst).mem_iff]
    simp [edgeLinks, List.map_map, Function.comp_def]
  have hline : ((items workers fun w => (pageRankJoinSelfOn true dest workers arriveC
      (linksOn dest workers arriveE order edges) t w).map (joinLine formatG)).map fun line =>
        (strtoul line.data).1) =
      (items workers (pageRankJoinSelfOn true dest workers arriveC
        (linksOn dest workers arriveE order edges) t)).map Prod.fst := by
    rw [items, ← List.map_flatMap, ← items]
    exact map_strtoul_joinLine formatG fun rp hrp => lt_of_reachedIn_edgeLinks
      (parseEdges_lt hlogical) ((hpages _).1 (List.mem_map_of_mem Prod.fst hrp))
  refine ⟨_, runJoinPageRankEdgePerLineOn_eq hparse t, ?_⟩
  rw [hline]
  exact ⟨(hrun.map Prod.fst).nodup_iff.2 (keys_nodup_pageRankJoinSelf hkeys t), hpages⟩

theorem runJoinPageRankEdgePerLine_output_pages_dangling :
    (∀ k : PageId, k % 2 < 2) ∧
    (∀ w < 2, parseEdges ((fun w => if w = 0 then ["0 1"] else ["2 1"]) w) =
      some ((fun w : Nat => if w = 0 then [PagePageLink.mk 0 1] else [⟨2, 1⟩]) w)) ∧
    (∀ (_ : Nat) (xs : List PagePageLink), (List.reverse xs).Perm xs) ∧
    (∀ _ : Nat, [0, 1, 2].Nodup) ∧
    (∀ i < 2, ∀ e ∈ items 2 (fun w : Nat => if w = 0 then [PagePageLink.mk 0 1] else [⟨2, 1⟩]),
      e.src % 2 = i → e.src ∈ [0, 1, 2]) ∧
    (∀ (_ : Nat) (xs : List RankedPage), (List.reverse xs).Perm xs) ∧
    ∃ ranks, runJoinPageRankEdgePerLineOn 2 (· % 2) (fun _ => List.reverse)
        (fun _ => [0, 1, 2]) (fun _ => List.reverse)
        (fun w => if w = 0 then ["0 1"] else ["2 1"]) 1 = some ranks ∧
      ((items 2 fun w => (ranks w).map (joinLine fun _ => "0.15")).map fun line =>
        (strtoul line.data).1).Nodup ∧
      ∀ q, q ∈ (items 2 fun w => (ranks w).map (joinLine fun _ => "0.15")).map
          (fun line => (strtoul line.data).1) ↔
        ReachedIn (edgeLinks (items 2 fun w : Nat =>
            if w = 0 then [PagePageLink.mk 0 1] else [⟨2, 1⟩]))
          (· ∈ (items 2 fun w : Nat =>
            if w = 0 then [PagePageLink.mk 0 1] else [⟨2, 1⟩]).map PagePageLink.src) 1 q :=
  ⟨fun k => Nat.mod_lt k (by decide), by decide, fun _ xs => List.reverse_perm xs,
    fun _ => by decide, by decide, fun _ xs => List.reverse_perm xs,
    runJoinPageRankEdgePerLine_output_pages (fun _ => "0.15") (· % 2)
      (fun k => Nat.mod_lt k (by decide)) (fun w => if w = 0 then ["0 1"] else ["2 1"])
      (fun w : Nat => if w = 0 then [PagePageLink.mk 0 1] else [⟨2, 1⟩]) (by decide)
      (fun _ => List.reverse) (fun _ xs => List.reverse_perm xs) (fun _ => [0, 1, 2])
      (fun _ => (by decide : ([0, 1, 2] : List PageId).Nodup)) (by decide)
      (fun _ => List.reverse) (fun _ xs => List.reverse_perm xs) 1⟩

end ThrillPageRank.JoinEdgePerLineOn
