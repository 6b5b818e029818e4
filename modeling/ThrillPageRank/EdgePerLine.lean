import ThrillPageRank.Grouping
import ThrillPageRank.JoinShape
/-!
# What the edge-list drivers compute

`RunPageRankEdgePerLine` parses its lines, takes `num_pages` from the largest id, builds
the adjacency lists with `GroupToIndex` and runs `PageRank` on them;
`RunJoinPageRankEdgePerLine` builds link records with `GroupByKey` and runs
`PageRankJoinSelf`. The engine chooses the order in which the edges reach the group
lambda and the order of the groups; the recurrence only counts the links from page to
page, so the ranks are those of the reference power iteration on the edges' graph
whatever those orders are: exactly, for the first driver, as long as no id is `2^64 - 1`;
`n` times over, for the second, when every page of `[0, n)` has an in-link and an
out-link.
-/

namespace ThrillPageRank.EdgePerLine

open Dia PageRank PowerIteration LineParser Grouping JoinShape

/-- The graph of an edge list over the pages `[0, n)`: the targets of each page. -/
def adjacency (edges : List PagePageLink) (n : Nat) : List OutgoingLinks :=
  (List.range n).map fun i => (edges.filter (·.src = i)).map PagePageLink.tgt

/-- The ranks `RunPageRankEdgePerLine` computes from its lines: `PageRankLineParser` on
every line, `num_pages`, `GroupToIndex` with the group lambda (the edges reach it in the
order `arrival` makes of them, the groups come in the order `order`) and `PageRank`. -/
def runPageRankEdgePerLineRanks (lines : List String)
    (arrival : List PagePageLink → List PagePageLink) (order : List PageId)
    (iterations : Nat) : Option (List Rank) := do
  let edges ← parseEdges lines
  let links ← groupToIndex PagePageLink.src groupToIndexLambda (numPages edges) []
    (arrival edges) order []
  pageRank links (numPages edges) iterations

/-- The ranks `RunJoinPageRankEdgePerLine` computes from its lines: `PageRankLineParser`
on every line, `GroupByKey` with the group lambda and `PageRankJoinSelf`. -/
def runJoinPageRankEdgePerLineRanks (lines : List String)
    (arrival : List PagePageLink → List PagePageLink) (order : List PageId)
    (iterations : Nat) : Option (List RankedPage) := do
  let edges ← parseEdges lines
  pure (pageRankJoinSelf (groupByKey PagePageLink.src groupByKeyLambda (arrival edges) order [])
    iterations)

/-! ## The recurrence reads each adjacency list as a multiset -/

section Congr

variable {L L' : List OutgoingLinks} {n : Nat}

theorem powerIteration_congr (h : ∀ p, (linksOf L p).Perm (linksOf L' p)) (t : Nat) :
    powerIteration L n t = powerIteration L' n t := by
  induction t with
  | zero => rfl
  | succ t ih =>
    funext q
    simp only [powerIteration, powerStep, ih, share_perm (h _)]

theorem linksOf_map_range (f : Nat → OutgoingLinks) (p : Nat) :
    linksOf ((List.range n).map f) p = if p < n then f p else [] := by
  unfold linksOf
  split
  · simp [*]
  · rename_i h
    simp [List.getElem?_eq_none (by simpa using Nat.le_of_not_lt h : (List.range n).length ≤ p)]

end Congr

/-! ## The adjacency lists of the delivered edges -/

section Adjacency

variable {edges arrival : List PagePageLink} {n : Nat}

theorem length_adjacency (edges : List PagePageLink) (n : Nat) :
    (adjacency edges n).length = n := by
  simp [adjacency]

theorem adjacency_targets {b : Nat} (h : ∀ e ∈ edges, e.tgt < b) :
    ∀ ol ∈ adjacency edges n, ∀ q ∈ ol, q < b := by
  intro ol hol q hq
  obtain ⟨i, -, rfl⟩ := List.mem_map.1 hol
  obtain ⟨e, he, rfl⟩ := List.mem_map.1 hq
  exact h e (List.mem_filter.1 he).1

theorem adjacency_inlinks (hsrc : ∀ e ∈ edges, e.src < n)
    (hin : ∀ q < n, ∃ e ∈ edges, e.tgt = q) : ∀ q < n, ∃ ol ∈ adjacency edges n, q ∈ ol := by
  intro q hq
  obtain ⟨e, he, rfl⟩ := hin q hq
  refine ⟨_, List.mem_map.2 ⟨e.src, List.mem_range.2 (hsrc e he), rfl⟩, ?_⟩
  exact List.mem_map.2 ⟨e, List.mem_filter.2 ⟨he, by simp⟩, rfl⟩

/-- The order in which the edges arrive only permutes each adjacency list. -/
theorem linksOf_adjacency_perm (harr : arrival.Perm edges) (p : PageId) :
    (linksOf (adjacency arrival n) p).Perm (linksOf (adjacency edges n) p) := by
  simp only [adjacency, linksOf_map_range]
  split_ifs
  · exact (harr.filter _).map _
  · exact List.Perm.refl _

end Adjacency

/-! ## The driver's ranks -/

/-- Whatever order the engine delivers the edges and the groups in, the ranks of
`RunPageRankEdgePerLine` are the reference power iteration on the graph of its edges,
when no id is `2^64 - 1`. -/
theorem runPageRankEdgePerLineRanks_eq (lines : List String) (edges : List PagePageLink)
    (hparse : parseEdges lines = some edges)
    (hids : ∀ e ∈ edges, e.src < sizeTRange - 1 ∧ e.tgt < sizeTRange - 1)
    (arrival : List PagePageLink → List PagePageLink) (harr : (arrival edges).Perm edges)
    (order : List PageId) (hord : ∀ e ∈ edges, e.src ∈ order) (t : Nat) :
    runPageRankEdgePerLineRanks lines arrival order t =
      some ((List.range (numPages edges)).map
        (powerIteration (adjacency edges (numPages edges)) (numPages edges) t)) := by
  have hmem : ∀ {e}, e ∈ arrival edges ↔ e ∈ edges := harr.mem_iff
  have hlinks : groupToIndex PagePageLink.src groupToIndexLambda (numPages edges) []
      (arrival edges) order [] = some (adjacency (arrival edges) (numPages edges)) :=
    groupToIndex_targets (fun e he => (lt_numPages hids (hmem.1 he)).1)
      (fun e he => hord e (hmem.1 he)) []
  simp only [runPageRankEdgePerLineRanks, hparse, Option.bind_eq_bind, Option.some_bind, hlinks]
  rw [pageRank_spec (length_adjacency _ _)
      (adjacency_targets fun e he => (lt_numPages hids (hmem.1 he)).2),
    powerIteration_congr (linksOf_adjacency_perm harr)]

theorem runPageRankEdgePerLineRanks_two_pages :
    parseEdges ["0 1", "1 0"] = some [⟨0, 1⟩, ⟨1, 0⟩] ∧
    (∀ e ∈ ([⟨0, 1⟩, ⟨1, 0⟩] : List PagePageLink),
      e.src < sizeTRange - 1 ∧ e.tgt < sizeTRange - 1) ∧
    (List.reverse [⟨0, 1⟩, ⟨1, 0⟩]).Perm ([⟨0, 1⟩, ⟨1, 0⟩] : List PagePageLink) ∧
    (∀ e ∈ ([⟨0, 1⟩, ⟨1, 0⟩] : List PagePageLink), e.src ∈ [1, 0]) ∧
    runPageRankEdgePerLineRanks ["0 1", "1 0"] List.reverse [1, 0] 2 =
      some ((List.range (numPages [⟨0, 1⟩, ⟨1, 0⟩])).map
        (powerIteration (adjacency [⟨0, 1⟩, ⟨1, 0⟩] (numPages [⟨0, 1⟩, ⟨1, 0⟩]))
          (numPages [⟨0, 1⟩, ⟨1, 0⟩]) 2)) :=
  ⟨by decide, by decide, by decide, by decide,
    runPageRankEdgePerLineRanks_eq ["0 1", "1 0"] [⟨0, 1⟩, ⟨1, 0⟩] (by decide) (by decide)
      List.reverse (by decide) [1, 0] (by decide) 2⟩

/-- For every input whose lines all parse and whose edges name the page `2^64 - 1`, and
every order of the edges' arrival, of the lambda's calls and every iteration count,
`num_pages` wraps to `0` and `GroupToIndex` meets keys outside `[0, 0)`: the run of
`RunPageRankEdgePerLine` stops with a key-range error instead of computing ranks. -/
theorem runPageRankEdgePerLineRanks_max_id (lines : List String) (edges : List PagePageLink)
    (hparse : parseEdges lines = some edges)
    (hmax : ∃ e ∈ edges, e.src = sizeTRange - 1 ∨ e.tgt = sizeTRange - 1)
    (arrival : List PagePageLink → List PagePageLink) (harr : (arrival edges).Perm edges)
    (order : List PageId) (t : Nat) :
    numPages edges = 0 ∧ runPageRankEdgePerLineRanks lines arrival order t = none := by
  have hnum := numPages_eq_zero (parseEdges_lt hparse) hmax
  obtain ⟨e, he, -⟩ := hmax
  have hall : ((arrival edges).all fun x => decide (x.src < numPages edges)) = false := by
    rw [hnum]
    exact List.all_eq_false.2 ⟨e, harr.mem_iff.2 he, by simp⟩
  refine ⟨hnum, ?_⟩
  simp only [runPageRankEdgePerLineRanks, hparse, Option.bind_eq_bind, Option.some_bind,
    groupToIndex, hall]
  rfl

theorem runPageRankEdgePerLineRanks_max_id_one_edge :
    parseEdges ["18446744073709551615 0"] = some [⟨sizeTRange - 1, 0⟩] ∧
    (∃ e ∈ ([⟨sizeTRange - 1, 0⟩] : List PagePageLink),
      e.src = sizeTRange - 1 ∨ e.tgt = sizeTRange - 1) ∧
    (List.reverse [⟨sizeTRange - 1, 0⟩]).Perm ([⟨sizeTRange - 1, 0⟩] : List PagePageLink) ∧
    numPages [⟨sizeTRange - 1, 0⟩] = 0 ∧
    runPageRankEdgePerLineRanks ["18446744073709551615 0"] List.reverse [0] 3 = none :=
  ⟨by decide, ⟨_, List.mem_singleton_self _, Or.inl rfl⟩, List.Perm.refl _,
    runPageRankEdgePerLineRanks_max_id ["18446744073709551615 0"] [⟨sizeTRange - 1, 0⟩]
      (by decide) ⟨_, List.mem_singleton_self _, Or.inl rfl⟩ List.reverse (List.Perm.refl _)
      [0] 3⟩

/-! ## The join driver's ranks -/

section Join

variable {edges arrival : List PagePageLink} {order : List PageId} {n : Nat}

/-- When the pages with an out-edge are `[0, n)`, `GroupByKey` gives one link record per
page, in some order. -/
theorem groupByKey_perm_adjacency (harr : arrival.Perm edges)
    (hlt : ∀ e ∈ edges, e.src < n) (hsrc : ∀ i < n, ∃ e ∈ edges, e.src = i)
    (hnodup : order.Nodup) (hord : ∀ e ∈ edges, e.src ∈ order) :
    (groupByKey PagePageLink.src groupByKeyLambda arrival order []).Perm
      ((List.range n).map fun i => (i, linksOf (adjacency arrival n) i)) := by
  have hkeys : (order.filter fun k => arrival.any (·.src = k)).Perm (List.range n) := by
    refine (List.perm_ext_iff_of_nodup (hnodup.filter _) (List.nodup_range n)).2 fun k => ?_
    simp only [List.mem_filter, List.any_eq_true, decide_eq_true_eq, harr.mem_iff,
      List.mem_range]
    constructor
    · rintro ⟨-, e, he, rfl⟩; exact hlt e he
    · intro hk
      obtain ⟨e, he, rfl⟩ := hsrc k hk
      exact ⟨hord e he, e, he, rfl⟩
  rw [groupByKey_targets]
  refine (hkeys.map _).trans (List.Perm.of_eq (List.map_congr_left fun i hi => ?_))
  rw [adjacency, linksOf_map_range, if_pos (List.mem_range.1 hi)]

end Join

/-- When every page of `[0, n)` has an in-link and an out-link, whatever order the engine
delivers the edges and the keys in, the ranks of `RunJoinPageRankEdgePerLine` after one
iteration or more are `n` times the reference power iteration on the graph of its
edges, one record per page. -/
theorem runJoinPageRankEdgePerLineRanks_eq (lines : List String) (edges : List PagePageLink)
    (hparse : parseEdges lines = some edges) (n : Nat)
    (hlt : ∀ e ∈ edges, e.src < n ∧ e.tgt < n) (hsrc : ∀ i < n, ∃ e ∈ edges, e.src = i)
    (hin : ∀ i < n, ∃ e ∈ edges, e.tgt = i)
    (arrival : List PagePageLink → List PagePageLink) (harr : (arrival edges).Perm edges)
    (order : List PageId) (hnodup : order.Nodup) (hord : ∀ e ∈ edges, e.src ∈ order)
    (t : Nat) (ht : 1 ≤ t) :
    ∃ ranks, runJoinPageRankEdgePerLineRanks lines arrival order t = some ranks ∧
      ranks.Perm ((List.range n).map fun i =>
        (i, n * powerIteration (adjacency edges n) n t i)) := by
  have hmem : ∀ {e}, e ∈ arrival edges ↔ e ∈ edges := harr.mem_iff
  have hperm := groupByKey_perm_adjacency harr (fun e he => (hlt e he).1) hsrc hnodup hord
  have hin' := adjacency_inlinks (fun e he => (hlt e (hmem.1 he)).1) fun q hq =>
    let ⟨e, he, heq⟩ := hin q hq; ⟨e, hmem.2 he, heq⟩
  simp only [runJoinPageRankEdgePerLineRanks, hparse, Option.bind_eq_bind, Option.some_bind]
  refine ⟨_, rfl, ?_⟩
  rw [← powerIteration_congr (linksOf_adjacency_perm harr)]
  exact pageRankJoinSelf_perm_canon (length_adjacency _ n)
    (adjacency_targets fun e he => (hlt e (hmem.1 he)).2) hperm hin' ht

theorem runJoinPageRankEdgePerLineRanks_two_pages :
    parseEdges ["0 1", "1 0"] = some [⟨0, 1⟩, ⟨1, 0⟩] ∧
    (∀ e ∈ ([⟨0, 1⟩, ⟨1, 0⟩] : List PagePageLink), e.src < 2 ∧ e.tgt < 2) ∧
    (∀ i < 2, ∃ e ∈ ([⟨0, 1⟩, ⟨1, 0⟩] : List PagePageLink), e.src = i) ∧
    (∀ i < 2, ∃ e ∈ ([⟨0, 1⟩, ⟨1, 0⟩] : List PagePageLink), e.tgt = i) ∧
    (List.reverse [⟨0, 1⟩, ⟨1, 0⟩]).Perm ([⟨0, 1⟩, ⟨1, 0⟩] : List PagePageLink) ∧
    [1, 0].Nodup ∧ (∀ e ∈ ([⟨0, 1⟩, ⟨1, 0⟩] : List PagePageLink), e.src ∈ [1, 0]) ∧
    1 ≤ 1 ∧
    ∃ ranks, runJoinPageRankEdgePerLineRanks ["0 1", "1 0"] List.reverse [1, 0] 1 = some ranks ∧
      ranks.Perm ((List.range 2).map fun i =>
        (i, 2 * powerIteration (adjacency [⟨0, 1⟩, ⟨1, 0⟩] 2) 2 1 i)) :=
  ⟨by decide, by decide, by decide, by decide, by decide, by decide, by decide, le_rfl,
    runJoinPageRankEdgePerLineRanks_eq ["0 1", "1 0"] [⟨0, 1⟩, ⟨1, 0⟩] (by decide) 2
      (by decide) (by decide) (by decide) List.reverse (by decide) [1, 0] (by decide)
      (by decide) 1 le_rfl⟩

end ThrillPageRank.EdgePerLine
