import ThrillPageRank.PageRankOn
import ThrillPageRank.EdgePerLine
/-!
# `RunPageRankEdgePerLine` on the workers

Modelled from the spec (§4.1, §4.2, §5): `ReadLines` leaves the lines on the workers in
some placement and the parser Map runs on each worker; `Max` gives every worker the
largest id; `GroupToIndex` sends every edge to the worker that owns its source page,
where the worker's copy of the group lambda builds the adjacency lists of its range (a
source outside `[0, num_pages)` is an error); and `PageRank` runs on the workers over the
same ranges. When no id is `2^64 - 1`, whatever the placement of the lines, the split of
the pages into ranges and the orders the engine picks, every check passes and each worker
ends with its range of the reference power iteration on the graph of the input.
-/

namespace ThrillPageRank.EdgePerLineOn

open Dia PageRank PowerIteration LineParser Grouping EdgePerLine LocationDetection ReduceOn
  PageRankOn

variable {workers : Nat}

/-- `PageRankLineParser` on each worker's lines: the edges of every worker, or `none` when a
line on some worker does not parse. -/
def parseEdgesOn (workers : Nat) (lines : Nat → List String) :
    Option (Nat → List PagePageLink) :=
  if (List.range workers).all fun w => (parseEdges (lines w)).isSome then
    some fun w => (parseEdges (lines w)).getD []
  else none

/-- The ranks `RunPageRankEdgePerLine` leaves on the workers. `split n` is how the engine
splits `n` pages into ranges, the edges reach their owners in the order `arriveE`, each
worker calls the group lambda in the order `order`, and the contributions reach their
owners in the order `arriveC`. -/
def runPageRankEdgePerLineOn (split : (n : Nat) → RangeSplit workers n)
    (arriveE : Nat → List PagePageLink → List PagePageLink) (order : Nat → List PageId)
    (arriveC : Nat → List PageRankPair → List PageRankPair) (lines : Nat → List String)
    (iterations : Nat) : Option (Nat → List Rank) := do
  let edges ← parseEdgesOn workers lines
  let n := numPages (items workers edges)
  let links ← groupToIndexOn (split n) PagePageLink.src groupToIndexLambda [] arriveE order
    edges []
  pageRankOn (split n) arriveC links iterations

/-! ## The parser Map on the workers -/

/-- When every worker's lines parse, the workers hold the edges the parser gives for all
lines one after the other. -/
theorem parseEdgesOn_items {lines : Nat → List String} {edges : Nat → List PagePageLink}
    (h : ∀ w < workers, parseEdges (lines w) = some (edges w)) :
    ∃ edges', parseEdgesOn workers lines = some edges' ∧
      items workers edges' = items workers edges ∧
      parseEdges (items workers lines) = some (items workers edges) := by
  have hall : ((List.range workers).all fun w => (parseEdges (lines w)).isSome) = true :=
    List.all_eq_true.2 fun w hw => by simp [h w (List.mem_range.1 hw)]
  refine ⟨_, if_pos hall, List.flatMap_congr fun w hw => by
    simp [h w (List.mem_range.1 hw)], ?_⟩
  suffices ∀ m ≤ workers,
      parseEdges ((List.range m).flatMap lines) = some ((List.range m).flatMap edges) from
    this workers le_rfl
  intro m hm
  induction m with
  | zero => rfl
  | succ m ih =>
    rw [List.range_succ, List.flatMap_append, List.flatMap_append, List.flatMap_singleton,
      List.flatMap_singleton, parseEdges, List.mapM_append, ← parseEdges, ← parseEdges,
      ih (by omega), h m (by omega)]
    rfl

/-! ## `GroupToIndex` on the workers -/

section Group

variable {n : Nat} (s : RangeSplit workers n)
  {arrive : Nat → List PagePageLink → List PagePageLink} {order : Nat → List PageId}
  {part : Nat → List PagePageLink}

/-- On each worker, the lambda leaves at each index of its range the targets of the
index's edges, in the order they reached the worker. -/
theorem groupToIndexAt_targets {w : Nat}
    (hord : ∀ e ∈ arrive w ((items workers part).filter fun x => s.owns w x.src),
      e.src ∈ order w) :
    groupToIndexAt s PagePageLink.src groupToIndexLambda [] arrive order part [] w =
      (s.range w).map fun i =>
        ((arrive w ((items workers part).filter fun x => s.owns w x.src)).filter
          (·.src = i)).map PagePageLink.tgt :=
  List.map_congr_left fun i _ => slot_groupToIndexLambda hord [] i

/-- Each worker holds its range of the adjacency lists of all the edges, each list in the
order its edges arrived. -/
theorem groupToIndexAt_perm_adjacency (harr : ∀ w xs, (arrive w xs).Perm xs)
    (hord : ∀ w < workers, ∀ e ∈ items workers part, s.owns w e.src → e.src ∈ order w)
    {w : Nat} (hw : w < workers) :
    List.Forall₂ List.Perm
      (groupToIndexAt s PagePageLink.src groupToIndexLambda [] arrive order part [] w)
      (s.slice (adjacency (items workers part) n) w) := by
  have hord' : ∀ e ∈ arrive w ((items workers part).filter fun x => s.owns w x.src),
      e.src ∈ order w := fun e he => by
    obtain ⟨he, hown⟩ := List.mem_filter.1 ((harr w _).subset he)
    exact hord w hw e he hown
  rw [groupToIndexAt_targets s hord', adjacency, s.slice_map, s.slice_range hw,
    List.forall₂_map_left_iff, List.forall₂_map_right_iff, List.forall₂_same]
  intro i hi
  rw [← filter_filter_key PagePageLink.src (s.mem_range.1 hi) (items workers part)]
  exact ((harr w _).filter _).map _

end Group

/-! ## The driver -/

/-- For every placement of the input lines on the workers, every split of the pages into
ranges, every order in which the edges and the contributions reach the workers that own
their pages and every order of the lambda's calls on each worker that visits its sources,
when every line parses and no id is `2^64 - 1`, the workers parse the edges the logical
parser gives, and after `t` iterations each worker holds its range of the reference power
iteration on the graph of the edges, the workers' ranks one after the other being all of
it. -/
theorem runPageRankEdgePerLine_on_workers (split : (n : Nat) → RangeSplit workers n)
    (lines : Nat → List String) (edges : Nat → List PagePageLink)
    (hparse : ∀ w < workers, parseEdges (lines w) = some (edges w))
    (hids : ∀ e ∈ items workers edges, e.src < sizeTRange - 1 ∧ e.tgt < sizeTRange - 1)
    (arriveE : Nat → List PagePageLink → List PagePageLink)
    (harrE : ∀ w xs, (arriveE w xs).Perm xs) (order : Nat → List PageId)
    (hord : ∀ w < workers, ∀ e ∈ items workers edges,
      (split (numPages (items workers edges))).owns w e.src → e.src ∈ order w)
    (arriveC : Nat → List PageRankPair → List PageRankPair)
    (harrC : ∀ w xs, (arriveC w xs).Perm xs) (t : Nat) :
    parseEdges (items workers lines) = some (items workers edges) ∧
    ∃ ranks, runPageRankEdgePerLineOn split arriveE order arriveC lines t = some ranks ∧
      items workers ranks = (List.range (numPages (items workers edges))).map
        (powerIteration (adjacency (items workers edges) (numPages (items workers edges)))
          (numPages (items workers edges)) t) ∧
      ∀ w < workers, ranks w = (split (numPages (items workers edges))).slice
        ((List.range (numPages (items workers edges))).map
          (powerIteration (adjacency (items workers edges) (numPages (items workers edges)))
            (numPages (items workers edges)) t)) w := by
  obtain ⟨edges', hparse', hitems, hlogical⟩ := parseEdgesOn_items hparse
  set E := items workers edges
  set s := split (numPages E)
  have hgroup : groupToIndexOn s PagePageLink.src groupToIndexLambda [] arriveE order edges' [] =
      some (groupToIndexAt s PagePageLink.src groupToIndexLambda [] arriveE order edges []) := by
    rw [groupToIndexOn_of_lt s fun e he => (lt_numPages hids (hitems ▸ he)).1]
    congr 1
    funext w
    simp only [groupToIndexAt, hitems]
  obtain ⟨parts, hrun, hsim⟩ := pageRankOn_slice s harrC (length_adjacency E _)
    (adjacency_targets fun e he => (lt_numPages hids he).2)
    (fun w hw => groupToIndexAt_perm_adjacency s harrE hord hw) t
  refine ⟨hlogical, parts, ?_, ?_, hsim⟩
  · simp only [runPageRankEdgePerLineOn, hparse', Option.bind_eq_bind, Option.some_bind]
    rw [hitems, hgroup, Option.some_bind]
    exact hrun
  rw [items, List.flatMap_congr fun w hw => hsim w (List.mem_range.1 hw),
    s.flatMap_slice (by simp)]

theorem runPageRankEdgePerLine_on_two_workers :
    (∀ w < 2, parseEdges ((fun w => if w = 0 then ["0 1"] else ["1 0"]) w) =
      some ((fun w : Nat => if w = 0 then [PagePageLink.mk 0 1] else [⟨1, 0⟩]) w)) ∧
    (∀ e ∈ items 2 (fun w : Nat => if w = 0 then [PagePageLink.mk 0 1] else [⟨1, 0⟩]),
      e.src < sizeTRange - 1 ∧ e.tgt < sizeTRange - 1) ∧
    (∀ (_ : Nat) (xs : List PagePageLink), (List.reverse xs).Perm xs) ∧
    (∀ w < 2, ∀ e ∈ items 2
        (fun w : Nat => if w = 0 then [PagePageLink.mk 0 1] else [⟨1, 0⟩]),
      (RangeSplit.even 2 (numPages (items 2 fun w : Nat =>
        if w = 0 then [PagePageLink.mk 0 1] else [⟨1, 0⟩])) (by decide)).owns w e.src →
          e.src ∈ [0, 1]) ∧
    (∀ (_ : Nat) (xs : List PageRankPair), (List.reverse xs).Perm xs) ∧
    parseEdges (items 2 fun w => if w = 0 then ["0 1"] else ["1 0"]) =
      some (items 2 fun w : Nat => if w = 0 then [PagePageLink.mk 0 1] else [⟨1, 0⟩]) ∧
    ∃ ranks, runPageRankEdgePerLineOn (fun n => RangeSplit.even 2 n (by decide))
        (fun _ => List.reverse) (fun _ => [0, 1]) (fun _ => List.reverse)
        (fun w => if w = 0 then ["0 1"] else ["1 0"]) 2 = some ranks ∧
      items 2 ranks = (List.range 2).map
        (powerIteration [[1], [0]] 2 2) ∧
      ∀ w < 2, ranks w = (RangeSplit.even 2 2 (by decide)).slice
        ((List.range 2).map (powerIteration [[1], [0]] 2 2)) w :=
  ⟨by decide, by decide, fun _ xs => List.reverse_perm xs, by decide,
    fun _ xs => List.reverse_perm xs,
    runPageRankEdgePerLine_on_workers (fun n => RangeSplit.even 2 n (by decide))
      (fun w => if w = 0 then ["0 1"] else ["1 0"])
      (fun w : Nat => if w = 0 then [PagePageLink.mk 0 1] else [⟨1, 0⟩]) (by decide)
      (by decide) (fun _ => List.reverse) (fun _ xs => List.reverse_perm xs)
      (fun _ => [0, 1]) (by decide) (fun _ => List.reverse) (fun _ xs => List.reverse_perm xs) 2⟩

end ThrillPageRank.EdgePerLineOn
