import ThrillPageRank.ReduceOn
/-!
# `PageRankJoin` on the workers, from the join to the reduce

Modelled from the spec (§4.3, §4.4): a pass of the join shapes runs `InnerJoin` on the
workers (locally when location detection is on and both sides already sit where `dest`
sends their pages), the FlatMap on each worker, `ReducePair` on the workers and the
dampening Map on each worker. `ReducePair` leaves every rank on the worker `dest` names
for its page, so when the links sit there too (as `GroupByKey` leaves them when it sends
each page where the join does) every pass after the first joins without a shuffle. Either
way the ranks are those of the logical `PageRankJoin`, up to order. `PageRankJoinSelf`
starts from a Map of the link records, so its ranks sit with the links from the first
pass on.
-/

namespace ThrillPageRank.JoinShapeOn

open Dia PageRank PowerIteration JoinShape LocationDetection ReduceOn

variable {workers numPages : Nat}

/-- The `InnerJoin` of a join pass on the workers. -/
abbrev joinOn (detect : Bool) (dest : PageId → Nat) (workers : Nat)
    (links : Nat → List LinkedPage) (ranks : Nat → List RankedPage) :
    Nat → List OutgoingLinksRank :=
  innerJoinOn Prod.fst Prod.fst (fun lp rp => (lp.2, rp.2)) detect dest workers links ranks

/-- One pass of a join shape on the workers: `InnerJoin`, the FlatMap on each worker,
`ReducePair` on the workers (the folded contributions reach each worker in the order
`arrive`) and the dampening Map on each worker. -/
def joinPassOn (teleport : Rank) (detect : Bool) (dest : PageId → Nat) (workers : Nat)
    (arrive : Nat → List RankedPage → List RankedPage) (links : Nat → List LinkedPage)
    (ranks : Nat → List RankedPage) (i : Nat) : List RankedPage :=
  (reducePairOn (· + ·) dest workers arrive
    (fun w => (joinOn detect dest workers links ranks w).flatMap (emitContribs Prod.mk)) i).map
    fun p => (p.1, dampening * p.2 + teleport)

/-- `PageRankJoin` on the workers: `Generate` gives each worker the pages of its range with
rank `1 / n`, then `iterations` passes. -/
def pageRankJoinOn (s : RangeSplit workers numPages) (detect : Bool) (dest : PageId → Nat)
    (arrive : Nat → List RankedPage → List RankedPage) (links : Nat → List LinkedPage)
    (iterations : Nat) : Nat → List RankedPage :=
  (joinPassOn ((1 - dampening) / numPages) detect dest workers arrive links)^[iterations]
    fun w => (s.range w).map fun idx => (idx, 1 / (numPages : Rank))

/-- `PageRankJoinSelf` on the workers: each worker maps its own link records to rank `1`,
then `iterations` passes. -/
def pageRankJoinSelfOn (detect : Bool) (dest : PageId → Nat) (workers : Nat)
    (arrive : Nat → List RankedPage → List RankedPage) (links : Nat → List LinkedPage)
    (iterations : Nat) : Nat → List RankedPage :=
  (joinPassOn (1 - dampening) detect dest workers arrive links)^[iterations]
    fun w => (links w).map fun lp => (lp.1, 1)

section Pass

variable {teleport : Rank} {detect : Bool} {dest : PageId → Nat}
  {arrive : Nat → List RankedPage → List RankedPage}

/-- A pass on the workers returns the records of the logical pass, up to order. -/
theorem items_joinPassOn_perm (hdest : ∀ k, dest k < workers)
    (harr : ∀ i xs, (arrive i xs).Perm xs) (links : Nat → List LinkedPage)
    (ranks : Nat → List RankedPage) :
    (items workers (joinPassOn teleport detect dest workers arrive links ranks)).Perm
      (joinRankStep teleport (items workers links) (items workers ranks)) := by
  have hjoin : (items workers (joinOn detect dest workers links ranks)).Perm
      (joinLinks (items workers links) (items workers ranks)) :=
    items_innerJoinOn Prod.fst Prod.fst _ detect links ranks ▸
      items_shuffleJoin_perm _ _ _ hdest links ranks
  unfold joinPassOn
  rw [joinRankStep_eq_rankPass, rankPass, items, ← List.map_flatMap]
  refine ((items_reducePairOn_perm hdest harr _).trans (reducePair_add_perm ?_)).map _
  rw [items, ← List.flatMap_assoc]
  exact hjoin.flatMap_right _

/-- After a pass on the workers, every rank sits on the worker `dest` names for its page. -/
theorem placed_joinPassOn (harr : ∀ i xs, (arrive i xs).Perm xs)
    (links : Nat → List LinkedPage) (ranks : Nat → List RankedPage) :
    Placed Prod.fst dest workers
      (joinPassOn teleport detect dest workers arrive links ranks) := by
  intro i hi x hx
  obtain ⟨y, hy, rfl⟩ := List.mem_map.1 hx
  exact placed_reducePairOn harr _ i hi y hy

/-- With detection on and the links where `dest` sends their pages, location detection
finds the ranks a pass left on the workers placed too: the next join takes the local path. -/
theorem joinsLocally_joinPassOn (hlinks : Placed Prod.fst dest workers links)
    (harr : ∀ i xs, (arrive i xs).Perm xs) (ranks : Nat → List RankedPage) :
    JoinsLocally Prod.fst Prod.fst true dest workers links
      (joinPassOn teleport detect dest workers arrive links ranks) :=
  ⟨rfl, hlinks, placed_joinPassOn harr links ranks⟩

end Pass

section Run

variable {teleport : Rank} {detect : Bool} {dest : PageId → Nat}
  {arrive : Nat → List RankedPage → List RankedPage} {links : Nat → List LinkedPage}

/-- From ranks with one entry per page, every pass run on the workers returns the records
of the logical pass, up to order, so the whole run does too. -/
theorem items_iterate_joinPassOn_perm (hdest : ∀ k, dest k < workers)
    (harr : ∀ i xs, (arrive i xs).Perm xs) (init : Nat → List RankedPage)
    (hinit : ((items workers init).map Prod.fst).Nodup) (t : Nat) :
    (items workers ((joinPassOn teleport detect dest workers arrive links)^[t] init)).Perm
      ((joinRankStep teleport (items workers links))^[t] (items workers init)) := by
  induction t with
  | zero => exact List.Perm.refl _
  | succ t ih =>
    have hkeys : (((joinRankStep teleport (items workers links))^[t]
        (items workers init)).map Prod.fst).Nodup := by
      cases t with
      | zero => exact hinit
      | succ t => rw [Function.iterate_succ_apply']; exact keys_nodup_joinRankStep _
    rw [Function.iterate_succ_apply', Function.iterate_succ_apply',
      ← joinRankStep_of_perm hkeys ih]
    exact items_joinPassOn_perm hdest harr links _

theorem items_generateOn {n : Nat} (s : RangeSplit workers n) (f : Nat → RankedPage) :
    items workers (fun w => (s.range w).map f) = generate n f := by
  rw [items, ← List.map_flatMap, s.flatMap_range]
  rfl

/-- Run on the workers, `PageRankJoin` returns the records of the logical run, up to
order. -/
theorem items_pageRankJoinOn_perm {n : Nat} (s : RangeSplit workers n)
    (hdest : ∀ k, dest k < workers) (harr : ∀ i xs, (arrive i xs).Perm xs) (t : Nat) :
    (items workers (pageRankJoinOn s detect dest arrive links t)).Perm
      (pageRankJoin (items workers links) n t) := by
  rw [pageRankJoin, ← items_generateOn s]
  exact items_iterate_joinPassOn_perm hdest harr _ (by
    rw [items_generateOn]
    simpa [generate, List.map_map, Function.comp_def] using List.nodup_range n) t

/-- Run on the workers, `PageRankJoinSelf` returns the records of the logical run, up to
order, when the link records have distinct pages. -/
theorem items_pageRankJoinSelfOn_perm (hdest : ∀ k, dest k < workers)
    (harr : ∀ i xs, (arrive i xs).Perm xs) (hkeys : ((items workers links).map Prod.fst).Nodup)
    (t : Nat) :
    (items workers (pageRankJoinSelfOn detect dest workers arrive links t)).Perm
      (pageRankJoinSelf (items workers links) t) := by
  have hinit : items workers (fun w => (links w).map fun lp => (lp.1, (1 : Rank))) =
      (items workers links).map fun lp => (lp.1, 1) := (List.map_flatMap _ _ _).symm
  rw [pageRankJoinSelf, ← hinit]
  exact items_iterate_joinPassOn_perm hdest harr _ (by
    rw [hinit]; simpa [List.map_map, Function.comp_def] using hkeys) t

/-- The initial ranks sit with their link records, and every pass leaves each rank on its
page's worker. -/
theorem placed_pageRankJoinSelfOn (hlinks : Placed Prod.fst dest workers links)
    (harr : ∀ i xs, (arrive i xs).Perm xs) (t : Nat) :
    Placed Prod.fst dest workers (pageRankJoinSelfOn detect dest workers arrive links t) := by
  cases t with
  | zero =>
    intro i hi x hx
    obtain ⟨lp, hlp, rfl⟩ := List.mem_map.1 hx
    exact hlinks i hi lp hlp
  | succ t =>
    rw [pageRankJoinSelfOn, Function.iterate_succ_apply']
    exact placed_joinPassOn harr links _

end Run

/-- For every number of workers, every split of the generated pages into ranges, every
destination of the pages below the worker count, every order in which the folded
contributions reach their workers and every iteration count, `PageRankJoin` run on the
workers returns the records of the logical `PageRankJoin`, up to order; and when location
detection is on and the links sit where `dest` sends their pages, location detection finds
both sides of the join of every pass after the first placed, so that join takes the local
path, without a shuffle. -/
theorem pageRankJoin_on_workers_local {n : Nat} (s : RangeSplit workers n) (detect : Bool)
    (dest : PageId → Nat) (hdest : ∀ k, dest k < workers)
    (arrive : Nat → List RankedPage → List RankedPage) (harr : ∀ i xs, (arrive i xs).Perm xs)
    (links : Nat → List LinkedPage) (t : Nat) :
    (items workers (pageRankJoinOn s detect dest arrive links t)).Perm
        (pageRankJoin (items workers links) n t) ∧
      (detect = true → Placed Prod.fst dest workers links → 1 ≤ t →
        JoinsLocally Prod.fst Prod.fst detect dest workers links
          (pageRankJoinOn s detect dest arrive links t)) := by
  refine ⟨items_pageRankJoinOn_perm s hdest harr t, ?_⟩
  rintro rfl hlinks ht
  obtain ⟨t, rfl⟩ := Nat.exists_eq_add_of_le' ht
  rw [pageRankJoinOn, Function.iterate_succ_apply']
  exact joinsLocally_joinPassOn hlinks harr _

theorem pageRankJoin_on_workers_local_two_workers :
    (∀ k, k % 2 < 2) ∧ (∀ (_ : Nat) (xs : List RankedPage), (List.reverse xs).Perm xs) ∧
    (items 2 (pageRankJoinOn (RangeSplit.even 2 2 (by decide)) true (· % 2)
        (fun _ => List.reverse) (fun i => if i = 0 then [(0, [1])] else [(1, [0])]) 3)).Perm
        (pageRankJoin (items 2 fun i => if i = 0 then [(0, [1])] else [(1, [0])]) 2 3) ∧
      (true = true → Placed Prod.fst (· % 2) 2
          (fun i => if i = 0 then [((0 : PageId), [1])] else [(1, [0])]) → 1 ≤ 3 →
        JoinsLocally Prod.fst Prod.fst true (· % 2) 2
          (fun i => if i = 0 then [((0 : PageId), [1])] else [(1, [0])])
          (pageRankJoinOn (RangeSplit.even 2 2 (by decide)) true (· % 2)
            (fun _ => List.reverse) (fun i => if i = 0 then [(0, [1])] else [(1, [0])]) 3)) :=
  ⟨fun k => Nat.mod_lt k (by decide), fun _ xs => List.reverse_perm xs,
    pageRankJoin_on_workers_local (RangeSplit.even 2 2 (by decide)) true (· % 2)
      (fun k => Nat.mod_lt k (by decide)) (fun _ => List.reverse)
      (fun _ xs => List.reverse_perm xs) _ 3⟩

end ThrillPageRank.JoinShapeOn
