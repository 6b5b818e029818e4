import ThrillPageRank.Dia
/-!
# The three PageRank shapes of `page_rank.hpp`

`PageRank` pairs the adjacency lists with the ranks by position (`Zip`) and sums
the contributions with `ReduceToIndex`; `PageRankJoin` and `PageRankJoinSelf` pair
them by key (`InnerJoin`) and sum with `ReducePair`. The debug printing is dead
code (`debug = false`) and `Collapse()` and `Execute()` do not change the items,
so neither appears here. The join's location-detection flag does not change what
the join computes, only how (`LocationDetection.lean`).
-/

namespace ThrillPageRank.PageRank

open Dia

/-- The FlatMap lambda of all three shapes: a page with `k > 0` outgoing links and
rank `r` emits `r / k` to each target, a page without links emits nothing. `mk`
builds the record: `PageRankPair` in `PageRank`, `std::pair` in the join shapes. -/
def emitContribs {β : Type} (mk : PageId → Rank → β) (p : OutgoingLinksRank) : List β :=
  if p.1.length = 0 then [] else p.1.map fun tgt => mk tgt (p.2 / p.1.length)

/-- `iterations` passes of a loop body that may fail. -/
def iterate {α : Type} (step : α → Option α) : Nat → α → Option α
  | 0, a => some a
  | n + 1, a => iterate step n a >>= step

/-! ## `PageRank`: Zip and ReduceToIndex -/

/-- The ReduceToIndex lambda of `PageRank`. -/
def addRanks (p1 p2 : PageRankPair) : PageRankPair := ⟨p1.page, p1.rank + p2.rank⟩

/-- One pass of `PageRank`'s loop: Zip, FlatMap, ReduceToIndex (the neutral element is
the value-initialised `PageRankPair`) and the dampening Map. -/
def pageRankStep (links : List OutgoingLinks) (numPages : Nat) (ranks : List Rank) :
    Option (List Rank) := do
  let outsRank ← zip (fun ol r => (ol, r)) links ranks
  let contribs := outsRank.flatMap (emitContribs PageRankPair.mk)
  let reduced ← reduceToIndex PageRankPair.page addRanks numPages ⟨0, 0⟩ contribs
  pure (reduced.map fun p => dampening * p.rank + (1 - dampening) / numPages)

def pageRank (links : List OutgoingLinks) (numPages iterations : Nat) : Option (List Rank) :=
  iterate (pageRankStep links numPages) iterations
    (generate numPages fun _ => 1 / (numPages : Rank))

/-! ## `PageRankJoinSelf` and `PageRankJoin`: InnerJoin and ReducePair -/

/-- One pass of the join shapes' loop: InnerJoin of the links with the ranks on the
page, FlatMap, ReducePair with `+` and a dampening Map that adds `teleport`. -/
def joinRankStep (teleport : Rank) (links : List LinkedPage) (ranks : List RankedPage) :
    List RankedPage :=
  let outsRank := innerJoin Prod.fst Prod.fst (fun lp rp => (lp.2, rp.2)) links ranks
  let contribs := outsRank.flatMap (emitContribs Prod.mk)
  (reducePair (· + ·) contribs).map fun p => (p.1, dampening * p.2 + teleport)

/-- `PageRankJoinSelf`'s pass adds `1 - dampening`, without dividing by a page count. -/
def pageRankJoinSelfStep (links : List LinkedPage) : List RankedPage → List RankedPage :=
  joinRankStep (1 - dampening) links

def pageRankJoinSelf (links : List LinkedPage) (iterations : Nat) : List RankedPage :=
  (pageRankJoinSelfStep links)^[iterations] (links.map fun lp => (lp.1, 1))

def pageRankJoinStep (links : List LinkedPage) (numPages : Nat) :
    List RankedPage → List RankedPage :=
  joinRankStep ((1 - dampening) / numPages) links

def pageRankJoin (links : List LinkedPage) (numPages iterations : Nat) : List RankedPage :=
  (pageRankJoinStep links numPages)^[iterations]
    (generate numPages fun idx => (idx, 1 / (numPages : Rank)))

/-! ## Loops -/

theorem pageRankJoinSelf_succ (links : List LinkedPage) (t : Nat) :
    pageRankJoinSelf links (t + 1) = pageRankJoinSelfStep links (pageRankJoinSelf links t) :=
  Function.iterate_succ_apply' _ _ _

theorem pageRankJoin_succ (links : List LinkedPage) (n t : Nat) :
    pageRankJoin links n (t + 1) = pageRankJoinStep links n (pageRankJoin links n t) :=
  Function.iterate_succ_apply' _ _ _

end ThrillPageRank.PageRank
