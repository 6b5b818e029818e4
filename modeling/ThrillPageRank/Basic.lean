import Mathlib.Algebra.Order.Field.Rat
import Mathlib.Tactic.NormNum
/-!
# The records of the PageRank example

`page_rank.hpp` passes page ids (`size_t`), ranks (`double`) and a few record
types between the operators. Page ids are natural numbers; where the code's
64-bit arithmetic matters (the line parser and `num_pages`) it is written out
with `% 2 ^ 64`. Ranks are exact rationals, so the theorems are about the
recurrence the code computes and not about rounding.
-/

namespace ThrillPageRank

abbrev PageId := Nat

abbrev Rank := ℚ

/-- `dampening = 0.85`. -/
def dampening : Rank := 85 / 100

/-- A pair (page source, page target). -/
structure PagePageLink where
  src : PageId
  tgt : PageId
deriving DecidableEq, Repr

/-- A pair (page, rank). -/
structure PageRankPair where
  page : PageId
  rank : Rank
deriving DecidableEq, Repr

abbrev PageRankStdPair := PageId × Rank

abbrev OutgoingLinks := List PageId

abbrev OutgoingLinksRank := OutgoingLinks × Rank

abbrev LinkedPage := PageId × OutgoingLinks

abbrev RankedPage := PageId × Rank

/-- The number of values of `size_t`. -/
def sizeTRange : Nat := 2 ^ 64

theorem dampening_pos : 0 < dampening := by norm_num [dampening]

theorem dampening_lt_one : dampening < 1 := by norm_num [dampening]

end ThrillPageRank
