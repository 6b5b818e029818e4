import ThrillPageRank.PowerIteration
import ThrillPageRank.LineParser
import Mathlib.Data.Rat.Floor
/-!
# The output lines

`RunPageRankEdgePerLine` and `RunPageRankGenerated` write the ranks with
`ZipWithIndex`, which calls its function with the element first and the index second.
The first declares its lambda `(const Rank& r, const PageId& p)` and prints
`"%zu: %g", p, r`. The second declares it `(const PageId& p, const Rank& r)`, so the
rank is converted to a `size_t` (truncated) and the index to a `double`: its page field
is the integer part of the rank and its rank field the index. On every graph of two
pages or more, the line it writes for page `i` reads `0: i.000000`.
-/

namespace ThrillPageRank.Output

open Dia PageRank PowerIteration LineParser

/-- `a / b` rounded to the nearest integer, ties to even, as glibc's `printf` rounds an
exact decimal. -/
def roundHalfEven (a b : Nat) : Nat :=
  if 2 * (a % b) < b then a / b
  else if b < 2 * (a % b) then a / b + 1
  else if a / b % 2 = 0 then a / b else a / b + 1

/-- `std::to_string(double)`, which prints `"%f"`: six decimals. -/
def toStringDouble (x : Rank) : String :=
  let m := roundHalfEven (|x|.num.natAbs * 10 ^ 6) |x|.den
  let frac := toString (m % 10 ^ 6)
  (if x < 0 then "-" else "") ++ toString (m / 10 ^ 6) ++ "." ++
    "".pushn '0' (6 - frac.length) ++ frac

/-- The conversion of a `double` to `size_t`: truncation, for the non-negative ranks. -/
def toSizeT (x : Rank) : PageId := ⌊x⌋₊

/-- The lambda of `RunPageRankGenerated`: `std::to_string(p) + ": " + std::to_string(r)`. -/
def generatedLambda (p : PageId) (r : Rank) : String := toString p ++ ": " ++ toStringDouble r

/-- `ranks.ZipWithIndex(lambda)` in `RunPageRankGenerated`: the rank at index `i` becomes
`p`, the index (converted to `double`) becomes `r`. -/
def generatedLines (ranks : List Rank) : List String :=
  zipWithIndex (fun r i => generatedLambda (toSizeT r) i) ranks

/-! ## The other drivers' lines

They print the rank with `"%g"`, a parameter `formatG` here: what is proved of these
lines holds for every rendering of the rank, and reads only the page field before it. -/

section Printf

variable (formatG : Rank → String)

/-- The lambda of `RunPageRankEdgePerLine`: `tlx::ssprintf("%zu: %g", p, r)`. -/
def edgePerLineLambda (r : Rank) (p : PageId) : String := toString p ++ ": " ++ formatG r

def edgePerLineLines (ranks : List Rank) : List String :=
  zipWithIndex (edgePerLineLambda formatG) ranks

/-- The Map lambda of the join drivers: `tlx::ssprintf("%zu: %g", rp.first, rp.second)`. -/
def joinLine (rp : RankedPage) : String := toString rp.1 ++ ": " ++ formatG rp.2

end Printf

/-! ## What the lines say -/

/-- An index converted to `double` prints as its digits and six zeros. -/
theorem toStringDouble_natCast (i : Nat) : toStringDouble i = toString i ++ ".000000" := by
  have hm : roundHalfEven (i * 10 ^ 6) 1 = i * 10 ^ 6 := by simp [roundHalfEven, Nat.mod_one]
  have hneg : ¬ (i : Rank) < 0 := not_lt.2 (Nat.cast_nonneg i)
  simp only [toStringDouble, Nat.abs_cast, Rat.num_natCast, Int.natAbs_ofNat, Rat.den_natCast, hm,
    Nat.mul_mod_left, Nat.mul_div_cancel _ (by norm_num : 0 < 10 ^ 6), if_neg hneg,
    String.append_assoc]
  rfl

/-- Read with `strtoul`, the page field of every line `RunPageRankEdgePerLine` writes is
the line's index, and `": "` follows it. -/
theorem edgePerLineLines_page_ids (formatG : Rank → String) (ranks : List Rank)
    (h : ranks.length ≤ sizeTRange) :
    (edgePerLineLines formatG ranks).map (fun line => strtoul line.data) =
      (List.range ranks.length).map fun i =>
        (i, ':' :: ' ' :: (formatG (ranks.getD i 0)).data) := by
  refine List.ext_getElem (by simp [edgePerLineLines, zipWithIndex]) fun i h₁ _ => ?_
  have hi : i < ranks.length := by simpa [edgePerLineLines, zipWithIndex] using h₁
  simp only [edgePerLineLines, zipWithIndex, edgePerLineLambda, List.getElem_map,
    List.getElem_enum, List.getElem_range, String.data_append, List.append_assoc]
  rw [strtoul_toString_append (by omega) _ (by simp)]
  simp [List.getD_eq_getElem?_getD, List.getElem?_eq_getElem hi]

/-- Read with `strtoul`, the page field of a line the join drivers write is the record's
page, and `": "` follows it. -/
theorem strtoul_joinLine (formatG : Rank → String) {rp : RankedPage} (h : rp.1 < sizeTRange) :
    strtoul (joinLine formatG rp).data = (rp.1, ':' :: ' ' :: (formatG rp.2).data) := by
  simp only [joinLine, String.data_append, List.append_assoc]
  exact strtoul_toString_append h _ (by simp)

/-- `strtoul` reads back the page field of every line written for ranks with ids below
`2^64`. -/
theorem map_strtoul_joinLine (formatG : Rank → String) {rs : List RankedPage}
    (h : ∀ rp ∈ rs, rp.1 < sizeTRange) :
    (rs.map (joinLine formatG)).map (fun line => (strtoul line.data).1) = rs.map Prod.fst := by
  rw [List.map_map]
  exact List.map_congr_left fun rp hrp => by
    rw [Function.comp_apply, strtoul_joinLine formatG (h rp hrp)]

theorem edgePerLineLines_page_ids_two_pages :
    [(1 : Rank) / 2, 1 / 2].length ≤ sizeTRange ∧
      (edgePerLineLines (fun _ => "0.5") [1 / 2, 1 / 2]).map (fun line => strtoul line.data) =
        (List.range 2).map fun i =>
          (i, ':' :: ' ' :: ((fun _ => "0.5") ([(1 : Rank) / 2, 1 / 2].getD i 0)).data) :=
  ⟨by decide, edgePerLineLines_page_ids (fun _ => "0.5") [1 / 2, 1 / 2] (by decide)⟩

/-- A rank below one is truncated to page `0`. -/
theorem generatedLines_of_lt_one {ranks : List Rank} (h : ∀ r ∈ ranks, r < 1) :
    generatedLines ranks =
      (List.range ranks.length).map fun i => "0: " ++ toString i ++ ".000000" := by
  refine List.ext_getElem (by simp [generatedLines, zipWithIndex]) fun i h₁ _ => ?_
  have hi : i < ranks.length := by simpa [generatedLines, zipWithIndex] using h₁
  have hlt : ranks[i] < 1 := h _ (List.getElem_mem hi)
  simp only [generatedLines, zipWithIndex, generatedLambda, toSizeT, List.getElem_map,
    List.getElem_enum, Nat.floor_eq_zero.2 hlt, toStringDouble_natCast, List.getElem_range,
    String.append_assoc]
  rfl

section Graph

variable {links : List OutgoingLinks} {n : Nat}

/-- With two pages or more, each page's rank stays below one: every other page keeps at
least the dampening floor and the total is at most one. -/
theorem powerIteration_lt_one (hn : 2 ≤ n) (hlen : links.length = n)
    (htgt : ∀ ol ∈ links, ∀ q ∈ ol, q < n) (t : Nat) {q : Nat} (hq : q < n) :
    powerIteration links n t q < 1 := by
  have hfloor : 0 < (1 - dampening) / n :=
    div_pos (by linarith [dampening_lt_one]) (by norm_cast; omega)
  obtain ⟨p, hp, hpq⟩ : ∃ p, p < n ∧ p ≠ q :=
    ⟨if q = 0 then 1 else 0, by split <;> omega, by split <;> omega⟩
  calc powerIteration links n t q
      < ∑ k in Finset.range n, powerIteration links n t k :=
        Finset.single_lt_sum hpq (Finset.mem_range.2 hq) (Finset.mem_range.2 hp)
          (hfloor.trans_le (floor_le_powerIteration t p))
          fun k _ _ => powerIteration_nonneg t k
    _ ≤ 1 := total_le_one hlen htgt t

end Graph

/-- On every graph of two pages or more and after any number of iterations,
`RunPageRankGenerated` writes `0` as every page and the index as every rank. -/
theorem runPageRankGenerated_lines (links : List OutgoingLinks) (n : Nat) (hn : 2 ≤ n)
    (hlen : links.length = n) (htgt : ∀ ol ∈ links, ∀ q ∈ ol, q < n) (t : Nat) :
    ∃ ranks, pageRank links n t = some ranks ∧
      generatedLines ranks = (List.range n).map fun i => "0: " ++ toString i ++ ".000000" := by
  refine ⟨_, pageRank_spec hlen htgt t, ?_⟩
  rw [generatedLines_of_lt_one, List.length_map, List.length_range]
  simp only [List.mem_map, List.mem_range]
  rintro _ ⟨q, hq, rfl⟩
  exact powerIteration_lt_one hn hlen htgt t hq

theorem runPageRankGenerated_lines_two_pages :
    2 ≤ 2 ∧ [[1], [0]].length = 2 ∧ (∀ ol ∈ [[1], [0]], ∀ q ∈ ol, q < 2) ∧
    ∃ ranks, pageRank [[1], [0]] 2 1 = some ranks ∧
      generatedLines ranks = ["0: 0.000000", "0: 1.000000"] :=
  ⟨le_rfl, rfl, by decide, runPageRankGenerated_lines [[1], [0]] 2 le_rfl rfl (by decide) 1⟩

end ThrillPageRank.Output
