import ThrillPageRank.PageRank
import Mathlib.Algebra.Order.BigOperators.Group.Finset
import Mathlib.Algebra.BigOperators.Ring
import Mathlib.Algebra.Order.Field.Basic
import Mathlib.Tactic.Ring
import Mathlib.Tactic.Linarith
import Mathlib.Tactic.Positivity
import Mathlib.Algebra.GeomSum
/-!
# `PageRank` computes the power iteration

The reference is the recurrence of the spec, a finite sum over the pages:
`powerIteration links n t q` is page `q`'s rank after `t` iterations. `pageRank`
returns exactly these `n` ranks for every adjacency list whose targets are pages
(`pageRank_spec`), so every Zip of the loop pairs two DIAs of `n` items. Mass
conservation, with the deficit of dangling pages, and the L1 contraction of one
pass are then facts about the recurrence.
-/

namespace ThrillPageRank.PowerIteration

open Dia PageRank

/-- What a page with out-links `ol` and rank `r` gives page `q`. -/
def share (ol : OutgoingLinks) (r : Rank) (q : PageId) : Rank :=
  if ol = [] then 0 else r * ol.count q / ol.length

/-- The out-links of page `p`. -/
def linksOf (links : List OutgoingLinks) (p : PageId) : OutgoingLinks := links.getD p []

/-- One step of the reference recurrence. -/
def powerStep (links : List OutgoingLinks) (n : Nat) (r : PageId → Rank) (q : PageId) : Rank :=
  dampening * ∑ p in Finset.range n, share (linksOf links p) (r p) q + (1 - dampening) / n

/-- The reference power iteration: `r_0 = 1/n`, `r_(t+1) = powerStep r_t`. -/
def powerIteration (links : List OutgoingLinks) (n : Nat) : Nat → PageId → Rank
  | 0 => fun _ => 1 / n
  | t + 1 => powerStep links n (powerIteration links n t)

/-- The L1 distance of two rank vectors. -/
def l1Dist (xs ys : List Rank) : Rank := (List.zipWith (fun a b => |a - b|) xs ys).sum

/-- The rank held by pages with at least one out-link. -/
def linkedMass (links : List OutgoingLinks) (ranks : List Rank) : Rank :=
  (List.zipWith (fun ol r => if ol = [] then 0 else r) links ranks).sum

/-! ## Lists as functions on the pages -/

theorem map_range_getD {α : Type} (l : List α) (d : α) :
    (List.range l.length).map (l.getD · d) = l := by
  apply List.ext_getElem
  · simp
  · intro i h _
    simp_all [List.getElem?_eq_getElem]

theorem linksOf_mem {links : List OutgoingLinks} {p : PageId} (hp : p < links.length) :
    linksOf links p ∈ links := by
  simp [linksOf, List.getElem?_eq_getElem hp, List.getElem_mem]

theorem sum_map_range {M : Type} [AddCommMonoid M] (n : Nat) (f : Nat → M) :
    ((List.range n).map f).sum = ∑ i in Finset.range n, f i := rfl

theorem zipWith_map_range {α β γ : Type} (f : α → β → γ) (n : Nat) (g : Nat → α)
    (h : Nat → β) :
    List.zipWith f ((List.range n).map g) ((List.range n).map h) =
      (List.range n).map fun i => f (g i) (h i) := by
  rw [List.zipWith_map, List.zipWith_same]

/-- A page's share reads its out-links as a multiset. -/
theorem share_perm {ol ol' : OutgoingLinks} (h : ol.Perm ol') (r : Rank) (q : PageId) :
    share ol r q = share ol' r q := by
  simp only [share, h.count_eq, h.length_eq, ← List.length_eq_zero]

/-! ## What one pass of `PageRank` sums -/

section Emit

variable {β : Type} (mk : PageId → Rank → β) (page : β → PageId) (rank : β → Rank)

theorem sum_rank_filter_const (hpage : ∀ t c, page (mk t c) = t) (hrank : ∀ t c, rank (mk t c) = c)
    (ol : OutgoingLinks) (c : Rank) (q : PageId) :
    (((ol.map fun t => mk t c).filter (page · = q)).map rank).sum = ol.count q * c := by
  induction ol with
  | nil => simp
  | cons a ol ih =>
    by_cases h : a = q
    · subst h; simp [List.filter_cons, hpage, hrank, ih, add_mul, add_comm]
    · simp [List.filter_cons, hpage, h, ih, List.count_cons, Ne.symm h]

/-- The contributions one page emits to `q` add up to its `share`. -/
theorem sum_emitContribs (hpage : ∀ t c, page (mk t c) = t) (hrank : ∀ t c, rank (mk t c) = c)
    (p : OutgoingLinksRank) (q : PageId) :
    (((emitContribs mk p).filter (page · = q)).map rank).sum = share p.1 p.2 q := by
  obtain ⟨ol, r⟩ := p
  by_cases h : ol = []
  · simp [emitContribs, share, h]
  · simp only [emitContribs, share, h, List.length_eq_zero, if_false,
      sum_rank_filter_const mk page rank hpage hrank]
    ring

theorem sum_flatMap_emitContribs (hpage : ∀ t c, page (mk t c) = t)
    (hrank : ∀ t c, rank (mk t c) = c) (pairs : List OutgoingLinksRank) (q : PageId) :
    (((pairs.flatMap (emitContribs mk)).filter (page · = q)).map rank).sum =
      (pairs.map fun p => share p.1 p.2 q).sum := by
  induction pairs with
  | nil => simp
  | cons p ps ih =>
    simp only [List.flatMap_cons, List.filter_append, List.map_append, List.sum_append, ih,
      sum_emitContribs mk page rank hpage hrank, List.map_cons, List.sum_cons]

/-- The pages that receive a contribution are the targets of the pages' links. -/
theorem mem_pages_emitContribs (hpage : ∀ t c, page (mk t c) = t)
    (pairs : List OutgoingLinksRank) (q : PageId) :
    q ∈ (pairs.flatMap (emitContribs mk)).map page ↔ ∃ p ∈ pairs, q ∈ p.1 := by
  simp only [List.mem_map, List.mem_flatMap]
  constructor
  · rintro ⟨c, ⟨p, hp, hc⟩, rfl⟩
    refine ⟨p, hp, ?_⟩
    unfold emitContribs at hc
    split at hc
    · simp at hc
    · obtain ⟨t, ht, rfl⟩ := List.mem_map.1 hc
      rwa [hpage]
  · rintro ⟨p, hp, hq⟩
    have hne : p.1.length ≠ 0 := (List.length_pos_of_mem hq).ne'
    refine ⟨mk q (p.2 / p.1.length), ⟨p, hp, ?_⟩, hpage _ _⟩
    simp only [emitContribs, hne, if_false]
    exact List.mem_map_of_mem _ hq

end Emit

theorem foldl_addRanks_rank (x : PageRankPair) (rest : List PageRankPair) :
    (rest.foldl addRanks x).rank = x.rank + (rest.map PageRankPair.rank).sum := by
  induction rest generalizing x with
  | nil => simp
  | cons y ys ih => simp [ih, addRanks, add_assoc]

/-- `ReduceToIndex` with `addRanks` leaves at each index the sum of its ranks. -/
theorem reduceSlot_rank (xs : List PageRankPair) (i : Nat) :
    (reduceSlot PageRankPair.page addRanks ⟨0, 0⟩ xs i).rank =
      ((xs.filter (·.page = i)).map PageRankPair.rank).sum := by
  unfold reduceSlot
  split
  · rename_i h; simp [h]
  · rename_i x rest h; simp [h, foldl_addRanks_rank]

/-! ## The refinement -/

section Graph

variable {links : List OutgoingLinks} {n : Nat}

/-- One pass of `PageRank` on `n` ranks is one step of the recurrence. -/
theorem pageRankStep_spec (hlen : links.length = n) (htgt : ∀ ol ∈ links, ∀ q ∈ ol, q < n)
    (r : PageId → Rank) :
    pageRankStep links n ((List.range n).map r) =
      some ((List.range n).map (powerStep links n r)) := by
  have hpairs : List.zipWith (fun ol r => (ol, r)) links ((List.range n).map r) =
      (List.range n).map fun p => (linksOf links p, r p) := by
    conv_lhs => rw [← map_range_getD links [], hlen]
    rw [zipWith_map_range]; rfl
  have hkeys : ∀ c ∈ ((List.range n).map fun p => (linksOf links p, r p)).flatMap
      (emitContribs PageRankPair.mk), c.page < n := by
    intro c hc
    obtain ⟨p, hp, hcp⟩ := (mem_pages_emitContribs PageRankPair.mk PageRankPair.page
      (fun _ _ => rfl) _ _).1 (List.mem_map_of_mem _ hc)
    obtain ⟨i, hi, rfl⟩ := List.mem_map.1 hp
    exact htgt _ (linksOf_mem (by simpa [hlen] using hi)) _ hcp
  have hz : links.length = ((List.range n).map r).length := by simp [hlen]
  simp only [pageRankStep, zip_of_length_eq hz, hpairs, Option.bind_eq_bind, Option.some_bind,
    reduceToIndex_of_lt hkeys, List.map_map, Option.pure_def]
  congr 2
  funext q
  simp only [Function.comp, reduceSlot_rank, sum_flatMap_emitContribs PageRankPair.mk
    PageRankPair.page PageRankPair.rank (fun _ _ => rfl) (fun _ _ => rfl), List.map_map, powerStep,
    sum_map_range]

theorem pageRank_spec (hlen : links.length = n) (htgt : ∀ ol ∈ links, ∀ q ∈ ol, q < n)
    (t : Nat) : pageRank links n t = some ((List.range n).map (powerIteration links n t)) := by
  induction t with
  | zero => rfl
  | succ t ih =>
    simp only [pageRank, iterate] at ih ⊢
    rw [ih, Option.bind_eq_bind, Option.some_bind, pageRankStep_spec hlen htgt]
    rfl

/-! ## Mass -/

theorem sum_count_range {ol : OutgoingLinks} (h : ∀ q ∈ ol, q < n) :
    ∑ q in Finset.range n, (ol.count q : Rank) = ol.length := by
  induction ol with
  | nil => simp
  | cons a ol ih =>
    simp only [List.count_cons, Nat.cast_add, Finset.sum_add_distrib, List.length_cons,
      ih fun q hq => h q (List.mem_cons_of_mem a hq)]
    simp [h a (List.mem_cons_self a ol)]

/-- A page hands out all its rank, unless it has no out-link. -/
theorem sum_share {ol : OutgoingLinks} (h : ∀ q ∈ ol, q < n) (r : Rank) :
    ∑ q in Finset.range n, share ol r q = if ol = [] then 0 else r := by
  unfold share
  split
  · simp
  · rename_i hne
    have hlen : (ol.length : Rank) ≠ 0 := by simpa using hne
    rw [← Finset.sum_div, ← Finset.mul_sum, sum_count_range h, mul_div_assoc, div_self hlen,
      mul_one]

theorem sum_sum_share (hlen : links.length = n) (htgt : ∀ ol ∈ links, ∀ q ∈ ol, q < n)
    (r : PageId → Rank) :
    ∑ p in Finset.range n, ∑ q in Finset.range n, share (linksOf links p) (r p) q =
      ∑ p in Finset.range n, (if linksOf links p = [] then 0 else r p) := by
  refine Finset.sum_congr rfl fun p hp => sum_share (htgt _ (linksOf_mem ?_)) _
  simpa [hlen] using hp

theorem sum_powerStep (hlen : links.length = n) (htgt : ∀ ol ∈ links, ∀ q ∈ ol, q < n)
    (r : PageId → Rank) :
    ∑ q in Finset.range n, powerStep links n r q =
      dampening * ∑ p in Finset.range n, (if linksOf links p = [] then 0 else r p) +
        n * ((1 - dampening) / n) := by
  simp only [powerStep, Finset.sum_add_distrib, ← Finset.mul_sum, Finset.sum_const,
    Finset.card_range, nsmul_eq_mul]
  rw [Finset.sum_comm, sum_sum_share hlen htgt]

theorem share_nonneg (ol : OutgoingLinks) {r : Rank} (hr : 0 ≤ r) (q : PageId) :
    0 ≤ share ol r q := by
  unfold share; split
  · exact le_rfl
  · exact div_nonneg (mul_nonneg hr (Nat.cast_nonneg _)) (Nat.cast_nonneg _)

theorem powerIteration_nonneg (t : Nat) (q : PageId) : 0 ≤ powerIteration links n t q := by
  induction t generalizing q with
  | zero => exact one_div_nonneg.2 (Nat.cast_nonneg n)
  | succ t ih =>
    have hs : 0 ≤ ∑ p in Finset.range n, share (linksOf links p) (powerIteration links n t p) q :=
      Finset.sum_nonneg fun p _ => share_nonneg _ (ih p) q
    have hf : 0 ≤ (1 - dampening) / n :=
      div_nonneg (by linarith [dampening_lt_one]) (Nat.cast_nonneg n)
    exact add_nonneg (mul_nonneg dampening_pos.le hs) hf

/-- Every rank stays at or above the dampening floor `(1 - d) / n`. -/
theorem floor_le_powerIteration (t : Nat) (q : PageId) :
    (1 - dampening) / n ≤ powerIteration links n t q := by
  have := dampening_pos
  cases t with
  | zero =>
    show (1 - dampening) / n ≤ 1 / (n : Rank)
    exact div_le_div_of_nonneg_right (by linarith) (Nat.cast_nonneg n)
  | succ t =>
    have hs : 0 ≤ ∑ p in Finset.range n, share (linksOf links p) (powerIteration links n t p) q :=
      Finset.sum_nonneg fun p _ => share_nonneg _ (powerIteration_nonneg t p) q
    simp only [powerIteration, powerStep]
    nlinarith

theorem natCast_mul_div_le (n : Nat) {a : Rank} (ha : 0 ≤ a) : n * (a / n) ≤ a := by
  rcases Nat.eq_zero_or_pos n with rfl | hn
  · simpa using ha
  · rw [mul_div_cancel₀ _ (by positivity)]

theorem natCast_mul_div_eq (hn : 1 ≤ n) (a : Rank) : n * (a / n) = a :=
  mul_div_cancel₀ _ (by positivity)

theorem sum_linked_le (r : PageId → Rank) (hr : ∀ p, 0 ≤ r p) :
    ∑ p in Finset.range n, (if linksOf links p = [] then 0 else r p) ≤
      ∑ p in Finset.range n, r p :=
  Finset.sum_le_sum fun p _ => by split <;> simp [hr p]

theorem sum_linked_nonneg (r : PageId → Rank) (hr : ∀ p, 0 ≤ r p) :
    0 ≤ ∑ p in Finset.range n, (if linksOf links p = [] then 0 else r p) :=
  Finset.sum_nonneg fun p _ => by split <;> simp [hr p]

theorem total_le_one (hlen : links.length = n) (htgt : ∀ ol ∈ links, ∀ q ∈ ol, q < n)
    (t : Nat) : ∑ q in Finset.range n, powerIteration links n t q ≤ 1 := by
  have := dampening_pos; have := dampening_lt_one
  induction t with
  | zero =>
    simpa [powerIteration, Finset.sum_const, div_eq_mul_inv] using
      natCast_mul_div_le n (a := 1) zero_le_one
  | succ t ih =>
    simp only [powerIteration]
    rw [sum_powerStep hlen htgt]
    have h1 := @sum_linked_le links n _ (@powerIteration_nonneg links n t)
    have h2 := natCast_mul_div_le n (a := 1 - dampening) (by linarith)
    nlinarith

theorem one_sub_le_total (hn : 1 ≤ n) (hlen : links.length = n)
    (htgt : ∀ ol ∈ links, ∀ q ∈ ol, q < n) (t : Nat) :
    1 - dampening ≤ ∑ q in Finset.range n, powerIteration links n t q := by
  have := dampening_pos
  cases t with
  | zero =>
    simp only [powerIteration, Finset.sum_const, Finset.card_range, nsmul_eq_mul]
    rw [natCast_mul_div_eq hn]; linarith
  | succ t =>
    simp only [powerIteration]
    rw [sum_powerStep hlen htgt, natCast_mul_div_eq hn]
    have := @sum_linked_nonneg links n _ (@powerIteration_nonneg links n t)
    nlinarith

/-- Without dangling pages no rank is lost: the total stays `1`. -/
theorem total_eq_one (hn : 1 ≤ n) (hlen : links.length = n)
    (htgt : ∀ ol ∈ links, ∀ q ∈ ol, q < n) (hlinked : ∀ ol ∈ links, ol ≠ []) (t : Nat) :
    ∑ q in Finset.range n, powerIteration links n t q = 1 := by
  induction t with
  | zero =>
    simp only [powerIteration, Finset.sum_const, Finset.card_range, nsmul_eq_mul]
    rw [natCast_mul_div_eq hn]
  | succ t ih =>
    simp only [powerIteration]
    have hall : ∀ p ∈ Finset.range n, (if linksOf links p = [] then 0
        else powerIteration links n t p) = powerIteration links n t p := fun p hp =>
      if_neg (hlinked _ (linksOf_mem (by simpa [hlen] using hp)))
    rw [sum_powerStep hlen htgt, Finset.sum_congr rfl hall, ih, natCast_mul_div_eq hn]
    ring

/-! ## Contraction -/

theorem share_sub (ol : OutgoingLinks) (a b : Rank) (q : PageId) :
    share ol (a - b) q = share ol a q - share ol b q := by
  unfold share; split <;> ring

theorem share_mul (ol : OutgoingLinks) (c x : Rank) (q : PageId) :
    share ol (c * x) q = c * share ol x q := by
  unfold share; split <;> ring

theorem share_mono (ol : OutgoingLinks) {a b : Rank} (h : a ≤ b) (q : PageId) :
    share ol a q ≤ share ol b q :=
  sub_nonneg.1 (share_sub ol b a q ▸ share_nonneg ol (sub_nonneg.2 h) q)

theorem abs_share (ol : OutgoingLinks) (x : Rank) (q : PageId) :
    |share ol x q| = share ol |x| q := by
  unfold share; split
  · simp
  · rw [abs_div, abs_mul, Nat.abs_cast, Nat.abs_cast]

theorem powerStep_sub (f g : PageId → Rank) (q : PageId) :
    powerStep links n f q - powerStep links n g q =
      dampening * ∑ p in Finset.range n, share (linksOf links p) (f p - g p) q := by
  simp only [powerStep, share_sub, Finset.sum_sub_distrib]; ring

/-- One step of the recurrence shrinks the L1 distance of two rank functions by `d`. -/
theorem sum_abs_powerStep_sub (hlen : links.length = n) (htgt : ∀ ol ∈ links, ∀ q ∈ ol, q < n)
    (f g : PageId → Rank) :
    ∑ q in Finset.range n, |powerStep links n f q - powerStep links n g q| ≤
      dampening * ∑ p in Finset.range n, |f p - g p| := by
  have hd := dampening_pos.le
  calc ∑ q in Finset.range n, |powerStep links n f q - powerStep links n g q|
      ≤ ∑ q in Finset.range n,
          dampening * ∑ p in Finset.range n, share (linksOf links p) |f p - g p| q := by
        refine Finset.sum_le_sum fun q _ => ?_
        rw [powerStep_sub, abs_mul, abs_of_nonneg hd]
        refine mul_le_mul_of_nonneg_left ((Finset.abs_sum_le_sum_abs _ _).trans (le_of_eq ?_)) hd
        simp only [abs_share]
    _ = dampening * ∑ p in Finset.range n, (if linksOf links p = [] then 0 else |f p - g p|) := by
        rw [← Finset.mul_sum, Finset.sum_comm, sum_sum_share hlen htgt]
    _ ≤ dampening * ∑ p in Finset.range n, |f p - g p| :=
        mul_le_mul_of_nonneg_left (sum_linked_le _ fun p => abs_nonneg _) hd

theorem sum_abs_powerIteration_succ (hlen : links.length = n)
    (htgt : ∀ ol ∈ links, ∀ q ∈ ol, q < n) (t : Nat) :
    ∑ q in Finset.range n, |powerIteration links n (t + 1) q - powerIteration links n t q| ≤
      2 * dampening ^ t := by
  induction t with
  | zero =>
    calc ∑ q in Finset.range n, |powerIteration links n 1 q - powerIteration links n 0 q|
        ≤ ∑ q in Finset.range n, (powerIteration links n 1 q + powerIteration links n 0 q) := by
          refine Finset.sum_le_sum fun q _ => abs_sub_le_iff.2 ⟨?_, ?_⟩ <;>
            linarith [@powerIteration_nonneg links n 1 q, @powerIteration_nonneg links n 0 q]
      _ ≤ 1 + 1 := by
          rw [Finset.sum_add_distrib]
          exact add_le_add (total_le_one hlen htgt 1) (total_le_one hlen htgt 0)
      _ = 2 * dampening ^ 0 := by norm_num
  | succ t ih =>
    calc ∑ q in Finset.range n,
          |powerIteration links n (t + 2) q - powerIteration links n (t + 1) q|
        ≤ dampening * ∑ q in Finset.range n,
            |powerIteration links n (t + 1) q - powerIteration links n t q| :=
          sum_abs_powerStep_sub hlen htgt _ _
      _ ≤ dampening * (2 * dampening ^ t) := mul_le_mul_of_nonneg_left ih dampening_pos.le
      _ = 2 * dampening ^ (t + 1) := by ring

/-- Over `m` more iterations the ranks move by at most the sum of the steps' bounds. -/
theorem sum_abs_powerIteration_add (hlen : links.length = n)
    (htgt : ∀ ol ∈ links, ∀ q ∈ ol, q < n) (t m : Nat) :
    ∑ q in Finset.range n, |powerIteration links n (t + m) q - powerIteration links n t q| ≤
      2 * ∑ k in Finset.Ico t (t + m), dampening ^ k := by
  induction m with
  | zero => simp
  | succ m ih =>
    calc ∑ q in Finset.range n, |powerIteration links n (t + (m + 1)) q -
          powerIteration links n t q|
        ≤ ∑ q in Finset.range n,
            (|powerIteration links n (t + m + 1) q - powerIteration links n (t + m) q| +
              |powerIteration links n (t + m) q - powerIteration links n t q|) :=
          Finset.sum_le_sum fun q _ => abs_sub_le _ _ _
      _ ≤ 2 * dampening ^ (t + m) + 2 * ∑ k in Finset.Ico t (t + m), dampening ^ k := by
          rw [Finset.sum_add_distrib]
          exact add_le_add (sum_abs_powerIteration_succ hlen htgt _) ih
      _ = 2 * ∑ k in Finset.Ico t (t + (m + 1)), dampening ^ k := by
          rw [← Nat.add_assoc, Finset.sum_Ico_succ_top (Nat.le_add_right t m), mul_add, add_comm]

theorem l1Dist_map_range (f g : Nat → Rank) :
    l1Dist ((List.range n).map f) ((List.range n).map g) = ∑ q in Finset.range n, |f q - g q| := by
  rw [l1Dist, zipWith_map_range, sum_map_range]

theorem linkedMass_map_range (hlen : links.length = n) (f : Nat → Rank) :
    linkedMass links ((List.range n).map f) =
      ∑ p in Finset.range n, (if linksOf links p = [] then 0 else f p) := by
  conv_lhs => rw [linkedMass, ← map_range_getD links [], hlen]
  rw [zipWith_map_range, sum_map_range]; rfl

end Graph

/-! ## What `PageRank` returns -/

/-- `PageRank` returns exactly the `n` ranks of the reference power iteration, so every
Zip of its loop pairs `n` adjacency lists with `n` ranks. -/
theorem pageRank_eq_powerIteration (links : List OutgoingLinks) (n : Nat)
    (hlen : links.length = n) (htgt : ∀ ol ∈ links, ∀ q ∈ ol, q < n) (t : Nat) :
    pageRank links n t = some ((List.range n).map (powerIteration links n t)) :=
  pageRank_spec hlen htgt t

theorem pageRank_two_pages :
    ([[1], [0]] : List OutgoingLinks).length = 2 ∧
      (∀ ol ∈ ([[1], [0]] : List OutgoingLinks), ∀ q ∈ ol, q < 2) ∧
      pageRank [[1], [0]] 2 3 = some ((List.range 2).map (powerIteration [[1], [0]] 2 3)) :=
  ⟨rfl, by decide, pageRank_eq_powerIteration [[1], [0]] 2 rfl (by decide) 3⟩

/-- Mass conservation: each pass keeps `d` times the rank of the linked pages and adds
`1 - d`; the ranks stay above the floor and their total in `[1 - d, 1]`, exactly `1`
without dangling pages. -/
theorem pageRank_mass (links : List OutgoingLinks) (n : Nat) (hn : 1 ≤ n)
    (hlen : links.length = n) (htgt : ∀ ol ∈ links, ∀ q ∈ ol, q < n) (t : Nat) :
    ∃ r r', pageRank links n t = some r ∧ pageRank links n (t + 1) = some r' ∧
      r.length = n ∧ r'.length = n ∧
      r'.sum = dampening * linkedMass links r + (1 - dampening) ∧
      (∀ x ∈ r, (1 - dampening) / n ≤ x) ∧ 1 - dampening ≤ r.sum ∧ r.sum ≤ 1 ∧
      ((∀ ol ∈ links, ol ≠ []) → r.sum = 1) := by
  refine ⟨_, _, pageRank_spec hlen htgt t, pageRank_spec hlen htgt (t + 1), by simp, by simp,
    ?_, ?_, ?_, ?_, ?_⟩
  · rw [sum_map_range, linkedMass_map_range hlen, powerIteration, sum_powerStep hlen htgt,
      natCast_mul_div_eq hn]
  · intro x hx
    obtain ⟨q, -, rfl⟩ := List.mem_map.1 hx
    exact floor_le_powerIteration t q
  · rw [sum_map_range]; exact one_sub_le_total hn hlen htgt t
  · rw [sum_map_range]; exact total_le_one hlen htgt t
  · intro hlinked; rw [sum_map_range]; exact total_eq_one hn hlen htgt hlinked t

theorem pageRank_mass_dangling :
    1 ≤ 2 ∧ ([[1], []] : List OutgoingLinks).length = 2 ∧
      (∀ ol ∈ ([[1], []] : List OutgoingLinks), ∀ q ∈ ol, q < 2) ∧
      ∃ r r', pageRank [[1], []] 2 1 = some r ∧ pageRank [[1], []] 2 2 = some r' ∧
        r.length = 2 ∧ r'.length = 2 ∧ r'.sum = dampening * linkedMass [[1], []] r + (1 - dampening) ∧
        (∀ x ∈ r, (1 - dampening) / (2 : Nat) ≤ x) ∧ 1 - dampening ≤ r.sum ∧ r.sum ≤ 1 ∧
        ((∀ ol ∈ ([[1], []] : List OutgoingLinks), ol ≠ []) → r.sum = 1) :=
  ⟨by decide, rfl, by decide, pageRank_mass [[1], []] 2 (by decide) rfl (by decide) 1⟩

/-- One pass of the loop is a contraction of ratio `d` in L1, so consecutive results of
`PageRank` are within `2 d^t`. -/
theorem pageRankStep_contraction (links : List OutgoingLinks) (n : Nat)
    (hlen : links.length = n) (htgt : ∀ ol ∈ links, ∀ q ∈ ol, q < n) :
    (∀ r s : List Rank, r.length = n → s.length = n → ∃ r' s',
      pageRankStep links n r = some r' ∧ pageRankStep links n s = some s' ∧
        r'.length = n ∧ s'.length = n ∧ l1Dist r' s' ≤ dampening * l1Dist r s) ∧
    ∀ t, ∃ a b, pageRank links n t = some a ∧ pageRank links n (t + 1) = some b ∧
      a.length = n ∧ b.length = n ∧ l1Dist a b ≤ 2 * dampening ^ t := by
  refine ⟨fun r s hr hs => ?_, fun t => ?_⟩
  · rw [← map_range_getD r 0, ← map_range_getD s 0, hr, hs, pageRankStep_spec hlen htgt,
      pageRankStep_spec hlen htgt, l1Dist_map_range]
    refine ⟨_, _, rfl, rfl, by simp, by simp, ?_⟩
    rw [l1Dist_map_range]
    exact sum_abs_powerStep_sub hlen htgt _ _
  · refine ⟨_, _, pageRank_spec hlen htgt t, pageRank_spec hlen htgt (t + 1), by simp, by simp,
      ?_⟩
    rw [l1Dist_map_range]
    simpa only [abs_sub_comm] using sum_abs_powerIteration_succ hlen htgt t

theorem pageRankStep_contraction_two_pages :
    ([[1], [0, 1]] : List OutgoingLinks).length = 2 ∧
      (∀ ol ∈ ([[1], [0, 1]] : List OutgoingLinks), ∀ q ∈ ol, q < 2) ∧
      ((∀ r s : List Rank, r.length = 2 → s.length = 2 → ∃ r' s',
        pageRankStep [[1], [0, 1]] 2 r = some r' ∧ pageRankStep [[1], [0, 1]] 2 s = some s' ∧
          r'.length = 2 ∧ s'.length = 2 ∧ l1Dist r' s' ≤ dampening * l1Dist r s) ∧
      ∀ t, ∃ a b, pageRank [[1], [0, 1]] 2 t = some a ∧ pageRank [[1], [0, 1]] 2 (t + 1) = some b ∧
        a.length = 2 ∧ b.length = 2 ∧ l1Dist a b ≤ 2 * dampening ^ t) :=
  ⟨rfl, by decide, pageRankStep_contraction [[1], [0, 1]] 2 rfl (by decide)⟩

/-- For every adjacency list whose targets are pages, after `t` iterations no number `m`
of further iterations moves `PageRank`'s ranks by more than `2 d^t / (1 - d)` in L1: the
iteration count bounds the distance to every later result. -/
theorem pageRank_tail_bound (links : List OutgoingLinks) (n : Nat) (hlen : links.length = n)
    (htgt : ∀ ol ∈ links, ∀ q ∈ ol, q < n) (t m : Nat) :
    ∃ a b, pageRank links n t = some a ∧ pageRank links n (t + m) = some b ∧
      a.length = n ∧ b.length = n ∧ l1Dist a b ≤ 2 * dampening ^ t / (1 - dampening) := by
  refine ⟨_, _, pageRank_spec hlen htgt t, pageRank_spec hlen htgt (t + m), by simp, by simp, ?_⟩
  rw [l1Dist_map_range]
  calc ∑ q in Finset.range n, |powerIteration links n t q - powerIteration links n (t + m) q|
      = ∑ q in Finset.range n, |powerIteration links n (t + m) q - powerIteration links n t q| :=
        by simp only [abs_sub_comm]
    _ ≤ 2 * ∑ k in Finset.Ico t (t + m), dampening ^ k := sum_abs_powerIteration_add hlen htgt t m
    _ ≤ 2 * (dampening ^ t / (1 - dampening)) := mul_le_mul_of_nonneg_left
        (geom_sum_Ico_le_of_lt_one dampening_pos.le dampening_lt_one) (by norm_num)
    _ = 2 * dampening ^ t / (1 - dampening) := (mul_div_assoc _ _ _).symm

theorem pageRank_tail_bound_two_pages :
    ([[1], [0, 1]] : List OutgoingLinks).length = 2 ∧
      (∀ ol ∈ ([[1], [0, 1]] : List OutgoingLinks), ∀ q ∈ ol, q < 2) ∧
      ∃ a b, pageRank [[1], [0, 1]] 2 3 = some a ∧ pageRank [[1], [0, 1]] 2 (3 + 10) = some b ∧
        a.length = 2 ∧ b.length = 2 ∧ l1Dist a b ≤ 2 * dampening ^ 3 / (1 - dampening) :=
  ⟨rfl, by decide, pageRank_tail_bound [[1], [0, 1]] 2 rfl (by decide) 3 10⟩

end ThrillPageRank.PowerIteration
