import ThrillPageRank.LocationDetection
import Mathlib.Order.Monotone.Basic
/-!
# `ReduceToIndex` and `ReducePair` on the workers

Modelled from the spec (§4.2, §5). `ReduceToIndex` assigns each index of `[0, size)` to
one worker by range, worker `w` owning `[bound w, bound (w + 1))`; every record goes to
the owner of its index, which folds what reaches it per index of its range, in the order
it arrives, and emits its range in index order (`GroupToIndex` does the same with a group
lambda in place of the fold; `GroupByKey` sends each key where `dest` says). The workers'
outputs one after the other are then the logical, index-ordered `ReduceToIndex`: that is
why its output order is the one global order the engine keeps. `ReducePair` folds each
worker's records per key, sends each folded record to the worker `dest` names for its key
and folds there again; with `+` it returns the records of the logical `ReducePair`, up to
order, each on the worker of its key, which is the placement the next join's location
detection looks for.
-/

namespace ThrillPageRank.ReduceOn

open Dia PageRank PowerIteration LocationDetection

variable {α β γ K V : Type}

/-! ## Ranges of indices -/

/-- The split of `[0, size)` into one contiguous range per worker, in worker order:
worker `w` owns `[bound w, bound (w + 1))`. -/
structure RangeSplit (workers size : Nat) where
  bound : Nat → Nat
  bound_zero : bound 0 = 0
  bound_le_succ : ∀ w, bound w ≤ bound (w + 1)
  bound_workers : bound workers = size

namespace RangeSplit

variable {workers size : Nat} (s : RangeSplit workers size)

/-- The indices worker `w` owns. -/
def range (w : Nat) : List Nat := List.range' (s.bound w) (s.bound (w + 1) - s.bound w)

/-- Worker `w`'s part of a collection held in index order. -/
def slice (xs : List α) (w : Nat) : List α :=
  (xs.drop (s.bound w)).take (s.bound (w + 1) - s.bound w)

/-- Whether worker `w` owns index `i`. -/
def owns (w i : Nat) : Bool := s.bound w ≤ i ∧ i < s.bound (w + 1)

/-- The even split, `bound w = w * size / workers`. -/
def even (workers size : Nat) (h : 0 < workers) : RangeSplit workers size where
  bound w := w * size / workers
  bound_zero := by simp
  bound_le_succ w := Nat.div_le_div_right (Nat.mul_le_mul_right _ (Nat.le_succ w))
  bound_workers := Nat.mul_div_cancel_left size h

theorem bound_succ_le {w : Nat} (hw : w < workers) : s.bound (w + 1) ≤ size :=
  (monotone_nat_of_le_succ s.bound_le_succ hw).trans_eq s.bound_workers

theorem mem_range {w i : Nat} : i ∈ s.range w ↔ s.owns w i := by
  have := s.bound_le_succ w
  simp only [range, owns, List.mem_range'_1, decide_eq_true_eq]
  omega

/-- The ranges of the first `w` workers are `[0, bound w)`. -/
theorem flatMap_range_first (w : Nat) :
    (List.range w).flatMap s.range = List.range (s.bound w) := by
  induction w with
  | zero => simp [s.bound_zero]
  | succ w ih =>
    have h := List.range'_append_1 0 (s.bound w) (s.bound (w + 1) - s.bound w)
    rw [Nat.zero_add, Nat.sub_add_cancel (s.bound_le_succ w)] at h
    rw [List.range_succ, List.flatMap_append, ih, List.flatMap_singleton, range,
      List.range_eq_range', List.range_eq_range', h]

theorem flatMap_range : (List.range workers).flatMap s.range = List.range size := by
  rw [flatMap_range_first, s.bound_workers]

/-- The parts of the first `w` workers are the first `bound w` items. -/
theorem flatMap_slice_first (xs : List α) (w : Nat) :
    (List.range w).flatMap (s.slice xs) = xs.take (s.bound w) := by
  induction w with
  | zero => simp [s.bound_zero]
  | succ w ih =>
    rw [List.range_succ, List.flatMap_append, ih, List.flatMap_singleton, slice, ← List.take_add,
      Nat.add_sub_cancel' (s.bound_le_succ w)]

/-- A collection of `size` items is its workers' parts one after the other. -/
theorem flatMap_slice {xs : List α} (h : xs.length = size) :
    (List.range workers).flatMap (s.slice xs) = xs := by
  rw [flatMap_slice_first, s.bound_workers, ← h, List.take_length]

theorem slice_map (f : α → β) (xs : List α) (w : Nat) :
    s.slice (xs.map f) w = (s.slice xs w).map f := by
  simp only [slice, List.map_take, List.map_drop]

theorem slice_zipWith (f : α → β → γ) (xs : List α) (ys : List β) (w : Nat) :
    s.slice (List.zipWith f xs ys) w = List.zipWith f (s.slice xs w) (s.slice ys w) := by
  simp only [slice, List.drop_zipWith, List.take_zipWith]

/-- Worker `w`'s part of `[0, size)` is its range. -/
theorem slice_range {w : Nat} (hw : w < workers) : s.slice (List.range size) w = s.range w := by
  have h₁ := s.bound_le_succ w
  have h₂ := s.bound_succ_le hw
  refine List.ext_getElem (by simp only [slice, range, List.length_take, List.length_drop,
    List.length_range, List.length_range']; omega) fun j _ _ => ?_
  simp only [slice, range, List.getElem_take, List.getElem_drop, List.getElem_range,
    List.getElem_range']
  omega

end RangeSplit

/-! ## `ReduceToIndex` -/

section ReduceToIndex

variable {workers size : Nat} (s : RangeSplit workers size) (key : α → Nat)
  (reduce : α → α → α) (neutral : α)

/-- What worker `w` emits in `ReduceToIndex` on the workers: the records of every worker
whose index it owns, in the order `arrive w` they reach it in, folded per index of its
range. -/
def reduceToIndexAt (arrive : Nat → List α → List α) (part : Nat → List α) (w : Nat) :
    List α :=
  (s.range w).map (reduceSlot key reduce neutral
    (arrive w ((items workers part).filter fun x => s.owns w (key x))))

/-- Modelled from the spec: `ReduceToIndex` on the workers; a key outside `[0, size)`, on
any worker, is a fatal error. -/
def reduceToIndexOn (arrive : Nat → List α → List α) (part : Nat → List α) :
    Option (Nat → List α) :=
  if (items workers part).all (key · < size) then
    some (reduceToIndexAt s key reduce neutral arrive part)
  else none

/-- The records of index `i` among those kept for a set of indices that holds `i` are all
the records of `i`. -/
theorem filter_filter_key {p : Nat → Bool} {i : Nat} (hi : p i) (xs : List α) :
    (xs.filter fun x => p (key x)).filter (key · = i) = xs.filter (key · = i) := by
  rw [List.filter_filter]
  exact List.filter_congr fun x _ => by by_cases hx : key x = i <;> simp [hx, hi]

/-- An index's slot only reads the records of that index. -/
theorem reduceSlot_filter {p : Nat → Bool} {i : Nat} (hi : p i) (xs : List α) :
    reduceSlot key reduce neutral (xs.filter fun x => p (key x)) i =
      reduceSlot key reduce neutral xs i := by
  simp only [reduceSlot, filter_filter_key key hi]

/-- When the fold does not depend on the arrival order, each worker holds the logical
slots of its range. -/
theorem reduceToIndexAt_eq {arrive : Nat → List α → List α}
    (harr : ∀ w xs, (arrive w xs).Perm xs)
    (hslot : ∀ {xs ys : List α}, xs.Perm ys →
      reduceSlot key reduce neutral xs = reduceSlot key reduce neutral ys)
    (part : Nat → List α) (w : Nat) :
    reduceToIndexAt s key reduce neutral arrive part w =
      (s.range w).map (reduceSlot key reduce neutral (items workers part)) :=
  List.map_congr_left fun i hi => by
    rw [hslot (harr w _), reduceSlot_filter key reduce neutral (s.mem_range.1 hi)]

/-- When the fold does not depend on the arrival order, the workers' slots one after the
other are the logical `ReduceToIndex`'s. -/
theorem items_reduceToIndexAt {arrive : Nat → List α → List α}
    (harr : ∀ w xs, (arrive w xs).Perm xs)
    (hslot : ∀ {xs ys : List α}, xs.Perm ys →
      reduceSlot key reduce neutral xs = reduceSlot key reduce neutral ys)
    (part : Nat → List α) :
    items workers (reduceToIndexAt s key reduce neutral arrive part) =
      (List.range size).map (reduceSlot key reduce neutral (items workers part)) := by
  rw [← s.flatMap_range, List.map_flatMap]
  exact List.flatMap_congr fun w _ => reduceToIndexAt_eq s key reduce neutral harr hslot part w

theorem reduceToIndexOn_of_lt {arrive : Nat → List α → List α} {part : Nat → List α}
    (hkeys : ∀ x ∈ items workers part, key x < size) :
    reduceToIndexOn s key reduce neutral arrive part =
      some (reduceToIndexAt s key reduce neutral arrive part) :=
  if_pos (by simpa using hkeys)

end ReduceToIndex

/-! ## `GroupToIndex` -/

/-- What worker `w` emits in `GroupToIndex` on the workers: the records of every worker
whose index it owns reach it in the order `arrive w`; its copy of the group lambda,
starting in state `st`, is called on the groups of its indices in the order `order w`;
it emits its range in index order, `neutral` for an index without records. -/
def groupToIndexAt {σ : Type} {workers size : Nat} (s : RangeSplit workers size)
    (key : α → Nat) (group : σ → List α → Nat → β × σ) (neutral : β)
    (arrive : Nat → List α → List α) (order : Nat → List Nat) (part : Nat → List α) (st : σ)
    (w : Nat) : List β :=
  let outs := runGroups group
    (groupsOf key (arrive w ((items workers part).filter fun x => s.owns w (key x))) (order w))
    st
  (s.range w).map fun i => (outs.lookup i).getD neutral

/-- Modelled from the spec: `GroupToIndex` on the workers; a key outside `[0, size)`, on
any worker, is a fatal error. -/
def groupToIndexOn {σ : Type} {workers size : Nat} (s : RangeSplit workers size)
    (key : α → Nat) (group : σ → List α → Nat → β × σ) (neutral : β)
    (arrive : Nat → List α → List α) (order : Nat → List Nat) (part : Nat → List α) (st : σ) :
    Option (Nat → List β) :=
  if (items workers part).all (key · < size) then
    some (groupToIndexAt s key group neutral arrive order part st)
  else none

theorem groupToIndexOn_of_lt {σ : Type} {workers size : Nat} (s : RangeSplit workers size)
    {key : α → Nat} {group : σ → List α → Nat → β × σ} {neutral : β}
    {arrive : Nat → List α → List α} {order : Nat → List Nat} {part : Nat → List α} {st : σ}
    (hkeys : ∀ x ∈ items workers part, key x < size) :
    groupToIndexOn s key group neutral arrive order part st =
      some (groupToIndexAt s key group neutral arrive order part st) :=
  if_pos (by simpa using hkeys)

/-! ## `GroupByKey` -/

/-- What worker `i` holds after `GroupByKey` on the workers: the records `dest` sends to it
reach it in the order `arrive i`, and its copy of the group lambda, starting in state
`st`, is called on the groups of its keys in the order `order i`. -/
def groupByKeyOn [DecidableEq K] {σ : Type} (key : α → K) (group : σ → List α → K → β × σ)
    (dest : K → Nat) (workers : Nat) (arrive : Nat → List α → List α) (order : Nat → List K)
    (part : Nat → List α) (st : σ) (i : Nat) : List β :=
  groupByKey key group (arrive i (received key dest workers part i)) (order i) st

/-! ## PageRank's fold does not depend on the arrival order -/

theorem foldl_addRanks_page (x : PageRankPair) (rest : List PageRankPair) :
    (rest.foldl addRanks x).page = x.page := by
  induction rest generalizing x with
  | nil => rfl
  | cons y ys ih => exact ih _

theorem reduceSlot_page (xs : List PageRankPair) (i : Nat) :
    (reduceSlot PageRankPair.page addRanks ⟨0, 0⟩ xs i).page =
      if xs.filter (·.page = i) = [] then 0 else i := by
  unfold reduceSlot
  split
  · rename_i h; simp [h]
  · rename_i x rest h
    have hx : x ∈ xs.filter (·.page = i) := h ▸ List.mem_cons_self x rest
    rw [if_neg (by simp [h]), foldl_addRanks_page]
    exact of_decide_eq_true (List.mem_filter.1 hx).2

/-- With `addRanks`, the slot of an index that received records holds the index and the
sum of their ranks. -/
theorem reduceSlot_addRanks (xs : List PageRankPair) (i : Nat) :
    reduceSlot PageRankPair.page addRanks ⟨0, 0⟩ xs i =
      if xs.filter (·.page = i) = [] then ⟨0, 0⟩
      else ⟨i, ((xs.filter (·.page = i)).map PageRankPair.rank).sum⟩ := by
  have heta : ∀ p : PageRankPair, p = ⟨p.page, p.rank⟩ := fun _ => rfl
  rw [heta (reduceSlot _ _ _ xs i), reduceSlot_page, reduceSlot_rank]
  by_cases h : xs.filter (·.page = i) = [] <;> simp [h]

theorem reduceSlot_addRanks_perm {xs ys : List PageRankPair} (h : xs.Perm ys) :
    reduceSlot PageRankPair.page addRanks ⟨0, 0⟩ xs =
      reduceSlot PageRankPair.page addRanks ⟨0, 0⟩ ys := by
  funext i
  have hf := h.filter fun x => decide (x.page = i)
  have hnil : xs.filter (·.page = i) = [] ↔ ys.filter (·.page = i) = [] := by
    rw [← List.length_eq_zero, hf.length_eq, List.length_eq_zero]
  simp only [reduceSlot_addRanks, hnil, (hf.map PageRankPair.rank).sum_eq]

/-- For every split of the pages into ranges and every order in which the records reach
their owners, `ReduceToIndex` with PageRank's key and fold, run on the workers, returns
the logical `ReduceToIndex`, in index order. -/
theorem reduceToIndex_on_workers {workers size : Nat} (s : RangeSplit workers size)
    (arrive : Nat → List PageRankPair → List PageRankPair)
    (harr : ∀ w xs, (arrive w xs).Perm xs) (part : Nat → List PageRankPair) :
    (reduceToIndexOn s PageRankPair.page addRanks ⟨0, 0⟩ arrive part).map (items workers) =
      reduceToIndex PageRankPair.page addRanks size ⟨0, 0⟩ (items workers part) := by
  unfold reduceToIndexOn reduceToIndex
  split
  · rw [Option.map_some', items_reduceToIndexAt s _ _ _ harr reduceSlot_addRanks_perm]
  · rfl

theorem reduceToIndex_on_two_workers :
    (∀ (_ : Nat) (xs : List PageRankPair), (List.reverse xs).Perm xs) ∧
    (reduceToIndexOn (RangeSplit.even 2 3 (by decide)) PageRankPair.page addRanks ⟨0, 0⟩
        (fun _ => List.reverse)
        (fun w : Nat => [PageRankPair.mk (1 - w) 1, PageRankPair.mk w 2])).map
        (items 2) =
      reduceToIndex PageRankPair.page addRanks 3 ⟨0, 0⟩
        (items 2 fun w : Nat => [PageRankPair.mk (1 - w) 1, PageRankPair.mk w 2]) :=
  ⟨fun _ xs => List.reverse_perm xs,
    reduceToIndex_on_workers (RangeSplit.even 2 3 (by decide)) (fun _ => List.reverse)
      (fun _ xs => List.reverse_perm xs) _⟩

/-! ## `ReducePair` -/

section ReducePair

variable [DecidableEq K]

/-- `ReducePair(reduce)` on the workers: each worker folds its own records per key, the
shuffle sends each folded record to the worker `dest` names for its key, and that worker
folds what reaches it, in the order `arrive i`. -/
def reducePairOn (reduce : V → V → V) (dest : K → Nat) (workers : Nat)
    (arrive : Nat → List (K × V) → List (K × V)) (part : Nat → List (K × V)) (i : Nat) :
    List (K × V) :=
  reducePair reduce
    (arrive i (received Prod.fst dest workers (fun w => reducePair reduce (part w)) i))

variable [AddCommMonoid V]

theorem nodup_reducePair_add (xs : List (K × V)) : (reducePair (· + ·) xs).Nodup :=
  (isTable_reducePair _ xs).1.of_map Prod.fst

theorem keys_reducePair_add {xs : List (K × V)} {k : K} :
    k ∈ (reducePair (· + ·) xs).map Prod.fst ↔ k ∈ xs.map Prod.fst := by
  constructor
  · intro hk
    obtain ⟨⟨k', v⟩, hm, rfl⟩ := List.mem_map.1 hk
    exact ((mem_reducePair_add _ _ _).1 hm).1
  · intro hk
    exact List.mem_map.2 ⟨(k, _), (mem_reducePair_add _ _ _).2 ⟨hk, rfl⟩, rfl⟩

/-- Folding per key keeps each key's total. -/
theorem sum_filter_reducePair (xs : List (K × V)) (k : K) :
    (((reducePair (· + ·) xs).filter (·.1 = k)).map Prod.snd).sum =
      ((xs.filter (·.1 = k)).map Prod.snd).sum := by
  by_cases hk : k ∈ xs.map Prod.fst
  · rw [JoinShape.filter_key_of_mem (isTable_reducePair _ xs).1
      ((mem_reducePair_add _ _ _).2 ⟨hk, rfl⟩)]
    simp
  · have hnil : ∀ ys : List (K × V), k ∉ ys.map Prod.fst → ys.filter (·.1 = k) = [] :=
      fun ys h => List.filter_eq_nil_iff.2 fun p hp hpk =>
        h (List.mem_map.2 ⟨p, hp, by simpa using hpk⟩)
    rw [hnil _ (mt keys_reducePair_add.1 hk), hnil _ hk]

/-- Folding each worker's records before the shuffle does not change what the fold
after it returns. -/
theorem reducePair_flatMap_reducePair (l : List Nat) (f : Nat → List (K × V)) :
    (reducePair (· + ·) (l.flatMap fun w => reducePair (· + ·) (f w))).Perm
      (reducePair (· + ·) (l.flatMap f)) := by
  refine (List.perm_ext_iff_of_nodup (nodup_reducePair_add _) (nodup_reducePair_add _)).2
    fun ⟨k, v⟩ => ?_
  have hsum : ∀ g : Nat → List (K × V),
      (((l.flatMap g).filter (·.1 = k)).map Prod.snd).sum =
        (l.map fun w => (((g w).filter (·.1 = k)).map Prod.snd).sum).sum := fun g => by
    simp [List.filter_flatMap, List.map_flatMap, List.flatMap_def, List.sum_flatten,
      Function.comp_def]
  simp only [mem_reducePair_add, hsum, sum_filter_reducePair, List.map_flatMap, List.mem_flatMap,
    keys_reducePair_add]

/-- Folding only the records of some keys returns the entries of those keys. -/
theorem reducePair_filter_perm (p : K → Bool) (xs : List (K × V)) :
    (reducePair (· + ·) (xs.filter fun x => p x.1)).Perm
      ((reducePair (· + ·) xs).filter fun x => p x.1) := by
  refine (List.perm_ext_iff_of_nodup (nodup_reducePair_add _)
    ((nodup_reducePair_add xs).filter _)).2 fun ⟨k, v⟩ => ?_
  by_cases hk : p k
  · have h : (xs.filter fun x => p x.1).filter (·.1 = k) = xs.filter (·.1 = k) := by
      rw [List.filter_filter]
      exact List.filter_congr fun x _ => by by_cases hx : x.1 = k <;> simp [hx, hk]
    have hkeys : k ∈ (xs.filter fun x => p x.1).map Prod.fst ↔ k ∈ xs.map Prod.fst := by
      simp only [List.mem_map, List.mem_filter]
      exact ⟨fun ⟨x, hx, hxk⟩ => ⟨x, hx.1, hxk⟩,
        fun ⟨x, hx, hxk⟩ => ⟨x, ⟨hx, hxk ▸ hk⟩, hxk⟩⟩
    simp only [mem_reducePair_add, List.mem_filter, h, hkeys, hk, and_true]
  · have hkeys : k ∉ (xs.filter fun x => p x.1).map Prod.fst := fun hm => by
      obtain ⟨x, hx, rfl⟩ := List.mem_map.1 hm
      exact hk (List.mem_filter.1 hx).2
    simp only [mem_reducePair_add, List.mem_filter, hkeys, hk, false_and, and_false,
      Bool.false_eq_true]

section Workers

variable {dest : K → Nat} {workers : Nat} {arrive : Nat → List (K × V) → List (K × V)}

theorem items_reducePairOn_perm (hdest : ∀ k, dest k < workers)
    (harr : ∀ i xs, (arrive i xs).Perm xs) (part : Nat → List (K × V)) :
    (items workers (reducePairOn (· + ·) dest workers arrive part)).Perm
      (reducePair (· + ·) (items workers part)) := by
  set pre := fun w => reducePair (· + ·) (part w)
  open List in calc
    items workers (reducePairOn (· + ·) dest workers arrive part)
      ~ (List.range workers).flatMap fun i =>
          (reducePair (· + ·) (items workers pre)).filter fun x => dest x.1 = i :=
        Perm.flatMap_left _ fun i _ =>
          (reducePair_add_perm (harr i _)).trans
            (reducePair_filter_perm (fun k => dest k = i) (items workers pre))
    _ ~ reducePair (· + ·) (items workers pre) :=
        flatMap_range_filter_perm (fun x : K × V => dest x.1) (fun x => hdest x.1) _
    _ ~ reducePair (· + ·) (items workers part) := reducePair_flatMap_reducePair _ _

/-- Each folded record sits on the worker `dest` names for its key. -/
theorem placed_reducePairOn (harr : ∀ i xs, (arrive i xs).Perm xs)
    (part : Nat → List (K × V)) :
    Placed Prod.fst dest workers (reducePairOn (· + ·) dest workers arrive part) := by
  intro i _ x hx
  obtain ⟨y, hy, hyx⟩ := List.mem_map.1
    (((harr i _).map Prod.fst).subset (keys_reducePair_add.1 (List.mem_map_of_mem Prod.fst hx)))
  simpa [← hyx] using (List.mem_filter.1 hy).2

end Workers

/-- For every number of workers, every placement of the records, every destination below
the worker count and every order in which the folded records reach their workers,
`ReducePair` with `+` run on the workers returns the records of the logical `ReducePair`,
up to order, and each sits on the worker `dest` names for its key. -/
theorem reducePair_on_workers (dest : K → Nat) (workers : Nat)
    (hdest : ∀ k, dest k < workers) (arrive : Nat → List (K × V) → List (K × V))
    (harr : ∀ i xs, (arrive i xs).Perm xs) (part : Nat → List (K × V)) :
    (items workers (reducePairOn (· + ·) dest workers arrive part)).Perm
        (reducePair (· + ·) (items workers part)) ∧
      Placed Prod.fst dest workers (reducePairOn (· + ·) dest workers arrive part) :=
  ⟨items_reducePairOn_perm hdest harr part, placed_reducePairOn harr part⟩

end ReducePair

theorem reducePair_on_two_workers :
    (∀ k : PageId, k % 2 < 2) ∧
    (∀ (_ : Nat) (xs : List PageRankStdPair), (List.reverse xs).Perm xs) ∧
    (items 2 (reducePairOn (· + ·) (fun k : PageId => k % 2) 2 (fun _ => List.reverse)
        fun w : Nat => [((0 : PageId), (1 : Rank) + w), (1, 2), (0, 3)])).Perm
      (reducePair (· + ·)
        (items 2 fun w : Nat => [((0 : PageId), (1 : Rank) + w), (1, 2), (0, 3)])) ∧
    Placed Prod.fst (fun k : PageId => k % 2) 2
      (reducePairOn (· + ·) (fun k : PageId => k % 2) 2 (fun _ => List.reverse)
        fun w : Nat => [((0 : PageId), (1 : Rank) + w), (1, 2), (0, 3)]) :=
  ⟨fun k => Nat.mod_lt k (by decide), fun _ xs => List.reverse_perm xs,
    reducePair_on_workers (fun k : PageId => k % 2) 2 (fun k => Nat.mod_lt k (by decide))
      (fun _ => List.reverse) (fun _ xs => List.reverse_perm xs) _⟩

end ThrillPageRank.ReduceOn
