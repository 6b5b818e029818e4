import ThrillPageRank.JoinShape
/-!
# `InnerJoin` on the workers, with and without location detection

Modelled from the spec: a collection is spread over `workers` workers, worker `i`
holding `part i`, and its records are the parts one after the other. The join sends
every record with key `k` to the worker `dest k` and joins there: the hash join takes
`dest k = hash k % workers`, location detection sends each key to the worker that holds
most of its records. When both sides already sit where `dest` sends them, the join runs
on each worker without moving a record, and returns what the shuffle would. Whatever
the placement, the number of workers and `dest`, the joined records are those of the
logical `InnerJoin`, so `PageRankJoin` run on the workers returns the records of the
logical run.
-/

namespace ThrillPageRank.LocationDetection

open Dia PageRank PowerIteration JoinShape

variable {α β γ K : Type}

/-- The records of a collection spread over `workers` workers, worker after worker. -/
def items (workers : Nat) (part : Nat → List α) : List α :=
  (List.range workers).flatMap part

/-- What worker `i` holds after the shuffle: the records, of every worker, that `dest`
sends to it. -/
def received (key : α → K) (dest : K → Nat) (workers : Nat) (part : Nat → List α)
    (i : Nat) : List α :=
  (items workers part).filter fun x => dest (key x) = i

/-- Every record sits on the worker `dest` sends it to. -/
def Placed (key : α → K) (dest : K → Nat) (workers : Nat) (part : Nat → List α) : Prop :=
  ∀ i < workers, ∀ x ∈ part i, dest (key x) = i

instance (key : α → K) (dest : K → Nat) (workers : Nat) (part : Nat → List α) :
    Decidable (Placed key dest workers part) :=
  inferInstanceAs (Decidable (∀ i < workers, ∀ x ∈ part i, dest (key x) = i))

section Join

variable [DecidableEq K] (keyL : α → K) (keyR : β → K) (join : α → β → γ)

/-- The shuffle, then `InnerJoin` on each worker. -/
def shuffleJoin (dest : K → Nat) (workers : Nat) (partL : Nat → List α)
    (partR : Nat → List β) (i : Nat) : List γ :=
  innerJoin keyL keyR join (received keyL dest workers partL i)
    (received keyR dest workers partR i)

/-- `InnerJoin` on each worker, without a shuffle. -/
def localJoin (partL : Nat → List α) (partR : Nat → List β) (i : Nat) : List γ :=
  innerJoin keyL keyR join (partL i) (partR i)

/-- The branch location detection takes: detection is on and both sides already sit
where `dest` sends their keys. -/
structure JoinsLocally (detect : Bool) (dest : K → Nat) (workers : Nat) (partL : Nat → List α)
    (partR : Nat → List β) : Prop where
  detect_on : detect = true
  placed_left : Placed keyL dest workers partL
  placed_right : Placed keyR dest workers partR

instance (detect : Bool) (dest : K → Nat) (workers : Nat) (partL : Nat → List α)
    (partR : Nat → List β) : Decidable (JoinsLocally keyL keyR detect dest workers partL partR) :=
  decidable_of_iff (detect = true ∧ Placed keyL dest workers partL ∧ Placed keyR dest workers partR)
    ⟨fun ⟨h, hL, hR⟩ => ⟨h, hL, hR⟩, fun h => ⟨h.detect_on, h.placed_left, h.placed_right⟩⟩

/-- `InnerJoin(LocationDetectionFlag<detect>(), ...)`: the local join when location
detection finds both sides placed by `dest`, otherwise the shuffle. -/
def innerJoinOn (detect : Bool) (dest : K → Nat) (workers : Nat) (partL : Nat → List α)
    (partR : Nat → List β) : Nat → List γ :=
  if JoinsLocally keyL keyR detect dest workers partL partR then
    localJoin keyL keyR join partL partR
  else shuffleJoin keyL keyR join dest workers partL partR

end Join

/-! ## The shuffle loses and duplicates no record -/

section Shuffle

variable {workers : Nat} {dest : K → Nat}

theorem count_filter_eq [DecidableEq α] (p : α → Bool) (l : List α) (a : α) :
    (l.filter p).count a = if p a then l.count a else 0 := by
  split
  · exact List.count_filter ‹_›
  · exact List.count_eq_zero.2 fun h => ‹¬ _› (List.mem_filter.1 h).2

/-- Splitting records by a worker number below `workers` and concatenating the workers
again permutes them. -/
theorem flatMap_range_filter_perm (f : α → Nat) (hf : ∀ x, f x < workers) (xs : List α) :
    ((List.range workers).flatMap fun i => xs.filter fun x => f x = i).Perm xs := by
  classical
  refine List.perm_iff_count.2 fun a => ?_
  rw [List.count_flatMap, sum_map_range]
  simp only [Function.comp, count_filter_eq, decide_eq_true_eq]
  rw [Finset.sum_ite_eq, if_pos (Finset.mem_range.2 (hf a))]

/-- The shuffle moves every record to one worker: no record is lost or duplicated. -/
theorem items_received_perm (key : α → K) (hdest : ∀ k, dest k < workers)
    (part : Nat → List α) :
    (items workers (received key dest workers part)).Perm (items workers part) :=
  flatMap_range_filter_perm (fun x => dest (key x)) (fun x => hdest (key x)) _

/-- Where both sides already sit on their `dest` workers, a worker receives exactly its
own part. -/
theorem received_of_placed {key : α → K} {part : Nat → List α}
    (h : Placed key dest workers part) {i : Nat} (hi : i < workers) :
    received key dest workers part i = part i := by
  have hpart : ∀ j ∈ List.range workers,
      (part j).filter (fun x => dest (key x) = i) = if j = i then part i else [] := fun j hj => by
    split
    · subst j; exact List.filter_eq_self.2 fun x hx => by
        simp [h _ (List.mem_range.1 hj) x hx]
    · exact List.filter_eq_nil_iff.2 fun x hx => by
        simp [h _ (List.mem_range.1 hj) x hx, *]
  rw [received, items, List.filter_flatMap, List.flatMap_congr hpart]
  clear hpart
  induction workers with
  | zero => omega
  | succ w ih =>
    rw [List.range_succ, List.flatMap_append]
    rcases Nat.lt_succ_iff_lt_or_eq.1 hi with hi | rfl
    · simp [ih (fun j hj x hx => h j (by omega) x hx) hi, Nat.ne_of_gt hi]
    · have : (List.range i).flatMap (fun j => if j = i then part i else []) = [] :=
        List.flatMap_eq_nil_iff.2 fun j hj => by simp [Nat.ne_of_lt (List.mem_range.1 hj)]
      simp [this]


variable [DecidableEq K]

/-- A worker that receives `l` receives every record of the other side with `l`'s key. -/
theorem filter_received (keyL : α → K) (keyR : β → K) (partR : Nat → List β) {l : α} {i : Nat}
    (hl : dest (keyL l) = i) :
    (received keyR dest workers partR i).filter (keyR · = keyL l) =
      (items workers partR).filter (keyR · = keyL l) := by
  rw [received, List.filter_filter]
  refine List.filter_congr fun r _ => ?_
  by_cases h : keyR r = keyL l <;> simp [h, hl]

theorem items_shuffleJoin_perm (keyL : α → K) (keyR : β → K) (join : α → β → γ)
    (hdest : ∀ k, dest k < workers) (partL : Nat → List α) (partR : Nat → List β) :
    (items workers (shuffleJoin keyL keyR join dest workers partL partR)).Perm
      (innerJoin keyL keyR join (items workers partL) (items workers partR)) := by
  have hrow : ∀ i, shuffleJoin keyL keyR join dest workers partL partR i =
      (received keyL dest workers partL i).flatMap fun l =>
        ((items workers partR).filter (keyR · = keyL l)).map (join l) := fun i =>
    List.flatMap_congr fun l hl => by
      rw [filter_received keyL keyR partR (of_decide_eq_true (List.mem_filter.1 hl).2)]
  have hitems : items workers (shuffleJoin keyL keyR join dest workers partL partR) =
      (items workers (received keyL dest workers partL)).flatMap fun l =>
        ((items workers partR).filter (keyR · = keyL l)).map (join l) := by
    rw [items, items, List.flatMap_assoc]
    exact List.flatMap_congr fun i _ => hrow i
  rw [hitems]
  exact (items_received_perm keyL hdest partL).flatMap_right _

/-- The local join returns, worker for worker, what the shuffle would. -/
theorem localJoin_eq_shuffleJoin (keyL : α → K) (keyR : β → K) (join : α → β → γ)
    {partL : Nat → List α} {partR : Nat → List β} (hL : Placed keyL dest workers partL)
    (hR : Placed keyR dest workers partR) {i : Nat} (hi : i < workers) :
    localJoin keyL keyR join partL partR i =
      shuffleJoin keyL keyR join dest workers partL partR i := by
  rw [localJoin, shuffleJoin, received_of_placed hL hi, received_of_placed hR hi]

/-- Whichever path the join takes, each worker holds what the shuffle join gives it. -/
theorem innerJoinOn_eq_shuffleJoin (keyL : α → K) (keyR : β → K) (join : α → β → γ)
    (detect : Bool) (partL : Nat → List α) (partR : Nat → List β) {i : Nat} (hi : i < workers) :
    innerJoinOn keyL keyR join detect dest workers partL partR i =
      shuffleJoin keyL keyR join dest workers partL partR i := by
  unfold innerJoinOn
  split
  · rename_i h
    exact localJoin_eq_shuffleJoin keyL keyR join h.placed_left h.placed_right hi
  · rfl

theorem items_innerJoinOn (keyL : α → K) (keyR : β → K) (join : α → β → γ) (detect : Bool)
    (partL : Nat → List α) (partR : Nat → List β) :
    items workers (innerJoinOn keyL keyR join detect dest workers partL partR) =
      items workers (shuffleJoin keyL keyR join dest workers partL partR) :=
  List.flatMap_congr fun _ hi =>
    innerJoinOn_eq_shuffleJoin keyL keyR join detect partL partR (List.mem_range.1 hi)

/-- Whether location detection runs or not, however the two sides are placed on the
workers and wherever `dest` sends each key, the joined records are those of the logical
`InnerJoin`, up to order; and when detection takes the local path, each worker's local
join returns what the shuffle would have given it. -/
theorem items_innerJoinOn_perm (keyL : α → K) (keyR : β → K) (join : α → β → γ)
    (detect : Bool) (hdest : ∀ k, dest k < workers) (partL : Nat → List α)
    (partR : Nat → List β) :
    (items workers (innerJoinOn keyL keyR join detect dest workers partL partR)).Perm
        (innerJoin keyL keyR join (items workers partL) (items workers partR)) ∧
      (JoinsLocally keyL keyR detect dest workers partL partR → ∀ i < workers,
        localJoin keyL keyR join partL partR i =
          shuffleJoin keyL keyR join dest workers partL partR i) :=
  ⟨items_innerJoinOn keyL keyR join detect partL partR ▸
      items_shuffleJoin_perm keyL keyR join hdest partL partR,
    fun h _ hi => localJoin_eq_shuffleJoin keyL keyR join h.placed_left h.placed_right hi⟩

theorem items_innerJoinOn_perm_placed :
    (∀ k, k % 2 < 2) ∧
    JoinsLocally Prod.fst Prod.fst true (· % 2) 2
      (fun i => if i = 0 then [((0 : Nat), (11 : Nat)), (2, 12)] else [(1, 10)])
      (fun i => if i = 0 then [((0 : Nat), (20 : Nat))] else [(1, 21), (3, 22)]) ∧
    (items 2 (innerJoinOn Prod.fst Prod.fst (fun (a b : Nat × Nat) => (a.2, b.2)) true (· % 2) 2
      (fun i => if i = 0 then [(0, 11), (2, 12)] else [(1, 10)])
      (fun i => if i = 0 then [(0, 20)] else [(1, 21), (3, 22)]))).Perm
        (innerJoin Prod.fst Prod.fst (fun (a b : Nat × Nat) => (a.2, b.2))
          (items 2 fun i => if i = 0 then [(0, 11), (2, 12)] else [(1, 10)])
          (items 2 fun i => if i = 0 then [(0, 20)] else [(1, 21), (3, 22)])) ∧
      (JoinsLocally Prod.fst Prod.fst true (· % 2) 2
          (fun i => if i = 0 then [((0 : Nat), (11 : Nat)), (2, 12)] else [(1, 10)])
          (fun i => if i = 0 then [((0 : Nat), (20 : Nat))] else [(1, 21), (3, 22)]) →
        ∀ i < 2, localJoin Prod.fst Prod.fst (fun (a b : Nat × Nat) => (a.2, b.2))
            (fun i => if i = 0 then [(0, 11), (2, 12)] else [(1, 10)])
            (fun i => if i = 0 then [(0, 20)] else [(1, 21), (3, 22)]) i =
          shuffleJoin Prod.fst Prod.fst (fun (a b : Nat × Nat) => (a.2, b.2)) (· % 2) 2
            (fun i => if i = 0 then [(0, 11), (2, 12)] else [(1, 10)])
            (fun i => if i = 0 then [(0, 20)] else [(1, 21), (3, 22)]) i) :=
  ⟨fun k => Nat.mod_lt k (by decide), by decide,
    items_innerJoinOn_perm Prod.fst Prod.fst (fun (a b : Nat × Nat) => (a.2, b.2)) true
      (fun k => Nat.mod_lt k (by decide)) _ _⟩

end Shuffle

/-! ## `PageRankJoin` on the workers -/

/-- FlatMap, ReducePair and the dampening Map: what a pass of the join shapes does after
its join. -/
def rankPass (teleport : Rank) (outsRank : List OutgoingLinksRank) : List RankedPage :=
  (reducePair (· + ·) (outsRank.flatMap (emitContribs Prod.mk))).map fun p =>
    (p.1, dampening * p.2 + teleport)

/-- A pass of the join shapes with its `InnerJoin` run on the workers. -/
def joinRankStepOn (teleport : Rank) (detect : Bool) (dest : PageId → Nat) (workers : Nat)
    (links : Nat → List LinkedPage) (ranks : Nat → List RankedPage) : List RankedPage :=
  rankPass teleport (items workers (innerJoinOn Prod.fst Prod.fst (fun lp rp => (lp.2, rp.2))
    detect dest workers links ranks))

/-- How the engine leaves a rank collection on the workers: any way that puts every record
on exactly one worker. -/
structure Placement (workers : Nat) where
  place : List RankedPage → Nat → List RankedPage
  items_perm : ∀ ranks, (items workers (place ranks)).Perm ranks

/-- `ReducePair`'s placement: every record on the worker `dest` picks for its page. -/
def Placement.byKey {workers : Nat} (dest : PageId → Nat) (hdest : ∀ k, dest k < workers) :
    Placement workers where
  place ranks i := ranks.filter fun rp => dest rp.1 = i
  items_perm ranks :=
    flatMap_range_filter_perm (fun rp : RankedPage => dest rp.1) (fun rp => hdest rp.1) ranks

/-- `iterations` passes of a join shape on the workers, the ranks of each pass placed by
`P`. -/
def joinRanksOn (teleport : Rank) (detect : Bool) (dest : PageId → Nat) (workers : Nat)
    (links : Nat → List LinkedPage) (P : Placement workers) (init : List RankedPage) :
    Nat → List RankedPage
  | 0 => init
  | t + 1 => joinRankStepOn teleport detect dest workers links
      (P.place (joinRanksOn teleport detect dest workers links P init t))

section Run

variable {teleport : Rank} {links : List LinkedPage}

theorem joinRankStep_eq_rankPass (ranks : List RankedPage) :
    joinRankStep teleport links ranks = rankPass teleport (joinLinks links ranks) := rfl

theorem rankPass_perm {outs outs' : List OutgoingLinksRank} (h : outs.Perm outs') :
    (rankPass teleport outs).Perm (rankPass teleport outs') :=
  (reducePair_add_perm (h.flatMap_right _)).map _

/-- A keyed rank list and any reordering of it hold the same entry for every page. -/
theorem filter_key_of_perm {R R' : List RankedPage} (hR : (R.map Prod.fst).Nodup)
    (h : R'.Perm R) (k : PageId) : R'.filter (·.1 = k) = R.filter (·.1 = k) := by
  by_cases hk : ∃ v, (k, v) ∈ R
  · obtain ⟨v, hv⟩ := hk
    rw [filter_key_of_mem hR hv]
    exact List.perm_singleton.1 (filter_key_of_mem hR hv ▸ h.filter _)
  · have hnil : R.filter (·.1 = k) = [] := List.filter_eq_nil_iff.2 fun ⟨k', v⟩ hx hxk =>
      hk ⟨v, by simp only [decide_eq_true_eq] at hxk; exact hxk ▸ hx⟩
    rw [hnil]
    exact List.Perm.eq_nil (hnil ▸ h.filter _)

/-- A pass does not see the order of keyed ranks. -/
theorem joinRankStep_of_perm {R R' : List RankedPage} (hR : (R.map Prod.fst).Nodup)
    (h : R'.Perm R) : joinRankStep teleport links R' = joinRankStep teleport links R :=
  joinRankStep_congr (List.flatMap_congr fun lp _ => by rw [filter_key_of_perm hR h])

theorem keys_nodup_joinRankStep (ranks : List RankedPage) :
    ((joinRankStep teleport links ranks).map Prod.fst).Nodup := by
  simpa [joinRankStep, List.map_map, Function.comp_def] using (isTable_reducePair _ _).1

variable {detect : Bool} {dest : PageId → Nat} {workers : Nat}

theorem joinRankStepOn_perm (hdest : ∀ k, dest k < workers) (links : Nat → List LinkedPage)
    (ranks : Nat → List RankedPage) :
    (joinRankStepOn teleport detect dest workers links ranks).Perm
      (joinRankStep teleport (items workers links) (items workers ranks)) :=
  rankPass_perm (items_innerJoinOn Prod.fst Prod.fst (fun lp rp => (lp.2, rp.2)) detect links
    ranks ▸ items_shuffleJoin_perm _ _ _ hdest links ranks)

/-- Run on the workers, every pass returns the records of the logical pass, up to order,
so the whole run does too. -/
theorem joinRanksOn_perm (hdest : ∀ k, dest k < workers) (links : Nat → List LinkedPage)
    (P : Placement workers) {init : List RankedPage} (hinit : (init.map Prod.fst).Nodup)
    (t : Nat) :
    (joinRanksOn teleport detect dest workers links P init t).Perm
      ((joinRankStep teleport (items workers links))^[t] init) := by
  induction t with
  | zero => exact List.Perm.refl _
  | succ t ih =>
    have hkeys : (((joinRankStep teleport (items workers links))^[t] init).map Prod.fst).Nodup := by
      cases t with
      | zero => exact hinit
      | succ t => rw [Function.iterate_succ_apply']; exact keys_nodup_joinRankStep _
    rw [Function.iterate_succ_apply', joinRanksOn,
      ← joinRankStep_of_perm hkeys ((P.items_perm _).trans ih)]
    exact joinRankStepOn_perm hdest links _

end Run

/-- On any number of workers, with the links and the ranks of every pass placed anyhow,
with or without location detection and wherever the join sends each page,
`PageRankJoin` returns the records of the logical `PageRankJoin`, up to order. -/
theorem pageRankJoin_on_workers (detect : Bool) (dest : PageId → Nat) (workers : Nat)
    (hdest : ∀ k, dest k < workers) (links : Nat → List LinkedPage) (P : Placement workers)
    (n t : Nat) :
    (joinRanksOn ((1 - dampening) / n) detect dest workers links P
      (generate n fun idx => (idx, 1 / (n : Rank))) t).Perm
      (pageRankJoin (items workers links) n t) :=
  joinRanksOn_perm hdest links P
    (by simpa [generate, List.map_map, Function.comp_def] using List.nodup_range n) t

theorem pageRankJoin_on_two_workers :
    (∀ k, k % 2 < 2) ∧
    (joinRanksOn ((1 - dampening) / 2) true (· % 2) 2
      (fun i => if i = 0 then [(0, [1])] else [(1, [0])])
      (Placement.byKey (· % 2) fun k => Nat.mod_lt k (by decide))
      (generate 2 fun idx => (idx, 1 / ((2 : Nat) : Rank))) 3).Perm
      (pageRankJoin (items 2 fun i => if i = 0 then [(0, [1])] else [(1, [0])]) 2 3) :=
  ⟨fun k => Nat.mod_lt k (by decide),
    pageRankJoin_on_workers true (· % 2) 2 (fun k => Nat.mod_lt k (by decide))
      (fun i => if i = 0 then [(0, [1])] else [(1, [0])])
      (Placement.byKey (· % 2) fun k => Nat.mod_lt k (by decide)) 2 3⟩

end ThrillPageRank.LocationDetection
