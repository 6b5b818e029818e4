import ThrillPageRank.ReduceOn
/-!
# `PageRank` on the workers

Modelled from the spec (§4.4, §5): in the index shape every collection is split by the
same ranges of page ids, worker `w` holding pages `[bound w, bound (w + 1))` of the links
(`GroupToIndex`'s output) and of the ranks (`Generate`'s, then `ReduceToIndex`'s). `Zip`
checks that the two have the same size and pairs them on each worker, the same ranges
holding as many links as ranks, and the contributions go to the owners of their target
pages, where `ReduceToIndex` checks their keys. Whatever the ranges and the order in which
the contributions reach their owners, when each worker holds its range of the adjacency
lists (each list in any order, as `GroupToIndex` leaves them), every pass passes both
checks and leaves each worker its range of the logical `PageRank`'s ranks.
-/

namespace ThrillPageRank.PageRankOn

open Dia PageRank PowerIteration LocationDetection ReduceOn

variable {workers numPages : Nat}

/-- Modelled from the spec: `a.Zip(b, f)` on the workers. DIAs of different sizes are an
error; otherwise item `i` of `b` goes to the worker that holds item `i` of `a`, which pairs
them, so the pairs sit where `a`'s items do. -/
def zipOn {α β γ : Type} (workers : Nat) (f : α → β → γ) (xs : Nat → List α)
    (ys : Nat → List β) : Option (Nat → List γ) :=
  (zip f (items workers xs) (items workers ys)).map fun zs w =>
    (zs.drop (items w xs).length).take (xs w).length

/-- One pass of `PageRank`'s loop on the workers: the links are zipped with the ranks,
each worker emits the contributions of its pairs, `ReduceToIndex` folds them on the owners
of their pages, and each worker applies the dampening Map to its slots. -/
def pageRankStepOn (s : RangeSplit workers numPages)
    (arrive : Nat → List PageRankPair → List PageRankPair) (links : Nat → List OutgoingLinks)
    (ranks : Nat → List Rank) : Option (Nat → List Rank) := do
  let outsRank ← zipOn workers (fun ol r => (ol, r)) links ranks
  let reduced ← reduceToIndexOn s PageRankPair.page addRanks ⟨0, 0⟩ arrive fun w =>
    (outsRank w).flatMap (emitContribs PageRankPair.mk)
  pure fun w => (reduced w).map fun p => dampening * p.rank + (1 - dampening) / numPages

/-- `PageRank` on the workers: `Generate` gives each worker `1 / n` for each page of its
range, then `iterations` passes. -/
def pageRankOn (s : RangeSplit workers numPages)
    (arrive : Nat → List PageRankPair → List PageRankPair) (links : Nat → List OutgoingLinks)
    (iterations : Nat) : Option (Nat → List Rank) :=
  iterate (pageRankStepOn s arrive links) iterations fun w =>
    (s.range w).map fun _ => 1 / (numPages : Rank)

/-! ## Zip on the workers -/

section Zip

variable {α β γ : Type} (f : α → β → γ)

theorem items_succ (k : Nat) (xs : Nat → List α) : items (k + 1) xs = items k xs ++ xs k := by
  rw [items, items, List.range_succ, List.flatMap_append, List.flatMap_singleton]

theorem items_add (k j : Nat) (xs : Nat → List α) :
    items (k + j) xs = items k xs ++ items j fun i => xs (k + i) := by
  induction j with
  | zero => simp [items]
  | succ j ih => rw [← Nat.add_assoc, items_succ, ih, items_succ, List.append_assoc]

theorem length_items_eq {k : Nat} {xs : Nat → List α} {ys : Nat → List β}
    (h : ∀ w < k, (xs w).length = (ys w).length) : (items k xs).length = (items k ys).length := by
  induction k with
  | zero => rfl
  | succ k ih =>
    rw [items_succ, items_succ, List.length_append, List.length_append,
      ih fun w hw => h w (by omega), h k (by omega)]

/-- Zipping the workers' parts one after the other zips each worker's parts, when each
worker holds as many items of both. -/
theorem zipWith_items {k : Nat} {xs : Nat → List α} {ys : Nat → List β}
    (h : ∀ w < k, (xs w).length = (ys w).length) :
    List.zipWith f (items k xs) (items k ys) = items k fun w => List.zipWith f (xs w) (ys w) := by
  induction k with
  | zero => rfl
  | succ k ih =>
    rw [items_succ, items_succ, items_succ, List.zipWith_append _ _ _ _ _
      (length_items_eq fun w hw => h w (by omega)), ih fun w hw => h w (by omega)]

/-- Worker `w`'s part, cut back out of the workers' parts one after the other. -/
theorem take_drop_items {k w : Nat} (hw : w < k) (zs : Nat → List γ) :
    ((items k zs).drop (items w zs).length).take (zs w).length = zs w := by
  obtain ⟨j, rfl⟩ := Nat.exists_eq_add_of_lt hw
  rw [show w + j + 1 = w + 1 + j by omega, items_add, items_succ, List.append_assoc,
    List.drop_left, List.take_left]

/-- When every worker holds as many items of both sides, the zip succeeds and pairs each
worker's items with its own. -/
theorem zipOn_of_length_eq {k : Nat} {xs : Nat → List α} {ys : Nat → List β}
    (h : ∀ w < k, (xs w).length = (ys w).length) :
    ∃ zs, zipOn k f xs ys = some zs ∧ ∀ w < k, zs w = List.zipWith f (xs w) (ys w) := by
  refine ⟨_, by rw [zipOn, zip_of_length_eq (length_items_eq h)]; rfl, fun w hw => ?_⟩
  have hpre : ∀ i < w, (xs i).length = (List.zipWith f (xs i) (ys i)).length := fun i hi => by
    simp [h i (by omega)]
  have hw' : (xs w).length = (List.zipWith f (xs w) (ys w)).length := by simp [h w hw]
  simp only
  rw [zipWith_items f h, length_items_eq hpre, hw']
  exact take_drop_items hw fun w => List.zipWith f (xs w) (ys w)

end Zip

/-! ## The contributions do not see the order of an adjacency list -/

theorem emitContribs_perm {ol ol' : OutgoingLinks} (h : ol.Perm ol') (r : Rank) :
    (emitContribs PageRankPair.mk (ol, r)).Perm (emitContribs PageRankPair.mk (ol', r)) := by
  simp only [emitContribs, h.length_eq]
  split
  · exact List.Perm.refl _
  · exact h.map _

theorem flatMap_zipWith_perm {ls ls' : List OutgoingLinks} (h : List.Forall₂ List.Perm ls ls')
    (rs : List Rank) :
    ((List.zipWith (fun ol r => (ol, r)) ls rs).flatMap (emitContribs PageRankPair.mk)).Perm
      ((List.zipWith (fun ol r => (ol, r)) ls' rs).flatMap (emitContribs PageRankPair.mk)) := by
  induction h generalizing rs with
  | nil => exact List.Perm.refl _
  | cons hol _ ih =>
    cases rs with
    | nil => exact List.Perm.refl _
    | cons r rs => exact (emitContribs_perm hol r).append (ih rs)

section Step

variable {n : Nat} (s : RangeSplit workers n)
  {arrive : Nat → List PageRankPair → List PageRankPair} {links : List OutgoingLinks}
  {linksOn : Nat → List OutgoingLinks}

/-- The contributions of all workers are those of the logical pass, up to order. -/
theorem items_contribs_perm
    (hlinks : ∀ w < workers, List.Forall₂ List.Perm (linksOn w) (s.slice links w))
    {ranks : List Rank} (hz : (List.zipWith (fun ol r => (ol, r)) links ranks).length = n)
    {parts : Nat → List Rank} (hparts : ∀ w < workers, parts w = s.slice ranks w) :
    (items workers fun v =>
      (List.zipWith (fun ol r => (ol, r)) (linksOn v) (parts v)).flatMap
        (emitContribs PageRankPair.mk)).Perm
      ((List.zipWith (fun ol r => (ol, r)) links ranks).flatMap
        (emitContribs PageRankPair.mk)) := by
  rw [← s.flatMap_slice hz, List.flatMap_assoc, items]
  refine List.Perm.flatMap_left _ fun v hv => ?_
  rw [hparts v (List.mem_range.1 hv), s.slice_zipWith]
  exact flatMap_zipWith_perm (hlinks v (List.mem_range.1 hv)) _

/-- One pass on the workers simulates one logical pass: when each worker holds its range
of `ranks`, the pass succeeds and each worker holds its range of the logical pass's ranks. -/
theorem pageRankStepOn_slice (harr : ∀ w xs, (arrive w xs).Perm xs) (hlen : links.length = n)
    (htgt : ∀ ol ∈ links, ∀ q ∈ ol, q < n)
    (hlinks : ∀ w < workers, List.Forall₂ List.Perm (linksOn w) (s.slice links w))
    {ranks : List Rank} (hranks : ranks.length = n)
    {parts : Nat → List Rank} (hparts : ∀ w < workers, parts w = s.slice ranks w) :
    ∃ ranks' parts', pageRankStep links n ranks = some ranks' ∧
      pageRankStepOn s arrive linksOn parts = some parts' ∧
      ∀ w < workers, parts' w = s.slice ranks' w := by
  set pairs := List.zipWith (fun ol r => (ol, r)) links ranks
  have hz : links.length = ranks.length := hlen.trans hranks.symm
  have hkeys : ∀ c ∈ pairs.flatMap (emitContribs PageRankPair.mk), c.page < n := by
    intro c hc
    obtain ⟨p, hp, hcp⟩ := (mem_pages_emitContribs PageRankPair.mk PageRankPair.page
      (fun _ _ => rfl) _ _).1 (List.mem_map_of_mem _ hc)
    obtain ⟨ol, r, hol, -, rfl⟩ : ∃ ol r, ol ∈ links ∧ r ∈ ranks ∧ (ol, r) = p :=
      ⟨p.1, p.2, (List.of_mem_zip hp).1, (List.of_mem_zip hp).2, rfl⟩
    exact htgt ol hol _ hcp
  have hlens : ∀ w < workers, (linksOn w).length = (parts w).length := fun w hw => by
    simp only [(hlinks w hw).length_eq, hparts w hw, RangeSplit.slice, List.length_take,
      List.length_drop, hz]
  obtain ⟨outs, hzip, houts⟩ := zipOn_of_length_eq (fun ol r => (ol, r)) hlens
  have hcontribs : (items workers fun w => (outs w).flatMap (emitContribs PageRankPair.mk)).Perm
      (pairs.flatMap (emitContribs PageRankPair.mk)) := by
    rw [items, List.flatMap_congr fun w hw => by rw [houts w (List.mem_range.1 hw)], ← items]
    exact items_contribs_perm s hlinks (by simp [pairs, hz, hranks]) hparts
  have hstepOn : pageRankStepOn s arrive linksOn parts = some fun w =>
      (reduceToIndexAt s PageRankPair.page addRanks ⟨0, 0⟩ arrive
        (fun v => (outs v).flatMap (emitContribs PageRankPair.mk)) w).map fun p =>
          dampening * p.rank + (1 - dampening) / n := by
    simp only [pageRankStepOn, hzip, Option.bind_eq_bind, Option.some_bind,
      reduceToIndexOn_of_lt s _ _ _ fun c hc => hkeys c (hcontribs.subset hc)]
    rfl
  refine ⟨_, _, by simp only [pageRankStep, zip_of_length_eq hz, Option.bind_eq_bind,
    Option.some_bind, reduceToIndex_of_lt hkeys]; rfl, hstepOn, fun w hw => ?_⟩
  rw [reduceToIndexAt_eq s _ _ _ harr reduceSlot_addRanks_perm,
    reduceSlot_addRanks_perm hcontribs, s.slice_map, s.slice_map, s.slice_range hw, List.map_map]

/-- After every number of passes, the run on the workers succeeds and each worker holds its
range of the recurrence's ranks. -/
theorem pageRankOn_slice (harr : ∀ w xs, (arrive w xs).Perm xs) (hlen : links.length = n)
    (htgt : ∀ ol ∈ links, ∀ q ∈ ol, q < n)
    (hlinks : ∀ w < workers, List.Forall₂ List.Perm (linksOn w) (s.slice links w)) (t : Nat) :
    ∃ parts, pageRankOn s arrive linksOn t = some parts ∧
      ∀ w < workers, parts w = s.slice ((List.range n).map (powerIteration links n t)) w := by
  induction t with
  | zero => exact ⟨_, rfl, fun w hw => by rw [s.slice_map, s.slice_range hw]; rfl⟩
  | succ t ih =>
    obtain ⟨parts, hrun, hsim⟩ := ih
    obtain ⟨ranks', parts', hstep, hstepOn, hsim'⟩ :=
      pageRankStepOn_slice s harr hlen htgt hlinks (by simp) hsim
    rw [pageRankStep_spec hlen htgt, Option.some_inj] at hstep
    refine ⟨parts', ?_, fun w hw => by rw [hsim' w hw, ← hstep]; rfl⟩
    simp only [pageRankOn, iterate] at hrun ⊢
    rw [hrun, Option.bind_eq_bind, Option.some_bind, hstepOn]

end Step

/-- For every split of the pages into ranges, every order in which the contributions reach
the owners of their pages and every iteration count, when each worker holds its range of
the adjacency lists, each in any order, `PageRank` run on the workers leaves on each
worker its range of the logical `PageRank`'s ranks, and the workers' ranks one after the
other are the logical ones. -/
theorem pageRank_on_workers {n : Nat} (s : RangeSplit workers n)
    (arrive : Nat → List PageRankPair → List PageRankPair)
    (harr : ∀ w xs, (arrive w xs).Perm xs) (links : List OutgoingLinks) (hlen : links.length = n)
    (htgt : ∀ ol ∈ links, ∀ q ∈ ol, q < n) (linksOn : Nat → List OutgoingLinks)
    (hlinks : ∀ w < workers, List.Forall₂ List.Perm (linksOn w) (s.slice links w)) (t : Nat) :
    ∃ ranks parts, pageRank links n t = some ranks ∧ pageRankOn s arrive linksOn t = some parts ∧
      items workers parts = ranks ∧ ∀ w < workers, parts w = s.slice ranks w := by
  obtain ⟨parts, hrun, hsim⟩ := pageRankOn_slice s harr hlen htgt hlinks t
  refine ⟨_, parts, pageRank_spec hlen htgt t, hrun, ?_, hsim⟩
  rw [items, List.flatMap_congr fun w hw => hsim w (List.mem_range.1 hw),
    s.flatMap_slice (by simp)]

theorem pageRank_on_two_workers :
    (∀ (_ : Nat) (xs : List PageRankPair), (List.reverse xs).Perm xs) ∧
    [[1], [0, 1]].length = 2 ∧ (∀ ol ∈ [[1], [0, 1]], ∀ q ∈ ol, q < 2) ∧
    (∀ w < 2, List.Forall₂ List.Perm ((fun w => if w = 0 then [[1]] else [[1, 0]]) w)
      ((RangeSplit.even 2 2 (by decide)).slice [[1], [0, 1]] w)) ∧
    ∃ ranks parts, pageRank [[1], [0, 1]] 2 2 = some ranks ∧
      pageRankOn (RangeSplit.even 2 2 (by decide)) (fun _ => List.reverse)
        (fun w => if w = 0 then [[1]] else [[1, 0]]) 2 = some parts ∧
      items 2 parts = ranks ∧ ∀ w < 2, parts w = (RangeSplit.even 2 2 (by decide)).slice ranks w :=
  ⟨fun _ xs => List.reverse_perm xs, rfl, by decide, by decide,
    pageRank_on_workers (RangeSplit.even 2 2 (by decide)) (fun _ => List.reverse)
      (fun _ xs => List.reverse_perm xs) [[1], [0, 1]] rfl (by decide)
      (fun w => if w = 0 then [[1]] else [[1, 0]]) (by decide) 2⟩

end ThrillPageRank.PageRankOn
