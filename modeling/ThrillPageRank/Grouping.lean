import ThrillPageRank.LineParser
/-!
# The group lambdas of the edge-list drivers

`RunPageRankEdgePerLine` builds the adjacency lists with `GroupToIndex`, and
`RunJoinPageRankEdgePerLine` the link records with `GroupByKey`. Each passes one
mutable lambda that keeps a buffer `all` from call to call: it clears the buffer,
pushes the target of every edge of the group and returns a copy. Because of the
clear, a call's output does not depend on the calls before it, so the lists are
right for every order in which the engine hands over the groups and their edges.
-/

namespace ThrillPageRank.Grouping

open Dia

/-- `all.clear()` followed by `while (r.HasNext()) all.push_back(r.Next().tgt)`. -/
def collectTargets (r : List PagePageLink) : List PageId :=
  r.foldl (fun all e => all ++ [e.tgt]) []

/-- The group lambda of `RunPageRankEdgePerLine`: the list, and the buffer it leaves. The
buffer's previous contents `_all` are cleared. -/
def groupToIndexLambda (_all : List PageId) (r : List PagePageLink) (_ : PageId) :
    OutgoingLinks × List PageId :=
  (collectTargets r, collectTargets r)

/-- The group lambda of `RunJoinPageRankEdgePerLine`: `std::make_pair(pid, all)`. -/
def groupByKeyLambda (_all : List PageId) (r : List PagePageLink) (pid : PageId) :
    LinkedPage × List PageId :=
  ((pid, collectTargets r), collectTargets r)

/-! ## A stateful lambda whose output ignores its state -/

theorem collectTargets_eq (r : List PagePageLink) : collectTargets r = r.map PagePageLink.tgt := by
  suffices ∀ acc, r.foldl (fun all e => all ++ [e.tgt]) acc = acc ++ r.map PagePageLink.tgt from
    by simpa using this []
  induction r with
  | nil => simp
  | cons e r ih => intro acc; simp [ih]

/-- If a lambda's output never depends on its state, the calls give the same outputs
in whatever state each one starts. -/
theorem runGroups_eq_map {K β σ : Type} {group : σ → List PagePageLink → K → β × σ}
    (f : List PagePageLink → K → β) (h : ∀ st items k, (group st items k).1 = f items k)
    (gs : List (K × List PagePageLink)) (st : σ) :
    runGroups group gs st = gs.map fun g => (g.1, f g.2 g.1) := by
  induction gs generalizing st with
  | nil => rfl
  | cons g gs ih => obtain ⟨k, items⟩ := g; simp [runGroups, h, ih]

theorem lookup_map_pair {β : Type} (g : Nat → β) (ks : List Nat) (i : Nat) :
    (ks.map fun k => (k, g k)).lookup i = if i ∈ ks then some (g i) else none := by
  induction ks with
  | nil => rfl
  | cons k ks ih =>
    simp only [List.map_cons, List.lookup_cons, ih, List.mem_cons]
    by_cases hik : i = k
    · subst hik; simp
    · have : (i == k) = false := beq_false_of_ne hik
      simp only [this, hik, false_or]

/-! ## `GroupToIndex` and `GroupByKey` -/

/-- After the lambda's calls, index `i` holds the targets of `i`'s edges in arrival order,
whatever the state and the order of the calls, as long as the calls visit every source. -/
theorem slot_groupToIndexLambda {arrival : List PagePageLink} {order : List Nat}
    (hord : ∀ e ∈ arrival, e.src ∈ order) (all : List PageId) (i : Nat) :
    ((runGroups groupToIndexLambda (groupsOf PagePageLink.src arrival order) all).lookup
      i).getD [] = (arrival.filter (·.src = i)).map PagePageLink.tgt := by
  rw [runGroups_eq_map (fun r _ => collectTargets r) (fun _ _ _ => rfl), groupsOf, List.map_map,
    show ((fun g : Nat × List PagePageLink => (g.1, collectTargets g.2)) ∘
      fun k => (k, arrival.filter (·.src = k))) = fun k => (k, collectTargets
        (arrival.filter (·.src = k))) from rfl, lookup_map_pair, collectTargets_eq]
  split_ifs with hi
  · rfl
  · by_cases hne : arrival.filter (·.src = i) = []
    · simp [hne]
    · obtain ⟨e, hef⟩ := List.exists_mem_of_ne_nil _ hne
      obtain ⟨he, hei⟩ := List.mem_filter.1 hef
      obtain rfl : e.src = i := of_decide_eq_true hei
      exact absurd (List.mem_filter.2 ⟨hord e he, List.any_eq_true.2 ⟨e, he, hei⟩⟩) hi

/-- `GroupToIndex` with the lambda leaves at index `i` the targets of `i`'s edges in
arrival order, whatever the state and the order of the calls. -/
theorem groupToIndex_targets {n : Nat} {arrival : List PagePageLink} {order : List Nat}
    (hkey : ∀ e ∈ arrival, e.src < n) (hord : ∀ e ∈ arrival, e.src ∈ order)
    (all : List PageId) :
    groupToIndex PagePageLink.src groupToIndexLambda n [] arrival order all =
      some ((List.range n).map fun i => (arrival.filter (·.src = i)).map PagePageLink.tgt) := by
  rw [groupToIndex, if_pos (by simpa using hkey)]
  exact congrArg some (List.map_congr_left fun i _ => slot_groupToIndexLambda hord all i)

/-- `GroupByKey` with the lambda gives `(k, targets of k in arrival order)` for each key
of `order` that received edges, whatever the state and the order of the calls. -/
theorem groupByKey_targets (arrival : List PagePageLink) (order : List PageId)
    (all : List PageId) :
    groupByKey PagePageLink.src groupByKeyLambda arrival order all =
      (order.filter fun k => arrival.any (·.src = k)).map fun k =>
        (k, (arrival.filter (·.src = k)).map PagePageLink.tgt) := by
  rw [groupByKey, runGroups_eq_map (fun r pid => (pid, collectTargets r)) (fun _ _ _ => rfl),
    groupsOf, List.map_map, List.map_map]
  simp [Function.comp_def, collectTargets_eq]

/-! ## The adjacency lists of an edge multiset -/

/-- Whatever order the edges of `E` arrive in, whatever order the engine visits the keys
in and whatever the buffer holds, `GroupToIndex` gives `n` lists, list `i` holding the
targets of `i`'s edges, and `GroupByKey` one record per distinct source with that list. -/
theorem group_lambdas_targets {n : Nat} {E arrival : List PagePageLink} (hperm : arrival.Perm E)
    (hkey : ∀ e ∈ E, e.src < n) {order : List PageId} (hord : ∀ e ∈ E, e.src ∈ order)
    (hnodup : order.Nodup) (all : List PageId) :
    (∃ ls, groupToIndex PagePageLink.src groupToIndexLambda n [] arrival order all = some ls ∧
      ls.length = n ∧
      ∀ i (hi : i < ls.length), ls[i].Perm ((E.filter (·.src = i)).map PagePageLink.tgt)) ∧
    ∃ gs, groupByKey PagePageLink.src groupByKeyLambda arrival order all = gs ∧
      (gs.map Prod.fst).Nodup ∧ (∀ k, k ∈ gs.map Prod.fst ↔ ∃ e ∈ E, e.src = k) ∧
      ∀ k l, (k, l) ∈ gs → l.Perm ((E.filter (·.src = k)).map PagePageLink.tgt) := by
  have hmem : ∀ {e}, e ∈ arrival ↔ e ∈ E := hperm.mem_iff
  have htgt : ∀ k, ((arrival.filter (·.src = k)).map PagePageLink.tgt).Perm
      ((E.filter (·.src = k)).map PagePageLink.tgt) := fun k => (hperm.filter _).map _
  refine ⟨⟨_, groupToIndex_targets (fun e he => hkey e (hmem.1 he))
    (fun e he => hord e (hmem.1 he)) all, by simp, fun i hi => by simpa using htgt i⟩,
    _, groupByKey_targets arrival order all, ?_, fun k => ?_, fun k l hkl => ?_⟩
  · simpa only [List.map_map, Function.comp_def, List.map_id'] using hnodup.filter _
  · simp only [List.map_map, Function.comp_def, List.map_id', List.mem_filter, List.any_eq_true,
      decide_eq_true_eq, hmem]
    exact ⟨fun h => h.2, fun h => ⟨h.elim fun e he => he.2 ▸ hord e he.1, h⟩⟩
  · obtain ⟨k, -, ⟨⟩⟩ := List.mem_map.1 hkl
    exact htgt k

theorem group_lambdas_targets_three_edges :
    [⟨0, 0⟩, ⟨1, 0⟩, ⟨0, 1⟩].Perm ([⟨0, 1⟩, ⟨1, 0⟩, ⟨0, 0⟩] : List PagePageLink) ∧
    (∀ e ∈ ([⟨0, 1⟩, ⟨1, 0⟩, ⟨0, 0⟩] : List PagePageLink), e.src < 2) ∧
    (∀ e ∈ ([⟨0, 1⟩, ⟨1, 0⟩, ⟨0, 0⟩] : List PagePageLink), e.src ∈ [1, 0]) ∧
    [1, 0].Nodup ∧
    (∃ ls, groupToIndex PagePageLink.src groupToIndexLambda 2 [] [⟨0, 0⟩, ⟨1, 0⟩, ⟨0, 1⟩]
        [1, 0] [7] = some ls ∧ ls.length = 2 ∧ ∀ i (hi : i < ls.length),
        ls[i].Perm ((([⟨0, 1⟩, ⟨1, 0⟩, ⟨0, 0⟩] : List PagePageLink).filter (·.src = i)).map
          PagePageLink.tgt)) ∧
    ∃ gs, groupByKey PagePageLink.src groupByKeyLambda [⟨0, 0⟩, ⟨1, 0⟩, ⟨0, 1⟩] [1, 0] [7] = gs ∧
      (gs.map Prod.fst).Nodup ∧
      (∀ k, k ∈ gs.map Prod.fst ↔
        ∃ e ∈ ([⟨0, 1⟩, ⟨1, 0⟩, ⟨0, 0⟩] : List PagePageLink), e.src = k) ∧
      ∀ k l, (k, l) ∈ gs → l.Perm ((([⟨0, 1⟩, ⟨1, 0⟩, ⟨0, 0⟩] : List PagePageLink).filter
        (·.src = k)).map PagePageLink.tgt) :=
  ⟨by decide, by decide, by decide, by decide,
    group_lambdas_targets (by decide) (by decide) (by decide) (by decide) [7]⟩

end ThrillPageRank.Grouping
