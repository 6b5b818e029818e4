import ThrillPageRank.LocationDetection
/-!
# What the join shapes compute, for every link collection

`PageRank` gives every page of `[0, n)` a rank in every pass; the join shapes do not.
`InnerJoin` pairs a link record only with a rank of its own page, and `ReducePair` keeps
only the pages that received a contribution, so a page keeps a rank after a pass exactly
when a link record of a page that had a rank lists it. Read as a partial map from pages
to ranks (`rankOf`), a rank collection with one record per page determines its records up
to order, and one join pass on the records is one step of a recurrence on partial maps
(`joinStep`). By induction, `PageRankJoinSelf` and `PageRankJoin` hold exactly the
recurrence's ranks after every number of passes, whatever the link records, and the pages
that keep a rank after `t` passes are the ends of the walks of `t` links (`ReachedIn`).
-/

namespace ThrillPageRank.JoinSemantics

open Dia PageRank PowerIteration JoinShape LocationDetection

/-- A rank collection read as a partial map: the rank of the first record of page `p`. -/
def rankOf (ranks : List RankedPage) (p : PageId) : Option Rank :=
  ((ranks.filter (·.1 = p)).map Prod.snd).head?

/-- One pass of the join shapes on a partial map of ranks: page `q` keeps a rank when a
link record of a page with a rank lists `q`, and then gets the dampened sum of what the
link records of the pages with a rank give it, plus `teleport`. -/
def joinStep (teleport : Rank) (links : List LinkedPage) (r : PageId → Option Rank)
    (q : PageId) : Option Rank :=
  if ∃ lp ∈ links, (r lp.1).isSome ∧ q ∈ lp.2 then
    some (dampening * (links.map fun lp => ((r lp.1).map fun v => share lp.2 v q).getD 0).sum +
      teleport)
  else none

/-- `PageRankJoinSelf`'s initial ranks: `1` for every page with a link record. -/
def selfInit (links : List LinkedPage) (p : PageId) : Option Rank :=
  if p ∈ links.map Prod.fst then some 1 else none

/-- `PageRankJoin`'s initial ranks: `1 / n` for every page of `[0, n)`. -/
def generateInit (n : Nat) (p : PageId) : Option Rank :=
  if p < n then some (1 / n) else none

/-- Page `q` ends a walk of `t` links from a page of `start`: each step goes from a page to
a target of one of its link records. -/
def ReachedIn (links : List LinkedPage) (start : PageId → Prop) : Nat → PageId → Prop
  | 0 => start
  | t + 1 => fun q => ∃ lp ∈ links, ReachedIn links start t lp.1 ∧ q ∈ lp.2

def decReachedIn (links : List LinkedPage) (start : PageId → Prop) [DecidablePred start] :
    ∀ t, DecidablePred (ReachedIn links start t)
  | 0 => inferInstanceAs (DecidablePred start)
  | t + 1 => fun q =>
    have := decReachedIn links start t
    inferInstanceAs (Decidable (∃ lp ∈ links, ReachedIn links start t lp.1 ∧ q ∈ lp.2))

instance (links : List LinkedPage) (start : PageId → Prop) [DecidablePred start] (t : Nat) :
    DecidablePred (ReachedIn links start t) :=
  decReachedIn links start t

/-! ## A rank collection with one record per page is its partial map -/

section Keyed

variable {R : List RankedPage}

theorem filter_eq_rankOf (hR : (R.map Prod.fst).Nodup) (p : PageId) :
    R.filter (·.1 = p) = ((rankOf R p).map fun v => (p, v)).toList := by
  by_cases hp : ∃ v, (p, v) ∈ R
  · obtain ⟨v, hv⟩ := hp
    simp [rankOf, filter_key_of_mem hR hv]
  · have hnil : R.filter (·.1 = p) = [] := List.filter_eq_nil_iff.2 fun ⟨k, v⟩ hx hk =>
      hp ⟨v, (of_decide_eq_true hk : k = p) ▸ hx⟩
    simp [rankOf, hnil]

theorem isSome_rankOf (R : List RankedPage) (p : PageId) :
    (rankOf R p).isSome ↔ p ∈ R.map Prod.fst := by
  simp [rankOf, List.head?_eq_none_iff, List.filter_eq_nil_iff, Option.isSome_iff_ne_none]

theorem mem_iff_rankOf (hR : (R.map Prod.fst).Nodup) (p : PageId) (v : Rank) :
    (p, v) ∈ R ↔ rankOf R p = some v := by
  have h : (p, v) ∈ R ↔ (p, v) ∈ R.filter (·.1 = p) := by simp
  rw [h, filter_eq_rankOf hR]
  cases rankOf R p <;> simp [eq_comm]

/-- The join pairs each link record with the rank of its page, when the page has one. -/
theorem joinLinks_rankOf (hR : (R.map Prod.fst).Nodup) (links : List LinkedPage) :
    joinLinks links R =
      links.flatMap fun lp => ((rankOf R lp.1).map fun v => (lp.2, v)).toList :=
  List.flatMap_congr fun lp _ => by
    rw [filter_eq_rankOf hR]
    cases rankOf R lp.1 <;> rfl

end Keyed

/-! ## One join pass is one step of the recurrence -/

section Step

variable (r : PageId → Option Rank) (links : List LinkedPage)

theorem exists_mem_joined (q : PageId) :
    (∃ o ∈ links.flatMap (fun lp => ((r lp.1).map fun v => (lp.2, v)).toList), q ∈ o.1) ↔
      ∃ lp ∈ links, (r lp.1).isSome ∧ q ∈ lp.2 := by
  simp only [List.mem_flatMap]
  constructor
  · rintro ⟨o, ⟨lp, hlp, ho⟩, hq⟩
    cases h : r lp.1 with
    | none => simp [h] at ho
    | some v =>
      obtain rfl : o = (lp.2, v) := by simpa [h] using ho
      exact ⟨lp, hlp, by simp [h], hq⟩
  · rintro ⟨lp, hlp, hs, hq⟩
    obtain ⟨v, hv⟩ := Option.isSome_iff_exists.1 hs
    exact ⟨(lp.2, v), ⟨lp, hlp, by simp [hv]⟩, hq⟩

theorem sum_share_joined (q : PageId) :
    ((links.flatMap fun lp => ((r lp.1).map fun v => (lp.2, v)).toList).map
      fun o => share o.1 o.2 q).sum =
      (links.map fun lp => ((r lp.1).map fun v => share lp.2 v q).getD 0).sum := by
  induction links with
  | nil => rfl
  | cons lp links ih =>
    simp only [List.flatMap_cons, List.map_append, List.sum_append, ih, List.map_cons,
      List.sum_cons]
    cases r lp.1 <;> simp

/-- After the FlatMap, `ReducePair` and the dampening Map, a page has a record exactly when
a joined pair lists it, holding the dampened sum of the pairs' shares plus `teleport`. -/
theorem mem_rankPass (teleport : Rank) (outs : List OutgoingLinksRank) (q : PageId) (v : Rank) :
    (q, v) ∈ rankPass teleport outs ↔ (∃ o ∈ outs, q ∈ o.1) ∧
      v = dampening * (outs.map fun o => share o.1 o.2 q).sum + teleport := by
  rw [rankPass, ← mem_pages_emitContribs Prod.mk Prod.fst (fun _ _ => rfl),
    ← sum_flatMap_emitContribs Prod.mk Prod.fst Prod.snd (fun _ _ => rfl) (fun _ _ => rfl)]
  constructor
  · intro h
    obtain ⟨⟨k, w⟩, hw, he⟩ := List.mem_map.1 h
    obtain ⟨rfl, rfl⟩ := Prod.mk.inj he
    obtain ⟨hk, rfl⟩ := (mem_reducePair_add _ _ _).1 hw
    exact ⟨hk, rfl⟩
  · rintro ⟨hq, rfl⟩
    exact List.mem_map.2 ⟨_, (mem_reducePair_add _ _ _).2 ⟨hq, rfl⟩, rfl⟩

end Step

section Run

variable {teleport : Rank} {links : List LinkedPage} {R : List RankedPage}

/-- One join pass on ranks with one record per page is one step of the recurrence on
their partial map. -/
theorem rankOf_joinRankStep (hR : (R.map Prod.fst).Nodup) :
    rankOf (joinRankStep teleport links R) = joinStep teleport links (rankOf R) := by
  funext q
  refine Option.ext fun v => ?_
  rw [Option.mem_def, Option.mem_def, ← mem_iff_rankOf (keys_nodup_joinRankStep _),
    joinRankStep_eq_rankPass, joinLinks_rankOf hR, mem_rankPass, exists_mem_joined,
    sum_share_joined, joinStep]
  split_ifs with h
  · exact (and_iff_right h).trans ⟨fun hv => hv ▸ rfl, fun hv => (Option.some_inj.1 hv).symm⟩
  · exact iff_of_false (fun h' => h h'.1) (by simp)

theorem keys_nodup_iterate_joinRankStep (hR : (R.map Prod.fst).Nodup) (t : Nat) :
    (((joinRankStep teleport links)^[t] R).map Prod.fst).Nodup := by
  cases t with
  | zero => exact hR
  | succ t => rw [Function.iterate_succ_apply']; exact keys_nodup_joinRankStep _

/-- Every run of join passes from ranks with one record per page follows the recurrence. -/
theorem rankOf_iterate_joinRankStep (hR : (R.map Prod.fst).Nodup) (t : Nat) :
    rankOf ((joinRankStep teleport links)^[t] R) = (joinStep teleport links)^[t] (rankOf R) := by
  induction t with
  | zero => rfl
  | succ t ih =>
    rw [Function.iterate_succ_apply', Function.iterate_succ_apply',
      rankOf_joinRankStep (keys_nodup_iterate_joinRankStep hR t), ih]

/-- A join pass keeps the pages that a link record of a page with a rank lists, whatever
the ranks. -/
theorem mem_keys_joinRankStep (R : List RankedPage) (q : PageId) :
    q ∈ (joinRankStep teleport links R).map Prod.fst ↔
      ReachedIn links (· ∈ R.map Prod.fst) 1 q := by
  have hkeys : q ∈ (joinRankStep teleport links R).map Prod.fst ↔
      ∃ o ∈ joinLinks links R, q ∈ o.1 := by
    rw [joinRankStep_eq_rankPass]
    constructor
    · rintro h
      obtain ⟨⟨k, v⟩, hkv, rfl⟩ := List.mem_map.1 h
      exact ((mem_rankPass _ _ _ _).1 hkv).1
    · intro hq
      exact List.mem_map.2 ⟨_, (mem_rankPass _ _ _ _).2 ⟨hq, rfl⟩, rfl⟩
  rw [hkeys]
  constructor
  · rintro ⟨o, ho, hq⟩
    obtain ⟨lp, hlp, ho⟩ := List.mem_flatMap.1 ho
    obtain ⟨rp, hrp, rfl⟩ := List.mem_map.1 ho
    obtain ⟨hrp, hk⟩ := List.mem_filter.1 hrp
    exact ⟨lp, hlp, List.mem_map.2 ⟨rp, hrp, of_decide_eq_true hk⟩, hq⟩
  · rintro ⟨lp, hlp, hk, hq⟩
    obtain ⟨rp, hrp, hk⟩ := List.mem_map.1 hk
    exact ⟨_, List.mem_flatMap.2 ⟨lp, hlp,
      List.mem_map.2 ⟨rp, List.mem_filter.2 ⟨hrp, decide_eq_true hk⟩, rfl⟩⟩, hq⟩

theorem reachedIn_start_one (start : PageId → Prop) (t : Nat) (q : PageId) :
    ReachedIn links (ReachedIn links start 1) t q ↔ ReachedIn links start (t + 1) q := by
  induction t generalizing q with
  | zero => rfl
  | succ t ih =>
    exact exists_congr fun lp => and_congr_right fun _ => and_congr_left fun _ => ih lp.1

/-- The pages the recurrence gives a rank after `t` steps are the ends of the walks of `t`
links from the pages it starts with. -/
theorem isSome_iterate_joinStep (init : PageId → Option Rank) (t : Nat) (q : PageId) :
    ((joinStep teleport links)^[t] init q).isSome ↔
      ReachedIn links (fun p => (init p).isSome) t q := by
  induction t generalizing q with
  | zero => rfl
  | succ t ih =>
    rw [Function.iterate_succ_apply', joinStep]
    simp only [ReachedIn, ih]
    split_ifs with h <;> simp [h]

/-- The pages a run of `t` join passes keeps are the ends of the walks of `t` links from
the pages of the ranks it starts with, whatever those ranks. -/
theorem keys_iterate_joinRankStep (R : List RankedPage) (t : Nat) (q : PageId) :
    q ∈ ((joinRankStep teleport links)^[t] R).map Prod.fst ↔
      ReachedIn links (· ∈ R.map Prod.fst) t q := by
  cases t with
  | zero => rfl
  | succ t =>
    have hR : ((joinRankStep teleport links R).map Prod.fst).Nodup := keys_nodup_joinRankStep R
    rw [Function.iterate_succ_apply, ← isSome_rankOf, rankOf_iterate_joinRankStep hR,
      isSome_iterate_joinStep, ← reachedIn_start_one]
    simp only [isSome_rankOf, mem_keys_joinRankStep]

end Run

/-! ## The recurrence reads the link records as a multiset of multisets -/

section Congr

variable {teleport : Rank} {links links' : List LinkedPage}

theorem joinStep_perm (h : links.Perm links') :
    joinStep teleport links = joinStep teleport links' := by
  funext r q
  simp only [joinStep, h.mem_iff, (h.map _).sum_eq]

theorem selfInit_perm (h : links.Perm links') : selfInit links = selfInit links' := by
  funext p
  simp only [selfInit, (h.map _).mem_iff]

/-- Reordering the targets of each link record changes neither the recurrence nor its
start. -/
theorem joinStep_map_targets {f : LinkedPage → OutgoingLinks}
    (hf : ∀ lp ∈ links, (f lp).Perm lp.2) :
    joinStep teleport (links.map fun lp => (lp.1, f lp)) = joinStep teleport links := by
  funext r q
  have hex : (∃ lp ∈ links.map (fun lp => (lp.1, f lp)), (r lp.1).isSome ∧ q ∈ lp.2) ↔
      ∃ lp ∈ links, (r lp.1).isSome ∧ q ∈ lp.2 := by
    simp only [List.mem_map]
    constructor
    · rintro ⟨_, ⟨lp, hlp, rfl⟩, hs, hq⟩
      exact ⟨lp, hlp, hs, (hf lp hlp).mem_iff.1 hq⟩
    · rintro ⟨lp, hlp, hs, hq⟩
      exact ⟨_, ⟨lp, hlp, rfl⟩, hs, (hf lp hlp).mem_iff.2 hq⟩
  have hsum : (links.map fun lp => ((r lp.1).map fun v => share (f lp) v q).getD 0) =
      links.map fun lp => ((r lp.1).map fun v => share lp.2 v q).getD 0 :=
    List.map_congr_left fun lp hlp => by simp only [share_perm (hf lp hlp)]
  simp only [joinStep, hex, List.map_map, Function.comp_def, hsum]

theorem selfInit_map_targets (f : LinkedPage → OutgoingLinks) :
    selfInit (links.map fun lp => (lp.1, f lp)) = selfInit links := by
  funext p
  simp only [selfInit, List.map_map, Function.comp_def]

theorem reachedIn_perm {start : PageId → Prop} (h : links.Perm links') (t : Nat) (q : PageId) :
    ReachedIn links start t q ↔ ReachedIn links' start t q := by
  induction t generalizing q with
  | zero => rfl
  | succ t ih => simp only [ReachedIn, h.mem_iff, ih]

theorem reachedIn_map_targets {start : PageId → Prop} {f : LinkedPage → OutgoingLinks}
    (hf : ∀ lp ∈ links, (f lp).Perm lp.2) (t : Nat) (q : PageId) :
    ReachedIn (links.map fun lp => (lp.1, f lp)) start t q ↔ ReachedIn links start t q := by
  induction t generalizing q with
  | zero => rfl
  | succ t ih =>
    constructor
    · rintro ⟨_, hmem, hr, hq⟩
      obtain ⟨lp, hlp, rfl⟩ := List.mem_map.1 hmem
      exact ⟨lp, hlp, (ih _).1 hr, (hf lp hlp).mem_iff.1 hq⟩
    · rintro ⟨lp, hlp, hr, hq⟩
      exact ⟨_, List.mem_map.2 ⟨lp, hlp, rfl⟩, (ih _).2 hr, (hf lp hlp).mem_iff.2 hq⟩

theorem reachedIn_congr_start {start start' : PageId → Prop} (h : ∀ p, start p ↔ start' p)
    (t : Nat) (q : PageId) : ReachedIn links start t q ↔ ReachedIn links start' t q := by
  rw [show start = start' from funext fun p => propext (h p)]

/-- A page a walk ends at is a start page or a target of a link record. -/
theorem reachedIn_start_or_target {start : PageId → Prop} {t : Nat} {q : PageId}
    (h : ReachedIn links start t q) : start q ∨ ∃ lp ∈ links, q ∈ lp.2 := by
  cases t with
  | zero => exact Or.inl h
  | succ t =>
    obtain ⟨lp, hlp, -, hq⟩ := h
    exact Or.inr ⟨lp, hlp, hq⟩

end Congr

/-! ## The two join shapes -/

/-- Both shapes start with one rank `c` for each page of a list. -/
theorem rankOf_map_const (ks : List PageId) (c : Rank) (p : PageId) :
    rankOf (ks.map fun k => (k, c)) p = if p ∈ ks then some c else none := by
  induction ks with
  | nil => rfl
  | cons k ks ih =>
    by_cases h : k = p
    · subst h; simp [rankOf]
    · simp only [rankOf, List.map_cons, List.filter_cons, h] at ih ⊢
      simp [ih, h, Ne.symm h]

theorem rankOf_selfInit (links : List LinkedPage) :
    rankOf (links.map fun lp => (lp.1, (1 : Rank))) = selfInit links := by
  funext p
  rw [show links.map (fun lp => (lp.1, (1 : Rank))) = (links.map Prod.fst).map fun k => (k, 1)
    by rw [List.map_map]; rfl, rankOf_map_const, selfInit]

theorem rankOf_generate (n : Nat) :
    rankOf (generate n fun idx => (idx, 1 / (n : Rank))) = generateInit n := by
  funext p
  rw [generate, rankOf_map_const, generateInit]
  simp only [List.mem_range]

section Self

variable {links : List LinkedPage} (hkeys : (links.map Prod.fst).Nodup)

include hkeys in
theorem keys_nodup_selfInit :
    ((links.map fun lp => (lp.1, (1 : Rank))).map Prod.fst).Nodup := by
  simpa [List.map_map, Function.comp_def] using hkeys

include hkeys in
theorem keys_nodup_pageRankJoinSelf (t : Nat) :
    ((pageRankJoinSelf links t).map Prod.fst).Nodup :=
  keys_nodup_iterate_joinRankStep (keys_nodup_selfInit hkeys) t

include hkeys in
theorem rankOf_pageRankJoinSelf (t : Nat) :
    rankOf (pageRankJoinSelf links t) = (joinStep (1 - dampening) links)^[t] (selfInit links) := by
  rw [pageRankJoinSelf, pageRankJoinSelfStep,
    rankOf_iterate_joinRankStep (keys_nodup_selfInit hkeys), rankOf_selfInit]

end Self

/-- For every collection of link records with one record per page, as `GroupByKey` leaves
them, and every number of passes, `PageRankJoinSelf` holds one record per page, and page
`p` has rank `v` exactly when the recurrence from rank `1` on the pages with a link record
gives `p` rank `v`. -/
theorem pageRankJoinSelf_ranks (links : List LinkedPage) (hkeys : (links.map Prod.fst).Nodup)
    (t : Nat) :
    ((pageRankJoinSelf links t).map Prod.fst).Nodup ∧
      ∀ p v, (p, v) ∈ pageRankJoinSelf links t ↔
        (joinStep (1 - dampening) links)^[t] (selfInit links) p = some v :=
  ⟨keys_nodup_pageRankJoinSelf hkeys t, fun p v => by
    rw [mem_iff_rankOf (keys_nodup_pageRankJoinSelf hkeys t), rankOf_pageRankJoinSelf hkeys]⟩

theorem pageRankJoinSelf_ranks_two_pages :
    (([(0, [1]), (1, [1])] : List LinkedPage).map Prod.fst).Nodup ∧
      ((pageRankJoinSelf [(0, [1]), (1, [1])] 2).map Prod.fst).Nodup ∧
      ∀ p v, (p, v) ∈ pageRankJoinSelf [(0, [1]), (1, [1])] 2 ↔
        (joinStep (1 - dampening) [(0, [1]), (1, [1])])^[2] (selfInit [(0, [1]), (1, [1])]) p =
          some v :=
  ⟨by decide, pageRankJoinSelf_ranks [(0, [1]), (1, [1])] (by decide) 2⟩

theorem keys_nodup_generate (n : Nat) :
    ((generate n fun idx => (idx, 1 / (n : Rank))).map Prod.fst).Nodup := by
  simpa [generate, List.map_map, Function.comp_def] using List.nodup_range n

theorem keys_nodup_pageRankJoin (links : List LinkedPage) (n t : Nat) :
    ((pageRankJoin links n t).map Prod.fst).Nodup :=
  keys_nodup_iterate_joinRankStep (keys_nodup_generate n) t

theorem rankOf_pageRankJoin (links : List LinkedPage) (n t : Nat) :
    rankOf (pageRankJoin links n t) =
      (joinStep ((1 - dampening) / n) links)^[t] (generateInit n) := by
  rw [pageRankJoin, pageRankJoinStep, rankOf_iterate_joinRankStep (keys_nodup_generate n),
    rankOf_generate]

/-- For every link collection, every page count `n` and every number of passes,
`PageRankJoin` holds one record per page, and page `p` has rank `v` exactly when the
recurrence from rank `1 / n` on the pages of `[0, n)` gives `p` rank `v`. -/
theorem pageRankJoin_ranks (links : List LinkedPage) (n t : Nat) :
    ((pageRankJoin links n t).map Prod.fst).Nodup ∧
      ∀ p v, (p, v) ∈ pageRankJoin links n t ↔
        (joinStep ((1 - dampening) / n) links)^[t] (generateInit n) p = some v :=
  ⟨keys_nodup_pageRankJoin links n t, fun p v => by
    rw [mem_iff_rankOf (keys_nodup_pageRankJoin links n t), rankOf_pageRankJoin]⟩

/-- For every link collection, every page count `n` and every number of passes `t`, the
pages that keep a rank are the ends of the walks of `t` links: from a page with a link
record in `PageRankJoinSelf`, from a page of `[0, n)` in `PageRankJoin`. -/
theorem joinShapes_pages (links : List LinkedPage) (n t : Nat) (q : PageId) :
    (q ∈ (pageRankJoinSelf links t).map Prod.fst ↔
      ReachedIn links (· ∈ links.map Prod.fst) t q) ∧
    (q ∈ (pageRankJoin links n t).map Prod.fst ↔ ReachedIn links (· < n) t q) := by
  constructor
  · rw [pageRankJoinSelf, pageRankJoinSelfStep, keys_iterate_joinRankStep]
    simp only [List.map_map, Function.comp_def, List.map_id']
  · rw [pageRankJoin, pageRankJoinStep, keys_iterate_joinRankStep]
    simp only [generate, List.map_map, Function.comp_def, List.map_id', List.mem_range]

/-! ## The join shapes never exceed the index shape

When the link records are those of an adjacency family, one record per page of `[0, n)`,
the recurrence of the join shapes sums the shares of the pages that still have a rank,
where `PageRank` sums those of all pages; the shares are nonnegative and grow with the
rank, so by induction every rank a join shape holds is at most `PageRank`'s. -/

section Bound

variable {L : List OutgoingLinks} {links : List LinkedPage} {n : Nat}
  (hlen : L.length = n) (htgt : ∀ ol ∈ L, ∀ q ∈ ol, q < n)
  (hperm : links.Perm ((List.range n).map fun i => (i, linksOf L i)))

include hperm in
theorem keys_perm_range : (links.map Prod.fst).Perm (List.range n) := by
  simpa [List.map_map, Function.comp_def] using hperm.map Prod.fst

include hlen htgt hperm in
theorem lt_of_mem_joinTargets {lp : LinkedPage} (hlp : lp ∈ links) {q : PageId}
    (hq : q ∈ lp.2) : q < n := by
  obtain ⟨i, hi, rfl⟩ := List.mem_map.1 (hperm.subset hlp)
  exact htgt _ (linksOf_mem (by simpa [hlen] using hi)) q hq

include hperm in
theorem sum_joined_share_range (r : PageId → Option Rank) (q : PageId) :
    (links.map fun lp => ((r lp.1).map fun v => share lp.2 v q).getD 0).sum =
      ∑ p in Finset.range n, ((r p).map fun v => share (linksOf L p) v q).getD 0 := by
  rw [(hperm.map _).sum_eq, List.map_map, ← sum_map_range]
  rfl

include hlen htgt hperm in
/-- One step of the join recurrence stays below `c` times one step of `PageRank`'s, from
ranks below `c` times `PageRank`'s, when the added constant is at most `c (1 - d) / n`. -/
theorem joinStep_le_powerStep {c teleport : Rank} (hc : 0 ≤ c)
    (htel : 0 < n → teleport ≤ c * ((1 - dampening) / n)) {r : PageId → Option Rank}
    {f : PageId → Rank} (hf : ∀ p, 0 ≤ f p) (hr : ∀ p v, r p = some v → v ≤ c * f p)
    {q : PageId} {v : Rank} (hv : joinStep teleport links r q = some v) :
    q < n ∧ v ≤ c * powerStep L n f q := by
  unfold joinStep at hv
  split_ifs at hv with h
  obtain ⟨lp, hlp, -, hq⟩ := h
  have hqn := lt_of_mem_joinTargets hlen htgt hperm hlp hq
  have hsum : ∑ p in Finset.range n, ((r p).map fun v => share (linksOf L p) v q).getD 0 ≤
      c * ∑ p in Finset.range n, share (linksOf L p) (f p) q := by
    rw [Finset.mul_sum]
    refine Finset.sum_le_sum fun p _ => ?_
    cases hrp : r p with
    | none => exact mul_nonneg hc (share_nonneg _ (hf p) q)
    | some w => exact (share_mono _ (hr p w hrp) q).trans_eq (share_mul _ _ _ _)
  refine ⟨hqn, ?_⟩
  rw [← Option.some_inj.1 hv, sum_joined_share_range hperm, powerStep]
  calc dampening * ∑ p in Finset.range n, ((r p).map fun v => share (linksOf L p) v q).getD 0 +
        teleport
      ≤ dampening * (c * ∑ p in Finset.range n, share (linksOf L p) (f p) q) +
          c * ((1 - dampening) / n) :=
        add_le_add (mul_le_mul_of_nonneg_left hsum dampening_pos.le) (htel (Nat.zero_lt_of_lt hqn))
    _ = c * (dampening * ∑ p in Finset.range n, share (linksOf L p) (f p) q +
          (1 - dampening) / n) := by ring

include hlen htgt hperm in
/-- Every run of the join recurrence stays below `c` times `PageRank`'s ranks. -/
theorem iterate_joinStep_le {c teleport : Rank} (hc : 0 ≤ c)
    (htel : 0 < n → teleport ≤ c * ((1 - dampening) / n)) {init : PageId → Option Rank}
    (hinit : ∀ p v, init p = some v → p < n ∧ v ≤ c * powerIteration L n 0 p) (t : Nat) :
    ∀ p v, (joinStep teleport links)^[t] init p = some v →
      p < n ∧ v ≤ c * powerIteration L n t p := by
  induction t with
  | zero => exact hinit
  | succ t ih =>
    intro p v hv
    rw [Function.iterate_succ_apply'] at hv
    exact joinStep_le_powerStep hlen htgt hperm hc htel (powerIteration_nonneg t)
      (fun p v h => (ih p v h).2) hv

/-- `PageRankJoin` starts at `PageRank`'s start. -/
theorem generateInit_le (p : PageId) (v : Rank) (h : generateInit n p = some v) :
    p < n ∧ v ≤ 1 * powerIteration L n 0 p := by
  unfold generateInit at h
  split_ifs at h with hp
  exact ⟨hp, by rw [← Option.some_inj.1 h, one_mul]; rfl⟩

include hperm in
/-- `PageRankJoinSelf` starts at `n` times `PageRank`'s start. -/
theorem selfInit_le (p : PageId) (v : Rank) (h : selfInit links p = some v) :
    p < n ∧ v ≤ n * powerIteration L n 0 p := by
  unfold selfInit at h
  split_ifs at h with hp
  have hpn : p < n := List.mem_range.1 ((keys_perm_range hperm).subset hp)
  refine ⟨hpn, ?_⟩
  rw [← Option.some_inj.1 h, powerIteration, mul_one_div_cancel]
  exact Nat.cast_ne_zero.2 (Nat.pos_iff_ne_zero.1 (Nat.zero_lt_of_lt hpn))

end Bound

/-- For every adjacency family of `n` lists with targets below `n`, given to the join shapes
as one link record per page in any order, and every iteration count, every record the join
shapes hold is for a page of `[0, n)` and its rank is at most the rank `PageRank` gives that
page: `PageRankJoin`'s at most that rank, `PageRankJoinSelf`'s at most `n` times it. The
join shapes can lose rank, never gain it. -/
theorem joinShapes_le_pageRank (L : List OutgoingLinks) (links : List LinkedPage) (n : Nat)
    (hlen : L.length = n) (htgt : ∀ ol ∈ L, ∀ q ∈ ol, q < n)
    (hperm : links.Perm ((List.range n).map fun i => (i, linksOf L i))) (t : Nat) :
    ∃ r, pageRank L n t = some r ∧
      (∀ p v, (p, v) ∈ pageRankJoin links n t → p < n ∧ v ≤ r.getD p 0) ∧
      ∀ p v, (p, v) ∈ pageRankJoinSelf links t → p < n ∧ v ≤ n * r.getD p 0 := by
  have hkeys := (keys_perm_range hperm).nodup_iff.2 (List.nodup_range n)
  have hget : ∀ p < n, ((List.range n).map (powerIteration L n t)).getD p 0 =
      powerIteration L n t p := fun p hp => by simp [hp]
  refine ⟨_, pageRank_spec hlen htgt t, fun p v hpv => ?_, fun p v hpv => ?_⟩
  · rw [mem_iff_rankOf (keys_nodup_pageRankJoin links n t), rankOf_pageRankJoin] at hpv
    obtain ⟨hp, hle⟩ := iterate_joinStep_le hlen htgt hperm zero_le_one
      (fun _ => (one_mul _).ge) generateInit_le t p v hpv
    exact ⟨hp, by rwa [one_mul, ← hget p hp] at hle⟩
  · rw [mem_iff_rankOf (keys_nodup_pageRankJoinSelf hkeys t),
      rankOf_pageRankJoinSelf hkeys] at hpv
    have htel : 0 < n → 1 - dampening ≤ (n : Rank) * ((1 - dampening) / n) := fun hn => by
      rw [mul_div_cancel₀ _ (Nat.cast_ne_zero.2 hn.ne')]
    obtain ⟨hp, hle⟩ := iterate_joinStep_le hlen htgt hperm (Nat.cast_nonneg n) htel
      (selfInit_le hperm) t p v hpv
    exact ⟨hp, by rwa [← hget p hp] at hle⟩

theorem joinShapes_le_pageRank_dangling :
    ([[1], [1]] : List OutgoingLinks).length = 2 ∧
      (∀ ol ∈ ([[1], [1]] : List OutgoingLinks), ∀ q ∈ ol, q < 2) ∧
      ([(0, [1]), (1, [1])] : List LinkedPage).Perm
        ((List.range 2).map fun i => (i, linksOf [[1], [1]] i)) ∧
      ∃ r, pageRank [[1], [1]] 2 3 = some r ∧
        (∀ p v, (p, v) ∈ pageRankJoin [(0, [1]), (1, [1])] 2 3 → p < 2 ∧ v ≤ r.getD p 0) ∧
        ∀ p v, (p, v) ∈ pageRankJoinSelf [(0, [1]), (1, [1])] 3 →
          p < 2 ∧ v ≤ (2 : Nat) * r.getD p 0 :=
  ⟨rfl, by decide, List.Perm.refl _,
    joinShapes_le_pageRank [[1], [1]] [(0, [1]), (1, [1])] 2 rfl (by decide)
      (List.Perm.refl _) 3⟩

end ThrillPageRank.JoinSemantics
