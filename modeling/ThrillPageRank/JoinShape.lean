import ThrillPageRank.PowerIteration
/-!
# The join shapes

`PageRankJoinSelf` starts each page of the links at rank `1` and adds `1 - d` per
pass; `PageRankJoin` starts each page of `[0, n)` at `1 / n` and adds `(1 - d) / n`.
From the first pass on, the first is exactly `n` times the second: the recurrence
never renormalises it. `ReducePair` keeps only the pages that received a
contribution, so the join shape matches the index shape page for page when every
page has an in-link, and loses pages otherwise.
-/

namespace ThrillPageRank.JoinShape

open Dia PageRank PowerIteration

/-- Every rank multiplied by `c`. -/
def scaleRanks (c : Rank) (ranks : List RankedPage) : List RankedPage :=
  ranks.map (Prod.map id (c * ·))

/-- The ranks `(i, f i)` of the pages `i < n`, in page order. -/
def canonRanks (n : Nat) (f : PageId → Rank) : List RankedPage :=
  (List.range n).map fun i => (i, f i)

theorem mem_canonRanks {n : Nat} {f : PageId → Rank} {p : PageId} {v : Rank} :
    (p, v) ∈ canonRanks n f ↔ p < n ∧ v = f p := by
  simp only [canonRanks, List.mem_map, List.mem_range, Prod.mk.injEq]
  constructor
  · rintro ⟨i, hi, rfl, rfl⟩; exact ⟨hi, rfl⟩
  · rintro ⟨hp, rfl⟩; exact ⟨p, hp, rfl, rfl⟩

theorem nodup_keys_canonRanks (n : Nat) (f : PageId → Rank) :
    ((canonRanks n f).map Prod.fst).Nodup := by
  simpa [canonRanks, List.map_map, Function.comp_def] using List.nodup_range n

/-- The join pairs each link record with the ranks of its page. -/
abbrev joinLinks (links : List LinkedPage) (ranks : List RankedPage) : List OutgoingLinksRank :=
  innerJoin Prod.fst Prod.fst (fun lp rp => (lp.2, rp.2)) links ranks

/-! ## InnerJoin against a keyed rank list -/

theorem filter_key_of_mem {K V : Type} [DecidableEq K] {M : List (K × V)}
    (hn : (M.map Prod.fst).Nodup) {k : K} {v : V} (h : (k, v) ∈ M) :
    M.filter (·.1 = k) = [(k, v)] := by
  induction M with
  | nil => cases h
  | cons e M ih =>
    simp only [List.map_cons, List.nodup_cons] at hn
    rcases List.mem_cons.1 h with rfl | h
    · have : M.filter (·.1 = k) = [] := List.filter_eq_nil_iff.2 fun x hx hxk =>
        hn.1 (List.mem_map.2 ⟨x, hx, by simpa using hxk⟩)
      simp [List.filter_cons, this]
    · have hne : e.1 ≠ k := fun he => hn.1 (he ▸ List.mem_map_of_mem Prod.fst h)
      simp [List.filter_cons, hne, ih hn.2 h]

/-- When the ranks hold exactly one entry `(p, v p)` for the page `p` of every link
record, the join pairs each record with it. -/
theorem joinLinks_keyed {links : List LinkedPage} {R : List RankedPage} (v : PageId → Rank)
    (h : ∀ lp ∈ links, R.filter (·.1 = lp.1) = [(lp.1, v lp.1)]) :
    joinLinks links R = links.map fun lp => (lp.2, v lp.1) := by
  induction links with
  | nil => rfl
  | cons lp links ih =>
    simp only [joinLinks, innerJoin, List.flatMap_cons] at ih ⊢
    rw [h lp (List.mem_cons_self _ _), ih fun lp' hlp' => h lp' (List.mem_cons_of_mem _ hlp')]
    rfl

theorem joinRankStep_congr {teleport : Rank} {links : List LinkedPage} {R R' : List RankedPage}
    (h : joinLinks links R = joinLinks links R') :
    joinRankStep teleport links R = joinRankStep teleport links R' := by
  simp only [joinRankStep, joinLinks] at h ⊢
  rw [h]

/-! ## Scaling -/

theorem joinLinks_scale (c : Rank) (links : List LinkedPage) (R : List RankedPage) :
    joinLinks links (scaleRanks c R) = (joinLinks links R).map (Prod.map id (c * ·)) := by
  simp [joinLinks, innerJoin, scaleRanks, List.filter_map, List.map_flatMap, Function.comp_def]

theorem flatMap_emitContribs_scale (c : Rank) (outs : List OutgoingLinksRank) :
    (outs.map (Prod.map id (c * ·))).flatMap (emitContribs Prod.mk) =
      (outs.flatMap (emitContribs Prod.mk)).map (Prod.map id (c * ·)) := by
  induction outs with
  | nil => rfl
  | cons o outs ih =>
    simp only [List.map_cons, List.flatMap_cons, ih, List.map_append, emitContribs,
      Prod.map_fst, Prod.map_snd, id]
    split <;> simp [mul_div_assoc]

/-- Scaling the ranks by `c` and the added constant by `c` scales a join pass by `c`. -/
theorem joinRankStep_scale (c teleport : Rank) (links : List LinkedPage) (R : List RankedPage) :
    joinRankStep (c * teleport) links (scaleRanks c R) =
      scaleRanks c (joinRankStep teleport links R) := by
  have h := joinLinks_scale c links R
  simp only [joinLinks] at h
  simp only [joinRankStep]
  rw [h, flatMap_emitContribs_scale, reducePair_map (· + ·) (c * ·) (fun a b => mul_add c a b)]
  simp only [scaleRanks, List.map_map]
  refine List.map_congr_left fun p _ => ?_
  simp only [Function.comp, Prod.map, id]
  ring_nf

/-- `n` times `PageRankJoin`'s initial ranks is rank `1` for every page. -/
theorem scaleRanks_generate {n : Nat} (hn : 0 < n) :
    scaleRanks n (generate n fun idx => (idx, 1 / (n : Rank))) = canonRanks n fun _ => 1 := by
  simp [scaleRanks, generate, canonRanks, mul_inv_cancel₀ (show (n : Rank) ≠ 0 by positivity)]

/-- From the first pass on, `PageRankJoinSelf` is `n` times `PageRankJoin`. -/
theorem pageRankJoinSelf_eq_scale (links : List LinkedPage) (n : Nat)
    (hkeys : (links.map Prod.fst).Nodup) (hlt : ∀ lp ∈ links, lp.1 < n) (t : Nat) :
    pageRankJoinSelf links (t + 1) = scaleRanks n (pageRankJoin links n (t + 1)) := by
  rcases Nat.eq_zero_or_pos n with rfl | hn
  · obtain rfl : links = [] :=
      List.eq_nil_iff_forall_not_mem.2 fun lp hlp => Nat.not_lt_zero _ (hlt lp hlp)
    rw [pageRankJoinSelf_succ, pageRankJoin_succ]
    rfl
  have htel : (n : Rank) * ((1 - dampening) / n) = 1 - dampening :=
    mul_div_cancel₀ _ (by positivity)
  induction t with
  | zero =>
    rw [pageRankJoinSelf_succ, pageRankJoin_succ, pageRankJoinStep, ← joinRankStep_scale, htel]
    apply joinRankStep_congr
    have hR : ∀ lp ∈ links, (links.map fun lp => (lp.1, (1 : Rank))).filter (·.1 = lp.1) =
        [(lp.1, 1)] := fun lp hlp =>
      filter_key_of_mem (by simpa [List.map_map, Function.comp_def] using hkeys)
        (List.mem_map.2 ⟨lp, hlp, rfl⟩)
    have hG : ∀ lp ∈ links, (canonRanks n fun _ => (1 : Rank)).filter (·.1 = lp.1) =
        [(lp.1, 1)] := fun lp hlp =>
      filter_key_of_mem (nodup_keys_canonRanks n _) (mem_canonRanks.2 ⟨hlt lp hlp, rfl⟩)
    rw [pageRankJoin, Function.iterate_zero_apply, scaleRanks_generate hn]
    exact (joinLinks_keyed (fun _ => 1) hR).trans (joinLinks_keyed (fun _ => 1) hG).symm
  | succ t ih =>
    rw [pageRankJoinSelf_succ, ih, pageRankJoin_succ links n (t + 1), pageRankJoinSelfStep,
      pageRankJoinStep, ← joinRankStep_scale, htel]

/-! ## Against the index shape -/

theorem enum_map_range (n : Nat) (f : Nat → Rank) :
    ((List.range n).map f).enum = canonRanks n f := by
  rw [List.enum_map, List.enum_eq_zip_range, List.length_range, List.zip, List.zipWith_same,
    List.map_map]
  rfl

section Family

variable {L : List OutgoingLinks} {links : List LinkedPage} {n : Nat}

/-- When every page has an in-link, the pages that receive a contribution are `[0, n)`. -/
theorem reached_iff (hlen : L.length = n) (htgt : ∀ ol ∈ L, ∀ q ∈ ol, q < n)
    (hperm : links.Perm ((List.range n).map fun i => (i, linksOf L i)))
    (hin : ∀ q < n, ∃ ol ∈ L, q ∈ ol) (f : PageId → Rank) (q : PageId) :
    (∃ o ∈ links.map (fun lp => (lp.2, f lp.1)), q ∈ o.1) ↔ q < n := by
  constructor
  · rintro ⟨o, ho, hq⟩
    obtain ⟨lp, hlp, rfl⟩ := List.mem_map.1 ho
    obtain ⟨i, hi, rfl⟩ := List.mem_map.1 (hperm.subset hlp)
    exact htgt _ (linksOf_mem (by simpa [hlen] using hi)) q hq
  · intro hq
    obtain ⟨ol, hol, hq⟩ := hin q hq
    obtain ⟨i, hi, rfl⟩ := List.mem_iff_getElem.1 hol
    have hlp : (i, linksOf L i) ∈ links :=
      hperm.mem_iff.2 (List.mem_map.2 ⟨i, List.mem_range.2 (hlen ▸ hi), rfl⟩)
    refine ⟨_, List.mem_map.2 ⟨_, hlp, rfl⟩, ?_⟩
    simpa [linksOf, List.getElem?_eq_getElem hi] using hq

/-- What the contributions to `q` add up to: the recurrence's sum over the pages. -/
theorem sum_contribs (hperm : links.Perm ((List.range n).map fun i => (i, linksOf L i)))
    (f : PageId → Rank) (q : PageId) :
    ((((links.map fun lp => (lp.2, f lp.1)).flatMap (emitContribs Prod.mk)).filter
      (·.1 = q)).map Prod.snd).sum =
      ∑ p in Finset.range n, share (linksOf L p) (f p) q := by
  rw [sum_flatMap_emitContribs Prod.mk Prod.fst Prod.snd (fun _ _ => rfl) (fun _ _ => rfl),
    List.map_map, ← sum_map_range, (hperm.map _).sum_eq, List.map_map]
  rfl

/-- A pass of `PageRankJoin` on ranks that hold one entry per page is one step of the
recurrence, when every page has an in-link. -/
theorem pageRankJoinStep_perm (hlen : L.length = n) (htgt : ∀ ol ∈ L, ∀ q ∈ ol, q < n)
    (hperm : links.Perm ((List.range n).map fun i => (i, linksOf L i)))
    (hin : ∀ q < n, ∃ ol ∈ L, q ∈ ol) {R : List RankedPage} {f : PageId → Rank}
    (hR : R.Perm (canonRanks n f)) :
    (pageRankJoinStep links n R).Perm (canonRanks n (powerStep L n f)) := by
  have hkR : (R.map Prod.fst).Nodup := (hR.map Prod.fst).nodup_iff.2 (nodup_keys_canonRanks n f)
  have hjoin : joinLinks links R = links.map fun lp => (lp.2, f lp.1) := by
    refine joinLinks_keyed f fun lp hlp =>
      filter_key_of_mem hkR (hR.mem_iff.2 (mem_canonRanks.2 ⟨?_, rfl⟩))
    obtain ⟨i, hi, rfl⟩ := List.mem_map.1 (hperm.subset hlp)
    simpa using hi
  simp only [joinLinks] at hjoin
  simp only [pageRankJoinStep, joinRankStep, hjoin]
  set contribs := (links.map fun lp => (lp.2, f lp.1)).flatMap (emitContribs Prod.mk)
  have hkeys : ((reducePair (· + ·) contribs).map Prod.fst).Nodup :=
    (isTable_reducePair _ contribs).1
  refine (List.perm_ext_iff_of_nodup ?_ ((nodup_keys_canonRanks n _).of_map Prod.fst)).2 ?_
  · exact List.Nodup.of_map Prod.fst (by simpa [List.map_map, Function.comp_def] using hkeys)
  rintro ⟨q, w⟩
  have hreach := (mem_pages_emitContribs Prod.mk Prod.fst (fun _ _ => rfl) _ q).trans
    (reached_iff hlen htgt hperm hin f q)
  rw [mem_canonRanks, List.mem_map]
  constructor
  · rintro ⟨⟨q', v⟩, hv, he⟩
    obtain ⟨rfl, rfl⟩ := Prod.mk.inj he
    obtain ⟨hq, rfl⟩ := (mem_reducePair_add _ _ _).1 hv
    exact ⟨hreach.1 hq, by rw [sum_contribs hperm]; rfl⟩
  · rintro ⟨hq, rfl⟩
    exact ⟨_, (mem_reducePair_add _ _ _).2 ⟨hreach.2 hq, rfl⟩, by rw [sum_contribs hperm]; rfl⟩

theorem pageRankJoin_perm_canon (hlen : L.length = n) (htgt : ∀ ol ∈ L, ∀ q ∈ ol, q < n)
    (hperm : links.Perm ((List.range n).map fun i => (i, linksOf L i)))
    (hin : ∀ q < n, ∃ ol ∈ L, q ∈ ol) (t : Nat) :
    (pageRankJoin links n t).Perm (canonRanks n (powerIteration L n t)) := by
  induction t with
  | zero => rfl
  | succ t ih =>
    rw [pageRankJoin_succ]
    exact pageRankJoinStep_perm hlen htgt hperm hin ih

/-- From the first pass on, `PageRankJoinSelf` on one link record per page holds `n` times
the recurrence's ranks, one record per page, when every page has an in-link. -/
theorem pageRankJoinSelf_perm_canon (hlen : L.length = n) (htgt : ∀ ol ∈ L, ∀ q ∈ ol, q < n)
    (hperm : links.Perm ((List.range n).map fun i => (i, linksOf L i)))
    (hin : ∀ q < n, ∃ ol ∈ L, q ∈ ol) {t : Nat} (ht : 1 ≤ t) :
    (pageRankJoinSelf links t).Perm (canonRanks n fun i => n * powerIteration L n t i) := by
  have hkeys : (links.map Prod.fst).Nodup := (hperm.map Prod.fst).nodup_iff.2
    (by simpa [List.map_map, Function.comp_def] using List.nodup_range n)
  have hlt : ∀ lp ∈ links, lp.1 < n := fun lp hlp => by
    obtain ⟨i, hi, rfl⟩ := List.mem_map.1 (hperm.subset hlp)
    exact List.mem_range.1 hi
  obtain ⟨t, rfl⟩ := Nat.exists_eq_add_of_le' ht
  rw [pageRankJoinSelf_eq_scale links n hkeys hlt]
  simpa [scaleRanks, canonRanks, List.map_map, Function.comp_def] using
    (pageRankJoin_perm_canon hlen htgt hperm hin (t + 1)).map (Prod.map id ((n : Rank) * ·))

end Family

/-! ## What the join shapes return -/

/-- When every page has an in-link, `PageRankJoin` holds one record per page of `[0, n)`
with the rank `PageRank` computes, whatever the order of the link records. -/
theorem pageRankJoin_eq_pageRank_of_inlinks (L : List OutgoingLinks) (links : List LinkedPage)
    (n : Nat) (hlen : L.length = n) (htgt : ∀ ol ∈ L, ∀ q ∈ ol, q < n)
    (hperm : links.Perm ((List.range n).map fun i => (i, L.getD i [])))
    (hin : ∀ q < n, ∃ ol ∈ L, q ∈ ol) (t : Nat) :
    ∃ r, pageRank L n t = some r ∧ (pageRankJoin links n t).Perm r.enum :=
  ⟨_, pageRank_spec hlen htgt t, by
    rw [enum_map_range]; exact pageRankJoin_perm_canon hlen htgt hperm hin t⟩

theorem pageRankJoin_eq_pageRank_two_pages :
    ([[1], [0]] : List OutgoingLinks).length = 2 ∧
      (∀ ol ∈ ([[1], [0]] : List OutgoingLinks), ∀ q ∈ ol, q < 2) ∧
      ([(0, [1]), (1, [0])] : List LinkedPage).Perm
        ((List.range 2).map fun i => (i, ([[1], [0]] : List OutgoingLinks).getD i [])) ∧
      (∀ q < 2, ∃ ol ∈ ([[1], [0]] : List OutgoingLinks), q ∈ ol) ∧
      ∃ r, pageRank [[1], [0]] 2 1 = some r ∧ (pageRankJoin [(0, [1]), (1, [0])] 2 1).Perm r.enum :=
  ⟨rfl, by decide, List.Perm.refl _, by decide,
    pageRankJoin_eq_pageRank_of_inlinks [[1], [0]] [(0, [1]), (1, [0])] 2 rfl (by decide)
      (List.Perm.refl _) (by decide) 1⟩

/-- Page `1` has no in-link: after one pass `ReducePair` keeps only page `0`, while
`PageRank` returns two ranks. -/
theorem pageRankJoin_loses_unreached_page :
    (pageRankJoin [(0, [0]), (1, [0])] 2 1).map Prod.fst = [0] := by
  decide

/-- From the first pass on, `PageRankJoinSelf` holds the pages of `PageRankJoin`, each
with `n` times its rank. -/
theorem pageRankJoinSelf_mem_iff (links : List LinkedPage) (n : Nat)
    (hkeys : (links.map Prod.fst).Nodup) (hlt : ∀ lp ∈ links, lp.1 < n) (t : Nat) (ht : 1 ≤ t)
    (p : PageId) (r : Rank) :
    (p, r) ∈ pageRankJoinSelf links t ↔ ∃ r', (p, r') ∈ pageRankJoin links n t ∧ r = n * r' := by
  obtain ⟨t, rfl⟩ := Nat.exists_eq_add_of_le' ht
  rw [pageRankJoinSelf_eq_scale links n hkeys hlt, scaleRanks, List.mem_map]
  constructor
  · rintro ⟨⟨p', r'⟩, h, he⟩
    obtain ⟨rfl, rfl⟩ := Prod.mk.inj he
    exact ⟨r', h, rfl⟩
  · rintro ⟨r', h, rfl⟩
    exact ⟨(p, r'), h, rfl⟩

theorem pageRankJoinSelf_two_pages :
    (([(0, [1]), (1, [0])] : List LinkedPage).map Prod.fst).Nodup ∧
      (∀ lp ∈ ([(0, [1]), (1, [0])] : List LinkedPage), lp.1 < 2) ∧ 1 ≤ 1 ∧
      ((0, 1) ∈ pageRankJoinSelf [(0, [1]), (1, [0])] 1 ↔
        ∃ r', (0, r') ∈ pageRankJoin [(0, [1]), (1, [0])] 2 1 ∧ (1 : Rank) = (2 : Nat) * r') :=
  ⟨by decide, by decide, le_rfl,
    pageRankJoinSelf_mem_iff [(0, [1]), (1, [0])] 2 (by decide) (by decide) 1 le_rfl 0 1⟩

end ThrillPageRank.JoinShape
