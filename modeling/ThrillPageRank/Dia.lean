import ThrillPageRank.Basic
import Mathlib.Data.List.Dedup
import Mathlib.Algebra.BigOperators.Group.List
/-!
# The DIA operators PageRank calls

Thrill's operators are not part of the excerpt, so they are modelled from their
contracts in the spec (§4.1 to §4.3). A DIA is the list of its items in the
order the operators see them. Where the engine leaves an order open (the arrival
order at a worker, the order in which groups reach a stateful lambda) it is an
argument, and the theorems hold for every value of it.
-/

namespace ThrillPageRank.Dia

variable {α β γ σ K V : Type}

/-- Modelled from the spec: `Generate(ctx, size, f)`, the items `f 0, ..., f (size - 1)`. -/
def generate (size : Nat) (f : Nat → α) : List α := (List.range size).map f

/-- Modelled from the spec: `a.Zip(b, f)` pairs two index-aligned DIAs one to one;
DIAs of different sizes are an error. -/
def zip (f : α → β → γ) (xs : List α) (ys : List β) : Option (List γ) :=
  if xs.length = ys.length then some (List.zipWith f xs ys) else none

/-- The item `ReduceToIndex` leaves at index `i`: the items of key `i` folded in
arrival order, or the neutral element. -/
def reduceSlot (key : α → Nat) (reduce : α → α → α) (neutral : α) (xs : List α) (i : Nat) : α :=
  match xs.filter (key · = i) with
  | [] => neutral
  | x :: rest => rest.foldl reduce x

/-- Modelled from the spec: `ReduceToIndex(key, reduce, size)`, one item for each index
of `[0, size)` in index order; a key outside `[0, size)` is a fatal error. -/
def reduceToIndex (key : α → Nat) (reduce : α → α → α) (size : Nat) (neutral : α)
    (xs : List α) : Option (List α) :=
  if xs.all (key · < size) then some ((List.range size).map (reduceSlot key reduce neutral xs))
  else none

theorem zip_of_length_eq {f : α → β → γ} {xs : List α} {ys : List β}
    (h : xs.length = ys.length) : zip f xs ys = some (List.zipWith f xs ys) := by
  simp [zip, h]

theorem reduceToIndex_of_lt {key : α → Nat} {reduce : α → α → α} {size : Nat} {neutral : α}
    {xs : List α} (h : ∀ x ∈ xs, key x < size) :
    reduceToIndex key reduce size neutral xs =
      some ((List.range size).map (reduceSlot key reduce neutral xs)) := by
  rw [reduceToIndex, if_pos (by simpa using h)]

/-- A key outside `[0, size)` makes `ReduceToIndex` fail. -/
theorem reduceToIndex_eq_none {key : α → Nat} {reduce : α → α → α} {size : Nat}
    {neutral : α} {xs : List α} (h : ∃ x ∈ xs, size ≤ key x) :
    reduceToIndex key reduce size neutral xs = none := by
  obtain ⟨x, hx, hk⟩ := h
  simp only [reduceToIndex, ite_eq_right_iff, reduceCtorEq, imp_false, List.all_eq_true,
    decide_eq_true_eq, not_forall, not_lt]
  exact ⟨x, hx, hk⟩

/-- Modelled from the spec: `a.ZipWithIndex(f)` calls `f` with each item and its index. -/
def zipWithIndex (f : α → Nat → β) (xs : List α) : List β :=
  xs.enum.map fun p => f p.2 p.1

/-- Modelled from the spec: `Max()`, started from the item type's default value (`0`). -/
def max (xs : List Nat) : Nat := xs.foldl Nat.max 0

theorem le_foldl_max (a : Nat) (xs : List Nat) :
    a ≤ xs.foldl Nat.max a ∧ ∀ x ∈ xs, x ≤ xs.foldl Nat.max a := by
  induction xs generalizing a with
  | nil => simp
  | cons y ys ih =>
    obtain ⟨h1, h2⟩ := ih (Nat.max a y)
    refine ⟨(Nat.le_max_left a y).trans h1, ?_⟩
    simp only [List.mem_cons, forall_eq_or_imp]
    exact ⟨(Nat.le_max_right a y).trans h1, h2⟩

theorem foldl_max_lt {a b : Nat} {xs : List Nat} (ha : a < b) (h : ∀ x ∈ xs, x < b) :
    xs.foldl Nat.max a < b := by
  induction xs generalizing a with
  | nil => exact ha
  | cons y ys ih =>
    exact ih (Nat.max_lt.2 ⟨ha, h y (List.mem_cons_self y ys)⟩)
      fun x hx => h x (List.mem_cons_of_mem y hx)

theorem le_max_of_mem {x : Nat} {xs : List Nat} (h : x ∈ xs) : x ≤ max xs :=
  (le_foldl_max 0 xs).2 x h

theorem max_lt {b : Nat} {xs : List Nat} (hb : 0 < b) (h : ∀ x ∈ xs, x < b) : max xs < b :=
  foldl_max_lt hb h

/-! ## ReducePair -/

section ReducePair
variable [DecidableEq K] (reduce : V → V → V)

/-- One item into `ReducePair`'s table: folded into the entry of its key, or appended. -/
def insertPair : List (K × V) → K × V → List (K × V)
  | [], x => [x]
  | (k, v) :: rest, x =>
    if k = x.1 then (k, reduce v x.2) :: rest else (k, v) :: insertPair rest x

/-- Modelled from the spec: `ReducePair(reduce)` folds the values of each key in
arrival order; a key without items is absent from the result. -/
def reducePair (xs : List (K × V)) : List (K × V) := xs.foldl (insertPair reduce) []

/-- The values of key `k` in `xs` folded with `reduce` in arrival order; `none` when
`k` has no item. -/
def foldedAt (xs : List (K × V)) (k : K) : Option V :=
  match (xs.filter (·.1 = k)).map Prod.snd with
  | [] => none
  | v :: vs => some (vs.foldl reduce v)

/-- `acc` is `ReducePair`'s table for the items `xs`: one entry per key, holding its fold. -/
def IsTable (xs acc : List (K × V)) : Prop :=
  (acc.map Prod.fst).Nodup ∧ ∀ k v, (k, v) ∈ acc ↔ foldedAt reduce xs k = some v

theorem foldedAt_append_single (xs : List (K × V)) (x : K × V) (k : K) :
    foldedAt reduce (xs ++ [x]) k =
      if x.1 = k then some ((foldedAt reduce xs k).elim x.2 (reduce · x.2))
      else foldedAt reduce xs k := by
  unfold foldedAt
  rw [List.filter_append, List.map_append]
  generalize (xs.filter (·.1 = k)).map Prod.snd = l
  by_cases h : x.1 = k <;> cases l <;> simp [h]

theorem keys_insertPair (acc : List (K × V)) (x : K × V) :
    (insertPair reduce acc x).map Prod.fst =
      if x.1 ∈ acc.map Prod.fst then acc.map Prod.fst else acc.map Prod.fst ++ [x.1] := by
  induction acc with
  | nil => simp [insertPair]
  | cons e rest ih =>
    obtain ⟨k, v⟩ := e
    by_cases h : k = x.1
    · simp [insertPair, h]
    · simp only [insertPair, if_neg h, List.map_cons, ih]
      split <;> simp_all [Ne.symm h]

theorem mem_insertPair {acc : List (K × V)} (hn : (acc.map Prod.fst).Nodup) (kx : K) (vx : V)
    (k : K) (v : V) :
    (k, v) ∈ insertPair reduce acc (kx, vx) ↔
      if kx = k then (∃ w, (k, w) ∈ acc ∧ v = reduce w vx) ∨ (k ∉ acc.map Prod.fst ∧ v = vx)
      else (k, v) ∈ acc := by
  induction acc with
  | nil => by_cases h : kx = k <;> simp [insertPair, h, eq_comm]
  | cons e rest ih =>
    obtain ⟨k0, v0⟩ := e
    simp only [List.map_cons, List.nodup_cons] at hn
    by_cases h0 : k0 = kx
    · subst h0
      have hr : ∀ w, (k0, w) ∉ rest := fun w hw => hn.1 (List.mem_map.2 ⟨_, hw, rfl⟩)
      by_cases h : k0 = k
      · subst h; simp [insertPair, hr]
      · simp [insertPair, h, Ne.symm h]
    · simp only [insertPair, if_neg h0, List.mem_cons, ih hn.2]
      by_cases h : kx = k
      · subst h; simp [Ne.symm h0]
      · simp [h]

theorem IsTable.not_mem_keys {xs acc : List (K × V)} (h : IsTable reduce xs acc) (k : K) :
    k ∉ acc.map Prod.fst ↔ foldedAt reduce xs k = none := by
  simp only [List.mem_map, Prod.exists, exists_and_right, exists_eq_right, not_exists]
  rw [Option.eq_none_iff_forall_not_mem]
  exact forall_congr' fun v => not_congr (h.2 k v)

/-- One `insertPair` keeps the table in step with the items it has seen. -/
theorem IsTable.insert {xs acc : List (K × V)} (h : IsTable reduce xs acc) (x : K × V) :
    IsTable reduce (xs ++ [x]) (insertPair reduce acc x) := by
  obtain ⟨kx, vx⟩ := x
  refine ⟨?_, fun k v => ?_⟩
  · rw [keys_insertPair]
    split
    · exact h.1
    · exact h.1.append (List.nodup_singleton _) (List.disjoint_singleton.2 ‹_›)
  · rw [mem_insertPair reduce h.1, foldedAt_append_single, h.not_mem_keys]
    by_cases hk : kx = k
    · simp only [hk, if_true, h.2]
      cases foldedAt reduce xs k <;> simp [eq_comm]
    · simp [hk, h.2]

theorem IsTable.foldl {xs acc : List (K × V)} (h : IsTable reduce xs acc) (ys : List (K × V)) :
    IsTable reduce (xs ++ ys) (ys.foldl (insertPair reduce) acc) := by
  induction ys generalizing xs acc with
  | nil => simpa using h
  | cons y ys ih => simpa using ih (h.insert reduce y)

/-- `ReducePair` has one entry per key of its input, holding that key's fold. -/
theorem isTable_reducePair (xs : List (K × V)) : IsTable reduce xs (reducePair reduce xs) := by
  simpa using (show IsTable reduce [] [] from ⟨List.nodup_nil, by simp [foldedAt]⟩).foldl reduce xs

theorem insertPair_map (f : V → V) (hf : ∀ a b, f (reduce a b) = reduce (f a) (f b))
    (acc : List (K × V)) (x : K × V) :
    insertPair reduce (acc.map (Prod.map id f)) (Prod.map id f x) =
      (insertPair reduce acc x).map (Prod.map id f) := by
  induction acc with
  | nil => rfl
  | cons e rest ih => obtain ⟨k, v⟩ := e; by_cases h : k = x.1 <;> simp [insertPair, h, hf, ih]

/-- Mapping the values by a homomorphism of `reduce` commutes with `ReducePair`. -/
theorem reducePair_map (f : V → V) (hf : ∀ a b, f (reduce a b) = reduce (f a) (f b))
    (xs : List (K × V)) :
    reducePair reduce (xs.map (Prod.map id f)) = (reducePair reduce xs).map (Prod.map id f) := by
  suffices ∀ acc : List (K × V), (xs.map (Prod.map id f)).foldl (insertPair reduce)
      (acc.map (Prod.map id f)) = (xs.foldl (insertPair reduce) acc).map (Prod.map id f) from
    this []
  induction xs with
  | nil => intro; rfl
  | cons x xs ih =>
    intro acc
    simp only [List.map_cons, List.foldl_cons, insertPair_map reduce f hf, ih]

end ReducePair

theorem foldl_add_eq_add_sum [AddMonoid V] (v : V) (vs : List V) :
    vs.foldl (· + ·) v = v + vs.sum := by
  induction vs generalizing v with
  | nil => simp
  | cons w ws ih => simp [ih, add_assoc]

/-- With `+` as the reduce function, a key's entry is the sum of its values. -/
theorem foldedAt_add [DecidableEq K] [AddMonoid V] (xs : List (K × V)) (k : K) :
    foldedAt (· + ·) xs k =
      if k ∈ xs.map Prod.fst then some ((xs.filter (·.1 = k)).map Prod.snd).sum else none := by
  by_cases hk : k ∈ xs.map Prod.fst
  · obtain ⟨v, vs, h⟩ := List.exists_cons_of_ne_nil (l := (xs.filter (·.1 = k)).map Prod.snd)
      (by simpa [List.filter_eq_nil_iff] using hk)
    simp [foldedAt, h, hk, foldl_add_eq_add_sum]
  · have h : xs.filter (·.1 = k) = [] :=
      List.filter_eq_nil_iff.2 fun p hp hpk => hk (List.mem_map.2 ⟨p, hp, by simpa using hpk⟩)
    simp [foldedAt, h, hk]

/-- With `+` as the reduce function, `ReducePair` holds each key of its input with the
sum of that key's values. -/
theorem mem_reducePair_add [DecidableEq K] [AddMonoid V] (xs : List (K × V)) (k : K) (v : V) :
    (k, v) ∈ reducePair (· + ·) xs ↔
      k ∈ xs.map Prod.fst ∧ v = ((xs.filter (·.1 = k)).map Prod.snd).sum := by
  rw [(isTable_reducePair _ xs).2, foldedAt_add]
  split <;> simp [*, eq_comm]

/-- With `+` as the reduce function, `ReducePair` does not depend on the order of its
input, up to the order of its entries. -/
theorem reducePair_add_perm [DecidableEq K] [AddCommMonoid V] {xs ys : List (K × V)}
    (h : xs.Perm ys) : (reducePair (· + ·) xs).Perm (reducePair (· + ·) ys) := by
  have hnd : ∀ zs : List (K × V), (reducePair (· + ·) zs).Nodup := fun zs =>
    (isTable_reducePair _ zs).1.of_map Prod.fst
  refine (List.perm_ext_iff_of_nodup (hnd xs) (hnd ys)).2 fun ⟨k, v⟩ => ?_
  rw [mem_reducePair_add, mem_reducePair_add, ((h.filter _).map _).sum_eq, (h.map _).mem_iff]

/-! ## InnerJoin, GroupToIndex and GroupByKey -/

/-- Modelled from the spec: `InnerJoin(ls, rs, keyL, keyR, join)`, one item `join l r`
for every pair with equal keys, in the product order of the two sides. -/
def innerJoin [DecidableEq K] (keyL : α → K) (keyR : β → K) (join : α → β → γ)
    (ls : List α) (rs : List β) : List γ :=
  ls.flatMap fun l => (rs.filter (keyR · = keyL l)).map (join l)

/-- The calls of a stateful group lambda, one per group in the given order, threading
the lambda's state. -/
def runGroups (group : σ → List α → K → β × σ) : List (K × List α) → σ → List (K × β)
  | [], _ => []
  | (k, items) :: rest, st =>
    let r := group st items k
    (k, r.1) :: runGroups group rest r.2

/-- The groups of the keys in `order` that received items, each in arrival order. -/
def groupsOf [DecidableEq K] (key : α → K) (arrival : List α) (order : List K) :
    List (K × List α) :=
  (order.filter fun k => arrival.any (key · = k)).map fun k => (k, arrival.filter (key · = k))

/-- Modelled from the spec: `GroupToIndex(key, group, size)`. The items reach their
worker in the order `arrival`; the engine hands `group` an iterator over the items of
each index of `order` that received some; indices without items get `neutral`; a key
outside `[0, size)` is an error. -/
def groupToIndex (key : α → Nat) (group : σ → List α → Nat → β × σ) (size : Nat)
    (neutral : β) (arrival : List α) (order : List Nat) (st : σ) : Option (List β) :=
  if arrival.all (key · < size) then
    let outs := runGroups group (groupsOf key arrival order) st
    some ((List.range size).map fun i => (outs.lookup i).getD neutral)
  else none

/-- Modelled from the spec: `GroupByKey(key, group)`, one output per key, the keys
taken in the engine's order `order`. -/
def groupByKey [DecidableEq K] (key : α → K) (group : σ → List α → K → β × σ)
    (arrival : List α) (order : List K) (st : σ) : List β :=
  (runGroups group (groupsOf key arrival order) st).map Prod.snd

end ThrillPageRank.Dia
