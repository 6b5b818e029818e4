import ThrillPageRank.Dia
import Mathlib.Tactic.Ring
import Mathlib.Data.Nat.Digits
/-!
# `PageRankLineParser` and `num_pages`

The parser reads its line through `c_str()`, so it sees the characters before the
first NUL, and calls `strtoul` twice. `strtoul(s, &endptr, 10)`, as glibc implements
it, skips leading white space, reads an optional sign and the longest run of digits;
without a digit it reads nothing and leaves `endptr` at `s`. A value of `2^64` or more
reads as `2^64 - 1` and a `-` negates modulo `2^64`. `num_pages` is the largest id
plus one, in `size_t` arithmetic.
-/

namespace ThrillPageRank.LineParser

/-- `isspace` in the C locale. -/
def isSpace (c : Char) : Bool :=
  c = ' ' || c = '\t' || c = '\n' || c = '\x0B' || c = '\x0C' || c = '\r'

/-- The value of a run of decimal digits. -/
def digitsValue (ds : List Char) : Nat :=
  ds.foldl (fun v c => 10 * v + (c.toNat - '0'.toNat)) 0

/-- The sign `strtoul` reads: whether it is `-`, and the characters after it. -/
def readSign : List Char → Bool × List Char
  | [] => (false, [])
  | c :: u => if c = '-' then (true, u) else if c = '+' then (false, u) else (false, c :: u)

/-- `strtoul(s, &endptr, 10)`: the value and the characters from `endptr` on. -/
def strtoul (s : List Char) : Nat × List Char :=
  let sign := readSign (s.dropWhile isSpace)
  let ds := sign.2.takeWhile Char.isDigit
  if ds = [] then (0, s)
  else
    let v := digitsValue ds
    (if sizeTRange ≤ v then sizeTRange - 1
      else if sign.1 then (sizeTRange - v) % sizeTRange else v,
      sign.2.dropWhile Char.isDigit)

/-- The characters `c_str()` shows: those before the first NUL. -/
def cStr (input : String) : List Char := input.data.takeWhile (· ≠ '\x00')

/-- `PageRankLineParser()(input)`; `none` where a `die_unless` aborts the run. -/
def pageRankLineParser (input : String) : Option PagePageLink :=
  match strtoul (cStr input) with
  | (src, ' ' :: rest) =>
    match strtoul rest with
    | (tgt, []) => some ⟨src, tgt⟩
    | _ => none
  | _ => none

/-- `ReadLines(ctx, input_path).Map(PageRankLineParser())`. -/
def parseEdges (lines : List String) : Option (List PagePageLink) :=
  lines.mapM pageRankLineParser

/-- `num_pages` of `RunPageRankEdgePerLine`: `Max()` of `max(src, tgt)`, plus one, in
`size_t` arithmetic. -/
def numPages (edges : List PagePageLink) : Nat :=
  (Dia.max (edges.map fun e => max e.src e.tgt) + 1) % sizeTRange

/-- The line form the spec asks for: a digit run, one space and a digit run, nothing
after, both values below `2^64`. -/
def WellFormedLine (s : String) (a b : Nat) : Prop :=
  ∃ x y : List Char, x ≠ [] ∧ y ≠ [] ∧ (∀ c ∈ x, c.isDigit) ∧ (∀ c ∈ y, c.isDigit) ∧
    s.data = x ++ ' ' :: y ∧ digitsValue x = a ∧ digitsValue y = b ∧
    a < sizeTRange ∧ b < sizeTRange

/-- What one `strtoul` consumes: nothing, or white space, an optional sign and a digit run. -/
def StrtoulField (x : List Char) : Prop :=
  x = [] ∨ ∃ w sg ds, x = w ++ sg ++ ds ∧ (∀ c ∈ w, isSpace c) ∧
    (sg = [] ∨ sg = ['+'] ∨ sg = ['-']) ∧ ds ≠ [] ∧ ∀ c ∈ ds, c.isDigit

/-! ## `strtoul` -/

theorem isSpace_eq_false_of_isDigit {c : Char} (h : c.isDigit) : isSpace c = false := by
  simp only [isSpace, Bool.or_eq_false_iff, decide_eq_false_iff_not]
  refine ⟨⟨⟨⟨⟨?_, ?_⟩, ?_⟩, ?_⟩, ?_⟩, ?_⟩ <;> rintro rfl <;> exact absurd h (by decide)

theorem readSign_of_isDigit {c : Char} (h : c.isDigit) (u : List Char) :
    readSign (c :: u) = (false, c :: u) := by
  have h1 : c ≠ '-' := by rintro rfl; exact absurd h (by decide)
  have h2 : c ≠ '+' := by rintro rfl; exact absurd h (by decide)
  simp [readSign, h1, h2]

theorem readSign_spec (t : List Char) :
    ∃ sg, t = sg ++ (readSign t).2 ∧ (sg = [] ∨ sg = ['+'] ∨ sg = ['-']) := by
  cases t with
  | nil => exact ⟨[], rfl, .inl rfl⟩
  | cons c u =>
    simp only [readSign]
    split_ifs with h1 h2
    · subst c; exact ⟨['-'], rfl, .inr (.inr rfl)⟩
    · subst c; exact ⟨['+'], rfl, .inr (.inl rfl)⟩
    · exact ⟨[], rfl, .inl rfl⟩

/-- On a digit run followed by a non-digit, `strtoul` reads the run. -/
theorem strtoul_digits {ds rest : List Char} (hne : ds ≠ []) (hd : ∀ c ∈ ds, c.isDigit)
    (hr : ∀ c ∈ rest.head?, c.isDigit = false) (hv : digitsValue ds < sizeTRange) :
    strtoul (ds ++ rest) = (digitsValue ds, rest) := by
  obtain ⟨d, ds', rfl⟩ := List.exists_cons_of_ne_nil hne
  have hdd : d.isDigit := hd d (List.mem_cons_self d ds')
  have htake : (rest.takeWhile Char.isDigit) = [] := by
    cases rest with
    | nil => rfl
    | cons r rs => exact List.takeWhile_cons_of_neg (by simpa using hr r rfl)
  have hdrop : (rest.dropWhile Char.isDigit) = rest := by
    cases rest with
    | nil => rfl
    | cons r rs => exact List.dropWhile_cons_of_neg (by simpa using hr r rfl)
  simp only [strtoul, List.cons_append, List.dropWhile_cons_of_neg
    (by simp [isSpace_eq_false_of_isDigit hdd] : ¬ isSpace d = true), readSign_of_isDigit hdd]
  rw [← List.cons_append, List.takeWhile_append_of_pos hd, List.dropWhile_append_of_pos hd,
    htake, hdrop, List.append_nil]
  simp [Nat.not_le.2 hv]

/-- `strtoul` never returns `2^64` or more. -/
theorem strtoul_lt (s : List Char) : (strtoul s).1 < sizeTRange := by
  have : 0 < sizeTRange := by unfold sizeTRange; positivity
  dsimp only [strtoul]
  split_ifs <;> first | omega | exact Nat.mod_lt _ this

/-- What `strtoul` reads is a `StrtoulField` in front of `endptr`. -/
theorem strtoul_split (s : List Char) : ∃ x, s = x ++ (strtoul s).2 ∧ StrtoulField x := by
  obtain ⟨sg, hsg, hsg'⟩ := readSign_spec (s.dropWhile isSpace)
  dsimp only [strtoul]
  by_cases hds : (readSign (s.dropWhile isSpace)).2.takeWhile Char.isDigit = []
  · rw [if_pos hds]; exact ⟨[], rfl, .inl rfl⟩
  · rw [if_neg hds]
    refine ⟨s.takeWhile isSpace ++ sg ++ (readSign (s.dropWhile isSpace)).2.takeWhile Char.isDigit,
      ?_, .inr ⟨_, sg, _, rfl, fun c hc => List.mem_takeWhile_imp hc, hsg', hds,
        fun c hc => List.mem_takeWhile_imp hc⟩⟩
    conv_lhs => rw [← List.takeWhile_append_dropWhile isSpace s, hsg,
      ← List.takeWhile_append_dropWhile Char.isDigit (readSign _).2]
    simp only [List.append_assoc]

/-! ## The parser -/

theorem cStr_of_digits_space {x y : List Char} (hx : ∀ c ∈ x, c.isDigit)
    (hy : ∀ c ∈ y, c.isDigit) : cStr ⟨x ++ ' ' :: y⟩ = x ++ ' ' :: y := by
  refine List.takeWhile_eq_self_iff.2 fun c hc => ?_
  have : c.isDigit ∨ c = ' ' := by
    rcases List.mem_append.1 hc with h | h
    · exact .inl (hx c h)
    · rcases List.mem_cons.1 h with h | h
      · exact .inr h
      · exact .inl (hy c h)
  rcases this with h | rfl
  · have : c ≠ '\x00' := by rintro rfl; exact absurd h (by decide)
    simpa using this
  · decide

/-- Every line of the spec's form is accepted, with its two values. -/
theorem pageRankLineParser_wellFormed {s : String} {a b : Nat} (h : WellFormedLine s a b) :
    pageRankLineParser s = some ⟨a, b⟩ := by
  obtain ⟨x, y, hx, hy, hdx, hdy, hs, rfl, rfl, ha, hb⟩ := h
  obtain ⟨cs⟩ := s
  simp only at hs
  subst hs
  have h1 := @strtoul_digits x (' ' :: y) hx hdx (by simp) ha
  have h2 := @strtoul_digits y [] hy hdy (by simp) hb
  rw [List.append_nil] at h2
  simp [pageRankLineParser, cStr_of_digits_space hdx hdy, h1, h2]

/-- Whatever the parser accepts, up to the first NUL, is two `strtoul` fields around
one space. -/
theorem pageRankLineParser_shape {s : String} {e : PagePageLink}
    (h : pageRankLineParser s = some e) :
    ∃ x y, cStr s = x ++ ' ' :: y ∧ StrtoulField x ∧ StrtoulField y := by
  unfold pageRankLineParser at h
  obtain ⟨x, hx, hfx⟩ := strtoul_split (cStr s)
  split at h
  · rename_i src rest hsrc
    obtain ⟨y, hy, hfy⟩ := strtoul_split rest
    split at h
    · rename_i tgt htgt
      rw [htgt, List.append_nil] at hy
      rw [hsrc] at hx
      exact ⟨x, y, by rw [hx, ← hy], hfx, hfy⟩
    · cases h
  · cases h

/-- `PageRankLineParser` accepts every line of the spec's form, with its two values, and
whatever it accepts is, up to the first NUL, two `strtoul` fields around one space. -/
theorem pageRankLineParser_accepts (s : String) :
    (∀ a b, WellFormedLine s a b → pageRankLineParser s = some ⟨a, b⟩) ∧
      ∀ e, pageRankLineParser s = some e →
        ∃ x y, cStr s = x ++ ' ' :: y ∧ StrtoulField x ∧ StrtoulField y :=
  ⟨fun _ _ h => pageRankLineParser_wellFormed h, fun _ h => pageRankLineParser_shape h⟩

/-- A lone space is accepted, as the edge `(0, 0)`: neither `strtoul` finds a digit. -/
theorem pageRankLineParser_accepts_lone_space :
    pageRankLineParser " " = some ⟨0, 0⟩ ∧ ∀ a b, ¬ WellFormedLine " " a b := by
  refine ⟨by decide, fun a b ⟨x, y, hx, _, _, _, hs, _⟩ => hx (List.length_eq_zero.1 ?_)⟩
  have := congrArg List.length hs
  simp at this
  omega

/-! ## Printed ids read back -/

theorem foldl_digitsValue (v : Nat) (ds : List Char) :
    ds.foldl (fun v c => 10 * v + (c.toNat - '0'.toNat)) v =
      v * 10 ^ ds.length + digitsValue ds := by
  induction ds generalizing v with
  | nil => simp [digitsValue]
  | cons c ds ih =>
    rw [digitsValue, List.foldl_cons, List.foldl_cons, ih, ih, List.length_cons, pow_succ]
    ring

theorem digitsValue_cons (c : Char) (ds : List Char) :
    digitsValue (c :: ds) = (c.toNat - '0'.toNat) * 10 ^ ds.length + digitsValue ds := by
  rw [digitsValue, List.foldl_cons, foldl_digitsValue]
  simp

theorem digitChar_spec : ∀ k < 10, (Nat.digitChar k).isDigit ∧
    (Nat.digitChar k).toNat - '0'.toNat = k := by
  decide

/-- The digits `Nat.toDigits` prepends to `ds` are digits that read back as `n`. -/
theorem toDigitsCore_spec (fuel n : Nat) (ds : List Char) (hn : n < fuel)
    (hds : ∀ c ∈ ds, c.isDigit) :
    Nat.toDigitsCore 10 fuel n ds ≠ [] ∧ (∀ c ∈ Nat.toDigitsCore 10 fuel n ds, c.isDigit) ∧
      digitsValue (Nat.toDigitsCore 10 fuel n ds) = n * 10 ^ ds.length + digitsValue ds := by
  induction fuel generalizing n ds with
  | zero => omega
  | succ fuel ih =>
    obtain ⟨hdig, hval⟩ := digitChar_spec (n % 10) (Nat.mod_lt n (by decide))
    have hcons : ∀ c ∈ Nat.digitChar (n % 10) :: ds, c.isDigit := by
      simpa [hdig] using hds
    simp only [Nat.toDigitsCore]
    split
    · refine ⟨List.cons_ne_nil _ _, hcons, ?_⟩
      rw [digitsValue_cons, hval, Nat.mod_eq_of_lt (by omega)]
    · obtain ⟨hne, hall, hv⟩ := ih (n / 10) _ (by omega) hcons
      refine ⟨hne, hall, ?_⟩
      rw [hv, digitsValue_cons, hval, List.length_cons, ← add_assoc]
      congr 1
      calc n / 10 * 10 ^ (ds.length + 1) + n % 10 * 10 ^ ds.length
          = (10 * (n / 10) + n % 10) * 10 ^ ds.length := by ring
        _ = n * 10 ^ ds.length := by rw [Nat.div_add_mod]

theorem toDigits_spec (n : Nat) : Nat.toDigits 10 n ≠ [] ∧
    (∀ c ∈ Nat.toDigits 10 n, c.isDigit) ∧ digitsValue (Nat.toDigits 10 n) = n := by
  obtain ⟨hne, hall, hv⟩ := toDigitsCore_spec (n + 1) n [] (Nat.lt_succ_self n) (by simp)
  exact ⟨hne, hall, by simpa [digitsValue] using hv⟩

/-- `std::to_string` of an id, read by `strtoul`, gives the id back. -/
theorem strtoul_toString_append {n : Nat} (hn : n < sizeTRange) (rest : List Char)
    (hr : ∀ c ∈ rest.head?, c.isDigit = false) :
    strtoul ((toString n).data ++ rest) = (n, rest) := by
  obtain ⟨hne, hall, hv⟩ := toDigits_spec n
  have h := strtoul_digits hne hall hr (by rw [hv]; exact hn)
  rwa [hv] at h

/-- An edge written as `"src tgt"` reads back as itself. -/
theorem pageRankLineParser_toString (e : PagePageLink) (hs : e.src < sizeTRange)
    (ht : e.tgt < sizeTRange) :
    pageRankLineParser (toString e.src ++ " " ++ toString e.tgt) = some e := by
  obtain ⟨hne₁, hall₁, hv₁⟩ := toDigits_spec e.src
  obtain ⟨hne₂, hall₂, hv₂⟩ := toDigits_spec e.tgt
  exact pageRankLineParser_wellFormed ⟨_, _, hne₁, hne₂, hall₁, hall₂,
    by simp [String.data_append]; rfl, hv₁, hv₂, hs, ht⟩

theorem pageRankLineParser_toString_edge :
    (12 < sizeTRange ∧ 3 < sizeTRange) ∧
      pageRankLineParser (toString 12 ++ " " ++ toString 3) = some ⟨12, 3⟩ :=
  ⟨⟨by decide, by decide⟩, pageRankLineParser_toString ⟨12, 3⟩ (by decide) (by decide)⟩

/-! ## `num_pages` -/

theorem mem_of_mapM_eq_some {α β : Type} {f : α → Option β} :
    ∀ {l : List α} {l' : List β}, l.mapM f = some l' → ∀ b ∈ l', ∃ a ∈ l, f a = some b
  | [], l', h, b, hb => by
    rw [List.mapM_nil] at h; cases h; cases hb
  | a :: l, l', h, b, hb => by
    rw [List.mapM_cons] at h
    cases hfa : f a with
    | none => rw [hfa] at h; cases h
    | some x =>
      cases hl : l.mapM f with
      | none => rw [hfa, hl] at h; cases h
      | some xs =>
        rw [hfa, hl] at h
        cases h
        rcases List.mem_cons.1 hb with rfl | hb
        · exact ⟨a, List.mem_cons_self _ _, hfa⟩
        · obtain ⟨a', ha', hf⟩ := mem_of_mapM_eq_some hl b hb
          exact ⟨a', List.mem_cons_of_mem _ ha', hf⟩

/-- Every id the parser returns is a `size_t`. -/
theorem parseEdges_lt {lines : List String} {edges : List PagePageLink}
    (h : parseEdges lines = some edges) : ∀ e ∈ edges, e.src < sizeTRange ∧ e.tgt < sizeTRange := by
  intro e he
  obtain ⟨line, -, hl⟩ := mem_of_mapM_eq_some h e he
  unfold pageRankLineParser at hl
  split at hl
  · rename_i src rest hsrc
    split at hl
    · rename_i tgt htgt
      cases hl
      have h1 := strtoul_lt (cStr line)
      have h2 := strtoul_lt rest
      rw [hsrc] at h1
      rw [htgt] at h2
      exact ⟨h1, h2⟩
    · cases hl
  · cases hl

section NumPages

variable {edges : List PagePageLink}
  (h : ∀ e ∈ edges, e.src < sizeTRange - 1 ∧ e.tgt < sizeTRange - 1)
include h

/-- Below the id `2^64 - 1`, the `+ 1` of `num_pages` does not wrap. -/
theorem numPages_eq_max_succ :
    numPages edges = Dia.max (edges.map fun e => max e.src e.tgt) + 1 := by
  have hm : Dia.max (edges.map fun e => max e.src e.tgt) < sizeTRange - 1 :=
    Dia.max_lt (by unfold sizeTRange; omega) fun x hx => by
      obtain ⟨e, he, rfl⟩ := List.mem_map.1 hx
      exact max_lt (h e he).1 (h e he).2
  exact Nat.mod_eq_of_lt (by omega)

theorem lt_numPages {e : PagePageLink} (he : e ∈ edges) :
    e.src < numPages edges ∧ e.tgt < numPages edges := by
  have h1 : max e.src e.tgt ≤ Dia.max (edges.map fun e => max e.src e.tgt) :=
    Dia.le_max_of_mem (List.mem_map_of_mem (fun e => max e.src e.tgt) he)
  rw [numPages_eq_max_succ h]
  exact ⟨((le_max_left _ _).trans h1).trans_lt (Nat.lt_succ_self _),
    ((le_max_right _ _).trans h1).trans_lt (Nat.lt_succ_self _)⟩

/-- Below the id `2^64 - 1`, `num_pages` is at least one and above the ids of every edge. -/
theorem numPages_bounds :
    1 ≤ numPages edges ∧ ∀ e ∈ edges, e.src < numPages edges ∧ e.tgt < numPages edges :=
  ⟨by rw [numPages_eq_max_succ h]; omega, fun _ he => lt_numPages h he⟩

end NumPages

theorem numPages_bounds_one_edge :
    (∀ e ∈ [PagePageLink.mk 0 1], e.src < sizeTRange - 1 ∧ e.tgt < sizeTRange - 1) ∧
      1 ≤ numPages [⟨0, 1⟩] ∧
      ∀ e ∈ [PagePageLink.mk 0 1], e.src < numPages [⟨0, 1⟩] ∧ e.tgt < numPages [⟨0, 1⟩] :=
  ⟨by decide, numPages_bounds (by decide)⟩

/-- When the largest id is `2^64 - 1`, `num_pages` wraps to `0`. -/
theorem numPages_eq_zero {edges : List PagePageLink}
    (hids : ∀ e ∈ edges, e.src < sizeTRange ∧ e.tgt < sizeTRange)
    (hmax : ∃ e ∈ edges, e.src = sizeTRange - 1 ∨ e.tgt = sizeTRange - 1) :
    numPages edges = 0 := by
  obtain ⟨e, he, hid⟩ := hmax
  have hle : sizeTRange - 1 ≤ Dia.max (edges.map fun e => max e.src e.tgt) :=
    le_trans (by rcases hid with h | h <;> simp [h]) (Dia.le_max_of_mem (List.mem_map_of_mem _ he))
  have hlt : Dia.max (edges.map fun e => max e.src e.tgt) < sizeTRange :=
    Dia.max_lt (by unfold sizeTRange; omega) fun x hx => by
      obtain ⟨e, he, rfl⟩ := List.mem_map.1 hx
      exact max_lt (hids e he).1 (hids e he).2
  rw [numPages, show Dia.max (edges.map fun e => max e.src e.tgt) + 1 = sizeTRange by omega,
    Nat.mod_self]

/-- The id `2^64 - 1` is a valid `size_t`, and `num_pages` wraps to `0` on it. -/
theorem numPages_wraps_at_max_id :
    (parseEdges ["18446744073709551615 0"]).map numPages = some 0 := by
  decide

end ThrillPageRank.LineParser
