/-
# Limits from one line each

A document may give each limit at most one line (`GivenBy`). A number outside the range of a
limit makes it unreadable (`Limits.ofToml_of_outside`), whether the number does not fit 64 bits
or is negative. Otherwise the limits are as given, by default where they are not given
(`Limits.AsGiven`), and what remains is their check: it names the first limit that is zero
(`Limits.zero?_eq_some`), and that is one of those given since no default is zero
(`Limits.AsGiven.bound_eq_zero_iff`).

Limits that pass the check may still be more than there is storage for, and no scan is set up
under them then. The largest number that can be read as a capacity is such a limit on every
machine (`largest_capacity_noRoom`).

What is given determines the limits, so the order of the lines has no part in the outcome
(`Limits.ofToml_perm`).

Key definitions: `GivenBy`, `InRange`, `Limit.turn`, `Limits.AsGiven`.
Key theorems: `Limits.ofToml_of_outside`, `Limits.ofToml_of_inRange`, `limits_from_lines`.
-/
import Mathlib.Algebra.Order.Ring.Int
import TaintGraph.Limits.Toml
import TaintGraph.Proofs.Scan.Limits
import TaintGraph.Proofs.Toml.Lines

namespace TaintGraph

open Toml (Literal)

/-! ### What is given -/

/-- A limit by its key. -/
def Limit.keyed (p : Limit × Literal) : String × Literal :=
  (p.1.key, p.2)

/-- The text has a line for each of these limits and for nothing else, and no limit has two. -/
structure GivenBy (given : List (Limit × Literal)) (text : String) : Prop where
  /-- No limit is given twice. -/
  nodup : (given.map Prod.fst).Nodup
  /-- There is one line for each limit given, in their order. -/
  lines : Toml.Lines (given.map Limit.keyed) text.toList

/-- The number may be read as a limit. -/
def InRange (n : ℤ) : Prop :=
  0 ≤ n ∧ n ≤ 2 ^ 63 - 1

instance (n : ℤ) : Decidable (InRange n) :=
  inferInstanceAs (Decidable (_ ∧ _))

/-- The bound that a limit sets. -/
def Limits.bound (l : Limits) : Limit → ℕ
  | .pathLength => l.maxPathLength
  | .distances => l.maxDistances
  | .paths => l.maxPaths

/-- When it is a limit's turn to be checked. -/
def Limit.turn : Limit → ℕ
  | .distances => 0
  | .pathLength => 1
  | .paths => 2

/-- The limits are as given, and as by default where nothing is given. -/
def Limits.AsGiven (l : Limits) (given : List (Limit × Literal)) : Prop :=
  (∀ p ∈ given, (l.bound p.1 : ℤ) = p.2.value) ∧
    ∀ limit ∉ given.map Prod.fst, l.bound limit = Limits.bound {} limit

theorem Limit.key_injective : Function.Injective Limit.key := by
  intro a b h
  cases a <;> cases b <;> first | rfl | exact absurd h (by decide)

theorem Limit.bare_key (limit : Limit) : Toml.Bare limit.key := by
  cases limit <;> exact ⟨by decide, List.all_eq_true.1 (by decide)⟩

theorem Limits.ext_bound {l l' : Limits} (h : ∀ limit, l.bound limit = l'.bound limit) :
    l = l' := by
  cases l
  cases l'
  have hlength := h .pathLength
  have hdistances := h .distances
  have hpaths := h .paths
  simp_all [Limits.bound]

theorem Limits.AsGiven.unique {l l' : Limits} {given given' : List (Limit × Literal)}
    (h : l.AsGiven given) (h' : l'.AsGiven given') (hperm : given'.Perm given) : l = l' := by
  refine Limits.ext_bound fun limit => ?_
  by_cases hmem : limit ∈ given.map Prod.fst
  · obtain ⟨p, hp, rfl⟩ := List.mem_map.1 hmem
    have hl := h.1 p hp
    have hl' := h'.1 p (hperm.mem_iff.2 hp)
    omega
  · have hmem' : limit ∉ given'.map Prod.fst := mt (hperm.map _).mem_iff.1 hmem
    rw [h.2 limit hmem, h'.2 limit hmem']

/-- No default is zero, so a limit is zero only where that is given. -/
theorem Limits.AsGiven.bound_eq_zero_iff {l : Limits} {given : List (Limit × Literal)}
    (h : l.AsGiven given) (limit : Limit) :
    l.bound limit = 0 ↔ ∃ p ∈ given, p.1 = limit ∧ p.2.value = 0 := by
  constructor
  · intro hzero
    by_cases hmem : limit ∈ given.map Prod.fst
    · obtain ⟨p, hp, rfl⟩ := List.mem_map.1 hmem
      exact ⟨p, hp, rfl, by rw [← h.1 p hp, hzero]; rfl⟩
    · rw [h.2 limit hmem] at hzero
      cases limit <;> cases hzero
  · rintro ⟨p, hp, rfl, hzero⟩
    have hbound := h.1 p hp
    omega

/-! ### Reading -/

section Reading

variable {given : List (Limit × Literal)}

/-- The root table of a document with these lines. -/
def rootOf (given : List (Limit × Literal)) : Toml.Entries :=
  (given.map Limit.keyed).map Toml.entry

theorem mem_rootOf {e : String × Toml.Item} (he : e ∈ rootOf given) :
    ∃ q ∈ given, e.1 = q.1.key := by
  obtain ⟨p, hp, rfl⟩ := List.mem_map.1 he
  obtain ⟨q, hq, rfl⟩ := List.mem_map.1 hp
  exact ⟨q, hq, rfl⟩

theorem lookup_rootOf (hnodup : (given.map Prod.fst).Nodup) {p : Limit × Literal} (hp : p ∈ given) :
    (rootOf given).lookup p.1.key = some (.number (.integer p.2.value)) := by
  obtain ⟨before, after, rfl⟩ := List.append_of_mem hp
  rw [List.lookup_eq_some_iff]
  refine ⟨rootOf before, rootOf after, by simp [rootOf, Toml.entry, Limit.keyed], fun e he => ?_⟩
  obtain ⟨q, hq, hkey⟩ := mem_rootOf he
  rw [List.map_append, List.nodup_append] at hnodup
  have hne := hnodup.2.2 q.1 (List.mem_map_of_mem hq) p.1 List.mem_cons_self
  rw [hkey]
  exact bne_iff_ne.2 fun heq => hne (Limit.key_injective heq).symm

theorem lookup_rootOf_eq_none {limit : Limit} (hlimit : limit ∉ given.map Prod.fst) :
    (rootOf given).lookup limit.key = none := by
  rw [List.lookup_eq_none_iff]
  intro e he
  obtain ⟨q, hq, hkey⟩ := mem_rootOf he
  rw [hkey]
  exact bne_iff_ne.2 fun heq => hlimit (Limit.key_injective heq ▸ List.mem_map_of_mem hq)

theorem Limit.read?_rootOf (hnodup : (given.map Prod.fst).Nodup) {p : Limit × Literal}
    (hp : p ∈ given) (default : ℕ) : p.1.read? (rootOf given) default =
      if 0 ≤ p.2.value then some p.2.value.toNat else none := by
  rw [Limit.read?, lookup_rootOf hnodup hp]

theorem Limit.read?_rootOf_default {limit : Limit} (hlimit : limit ∉ given.map Prod.fst)
    (default : ℕ) : limit.read? (rootOf given) default = some default := by
  rw [Limit.read?, lookup_rootOf_eq_none hlimit]

theorem Toml.word64?_eq (n : ℤ) :
    word64? n = if -2 ^ 63 ≤ n ∧ n ≤ 2 ^ 63 - 1 then some n else none := by
  rfl

theorem Limits.ofEntries?_eq_none {entries : Toml.Entries} {limit : Limit}
    (h : ∀ default, limit.read? entries default = none) : Limits.ofEntries? entries = none := by
  cases limit <;> simp [Limits.ofEntries?, h]

theorem exists_ofEntries?_rootOf (hnodup : (given.map Prod.fst).Nodup)
    (hrange : ∀ p ∈ given, InRange p.2.value) :
    ∃ limits : Limits, limits.AsGiven given ∧ Limits.ofEntries? (rootOf given) = some limits := by
  -- Each limit is read on its own, whatever the others are.
  have hread : ∀ limit : Limit, ∃ n : ℕ,
      limit.read? (rootOf given) (Limits.bound {} limit) = some n ∧
      (∀ p ∈ given, p.1 = limit → (n : ℤ) = p.2.value) ∧
      (limit ∉ given.map Prod.fst → n = Limits.bound {} limit) := by
    intro limit
    by_cases hlimit : limit ∈ given.map Prod.fst
    · obtain ⟨p, hp, rfl⟩ := List.mem_map.1 hlimit
      refine ⟨p.2.value.toNat, ?_, fun q hq heq => ?_, fun hnot => absurd hlimit hnot⟩
      · rw [Limit.read?_rootOf hnodup hp, if_pos (hrange p hp).1]
      · rw [List.inj_on_of_nodup_map hnodup hq hp heq, Int.toNat_of_nonneg (hrange p hp).1]
    · refine ⟨_, Limit.read?_rootOf_default hlimit _, fun p hp heq => ?_, fun _ => rfl⟩
      exact absurd (heq ▸ List.mem_map_of_mem hp) hlimit
  choose bound hread hgiven hdefault using hread
  have hbound : ∀ limit, Limits.bound ⟨bound .pathLength, bound .distances, bound .paths⟩ limit =
      bound limit := by
    intro limit
    cases limit <;> rfl
  refine ⟨⟨bound .pathLength, bound .distances, bound .paths⟩,
    ⟨fun p hp => ?_, fun limit hlimit => ?_⟩, ?_⟩
  · rw [hbound, hgiven p.1 p hp rfl]
  · rw [hbound, hdefault limit hlimit]
  · have hlength := hread .pathLength
    have hdistances := hread .distances
    have hpaths := hread .paths
    simp only [Limits.bound] at hlength hdistances hpaths
    simp only [Limits.ofEntries?, hlength, hdistances, hpaths, Option.bind_eq_bind,
      Option.bind_some]
    rfl

theorem bare_of_mem_map : ∀ p ∈ given.map Limit.keyed, Toml.Bare p.1 := by
  intro p hp
  obtain ⟨q, -, rfl⟩ := List.mem_map.1 hp
  exact q.1.bare_key

variable {text : String} (h : GivenBy given text)
include h

theorem GivenBy.parse? (hfits : ∀ p ∈ given, Toml.word64? p.2.value = some p.2.value) :
    Toml.parse? text = some (rootOf given) := by
  have hnodup : ((given.map Limit.keyed).map Prod.fst).Nodup := by
    rw [List.map_map]
    have hkeys := h.nodup.map Limit.key_injective
    rwa [List.map_map] at hkeys
  refine Toml.parse?_lines h.lines bare_of_mem_map hnodup fun p hp => ?_
  obtain ⟨q, hq, rfl⟩ := List.mem_map.1 hp
  exact hfits q hq

/-- **A number out of range makes the document unreadable.** -/
theorem Limits.ofToml_of_outside (hout : ∃ p ∈ given, ¬ InRange p.2.value) :
    Limits.ofToml text = .error .unreadable := by
  obtain ⟨p, hp, hout⟩ := hout
  by_cases hfits : ∀ q ∈ given, Toml.word64? q.2.value = some q.2.value
  · -- The document is read, but the number is negative.
    have hnegative : ¬ 0 ≤ p.2.value := by
      have hp := hfits p hp
      rw [Toml.word64?_eq] at hp
      unfold InRange at hout
      split_ifs at hp with hbounds
      omega
    have hnone : Limits.ofEntries? (rootOf given) = none :=
      Limits.ofEntries?_eq_none fun default => by
        rw [Limit.read?_rootOf h.nodup hp default, if_neg hnegative]
    rw [Limits.ofToml, h.parse? hfits, Option.bind_eq_bind, Option.bind_some, hnone]
  · -- Some number, perhaps another, does not fit 64 bits, and the document is not read.
    simp only [not_forall] at hfits
    obtain ⟨q, hq, hbig⟩ := hfits
    have hnone : Toml.word64? q.2.value = none := by
      rw [Toml.word64?_eq] at hbig ⊢
      split_ifs at hbig ⊢
      · exact absurd rfl hbig
      · rfl
    have hparse := Toml.parse?_lines_eq_none h.lines bare_of_mem_map
      (List.mem_map_of_mem (f := Limit.keyed) hq) hnone
    rw [Limits.ofToml, hparse]
    rfl

/-- **With all numbers in range, the limits are as given, if they pass their check.** -/
theorem Limits.ofToml_of_inRange (hrange : ∀ p ∈ given, InRange p.2.value) :
    ∃ limits : Limits, limits.AsGiven given ∧ Limits.ofToml text = limits.check := by
  obtain ⟨limits, hgiven, hread⟩ := exists_ofEntries?_rootOf h.nodup hrange
  refine ⟨limits, hgiven, ?_⟩
  have hfits : ∀ p ∈ given, Toml.word64? p.2.value = some p.2.value := by
    intro p hp
    obtain ⟨hnonneg, hle⟩ := hrange p hp
    rw [Toml.word64?_eq, if_pos ⟨by omega, hle⟩]
  rw [Limits.ofToml, h.parse? hfits, Option.bind_eq_bind, Option.bind_some, hread]

/-- The order of the lines has no part in the outcome. -/
theorem Limits.ofToml_perm {given' : List (Limit × Literal)} {text' : String}
    (h' : GivenBy given' text') (hperm : given'.Perm given) :
    Limits.ofToml text' = Limits.ofToml text := by
  by_cases hrange : ∀ p ∈ given, InRange p.2.value
  · obtain ⟨limits, hgiven, hread⟩ := Limits.ofToml_of_inRange h hrange
    obtain ⟨limits', hgiven', hread'⟩ :=
      Limits.ofToml_of_inRange h' fun p hp => hrange p (hperm.mem_iff.1 hp)
    rw [hread, hread', hgiven.unique hgiven' hperm]
  · simp only [not_forall] at hrange
    obtain ⟨p, hp, hout⟩ := hrange
    rw [Limits.ofToml_of_outside h ⟨p, hp, hout⟩,
      Limits.ofToml_of_outside h' ⟨p, hperm.mem_iff.2 hp, hout⟩]

end Reading

/-! ### The check -/

theorem Limits.zero?_eq_some {l : Limits} {limit : Limit} (h : l.zero? = some limit) :
    l.bound limit = 0 ∧ ∀ other, l.bound other = 0 → limit.turn ≤ other.turn := by
  unfold Limits.zero? at h
  split_ifs at h with hdistances hlength hpaths <;> cases h
  · exact ⟨hdistances, fun _ _ => Nat.zero_le _⟩
  · refine ⟨hlength, fun other hother => ?_⟩
    cases other <;> simp_all [Limits.bound, Limit.turn]
  · refine ⟨hpaths, fun other hother => ?_⟩
    cases other <;> simp_all [Limits.bound, Limit.turn]

theorem Limits.zero?_eq_none {l : Limits} : l.zero? = none ↔ ∀ limit, l.bound limit ≠ 0 := by
  unfold Limits.zero?
  constructor
  · intro h limit
    split_ifs at h with hdistances hlength hpaths
    cases limit
    · exact hlength
    · exact hdistances
    · exact hpaths
  · intro h
    have hdistances : l.maxDistances ≠ 0 := h .distances
    have hlength : l.maxPathLength ≠ 0 := h .pathLength
    have hpaths : l.maxPaths ≠ 0 := h .paths
    rw [if_neg hdistances, if_neg hlength, if_neg hpaths]

theorem Scan.exists_ofLimits {l : Limits} (h : l.zero? = none) : ∃ s, Scan.ofLimits l = .ok s := by
  have hpos : 0 < l.maxDistances := Nat.pos_of_ne_zero (Limits.zero?_eq_none.1 h .distances)
  have hcheck : l.check = .ok l := by
    rw [Limits.check, h]
  refine ⟨{ limits := l, memo := Memo.empty l.maxDistances hpos }, ?_⟩
  rw [Scan.ofLimits, hcheck]
  exact dif_pos hpos

/-- **Limits are read from their lines.** A number below zero or above 64 bits makes the document
unreadable. Otherwise, if some number is zero, the error names the first limit that is, in the
order of their turns. Otherwise the limits are as given, by default where nothing is given, they
are not refused, and a scan is set up under them exactly when there is storage for its memo. In
another order of lines the outcome is the same. -/
theorem limits_from_lines {given : List (Limit × Literal)} {text : String}
    (h : GivenBy given text) :
    ((∃ p ∈ given, ¬ InRange p.2.value) → Limits.ofToml text = .error .unreadable) ∧
    ((∀ p ∈ given, InRange p.2.value) →
      ((∃ p ∈ given, p.2.value = 0) →
        ∃ p ∈ given, p.2.value = 0 ∧ (∀ q ∈ given, q.2.value = 0 → p.1.turn ≤ q.1.turn) ∧
          Limits.ofToml text = .error (.zero p.1)) ∧
      ((∀ p ∈ given, p.2.value ≠ 0) →
        ∃ limits s, Limits.ofToml text = .ok limits ∧ limits.AsGiven given ∧
          Scan.ofLimits limits = .ok s ∧
          ∀ room : ℕ → Bool, Scan.setUp room limits =
            if room limits.maxDistances then .ok s
            else .error (.noRoom limits.maxDistances))) ∧
    ∀ given' text', given'.Perm given → GivenBy given' text' →
      Limits.ofToml text' = Limits.ofToml text := by
  refine ⟨Limits.ofToml_of_outside h, fun hrange => ?_, fun given' text' hperm h' => ?_⟩
  · obtain ⟨limits, hgiven, hread⟩ := Limits.ofToml_of_inRange h hrange
    cases hzero : limits.zero? with
    | none =>
      have hpos := Limits.zero?_eq_none.1 hzero
      rw [Limits.check, hzero] at hread
      refine ⟨fun hgivenZero => ?_, fun _ => ?_⟩
      · obtain ⟨p, hp, hvalue⟩ := hgivenZero
        exact absurd ((hgiven.bound_eq_zero_iff p.1).2 ⟨p, hp, rfl, hvalue⟩) (hpos p.1)
      · obtain ⟨s, hs⟩ := Scan.exists_ofLimits hzero
        exact ⟨limits, s, hread, hgiven, hs, Scan.setUp_of_ofLimits hs⟩
    | some limit =>
      obtain ⟨hlimit, hfirst⟩ := Limits.zero?_eq_some hzero
      obtain ⟨p, hp, rfl, hvalue⟩ := (hgiven.bound_eq_zero_iff limit).1 hlimit
      rw [Limits.check, hzero] at hread
      refine ⟨fun _ => ⟨p, hp, hvalue, fun q hq hother => ?_, hread⟩, fun hpos => ?_⟩
      · exact hfirst q.1 ((hgiven.bound_eq_zero_iff q.1).2 ⟨q, hq, rfl, hother⟩)
      · exact absurd hvalue (hpos p hp)
  · exact Limits.ofToml_perm h h' hperm

/-! ### The largest capacity -/

theorem givenBy_largest : GivenBy [(.distances, ⟨false, 9223372036854775807⟩)]
    "max_distance_cache = 9223372036854775807\n" :=
  ⟨by decide, .cons _ (.inl rfl) .nil⟩

theorem asGiven_largest : Limits.AsGiven { maxDistances := 9223372036854775807 }
    [(.distances, ⟨false, 9223372036854775807⟩)] := by
  refine ⟨by decide, fun limit hlimit => ?_⟩
  cases limit with
  | distances => exact absurd (by decide) hlimit
  | pathLength => rfl
  | paths => rfl

/-- Zeros for two limits in either order of lines, one of them with a minus; the largest number,
with storage for it and without; and one above it, next to a zero. -/
theorem limits_from_lines_edges :
    Limits.ofToml "max_paths = 0\r\nmax_path_length = -0" = .error (.zero .pathLength) ∧
    Limits.ofToml "max_path_length = -0\nmax_paths = 0\n" = .error (.zero .pathLength) ∧
    Limits.ofToml "max_distance_cache = 9223372036854775807\n" =
      .ok { maxDistances := 9223372036854775807 } ∧
    (∃ s, Scan.setUp (fun n => n < 2 ^ 63) { maxDistances := 9223372036854775807 } = .ok s) ∧
    Scan.setUp (fun n => 2 * n < 2 ^ 63) { maxDistances := 9223372036854775807 } =
      .error (.noRoom 9223372036854775807) ∧
    Limits.ofToml "max_paths = 0\nmax_distance_cache = 9223372036854775808\n" =
      .error .unreadable := by
  have hzeros : GivenBy [(.paths, ⟨false, 0⟩), (.pathLength, ⟨true, 0⟩)]
      "max_paths = 0\r\nmax_path_length = -0" := ⟨by decide, .cons _ (.inr rfl) (.last _)⟩
  have hswapped : GivenBy [(.pathLength, ⟨true, 0⟩), (.paths, ⟨false, 0⟩)]
      "max_path_length = -0\nmax_paths = 0\n" :=
    ⟨by decide, .cons _ (.inl rfl) (.cons _ (.inl rfl) .nil)⟩
  have habove : GivenBy [(.paths, ⟨false, 0⟩), (.distances, ⟨false, 9223372036854775808⟩)]
      "max_paths = 0\nmax_distance_cache = 9223372036854775808\n" :=
    ⟨by decide, .cons _ (.inl rfl) (.cons _ (.inl rfl) .nil)⟩
  have hfirst : Limits.ofToml "max_paths = 0\r\nmax_path_length = -0" =
      .error (.zero .pathLength) := by
    obtain ⟨p, hp, -, hturn, hread⟩ := ((limits_from_lines hzeros).2.1 (by decide)).1 (by decide)
    have hturn := hturn (.pathLength, ⟨true, 0⟩) (by decide) (by decide)
    simp only [List.mem_cons, List.not_mem_nil, or_false] at hp
    rcases hp with rfl | rfl
    · exact absurd hturn (by decide)
    · exact hread
  obtain ⟨limits, s, hread, hgiven, -, hsetUp⟩ :=
    ((limits_from_lines givenBy_largest).2.1 (by decide)).2 (by decide)
  obtain rfl := hgiven.unique asGiven_largest (.refl _)
  refine ⟨hfirst, ?_, hread, ⟨s, ?_⟩, ?_, ?_⟩
  · rw [(limits_from_lines hzeros).2.2 _ _ (.swap _ _ []) hswapped, hfirst]
  · rw [hsetUp, if_pos (by decide)]
  · rw [hsetUp, if_neg (by decide)]
  · exact (limits_from_lines habove).1
      ⟨(.distances, ⟨false, 9223372036854775808⟩), by decide, by decide⟩

/-- **The largest capacity is read, passes the check and has no storage.** A piece of storage has
fewer than `2 ^ 63` bytes, and an entry of the memo takes two of them or more. -/
theorem largest_capacity_noRoom :
    GivenBy [(.distances, ⟨false, 9223372036854775807⟩)]
      "max_distance_cache = 9223372036854775807\n" ∧
    InRange 9223372036854775807 ∧
    Limits.ofToml "max_distance_cache = 9223372036854775807\n" =
      .ok { maxDistances := 9223372036854775807 } ∧
    (∃ s, Scan.ofLimits { maxDistances := 9223372036854775807 } = .ok s) ∧
    ∀ room : ℕ → Bool, (∀ n, room n = true → 2 * n < 2 ^ 63) →
      Scan.setUp room { maxDistances := 9223372036854775807 } =
        .error (.noRoom 9223372036854775807) := by
  obtain ⟨limits, hgiven, hread⟩ := Limits.ofToml_of_inRange givenBy_largest (by decide)
  obtain rfl := hgiven.unique asGiven_largest (.refl _)
  obtain ⟨s, hs⟩ := Scan.exists_ofLimits (l := { maxDistances := 9223372036854775807 }) (by decide)
  refine ⟨givenBy_largest, by decide, hread, ⟨s, hs⟩, fun room hroom => ?_⟩
  have hnone : ¬ room 9223372036854775807 = true := fun h => absurd (hroom _ h) (by decide)
  rw [Scan.setUp_of_ofLimits hs, if_neg hnone]

end TaintGraph
