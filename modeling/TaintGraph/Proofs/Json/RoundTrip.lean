/-
# Callables, calls, limits and counts come back from their text

A record is written as the object of its fields, and the fields of that object are the values
written (`Json.fields?_object`). So each type reads what it writes, provided that its numbers
are in range (`Callable.ofJson?_toJson` and the same for the other types); and what a type
reads is in range (`Callable.fits_of_ofJson?`). Texts may hold any character. Since objects
come back from their text (`Json.parse?_render`), so do the values (`json_round_trip`).

Key definitions: `Callable.Fits`, `Limits.Fits`, `Census.Fits`, `Json.RoundTrips`.
Key theorems: `Json.fields?_object`, `json_round_trip`.
-/
import TaintGraph.Codec
import TaintGraph.Proofs.Json.Tree

namespace TaintGraph

open Json (required optional withDefault)

namespace Json

/-! ### Records -/

theorem readKeys?_escape (members : List (String × Json)) :
    readKeys? (members.map fun m => (escape m.1.toList, m.2)) = some members := by
  induction members with
  | nil => rfl
  | cons m members ih =>
    unfold readKeys? at ih ⊢
    rw [List.map_cons, List.mapM_cons, ih, unescape_escape]
    simp

theorem member?_of_mem {members : List (String × Json)} {m : String × Json}
    (hkeys : (members.map Prod.fst).Nodup) (hm : m ∈ members) :
    member? members m.1 = some (some m.2) := by
  have hfilter : members.filter (fun m' => m'.1 = m.1) = [m] := by
    induction members with
    | nil => cases hm
    | cons m' members ih =>
      obtain ⟨hfresh, hkeys⟩ := List.nodup_cons.1 hkeys
      rcases List.mem_cons.1 hm with rfl | hm
      · have hnone : members.filter (fun m' => m'.1 = m.1) = [] := by
          rw [List.filter_eq_nil_iff]
          intro m' hm' heq
          exact hfresh (List.mem_map.2 ⟨m', hm', of_decide_eq_true heq⟩)
        rw [List.filter_cons_of_pos (by simp), hnone]
      · have hne : m'.1 ≠ m.1 := fun heq => hfresh (heq ▸ List.mem_map_of_mem hm)
        rw [List.filter_cons_of_neg (by simpa using hne), ih hkeys hm]
  rw [member?, hfilter]

theorem mapM_member? {members : List (String × Json)} (hkeys : (members.map Prod.fst).Nodup) :
    (members.map Prod.fst).mapM (member? members) = some (members.map fun m => some m.2) := by
  suffices h : ∀ part ⊆ members,
      (part.map Prod.fst).mapM (member? members) = some (part.map fun m => some m.2) from
    h members (List.Subset.refl _)
  intro part hpart
  induction part with
  | nil => rfl
  | cons m part ih =>
    obtain ⟨hm, hpart⟩ := List.cons_subset.1 hpart
    rw [List.map_cons, List.mapM_cons, member?_of_mem hkeys hm, ih hpart]
    rfl

section Object

variable {fields : List String} {values : List Json}

theorem objectFields?_zip (hfields : fields.Nodup) (hlength : fields.length = values.length) :
    objectFields? fields ((fields.zip values).map fun m => (escape m.1.toList, m.2)) =
      some (values.map some) := by
  have hkeys : (fields.zip values).map Prod.fst = fields := List.map_fst_zip hlength.le
  have hvalues : (fields.zip values).map (fun m => some m.2) = values.map some := by
    conv_rhs => rw [← List.map_snd_zip hlength.ge, List.map_map]
    rfl
  have hread := mapM_member? (hkeys.symm ▸ hfields)
  rw [hkeys, hvalues] at hread
  rw [objectFields?, readKeys?_escape]
  exact hread

/-- **The fields of a record are read as written.** -/
theorem fields?_object (hfields : fields.Nodup) (hlength : fields.length = values.length) :
    (object (fields.zip values)).fields? fields = some (values.map some) :=
  objectFields?_zip hfields hlength

theorem leadingFields?_object (hfields : fields.Nodup) (hlength : fields.length = values.length) :
    (object (fields.zip values)).leadingFields? fields = some (values.map some) :=
  objectFields?_zip hfields hlength

end Object

/-! ### Fields -/

theorem optional_ofOption {α : Type} {write : α → Json} {read : Json → Option α} {value : Option α}
    (hnull : ∀ a, write a ≠ .null) (h : ∀ a ∈ value, read (write a) = some a) :
    optional read (some (ofOption write value)) = some value := by
  cases value with
  | none => rfl
  | some a =>
    rw [ofOption, optional, h a rfl]
    · rfl
    · exact hnull a

theorem lt_of_optional {bound : ℕ} {field : Option Json} {value : Option ℕ}
    (h : optional (natBelow? bound) field = some value) : ∀ n ∈ value, n < bound := by
  unfold optional at h
  split at h
  · cases h
    simp
  · cases h
    simp
  · obtain ⟨n, hn, rfl⟩ := Option.map_eq_some_iff.1 h
    intro m hm
    cases hm
    exact lt_of_natBelow? hn

theorem lt_of_withDefault {default bound n : ℕ} {field : Option Json} (hdefault : default < bound)
    (h : withDefault default (natBelow? bound) field = some n) : n < bound := by
  cases field with
  | none =>
    cases h
    exact hdefault
  | some j => exact lt_of_natBelow? h

theorem mapM_required_ofNat {bound : ℕ} {values : List ℕ} (h : ∀ n ∈ values, n < bound) :
    ((values.map ofNat).map some).mapM (required (natBelow? bound)) = some values := by
  induction values with
  | nil => rfl
  | cons n values ih =>
    obtain ⟨hn, hvalues⟩ := List.forall_mem_cons.1 h
    rw [List.map_cons, List.map_cons, List.mapM_cons, ih hvalues, required, Option.bind_some,
      natBelow?_ofNat hn]
    rfl

theorem lt_of_mapM_required {bound : ℕ} {fields : List (Option Json)} {values : List ℕ}
    (h : fields.mapM (required (natBelow? bound)) = some values) : ∀ n ∈ values, n < bound := by
  induction fields generalizing values with
  | nil =>
    cases h
    simp
  | cons field fields ih =>
    simp only [List.mapM_cons, Option.bind_eq_bind, Option.bind_eq_some_iff] at h
    obtain ⟨n, hn, ns, hns, heq⟩ := h
    cases heq
    obtain ⟨j, -, hj⟩ := Option.bind_eq_some_iff.1 hn
    exact List.forall_mem_cons.2 ⟨lt_of_natBelow? hj, ih hns⟩

/-! ### Spelling -/

theorem spelled_ofString (s : String) : (ofString s).Spelled := by
  simpa [Spelled, ofString, tokens, Token.Spelled] using spelling_escape s.toList

theorem spelled_ofNat (n : ℕ) : (ofNat n).Spelled := by
  simpa [Spelled, ofNat, tokens, Token.Spelled] using numeral_toDigits n

theorem spelled_bool (b : Bool) : (Json.bool b).Spelled := by
  simp [Spelled, tokens, Token.Spelled]

theorem spelled_ofOption {α : Type} {write : α → Json} (h : ∀ a, (write a).Spelled)
    (value : Option α) : (ofOption write value).Spelled := by
  cases value with
  | none => simp [ofOption, Spelled, tokens, Token.Spelled]
  | some a => exact h a

theorem spelled_memberTokens {members : List (String × Json)} (h : ∀ m ∈ members, m.2.Spelled) :
    ∀ token ∈ memberTokens (members.map fun m => (escape m.1.toList, m.2)), token.Spelled := by
  induction members with
  | nil => simp [memberTokens]
  | cons m members ih =>
    obtain ⟨hm, hmembers⟩ := List.forall_mem_cons.1 h
    have hkey : (Token.str (escape m.1.toList)).Spelled := spelling_escape m.1.toList
    have hrest := ih hmembers
    cases members with
    | nil => exact List.forall_mem_cons.2 ⟨hkey, List.forall_mem_cons.2 ⟨trivial, hm⟩⟩
    | cons m' members =>
      rw [List.map_cons, memberTokens]
      · exact List.forall_mem_cons.2 ⟨hkey, List.forall_mem_cons.2 ⟨trivial,
          List.forall_mem_append.2 ⟨hm, List.forall_mem_cons.2 ⟨trivial, hrest⟩⟩⟩⟩
      · simp

theorem spelled_object {fields : List String} {values : List Json}
    (h : ∀ value ∈ values, value.Spelled) : (object (fields.zip values)).Spelled := by
  have hmembers := spelled_memberTokens fun m (hm : m ∈ fields.zip values) =>
    h m.2 (List.of_mem_zip hm).2
  exact List.forall_mem_cons.2 ⟨trivial, List.forall_mem_append.2 ⟨hmembers,
    List.forall_mem_cons.2 ⟨trivial, List.forall_mem_nil _⟩⟩⟩

end Json

/-! ### Roles -/

theorem Role.ofJson?_toJson (r : Role) : Role.ofJson? r.toJson = some r := by
  have hkey : Role.ofKey? r.key = some r := by
    cases r <;> decide
  show (Json.ofString r.key).string?.bind Role.ofKey? = some r
  rw [Json.string?_ofString, Option.bind_some, hkey]

/-! ### Callables -/

/-- The distances fit 32 bits. -/
def Callable.Fits (c : Callable) : Prop :=
  (∀ d ∈ c.fromEntry, d < UInt32.size) ∧ ∀ d ∈ c.toSink, d < UInt32.size

theorem Callable.ofJson?_toJson {c : Callable} (h : c.Fits) :
    Callable.ofJson? c.toJson = some c := by
  have hfields : c.toJson.fields? Callable.fields = some (c.values.map some) :=
    Json.fields?_object (by decide) rfl
  have hclass : optional Json.string? (some (.ofOption .ofString c.className)) = some c.className :=
    Json.optional_ofOption (fun _ => by simp [Json.ofString]) fun s _ => Json.string?_ofString s
  have hdistance : ∀ value : Option ℕ, (∀ d ∈ value, d < UInt32.size) →
      optional (Json.natBelow? UInt32.size) (some (.ofOption .ofNat value)) = some value :=
    fun value hvalue => Json.optional_ofOption (fun _ => by simp [Json.ofNat]) fun d hd =>
      Json.natBelow?_ofNat (hvalue d hd)
  rw [Callable.ofJson?, hfields]
  simp [Callable.values, required, hclass, hdistance _ h.1, hdistance _ h.2, Json.bool?,
    Role.ofJson?_toJson]

theorem Callable.fits_of_ofJson? {j : Json} {c : Callable} (h : Callable.ofJson? j = some c) :
    c.Fits := by
  simp only [Callable.ofJson?, Option.bind_eq_bind, Option.bind_eq_some_iff] at h
  obtain ⟨fields, -, h⟩ := h
  split at h
  · simp only [Option.bind_eq_some_iff] at h
    obtain ⟨_, -, _, -, _, -, _, -, _, -, _, -, _, -, _, -, _, -, _, hentry, _, hsink, h⟩ := h
    cases h
    exact ⟨Json.lt_of_optional hentry, Json.lt_of_optional hsink⟩
  · cases h

theorem Callable.spelled_toJson (c : Callable) : c.toJson.Spelled := by
  refine Json.spelled_object ?_
  simp only [Callable.values, List.forall_mem_cons, Role.toJson]
  simp [Json.spelled_ofString, Json.spelled_ofNat, Json.spelled_bool, Json.spelled_ofOption]

/-! ### Calls -/

theorem Call.ofJson?_toJson (c : Call) : Call.ofJson? c.toJson = some c := by
  have hfields : c.toJson.fields? Call.fields = some (c.values.map some) :=
    Json.fields?_object (by decide) rfl
  rw [Call.ofJson?, hfields]
  simp [Call.values, required, Json.bool?]

theorem Call.spelled_toJson (c : Call) : c.toJson.Spelled := by
  refine Json.spelled_object ?_
  simp [Call.values, Json.spelled_ofString, Json.spelled_ofNat, Json.spelled_bool]

/-! ### Limits -/

/-- The limits fit 64 bits. -/
def Limits.Fits (l : Limits) : Prop :=
  l.maxPathLength < UInt64.size ∧ l.maxDistances < UInt64.size ∧ l.maxPaths < UInt64.size

theorem Limits.ofJson?_toJson {l : Limits} (h : l.Fits) : Limits.ofJson? l.toJson = some l := by
  have hfields : l.toJson.leadingFields? Limits.fields = some (l.values.map some) :=
    Json.leadingFields?_object (by decide) rfl
  obtain ⟨hlength, hdistances, hpaths⟩ := h
  rw [Limits.ofJson?, hfields]
  simp [Limits.values, withDefault, Json.natBelow?_ofNat, hlength, hdistances, hpaths]

theorem Limits.fits_of_ofJson? {j : Json} {l : Limits} (h : Limits.ofJson? j = some l) :
    l.Fits := by
  simp only [Limits.ofJson?, Option.bind_eq_bind, Option.bind_eq_some_iff] at h
  obtain ⟨fields, -, h⟩ := h
  split at h
  · simp only [Option.bind_eq_some_iff] at h
    obtain ⟨_, hlength, _, hdistances, _, hpaths, h⟩ := h
    cases h
    exact ⟨Json.lt_of_withDefault (by decide) hlength,
      Json.lt_of_withDefault (by decide) hdistances, Json.lt_of_withDefault (by decide) hpaths⟩
  · cases h

theorem Limits.spelled_toJson (l : Limits) : l.toJson.Spelled := by
  refine Json.spelled_object ?_
  simp [Limits.values, Json.spelled_ofNat]

/-! ### Counts -/

/-- The counts fit 64 bits. -/
def Census.Fits (c : Census) : Prop :=
  ∀ n ∈ [c.callables, c.calls, c.entryPoints, c.sources, c.sinks, c.reachable, c.cached, c.hits,
    c.misses], n < UInt64.size

theorem Census.ofJson?_toJson {c : Census} (h : c.Fits) : Census.ofJson? c.toJson = some c := by
  have hfields : c.toJson.fields? Census.fields = some (c.values.map some) :=
    Json.fields?_object (by decide) rfl
  rw [Census.ofJson?, hfields, Option.bind_eq_bind, Option.bind_some, Census.values,
    Json.mapM_required_ofNat h]
  rfl

theorem Census.fits_of_ofJson? {j : Json} {c : Census} (h : Census.ofJson? j = some c) :
    c.Fits := by
  simp only [Census.ofJson?, Option.bind_eq_bind, Option.bind_eq_some_iff] at h
  obtain ⟨fields, -, counts, hcounts, h⟩ := h
  split at h
  · cases h
    exact Json.lt_of_mapM_required hcounts
  · cases h

theorem Census.spelled_toJson (c : Census) : c.toJson.Spelled := by
  refine Json.spelled_object ?_
  simp [Census.values, Json.spelled_ofNat]

/-! ### From text to text -/

namespace Json

variable {α : Type}

/-- What it is for a type to come back from its text. -/
structure RoundTrips (read : Json → Option α) (write : α → Json) (fits : α → Prop) : Prop where
  /-- What fits is read from the text written for it. -/
  reads_back : ∀ a, fits a → (parse? (write a).render).bind read = some a
  /-- What is read from any text fits. -/
  fits_of_read : ∀ text a, (parse? text).bind read = some a → fits a
  /-- What is read from any text is read again from the text written for it. -/
  reads_again : ∀ text a, (parse? text).bind read = some a →
    (parse? (write a).render).bind read = some a

theorem RoundTrips.intro {read : Json → Option α} {write : α → Json} {fits : α → Prop}
    (hread : ∀ a, fits a → read (write a) = some a) (hfits : ∀ j a, read j = some a → fits a)
    (hspelled : ∀ a, (write a).Spelled) : RoundTrips read write fits := by
  have hback : ∀ a, fits a → (parse? (write a).render).bind read = some a := by
    intro a ha
    rw [parse?_render (hspelled a), Option.bind_some, hread a ha]
  have hfit : ∀ text a, (parse? text).bind read = some a → fits a := by
    intro text a h
    obtain ⟨j, -, hj⟩ := Option.bind_eq_some_iff.1 h
    exact hfits j a hj
  exact ⟨hback, hfit, fun text a h => hback a (hfit text a h)⟩

end Json

/-- **Values come back from their text.** A callable or census or limits whose numbers are in
range, and every call and role, is read from the text written for it, whatever characters its
texts hold. All that is read from any text is in range, so it is read again from the text
written for it. -/
theorem json_round_trip :
    Json.RoundTrips Callable.ofJson? Callable.toJson Callable.Fits ∧
    Json.RoundTrips Call.ofJson? Call.toJson (fun _ => True) ∧
    Json.RoundTrips Role.ofJson? Role.toJson (fun _ => True) ∧
    Json.RoundTrips Limits.ofJson? Limits.toJson Limits.Fits ∧
    Json.RoundTrips Census.ofJson? Census.toJson Census.Fits := by
  refine ⟨?_, ?_, ?_, ?_, ?_⟩
  · exact .intro (fun _ => Callable.ofJson?_toJson) (fun _ _ => Callable.fits_of_ofJson?)
      Callable.spelled_toJson
  · exact .intro (fun c _ => c.ofJson?_toJson) (fun _ _ _ => trivial) Call.spelled_toJson
  · exact .intro (fun r _ => r.ofJson?_toJson) (fun _ _ _ => trivial)
      fun r => Json.spelled_ofString r.key
  · exact .intro (fun _ => Limits.ofJson?_toJson) (fun _ _ => Limits.fits_of_ofJson?)
      Limits.spelled_toJson
  · exact .intro (fun _ => Census.ofJson?_toJson) (fun _ _ => Census.fits_of_ofJson?)
      Census.spelled_toJson

/-- A quote, a backslash, control characters and a character beyond 16 bits, with the largest
distance and the largest limit; and limits written as an array that leaves the last one out. -/
theorem json_round_trip_hard :
    (∃ c : Callable, c.name = "\"\\\n\x01\x7f😀" ∧ c.toSink = some (UInt32.size - 1) ∧ c.Fits ∧
      (Json.parse? c.toJson.render).bind Callable.ofJson? = some c) ∧
    (∃ l : Limits, l.maxPaths = UInt64.size - 1 ∧ l.Fits ∧
      (Json.parse? l.toJson.render).bind Limits.ofJson? = some l) ∧
    (∃ l : Limits, (Json.parse? " [7, 0] ").bind Limits.ofJson? = some l ∧ l.maxPaths = 10000 ∧
      (Json.parse? l.toJson.render).bind Limits.ofJson? = some l) := by
  obtain ⟨hcallable, -, -, hlimits, -⟩ := json_round_trip
  refine ⟨?_, ?_, ?_⟩
  · have hfits : Callable.Fits
        { id := "f", name := "\"\\\n\x01\x7f😀", toSink := some (UInt32.size - 1) } := by
      simp [Callable.Fits]
    exact ⟨_, rfl, rfl, hfits, hcallable.reads_back _ hfits⟩
  · have hfits : Limits.Fits { maxPaths := UInt64.size - 1 } :=
      ⟨by decide, by decide, by decide⟩
    exact ⟨_, rfl, hfits, hlimits.reads_back _ hfits⟩
  · have hread : (Json.parse? " [7, 0] ").bind Limits.ofJson? =
        some { maxPathLength := 7, maxDistances := 0 } := by
      decide
    exact ⟨_, hread, rfl, hlimits.reads_again _ _ hread⟩

end TaintGraph
