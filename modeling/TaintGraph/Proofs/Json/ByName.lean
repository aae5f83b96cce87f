/-
# Callables, calls, limits and counts are read by the names of their fields

A reader of fields does not ask how a text is spelled (`Json.Respects`). So whatever stands for a
field is read as the value written for it, and nothing in place of a spare one as well
(`Json.required_of_stands`, `Json.optional_of_stands`, `Json.withDefault_of_stands`). Where
nothing stands for a field that is required, nothing is read (`Json.required_none`). Hence each of the four types has a lawful reader, and is read by the names of its fields
(`records_read_by_name`).

Key definitions: `Json.Respects`, `Callable.format`, `Call.format`, `Limits.format`,
`Census.format`.
Key theorems: `Callable.lawful`, `Call.lawful`, `Limits.lawful`, `Census.lawful`,
`records_read_by_name`.
-/
import TaintGraph.Proofs.Json.Members
import TaintGraph.Proofs.Json.RoundTrip

namespace TaintGraph

open Json (required optional withDefault)

namespace Json

/-! ### Readers of fields -/

/-- The reader does not ask how a text is spelled. -/
def Respects {β : Type} (read : Json → Option β) : Prop :=
  ∀ j j', Alike j j' → read j = read j'

/-- Only texts can be alike without being the same. -/
theorem Alike.cases {j j' : Json} (h : Alike j j') :
    j = j' ∨ ∃ spelling spelling', j = .str spelling ∧ j' = .str spelling' ∧
      unescape spelling = unescape spelling' := by
  unfold Alike at h
  split at h
  · exact .inr ⟨_, _, rfl, rfl, h⟩
  · exact .inl h

theorem respects_string? : Respects string? := by
  intro j j' h
  rcases h.cases with rfl | ⟨spelling, spelling', rfl, rfl, heq⟩
  · rfl
  · rw [string?, string?, heq]

theorem respects_bool? : Respects bool? := by
  intro j j' h
  rcases h.cases with rfl | ⟨spelling, spelling', rfl, rfl, -⟩ <;> rfl

theorem respects_natBelow? (bound : ℕ) : Respects (natBelow? bound) := by
  intro j j' h
  rcases h.cases with rfl | ⟨spelling, spelling', rfl, rfl, -⟩ <;> rfl

theorem respects_word32? : Respects word32? := by
  intro j j' h
  rw [word32?, word32?, respects_natBelow? _ j j' h]

theorem bind_eq_some {α β : Type} {x : Option α} {f : α → Option β} {a : α} {b : β}
    (hx : x = some a) (hf : f a = some b) : (x >>= f) = some b := by
  rw [hx]
  exact hf

section Stands

variable {α β : Type} {F : Format α} {key : String} {field : Option Json} {read : Json → Option β}

theorem required_of_stands {value : Json} (hread : Respects read) (h : F.Stands (key, value) field)
    (hnever : key ∉ F.spare.map Prod.fst) : required read field = read value := by
  cases h with
  | given halike => exact hread _ _ halike
  | spared hmem => exact absurd (List.mem_map_of_mem hmem) hnever

theorem required_string {s : String} (h : F.Stands (key, ofString s) field)
    (hnever : key ∉ F.spare.map Prod.fst) : required string? field = some s :=
  (required_of_stands respects_string? h hnever).trans (string?_ofString s)

theorem required_word32 {n : UInt32} (h : F.Stands (key, ofNat n.toNat) field)
    (hnever : key ∉ F.spare.map Prod.fst) : required word32? field = some n :=
  (required_of_stands respects_word32? h hnever).trans (word32?_ofNat n)

theorem required_bool {b : Bool} (h : F.Stands (key, .bool b) field)
    (hnever : key ∉ F.spare.map Prod.fst) : required bool? field = some b :=
  required_of_stands respects_bool? h hnever

theorem optional_of_stands {write : β → Json} {value : Option β} (hread : Respects read)
    (h : F.Stands (key, ofOption write value) field) (hspare : ∀ n ∈ F.spare, n.2 = .null)
    (hnull : ∀ a, write a ≠ .null) (hwritten : ∀ a ∈ value, read (write a) = some a) :
    optional read field = some value := by
  have hback := optional_ofOption hnull hwritten
  cases h with
  | given halike =>
    rcases halike.cases with rfl | ⟨spelling, spelling', rfl, hvalue, -⟩
    · exact hback
    · -- A text is not null, however it is spelled, so the reader decides.
      have hvalue : ofOption write value = .str spelling' := hvalue
      have hsame : read (.str spelling) = read (ofOption write value) := hread _ _ halike
      rw [hvalue] at hback hsame
      simp only [optional, hsame] at hback ⊢
      exact hback
  | spared hmem =>
    have hvalue : ofOption write value = .null := hspare _ hmem
    rw [hvalue] at hback
    exact hback

theorem withDefault_of_stands {value : Json} (hread : Respects read)
    (h : F.Stands (key, value) field) {default : β}
    (hspare : (key, value) ∈ F.spare → read value = some default) :
    withDefault default read field = read value := by
  cases h with
  | given halike => exact hread _ _ halike
  | spared hmem => exact (hspare hmem).symm

theorem mapM_required_of_stands (hread : Respects read) (hspare : F.spare = [])
    {members : List (String × Json)} {found : List (Option Json)}
    (h : List.Forall₂ F.Stands members found) :
    found.mapM (required read) = (members.map fun n => some n.2).mapM (required read) := by
  have hnever : ∀ name : String, name ∉ F.spare.map Prod.fst := by simp [hspare]
  induction h with
  | nil => rfl
  | @cons n field members found hstands _ ih =>
    rw [List.map_cons, List.mapM_cons, List.mapM_cons, ih,
      required_of_stands hread hstands (hnever _)]
    rfl

@[simp]
theorem required_none (read : Json → Option β) : required read none = none := rfl

end Stands

section Lists

variable {α : Type} {F : Format α} {j : Json} {found : List (Option Json)}

theorem Format.Lists.fields? (h : F.Lists j found) : j.fields? F.fields = some found := by
  cases h with
  | obj h => exact h
  | arr h => rw [Json.fields?, if_pos h]

theorem Format.Lists.leadingFields? (h : F.Lists j found) :
    j.leadingFields? F.fields = some found := by
  cases h with
  | obj h => exact h
  | arr h => rw [Json.leadingFields?, if_pos h.le, h, Nat.sub_self, List.replicate_zero,
      List.append_nil]

end Lists

end Json

/-! ### Callables -/

theorem Role.respects_ofJson? : Json.Respects Role.ofJson? := by
  intro j j' h
  rcases h.cases with rfl | ⟨spelling, spelling', rfl, rfl, -⟩
  · rfl
  · have hstring := Json.respects_string? _ _ h
    show (Json.str spelling).string?.bind Role.ofKey? =
      (Json.str spelling').string?.bind Role.ofKey?
    rw [hstring]

/-- The class and the distances may be left out where there are none. -/
def Callable.format : Json.Format Callable where
  fields := Callable.fields
  values := Callable.values
  spare := [("class_name", .null), ("distance_from_entry", .null), ("distance_to_sink", .null)]
  fits := Callable.Fits
  read := Callable.ofJson?

theorem Callable.ofJson?_of_stands {c : Callable} {j : Json} {found : List (Option Json)}
    (hfits : c.Fits) (hlists : Callable.format.Lists j found)
    (h : List.Forall₂ Callable.format.Stands (Callable.format.members c) found) :
    Callable.ofJson? j = some c := by
  have hmembers : Callable.format.members c =
      [("id", .ofString c.id), ("name", .ofString c.name), ("file_path", .ofString c.file),
        ("line", .ofNat c.line.toNat), ("language", .ofString c.language),
        ("class_name", .ofOption .ofString c.className), ("is_public", .bool c.isPublic),
        ("signature", .ofString c.signature), ("kind", c.role.toJson),
        ("distance_from_entry", .ofOption .ofNat c.fromEntry),
        ("distance_to_sink", .ofOption .ofNat c.toSink)] := rfl
  rw [hmembers] at h
  obtain _ | ⟨hid, _ | ⟨hname, _ | ⟨hfile, _ | ⟨hline, _ | ⟨hlanguage, _ | ⟨hclass, _ | ⟨hpublic,
    _ | ⟨hsignature, _ | ⟨hrole, _ | ⟨hentry, _ | ⟨hsink, _ | _⟩⟩⟩⟩⟩⟩⟩⟩⟩⟩⟩ := h
  have hspare : ∀ n ∈ Callable.format.spare, n.2 = .null := by simp [Callable.format]
  have hrole := (Json.required_of_stands Role.respects_ofJson? hrole (by decide)).trans
    (Role.ofJson?_toJson c.role)
  have hclass := Json.optional_of_stands Json.respects_string? hclass hspare
    (fun _ => by simp [Json.ofString]) fun s _ => Json.string?_ofString s
  have hentry := Json.optional_of_stands (Json.respects_natBelow? _) hentry hspare
    (fun _ => by simp [Json.ofNat]) fun d hd => Json.natBelow?_ofNat (hfits.1 d hd)
  have hsink := Json.optional_of_stands (Json.respects_natBelow? _) hsink hspare
    (fun _ => by simp [Json.ofNat]) fun d hd => Json.natBelow?_ofNat (hfits.2 d hd)
  have hfound : j.fields? Callable.fields = _ := hlists.fields?
  exact Json.bind_eq_some hfound <|
    Json.bind_eq_some (Json.required_string hid (by decide)) <|
    Json.bind_eq_some (Json.required_string hname (by decide)) <|
    Json.bind_eq_some (Json.required_string hfile (by decide)) <|
    Json.bind_eq_some (Json.required_word32 hline (by decide)) <|
    Json.bind_eq_some (Json.required_string hlanguage (by decide)) <|
    Json.bind_eq_some hclass <|
    Json.bind_eq_some (Json.required_bool hpublic (by decide)) <|
    Json.bind_eq_some (Json.required_string hsignature (by decide)) <|
    Json.bind_eq_some hrole <| Json.bind_eq_some hentry <| Json.bind_eq_some hsink rfl

theorem Callable.ofJson?_of_lacking {j : Json} {found : List (Option Json)} {field : String}
    (hlists : Callable.format.Lists j found) (h : (field, none) ∈ Callable.fields.zip found)
    (hnever : field ∉ Callable.format.spare.map Prod.fst) : Callable.ofJson? j = none := by
  have hfound : j.fields? Callable.fields = some found := hlists.fields?
  rw [Callable.ofJson?, hfound, Option.bind_eq_bind, Option.bind_some]
  split
  · simp only [Callable.fields, List.zip_cons_cons, List.zip_nil_right, List.mem_cons,
      List.not_mem_nil, Prod.mk.injEq, or_false] at h
    simp only [Callable.format, List.map_cons, List.map_nil, List.mem_cons, List.not_mem_nil,
      or_false] at hnever
    -- Whichever field is missing, it may be left out or reading stops there.
    rcases h with ⟨rfl, rfl⟩ | ⟨rfl, rfl⟩ | ⟨rfl, rfl⟩ | ⟨rfl, rfl⟩ | ⟨rfl, rfl⟩ | ⟨rfl, rfl⟩ |
      ⟨rfl, rfl⟩ | ⟨rfl, rfl⟩ | ⟨rfl, rfl⟩ | ⟨rfl, rfl⟩ | ⟨rfl, rfl⟩ <;> simp at hnever ⊢
  · rfl

theorem Callable.lawful : Callable.format.Lawful where
  nodup := by decide
  length_values _ := rfl
  accepts := Callable.ofJson?_of_stands
  refuses := Callable.ofJson?_of_lacking
  unlisted h := by
    show Callable.ofJson? _ = none
    rw [Callable.ofJson?, show Json.fields? Callable.fields (.obj _) = none from h]
    rfl

/-! ### Calls -/

/-- No field may be left out. -/
def Call.format : Json.Format Call where
  fields := Call.fields
  values := Call.values
  spare := []
  fits _ := True
  read := Call.ofJson?

theorem Call.ofJson?_of_stands {c : Call} {j : Json} {found : List (Option Json)}
    (hlists : Call.format.Lists j found)
    (h : List.Forall₂ Call.format.Stands (Call.format.members c) found) :
    Call.ofJson? j = some c := by
  have hmembers : Call.format.members c =
      [("caller_id", .ofString c.caller), ("callee_id", .ofString c.callee),
        ("file_path", .ofString c.file), ("line", .ofNat c.line.toNat),
        ("column", .ofNat c.column.toNat), ("argument_count", .ofNat c.arguments.toNat),
        ("is_conditional", .bool c.isConditional), ("in_loop", .bool c.inLoop),
        ("branch_depth", .ofNat c.branchDepth.toNat)] := rfl
  rw [hmembers] at h
  obtain _ | ⟨hcaller, _ | ⟨hcallee, _ | ⟨hfile, _ | ⟨hline, _ | ⟨hcolumn, _ | ⟨harguments,
    _ | ⟨hconditional, _ | ⟨hloop, _ | ⟨hdepth, _ | _⟩⟩⟩⟩⟩⟩⟩⟩⟩ := h
  have hfound : j.fields? Call.fields = _ := hlists.fields?
  exact Json.bind_eq_some hfound <|
    Json.bind_eq_some (Json.required_string hcaller (by decide)) <|
    Json.bind_eq_some (Json.required_string hcallee (by decide)) <|
    Json.bind_eq_some (Json.required_string hfile (by decide)) <|
    Json.bind_eq_some (Json.required_word32 hline (by decide)) <|
    Json.bind_eq_some (Json.required_word32 hcolumn (by decide)) <|
    Json.bind_eq_some (Json.required_word32 harguments (by decide)) <|
    Json.bind_eq_some (Json.required_bool hconditional (by decide)) <|
    Json.bind_eq_some (Json.required_bool hloop (by decide)) <|
    Json.bind_eq_some (Json.required_word32 hdepth (by decide)) rfl

theorem Call.ofJson?_of_lacking {j : Json} {found : List (Option Json)} {field : String}
    (hlists : Call.format.Lists j found) (h : (field, none) ∈ Call.fields.zip found) :
    Call.ofJson? j = none := by
  have hfound : j.fields? Call.fields = some found := hlists.fields?
  rw [Call.ofJson?, hfound, Option.bind_eq_bind, Option.bind_some]
  split
  · replace h := (List.of_mem_zip h).2
    simp only [List.mem_cons, List.not_mem_nil, or_false] at h
    rcases h with rfl | rfl | rfl | rfl | rfl | rfl | rfl | rfl | rfl <;> simp
  · rfl

theorem Call.lawful : Call.format.Lawful where
  nodup := by decide
  length_values _ := rfl
  accepts _ := Call.ofJson?_of_stands
  refuses hlists h _ := Call.ofJson?_of_lacking hlists h
  unlisted h := by
    show Call.ofJson? _ = none
    rw [Call.ofJson?, show Json.fields? Call.fields (.obj _) = none from h]
    rfl

/-! ### Limits -/

/-- Each limit may be left out where it is the default. -/
def Limits.format : Json.Format Limits where
  fields := Limits.fields
  values := Limits.values
  spare := Limits.fields.zip (Limits.values {})
  fits := Limits.Fits
  read := Limits.ofJson?

theorem Limits.withDefault_of_stands {key : String} {n d : ℕ} {field : Option Json}
    (h : Limits.format.Stands (key, .ofNat n) field) (hn : n < UInt64.size) (hd : d < UInt64.size)
    (hspare : (key, .ofNat n) ∈ Limits.format.spare → Json.ofNat n = .ofNat d) :
    withDefault d (Json.natBelow? UInt64.size) field = some n := by
  have hsame := Json.withDefault_of_stands (Json.respects_natBelow? UInt64.size) h fun hmem => by
    rw [hspare hmem]
    exact Json.natBelow?_ofNat hd
  exact hsame.trans (Json.natBelow?_ofNat hn)

theorem Limits.ofJson?_of_stands {l : Limits} {j : Json} {found : List (Option Json)}
    (hfits : l.Fits) (hlists : Limits.format.Lists j found)
    (h : List.Forall₂ Limits.format.Stands (Limits.format.members l) found) :
    Limits.ofJson? j = some l := by
  have hmembers : Limits.format.members l =
      [(Limit.key .pathLength, .ofNat l.maxPathLength),
        (Limit.key .distances, .ofNat l.maxDistances), (Limit.key .paths, .ofNat l.maxPaths)] := rfl
  rw [hmembers] at h
  obtain _ | ⟨hlength, _ | ⟨hdistances, _ | ⟨hpaths, _ | _⟩⟩⟩ := h
  have hspare : ∀ {key : String} {value : Json}, (key, value) ∈ Limits.format.spare →
      (key, value) ∈ [(Limit.key .pathLength, .ofNat 50), (Limit.key .distances, .ofNat 10000),
        (Limit.key .paths, .ofNat 10000)] := fun h => h
  have hlength := Limits.withDefault_of_stands hlength hfits.1 (d := 50) (by decide) fun hmem => by
    simpa [Limit.key] using hspare hmem
  have hdistances := Limits.withDefault_of_stands hdistances hfits.2.1 (d := 10000) (by decide)
    fun hmem => by simpa [Limit.key] using hspare hmem
  have hpaths := Limits.withDefault_of_stands hpaths hfits.2.2 (d := 10000) (by decide)
    fun hmem => by simpa [Limit.key] using hspare hmem
  have hfound : j.leadingFields? Limits.fields = _ := hlists.leadingFields?
  exact Json.bind_eq_some hfound <| Json.bind_eq_some hlength <|
    Json.bind_eq_some hdistances <| Json.bind_eq_some hpaths rfl

theorem Limits.lawful : Limits.format.Lawful where
  nodup := by decide
  length_values _ := rfl
  accepts := Limits.ofJson?_of_stands
  refuses _ h hnever := absurd (List.of_mem_zip h).1 hnever
  unlisted h := by
    show Limits.ofJson? _ = none
    rw [Limits.ofJson?, show Json.leadingFields? Limits.fields (.obj _) = none from h]
    rfl

/-! ### Counts -/

/-- No field may be left out. -/
def Census.format : Json.Format Census where
  fields := Census.fields
  values := Census.values
  spare := []
  fits := Census.Fits
  read := Census.ofJson?

theorem Census.ofJson?_of_stands {c : Census} {j : Json} {found : List (Option Json)}
    (hfits : c.Fits) (hlists : Census.format.Lists j found)
    (h : List.Forall₂ Census.format.Stands (Census.format.members c) found) :
    Census.ofJson? j = some c := by
  have hmembers : (Census.format.members c).map (fun n => some n.2) = c.values.map some := rfl
  have hread := Census.ofJson?_toJson hfits
  have hwritten : c.toJson.fields? Census.fields = some (c.values.map some) :=
    Json.fields?_object (by decide) rfl
  have hfound : j.fields? Census.fields = some found := hlists.fields?
  rw [Census.ofJson?, hwritten] at hread
  rw [Census.ofJson?, hfound, ← hread]
  simp only [Option.bind_eq_bind, Option.bind_some,
    Json.mapM_required_of_stands (Json.respects_natBelow? _) rfl h, hmembers]

theorem Census.ofJson?_of_lacking {j : Json} {found : List (Option Json)} {field : String}
    (hlists : Census.format.Lists j found) (h : (field, none) ∈ Census.fields.zip found) :
    Census.ofJson? j = none := by
  have hfound : j.fields? Census.fields = some found := hlists.fields?
  have hnone : found.mapM (required (Json.natBelow? UInt64.size)) = none :=
    Json.mapM_eq_none_of_mem (List.of_mem_zip h).2 rfl
  rw [Census.ofJson?, hfound, Option.bind_eq_bind, Option.bind_some, hnone]
  rfl

theorem Census.lawful : Census.format.Lawful where
  nodup := by decide
  length_values _ := rfl
  accepts := Census.ofJson?_of_stands
  refuses hlists h _ := Census.ofJson?_of_lacking hlists h
  unlisted h := by
    show Census.ofJson? _ = none
    rw [Census.ofJson?, show Json.fields? Census.fields (.obj _) = none from h]
    rfl

/-! ### All four types -/

/-- **Records are read by the names of their fields.** A callable, call, census or limits whose
numbers are in range is read from every text of an object with its fields, in any order, with any
other members among them and white space around every token; a class or distance that there is
not, and a limit equal to its default, may be left out. It is read from the array of its fields
as well. An object with a field given twice is refused, and so is one without a field that may
not be left out. -/
theorem records_read_by_name :
    Callable.format.ReadsByName ∧ Call.format.ReadsByName ∧ Limits.format.ReadsByName ∧
      Census.format.ReadsByName :=
  ⟨Callable.lawful.readsByName, Call.lawful.readsByName, Limits.lawful.readsByName,
    Census.lawful.readsByName⟩

/-- One limit among white space and a member of no field, with an escape in its key; the same key
twice, spelled in two ways; and an object without any field of a call. -/
theorem records_read_by_name_spaced :
    (Json.parse? "\x7b\t\"note\" : [1.5e3, \x7b\x7d],\n\"max\\u005fpaths\":7 \x7d\n").bind
      Limits.ofJson? = some { maxPaths := 7 } ∧
    (Json.parse? "\x7b\"max_paths\":7,\"max\\u005fpaths\":7\x7d").bind Limits.ofJson? = none ∧
    (Json.parse? "\x7b\x7d").bind Call.ofJson? = none := by
  obtain ⟨-, hcall, hlimits, -⟩ := records_read_by_name
  have hnote : Json.Characters "note".toList := Json.characters_of_plain (by simp)
  have hpaths : Json.Characters "max_paths".toList := Json.characters_of_plain (by simp)
  have hescaped : Json.Characters "max\\u005fpaths".toList := by
    have hbefore : Json.Characters "max".toList := Json.characters_of_plain (by simp)
    have hcode : Json.Characters ['\\', 'u', '0', '0', '5', 'f'] := .code (by simp) .nil
    have hafter : Json.Characters "paths".toList := Json.characters_of_plain (by simp)
    exact hbefore.append (hcode.append hafter)
  have hseven : Json.IsNumber ['7'] :=
    ⟨[], by decide, ['7'], [], [], .inr ⟨⟨by decide, by simp⟩, by decide⟩, .inl rfl, .inl rfl,
      rfl⟩
  have hthousands : Json.IsNumber "1.5e3".toList :=
    ⟨[], by decide, ['1'], ['.', '5'], ['e', '3'], .inr ⟨⟨by decide, by simp⟩, by decide⟩,
      .inr ⟨['5'], ⟨by decide, by simp⟩, rfl⟩,
      .inr ⟨'e', by decide, [], by decide, ['3'], ⟨by decide, by simp⟩, rfl⟩, rfl⟩
  refine ⟨?_, ?_, ?_⟩
  · refine hlimits.object { maxPaths := 7 }
      [("note".toList, .arr [.num "1.5e3".toList, .obj []]), ("max\\u005fpaths".toList, .ofNat 7)] _
      ⟨by decide, by decide, by decide⟩ ?_ ⟨?_, ?_⟩
    · refine ⟨[(Limit.key .paths, .ofNat 7)], [("max\\u005fpaths".toList, .ofNat 7)],
        [("note".toList, .arr [.num "1.5e3".toList, .obj []])], ?_, ?_, ?_, ?_, ?_⟩
      · exact .cons _ (.cons _ (.cons_cons _ .slnil))
      · simp [Json.Format.members, Limits.format, Limits.fields, Limits.values]
      · exact .cons ⟨by decide +kernel, rfl⟩ .nil
      · exact List.forall_mem_singleton.2 ⟨"note".toList, by decide, by decide⟩
      · exact .swap _ _ []
    · simpa [Json.Valid, Json.tokens, Json.itemTokens, Json.memberTokens, Json.Token.Valid,
        Json.ofNat] using ⟨hnote, hthousands, hescaped, hseven⟩
    · refine ⟨[([], .openBrace), (['\t'], .str "note".toList), ([' '], .colon),
        ([' '], .openBracket), ([], .num "1.5e3".toList), ([], .comma), ([' '], .openBrace),
        ([], .closeBrace), ([], .closeBracket), ([], .comma),
        (['\n'], .str "max\\u005fpaths".toList), ([], .colon), ([], .num ['7']),
        ([' '], .closeBrace)], ['\n'], rfl, by simp [Json.Token.isSpace],
        by simp [Json.Token.isSpace], by decide⟩
  · refine hlimits.twice "max_paths" (by decide)
      [("max_paths".toList, .ofNat 7), ("max\\u005fpaths".toList, .ofNat 7)] _
      (by decide +kernel) ⟨?_, ?_⟩
    · simpa [Json.Valid, Json.tokens, Json.memberTokens, Json.Token.Valid, Json.ofNat] using
        ⟨hpaths, hseven, hescaped, hseven⟩
    · exact ⟨[([], .openBrace), ([], .str "max_paths".toList), ([], .colon), ([], .num ['7']),
        ([], .comma), ([], .str "max\\u005fpaths".toList), ([], .colon), ([], .num ['7']),
        ([], .closeBrace)], [], rfl, by simp, by simp, by decide⟩
  · refine hcall.lacking "caller_id" (by decide) (by decide) [] _ (by simp) ⟨?_, ?_⟩
    · simp [Json.Valid, Json.tokens, Json.memberTokens, Json.Token.Valid]
    · exact ⟨[([], .openBrace), ([], .closeBrace)], [], rfl, by simp, by simp, by decide⟩

end TaintGraph
