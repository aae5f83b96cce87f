/-
# Records are read by the names of their fields

Of an object only the values of each key matter (`Json.valuesOf`): one value or none is what the
field has, and two are refused. So the order of members has no part in reading, and neither have
members whose keys are no fields (`Json.objectFields?_of_gives`).

A format says how a type stands as a record: its fields, their values, the members that say no
more than their absence, and the reader. Four facts about the reader alone (`Json.Format.Lawful`)
make it read every text of a record by the names of its fields
(`Json.Format.Lawful.readsByName`).

Key definitions: `Json.valuesOf`, `Json.Alike`, `Json.Format`, `Json.Format.Gives`,
`Json.Format.ReadsByName`, `Json.Format.Lawful`.
Key theorems: `Json.objectFields?_eq`, `Json.objectFields?_of_gives`,
`Json.Format.Lawful.readsByName`.
-/
import Mathlib.Data.List.Forall2
import Mathlib.Data.List.Nodup
import TaintGraph.Json.Record
import TaintGraph.Proofs.Json.Grammar

namespace TaintGraph
namespace Json

/-! ### Lists of answers -/

section MapM

variable {α β : Type} {g : α → Option β} {l : List α}

theorem mapM_eq_none_of_mem {x : α} (hx : x ∈ l) (h : g x = none) : l.mapM g = none := by
  induction l with
  | nil => cases hx
  | cons y l ih =>
    rcases List.mem_cons.1 hx with rfl | hx
    · rw [List.mapM_cons, h]
      rfl
    · rw [List.mapM_cons, ih hx]
      cases g y <;> rfl

theorem exists_mapM {R : α → β → Prop} (h : ∀ x ∈ l, ∃ y, g x = some y ∧ R x y) :
    ∃ ys, l.mapM g = some ys ∧ List.Forall₂ R l ys := by
  induction l with
  | nil => exact ⟨[], rfl, .nil⟩
  | cons x l ih =>
    obtain ⟨⟨y, hy, hxy⟩, hl⟩ := List.forall_mem_cons.1 h
    obtain ⟨ys, hys, hall⟩ := ih hl
    refine ⟨y :: ys, ?_, .cons hxy hall⟩
    rw [List.mapM_cons, hy, hys]
    rfl

theorem mem_zip_of_mapM {ys : List β} (h : l.mapM g = some ys) {x : α} (hx : x ∈ l) :
    ∃ y, g x = some y ∧ (x, y) ∈ l.zip ys := by
  induction l generalizing ys with
  | nil => cases hx
  | cons x' l ih =>
    simp only [List.mapM_cons, Option.bind_eq_bind, Option.bind_eq_some_iff] at h
    obtain ⟨y', hy', ys', hys', heq⟩ := h
    cases heq
    rcases List.mem_cons.1 hx with rfl | hx
    · exact ⟨y', hy', List.mem_cons_self⟩
    · obtain ⟨y, hy, hmem⟩ := ih hys' hx
      exact ⟨y, hy, List.mem_cons_of_mem _ hmem⟩

end MapM

/-! ### The values of a key -/

/-- The values of the members with a key, however it is spelled. -/
def valuesOf (members : List (List Char × Json)) (key : String) : List Json :=
  (members.filter fun m => unescape m.1 = some key.toList).map Prod.snd

/-- What a field has: one value or none, but not more. -/
def single : List Json → Option (Option Json)
  | [] => some none
  | [j] => some (some j)
  | _ => none

section Values

variable {members members' : List (List Char × Json)} {named : List (String × Json)} {key : String}

theorem single_eq_none {values : List Json} (h : 2 ≤ values.length) : single values = none := by
  match values with
  | [] => simp at h
  | [_] => simp at h
  | _ :: _ :: _ => rfl

theorem valuesOf_append (members members' : List (List Char × Json)) (key : String) :
    valuesOf (members ++ members') key = valuesOf members key ++ valuesOf members' key := by
  simp [valuesOf]

theorem valuesOf_perm (h : members.Perm members') (key : String) :
    (valuesOf members key).Perm (valuesOf members' key) :=
  (h.filter _).map _

theorem valuesOf_eq_nil (h : ∀ m ∈ members, unescape m.1 ≠ some key.toList) :
    valuesOf members key = [] := by
  have hfilter : members.filter (fun m => unescape m.1 = some key.toList) = [] := by
    rw [List.filter_eq_nil_iff]
    exact fun m hm hkey => h m hm (of_decide_eq_true hkey)
  rw [valuesOf, hfilter, List.map_nil]

theorem length_valuesOf (members : List (List Char × Json)) (key : String) :
    (valuesOf members key).length = members.countP fun m => unescape m.1 = some key.toList := by
  rw [valuesOf, List.length_map, List.countP_eq_length_filter]

/-- Keys that are read have the same values. -/
theorem map_filter_readKeys? (h : readKeys? members = some named) (key : String) :
    (named.filter fun m => m.1 = key).map Prod.snd = valuesOf members key := by
  induction members generalizing named with
  | nil =>
    cases h
    rfl
  | cons m members ih =>
    simp only [readKeys?, List.mapM_cons, Option.bind_eq_bind, Option.bind_eq_some_iff,
      Option.map_eq_some_iff] at h
    obtain ⟨n, ⟨text, htext, rfl⟩, named', hnamed, heq⟩ := h
    cases heq
    have hkey : String.ofList text = key ↔ unescape m.1 = some key.toList := by
      rw [htext, Option.some.injEq, ← String.toList_inj, String.toList_ofList]
    have hrest := ih hnamed
    unfold valuesOf at hrest ⊢
    by_cases hm : String.ofList text = key
    · rw [List.filter_cons_of_pos (by simpa using hm),
        List.filter_cons_of_pos (by simpa using hkey.1 hm), List.map_cons, List.map_cons, hrest]
    · rw [List.filter_cons_of_neg (by simpa using hm),
        List.filter_cons_of_neg (by simpa using mt hkey.2 hm), hrest]

theorem member?_eq (h : readKeys? members = some named) (key : String) :
    member? named key = single (valuesOf members key) := by
  rw [member?, ← map_filter_readKeys? h]
  generalize named.filter (fun m => m.1 = key) = found
  rcases found with _ | ⟨m, _ | ⟨m', rest⟩⟩ <;> rfl

theorem exists_readKeys? (h : ∀ m ∈ members, ∃ text, unescape m.1 = some text) :
    ∃ named, readKeys? members = some named := by
  have hread : ∃ named, readKeys? members = some named ∧
      List.Forall₂ (fun _ _ => True) members named := exists_mapM fun m hm => by
    obtain ⟨text, htext⟩ := h m hm
    exact ⟨(String.ofList text, m.2), by rw [htext]; rfl, trivial⟩
  exact hread.imp fun _ hnamed => hnamed.1

/-- **Only the values of each field matter**, once all keys can be read. -/
theorem objectFields?_eq (h : readKeys? members = some named) (fields : List String) :
    objectFields? fields members = fields.mapM fun field => single (valuesOf members field) := by
  have hmember : member? named = fun field => single (valuesOf members field) :=
    funext (member?_eq h)
  rw [objectFields?, h, ← hmember]
  rfl

theorem objectFields?_of_readKeys?_none (h : readKeys? members = none) (fields : List String) :
    objectFields? fields members = none := by
  rw [objectFields?, h]
  rfl

end Values

/-! ### Formats -/

/-- The same value, where a text may be spelled in another way. -/
def Alike : Json → Json → Prop
  | .str spelling, .str spelling' => unescape spelling = unescape spelling'
  | j, j' => j = j'

/-- How a type stands as a record. -/
structure Format (α : Type) where
  /-- The names of its fields. -/
  fields : List String
  /-- The values of these fields, in the same order. -/
  values : α → List Json
  /-- The members that say no more than their absence. -/
  spare : List (String × Json)
  /-- The numbers in it are in range. -/
  fits : α → Prop
  /-- Read it. -/
  read : Json → Option α

namespace Format

variable {α : Type} (F : Format α)

/-- Its fields with their values. -/
def members (a : α) : List (String × Json) :=
  F.fields.zip (F.values a)

/-- The member of an object is a field with its value, each text spelled in any way. -/
def Spells (m : List Char × Json) (n : String × Json) : Prop :=
  unescape m.1 = some n.1.toList ∧ Alike m.2 n.2

/-- The key of the member is the name of no field. -/
def Foreign (m : List Char × Json) : Prop :=
  ∃ key, unescape m.1 = some key ∧ String.ofList key ∉ F.fields

/-- The members of an object give a value: its fields, of which spare ones may be left out, and
members with other keys, all in any order. -/
def Gives (a : α) (members : List (List Char × Json)) : Prop :=
  ∃ kept own others, kept.Sublist (F.members a) ∧ (∀ n ∈ F.members a, n ∉ kept → n ∈ F.spare) ∧
    List.Forall₂ Spells own kept ∧ (∀ m ∈ others, F.Foreign m) ∧ members.Perm (own ++ others)

/-- What it is for a type to be read by the names of its fields. -/
structure ReadsByName : Prop where
  /-- An object is read that gives a value, in whatever order and with whatever else in it. -/
  object : ∀ a members text, F.fits a → F.Gives a members → (Json.obj members).Written text →
    (parse? text).bind F.read = some a
  /-- An array of all fields in their order is read. -/
  array : ∀ a items text, F.fits a → List.Forall₂ Alike items (F.values a) →
    (Json.arr items).Written text → (parse? text).bind F.read = some a
  /-- An object with a field given twice is refused, whatever else is in it. -/
  twice : ∀ field ∈ F.fields, ∀ members text,
    2 ≤ members.countP (fun m => unescape m.1 = some field.toList) →
    (Json.obj members).Written text → (parse? text).bind F.read = none
  /-- An object without a field that is never spare is refused, whatever else is in it. -/
  lacking : ∀ field ∈ F.fields, field ∉ F.spare.map Prod.fst → ∀ members text,
    (∀ m ∈ members, unescape m.1 ≠ some field.toList) →
    (Json.obj members).Written text → (parse? text).bind F.read = none

/-! ### Readers -/

/-- What a field is found to have stands for the member: its value, or nothing for a spare one. -/
inductive Stands : String × Json → Option Json → Prop
  | given {n : String × Json} {j : Json} (h : Alike j n.2) : Stands n (some j)
  | spared {n : String × Json} (h : n ∈ F.spare) : Stands n none

/-- A record lists what its fields have. -/
inductive Lists : Json → List (Option Json) → Prop
  | obj {members : List (List Char × Json)} {found : List (Option Json)}
    (h : objectFields? F.fields members = some found) : Lists (.obj members) found
  | arr {items : List Json} (h : items.length = F.fields.length) :
    Lists (.arr items) (items.map some)

/-- What a reader has to do. -/
structure Lawful : Prop where
  /-- No two fields have one name. -/
  nodup : F.fields.Nodup
  /-- There is a value for each field. -/
  length_values : ∀ a, F.fields.length = (F.values a).length
  /-- Values that stand for those of the fields are read. -/
  accepts : ∀ {a j found}, F.fits a → F.Lists j found → List.Forall₂ F.Stands (F.members a) found →
    F.read j = some a
  /-- A field that is never spare must have a value. -/
  refuses : ∀ {j found field}, F.Lists j found → (field, none) ∈ F.fields.zip found →
    field ∉ F.spare.map Prod.fst → F.read j = none
  /-- An object whose fields cannot be listed is refused. -/
  unlisted : ∀ {members}, objectFields? F.fields members = none → F.read (.obj members) = none

end Format

section Gives

variable {α : Type} {F : Format α} {a : α} {members : List (List Char × Json)}

theorem Format.Lawful.map_fst_members (h : F.Lawful) (a : α) :
    (F.members a).map Prod.fst = F.fields :=
  List.map_fst_zip (h.length_values a).le

/-- Among members with different keys each has its own value. -/
theorem valuesOf_of_spells {own : List (List Char × Json)} {kept : List (String × Json)}
    (h : List.Forall₂ Format.Spells own kept) (hkeys : (kept.map Prod.fst).Nodup) (key : String) :
    (key ∉ kept.map Prod.fst → valuesOf own key = []) ∧
    ∀ value, (key, value) ∈ kept → ∃ j, valuesOf own key = [j] ∧ Alike j value := by
  induction h with
  | nil => exact ⟨fun _ => rfl, fun _ hmem => by cases hmem⟩
  | @cons m n own kept hspells _ ih =>
    obtain ⟨hfresh, hrest⟩ := List.nodup_cons.1 hkeys
    obtain ⟨habsent, hpresent⟩ := ih hrest
    obtain ⟨hkey, hvalue⟩ := hspells
    have hiff : unescape m.1 = some key.toList ↔ n.1 = key := by
      rw [hkey, Option.some.injEq, String.toList_inj]
    have hother : n.1 ≠ key → valuesOf (m :: own) key = valuesOf own key := fun hne => by
      rw [valuesOf, List.filter_cons_of_neg (by simpa using mt hiff.1 hne), valuesOf]
    refine ⟨fun hmem => ?_, fun value hmem => ?_⟩
    · obtain ⟨hne, hmem⟩ := not_or.1 (mt List.mem_cons.2 hmem)
      rw [hother (Ne.symm hne), habsent hmem]
    · rcases List.mem_cons.1 hmem with rfl | hmem
      · refine ⟨m.2, ?_, hvalue⟩
        have hnone := habsent hfresh
        rw [valuesOf] at hnone
        rw [valuesOf, List.filter_cons_of_pos (by simpa using hiff.2 rfl), List.map_cons, hnone]
      · have hne : n.1 ≠ key := fun heq => hfresh (heq ▸ List.mem_map_of_mem hmem)
        rw [hother hne]
        exact hpresent value hmem

/-- What a field of an object that gives a value has stands for the value's own. -/
theorem Format.Gives.stands (hF : F.Lawful) (h : F.Gives a members) {n : String × Json}
    (hn : n ∈ F.members a) :
    ∃ found, single (valuesOf members n.1) = some found ∧ F.Stands n found := by
  obtain ⟨kept, own, others, hkept, hspare, hspells, hforeign, hperm⟩ := h
  have hnodup : ((F.members a).map Prod.fst).Nodup := hF.map_fst_members a ▸ hF.nodup
  have hkeys : (kept.map Prod.fst).Nodup := hnodup.sublist (hkept.map _)
  have hfield : n.1 ∈ F.fields := hF.map_fst_members a ▸ List.mem_map_of_mem hn
  have hothers : valuesOf others n.1 = [] := by
    refine valuesOf_eq_nil fun m hm heq => ?_
    obtain ⟨key, hkey, hnot⟩ := hforeign m hm
    rw [hkey, Option.some.injEq] at heq
    rw [heq, String.ofList_toList] at hnot
    exact hnot hfield
  -- At most one value is left for the field, so its place among the members cannot matter.
  have hvalues : (valuesOf members n.1).Perm (valuesOf own n.1) := by
    have hperm' := valuesOf_perm hperm n.1
    rwa [valuesOf_append, hothers, List.append_nil] at hperm'
  obtain ⟨habsent, hpresent⟩ := valuesOf_of_spells hspells hkeys n.1
  -- A field that was not kept has no value under another member's key either.
  by_cases hmem : n ∈ kept
  · obtain ⟨j, hj, halike⟩ := hpresent n.2 hmem
    rw [hj, List.perm_singleton] at hvalues
    exact ⟨some j, by rw [hvalues]; rfl, .given halike⟩
  · have hnot : n.1 ∉ kept.map Prod.fst := by
      intro hkey
      obtain ⟨n', hn', heq⟩ := List.mem_map.1 hkey
      exact hmem (List.inj_on_of_nodup_map hnodup (hkept.subset hn') hn heq ▸ hn')
    rw [habsent hnot, List.perm_nil] at hvalues
    exact ⟨none, by rw [hvalues]; rfl, .spared (hspare n hn hmem)⟩

theorem Format.Gives.exists_unescape (h : F.Gives a members) :
    ∀ m ∈ members, ∃ text, unescape m.1 = some text := by
  obtain ⟨kept, own, others, -, -, hspells, hforeign, hperm⟩ := h
  intro m hm
  rcases List.mem_append.1 (hperm.mem_iff.1 hm) with hown | hother
  · obtain ⟨i, hi, rfl⟩ := List.getElem_of_mem hown
    exact ⟨_, (hspells.get hi (hspells.length_eq ▸ hi)).1⟩
  · obtain ⟨key, hkey, -⟩ := hforeign m hother
    exact ⟨key, hkey⟩

/-- **An object that gives a value lists it.** -/
theorem objectFields?_of_gives (hF : F.Lawful) (h : F.Gives a members) :
    ∃ found, objectFields? F.fields members = some found ∧
      List.Forall₂ F.Stands (F.members a) found := by
  obtain ⟨named, hnamed⟩ := exists_readKeys? h.exists_unescape
  rw [objectFields?_eq hnamed, ← hF.map_fst_members a, List.mapM_map]
  exact exists_mapM fun n hn => h.stands hF hn

end Gives

section ReadsByName

variable {α : Type} {F : Format α}

theorem Format.stands_of_alike {items : List Json} {values : List Json} {fields : List String}
    (hlength : fields.length = values.length) (h : List.Forall₂ Alike items values) :
    List.Forall₂ F.Stands (fields.zip values) (items.map some) := by
  induction h generalizing fields with
  | nil => simp
  | cons halike _ ih =>
    cases fields with
    | nil => cases hlength
    | cons field fields => exact .cons (.given halike) (ih (Nat.succ.inj hlength))

/-- A field given twice leaves an object unlisted. -/
theorem objectFields?_of_twice {fields : List String} {field : String} (hfield : field ∈ fields)
    {members : List (List Char × Json)}
    (h : 2 ≤ members.countP fun m => unescape m.1 = some field.toList) :
    objectFields? fields members = none := by
  cases hnamed : readKeys? members with
  | none => exact objectFields?_of_readKeys?_none hnamed fields
  | some named =>
    rw [objectFields?_eq hnamed]
    exact mapM_eq_none_of_mem hfield (single_eq_none ((length_valuesOf members field).symm ▸ h))

/-- A field that no member has is listed with nothing. -/
theorem mem_zip_of_lacking {fields : List String} {field : String} (hfield : field ∈ fields)
    {members : List (List Char × Json)} (h : ∀ m ∈ members, unescape m.1 ≠ some field.toList)
    {found : List (Option Json)} (hfound : objectFields? fields members = some found) :
    (field, none) ∈ fields.zip found := by
  cases hnamed : readKeys? members with
  | none =>
    rw [objectFields?_of_readKeys?_none hnamed] at hfound
    cases hfound
  | some named =>
    rw [objectFields?_eq hnamed] at hfound
    obtain ⟨value, hvalue, hmem⟩ := mem_zip_of_mapM hfound hfield
    rw [valuesOf_eq_nil h] at hvalue
    cases hvalue
    exact hmem

/-- **A lawful reader reads by the names of the fields.** -/
theorem Format.Lawful.readsByName (h : F.Lawful) : F.ReadsByName where
  object a members text hfits hgives hwritten := by
    obtain ⟨found, hfound, hstands⟩ := objectFields?_of_gives h hgives
    rw [parse?_of_written hwritten, Option.bind_some]
    exact h.accepts hfits (.obj hfound) hstands
  array a items text hfits halike hwritten := by
    have hlength : items.length = F.fields.length :=
      halike.length_eq.trans (h.length_values a).symm
    rw [parse?_of_written hwritten, Option.bind_some]
    exact h.accepts hfits (.arr hlength) (stands_of_alike (h.length_values a) halike)
  twice field hfield members text htwice hwritten := by
    rw [parse?_of_written hwritten, Option.bind_some]
    exact h.unlisted (objectFields?_of_twice hfield htwice)
  lacking field hfield hnever members text hlacking hwritten := by
    rw [parse?_of_written hwritten, Option.bind_some]
    cases hfound : objectFields? F.fields members with
    | none => exact h.unlisted hfound
    | some found => exact h.refuses (.obj hfound) (mem_zip_of_lacking hfield hlacking hfound) hnever

end ReadsByName

end Json
end TaintGraph
