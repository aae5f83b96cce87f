/-
# An ID determines what it names

A function's ID ends in a colon and a name, a method's in a colon, a class, two colons and a
name. Names and classes hold no colon, so the last colon of an ID is where its name begins
(`eq_of_append_colon`). In front of it stands a file for a function and another colon for a
method. Files may hold colons, but when none ends in one this tells the two apart, and behind
the two colons of a method the next one is where its class begins. So two callables with the
same ID are the same function or method of the same file (`id_determines_place`).

Key definitions: `Place`, `Place.Plain`, `Place.Gives`.
Key theorems: `eq_of_append_colon`, `Place.id_inj`, `id_determines_place`.
-/
import Mathlib.Data.List.Basic
import TaintGraph.Ingest

namespace TaintGraph

/-- What an ID stands for. -/
structure Place where
  /-- The file that defines it. -/
  file : String
  /-- The class, for a method. -/
  cls : Option String
  /-- The name of the function or method. -/
  name : String
  deriving DecidableEq

namespace Place

/-- The ID of what stands there. -/
def id (p : Place) : String :=
  callableId p.file p.cls p.name

/-- The file does not end in a colon, and the class and the name hold none. -/
def Plain (p : Place) : Prop :=
  p.file.toList.getLast? ≠ some ':' ∧ (∀ cls ∈ p.cls, ':' ∉ cls.toList) ∧ ':' ∉ p.name.toList

instance (p : Place) : Decidable p.Plain :=
  inferInstanceAs (Decidable (_ ∧ _))

/-- The IDs that are given to what stands there: by making a callable, by declaring one found in
a file, and by a call that names it. -/
inductive Gives : Place → String → Prop
  | function (file name : String) (role : Role) :
    Gives ⟨file, none, name⟩ (Callable.function file name role).id
  | method (file cls name : String) (role : Role) :
    Gives ⟨file, some cls, name⟩ (Callable.method file cls name role).id
  | declaredFunction (f : SourceFile) (name : String) (line : UInt32) (role : Role) :
    Gives ⟨f.path, none, name⟩ (f.function name line role).id
  | declaredMethod (f : SourceFile) (cls name : String) (line : UInt32) (role : Role) :
    Gives ⟨f.path, some cls, name⟩ (f.method cls name line role).id
  | registered (f : SourceFile) (t : Target) :
    Gives ⟨f.definingFile t, t.className, t.name⟩ (f.targetSink t).id
  | called (f : SourceFile) (caller : String) (t : Target) (site : Site) :
    Gives ⟨f.definingFile t, t.className, t.name⟩ (f.call caller t site).callee

theorem Gives.eq_id {p : Place} {id : String} (h : p.Gives id) : id = p.id := by
  cases h <;> rfl

end Place

/-! ### The last colon -/

/-- The last colon divides a text in one way. -/
theorem eq_of_append_colon {left left' right right' : List Char} (hright : ':' ∉ right)
    (hright' : ':' ∉ right') (h : left ++ ':' :: right = left' ++ ':' :: right') :
    left = left' ∧ right = right' := by
  have hnone : ∀ {between rest rest' : List Char}, ':' ∉ rest →
      ':' :: rest = between ++ ':' :: rest' → between = [] ∧ rest = rest' := by
    intro between rest rest' hrest heq
    cases between with
    | nil => exact ⟨rfl, (List.cons.inj heq).2⟩
    | cons c between =>
      refine absurd ?_ hrest
      rw [(List.cons.inj heq).2]
      exact List.mem_append_right _ List.mem_cons_self
  -- One left part reaches at least as far as the other; what lies between would hold a colon.
  rcases List.append_eq_append_iff.1 h with ⟨between, hleft, heq⟩ | ⟨between, hleft, heq⟩
  · obtain ⟨rfl, hrest⟩ := hnone hright heq
    exact ⟨by rw [hleft, List.append_nil], hrest⟩
  · obtain ⟨rfl, hrest⟩ := hnone hright' heq
    exact ⟨by rw [hleft, List.append_nil], hrest.symm⟩

theorem toList_functionId (file name : String) :
    (functionId file name).toList = file.toList ++ ':' :: name.toList := by
  simp [functionId]

/-- In front of the last colon of a method's ID stands another one. -/
theorem toList_methodId (file cls name : String) :
    (methodId file cls name).toList =
      ((file.toList ++ ':' :: cls.toList) ++ [':']) ++ ':' :: name.toList := by
  simp [methodId]

/-! ### Functions and methods -/

section Ids

variable {file file' cls cls' name name' : String}

theorem functionId_inj (hname : ':' ∉ name.toList) (hname' : ':' ∉ name'.toList)
    (h : functionId file name = functionId file' name') : file = file' ∧ name = name' := by
  have hlist := congrArg String.toList h
  rw [toList_functionId, toList_functionId] at hlist
  obtain ⟨hfile, hname⟩ := eq_of_append_colon hname hname' hlist
  exact ⟨String.toList_inj.1 hfile, String.toList_inj.1 hname⟩

theorem methodId_inj (hcls : ':' ∉ cls.toList) (hcls' : ':' ∉ cls'.toList)
    (hname : ':' ∉ name.toList) (hname' : ':' ∉ name'.toList)
    (h : methodId file cls name = methodId file' cls' name') :
    file = file' ∧ cls = cls' ∧ name = name' := by
  have hlist := congrArg String.toList h
  rw [toList_methodId, toList_methodId] at hlist
  obtain ⟨hfront, hname⟩ := eq_of_append_colon hname hname' hlist
  obtain ⟨hfile, hcls⟩ := eq_of_append_colon hcls hcls' (List.append_cancel_right hfront)
  exact ⟨String.toList_inj.1 hfile, String.toList_inj.1 hcls, String.toList_inj.1 hname⟩

/-- A function of a file that does not end in a colon has no method's ID. -/
theorem functionId_ne_methodId (hfile : file.toList.getLast? ≠ some ':')
    (hname : ':' ∉ name.toList) (hname' : ':' ∉ name'.toList) :
    functionId file name ≠ methodId file' cls' name' := by
  intro h
  have hlist := congrArg String.toList h
  rw [toList_functionId, toList_methodId] at hlist
  obtain ⟨hfront, -⟩ := eq_of_append_colon hname hname' hlist
  -- In front of the last colon the file stands on one side and a colon ends the other.
  rw [hfront, List.getLast?_concat] at hfile
  exact hfile rfl

end Ids

/-- **An ID has one place.** -/
theorem Place.id_inj {p p' : Place} (hp : p.Plain) (hp' : p'.Plain) (h : p.id = p'.id) :
    p = p' := by
  obtain ⟨file, cls, name⟩ := p
  obtain ⟨file', cls', name'⟩ := p'
  obtain ⟨hfile, hcls, hname⟩ := hp
  obtain ⟨hfile', hcls', hname'⟩ := hp'
  cases cls with
  | none =>
    cases cls' with
    | none =>
      obtain ⟨rfl, rfl⟩ := functionId_inj hname hname' h
      rfl
    | some cls' => exact absurd h (functionId_ne_methodId hfile hname hname')
  | some cls =>
    cases cls' with
    | none => exact absurd h.symm (functionId_ne_methodId hfile' hname' hname)
    | some cls' =>
      obtain ⟨rfl, rfl, rfl⟩ := methodId_inj (hcls cls rfl) (hcls' cls' rfl) hname hname' h
      rfl

/-- **An ID determines what it names.** When files do not end in a colon and classes and names
hold none, two functions or methods with one ID are both functions or both methods, of the same
file, class and name. So making a callable, declaring one and naming one in a call give the same
ID exactly to the same file, class and name. -/
theorem id_determines_place {p p' : Place} (hp : p.Plain) (hp' : p'.Plain) :
    (callableId p.file p.cls p.name = callableId p'.file p'.cls p'.name →
      p.cls.isSome = p'.cls.isSome ∧ p.file = p'.file ∧ p.cls = p'.cls ∧ p.name = p'.name) ∧
    ∀ id id', p.Gives id → p'.Gives id' → (id = id' ↔ p = p') := by
  refine ⟨fun h => ?_, fun id id' hid hid' => ?_⟩
  · obtain rfl := Place.id_inj hp hp' h
    exact ⟨rfl, rfl, rfl, rfl⟩
  · rw [hid.eq_id, hid'.eq_id]
    exact ⟨Place.id_inj hp hp', congrArg Place.id⟩

/-- A path with colons and a class without a name: a call of a method there names what declaring
the method adds, and not a function of a longer path. -/
theorem id_determines_place_drive :
    let f : SourceFile := { path := "C:/a::b.rs" }
    let t : Target := { name := "run", className := some "" }
    let method : Place := ⟨"C:/a::b.rs", some "", "run"⟩
    let other : Place := ⟨"C:/a::b.rs:x", none, "run"⟩
    method.Plain ∧ other.Plain ∧
    (f.call "main" t {}).callee = (f.method "" "run" 7 .sink).id ∧
    (f.call "main" t {}).callee ≠ (Callable.function "C:/a::b.rs:x" "run" .regular).id := by
  intro f t method other
  have hmethod : method.Plain := by decide
  have hother : other.Plain := by decide
  have hcall : method.Gives (f.call "main" t {}).callee := .called f "main" t {}
  have hdeclared : method.Gives (f.method "" "run" 7 .sink).id := .declaredMethod f "" "run" 7 .sink
  have hsame := (id_determines_place hmethod hmethod).2 _ _ hcall hdeclared
  have hdiffer := (id_determines_place hmethod hother).2 _ _ hcall (.function _ _ .regular)
  exact ⟨hmethod, hother, hsame.2 rfl, fun h => absurd (hdiffer.1 h) (by decide)⟩

/-- A file that ends in a colon can make a function look like a method. -/
example : functionId "a.rs:Repo:" "query" = methodId "a.rs" "Repo" "query" := by
  decide

end TaintGraph
