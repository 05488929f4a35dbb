import Clausify.Config.Load
import Mathlib.Tactic.Common

/-!
# What loading a configuration comes to

A configuration file holds any bytes at all.  Loading is meant to survive them: to end with a configuration or to
refuse its input, and to go on without the file, after a warning, when there is no JSON object in it.  It does so for
text in UTF-8, malformed JSON included, with one exception: text in which an integer has more digits than may be
converted.  Bytes that are no UTF-8 and integers that are too long escape as errors of another kind.  The settings of
the environment win over the file.
-/

namespace Clausify

/-! ### Members -/

namespace Json

variable {name other : String} {v : Json} {ms : List (String × Json)}

private theorem member?_cons (m : String × Json) :
    member? name (m :: ms) = if m.1 = name then some m.2 else member? name ms := by
  unfold member?
  by_cases h : m.1 = name <;> simp [h]

private theorem member?_enterMember : member? name (enterMember name v ms) = some v := by
  induction ms with
  | nil => rw [enterMember, member?_cons, if_pos rfl]
  | cons m ms ih =>
    rw [enterMember]
    split
    · rw [member?_cons, if_pos rfl]
    · rename_i hne
      rw [member?_cons, if_neg hne, ih]

private theorem member?_enterMember_of_ne (h : other ≠ name) :
    member? name (enterMember other v ms) = member? name ms := by
  induction ms with
  | nil => rw [enterMember, member?_cons, if_neg h]
  | cons m ms ih =>
    rw [enterMember, member?_cons]
    split
    · rename_i heq
      rw [member?_cons, if_neg h, if_neg (heq ▸ h)]
    · rw [member?_cons, ih]

end Json

/-! ### Readings -/

namespace Record

variable {α β : Type} {r : Reading α} {s : Reading β} {name : String} {a d : α}
  {read : Json → Reading α} {ms : List (String × Json)}

private theorem both_eq_ok {b : β} : both r s = .ok (a, b) ↔ r = .ok a ∧ s = .ok b := by
  unfold both
  cases r <;> cases s <;> simp

/-- A field has the value that its member is read as, or its default where there is no such member. -/
def FieldIs (name : String) (d : α) (read : Json → Reading α) (ms : List (String × Json)) (a : α) : Prop :=
  match Json.member? name ms with
  | some v => read v = .ok a
  | none => a = d

private theorem optional_eq_ok : optional name d read ms = .ok a ↔ FieldIs name d read ms a := by
  unfold optional FieldIs
  cases Json.member? name ms with
  | none =>
    dsimp only
    rw [Except.ok.injEq, eq_comm]
  | some v =>
    dsimp only
    cases read v with
    | ok b => exact Iff.rfl
    | error fs => exact ⟨nofun, nofun⟩

end Record

/-! ### Text -/

private theorem fromUTF8?_eq_some_iff {content : ByteArray} {text : String} :
    String.fromUTF8? content = some text ↔ text.toUTF8 = content := by
  unfold String.fromUTF8?
  constructor
  · intro h
    split at h
    · cases h
      rfl
    · cases h
  · rintro rfl
    rw [String.toUTF8_eq_toByteArray, dif_pos text.isValidUTF8]
    rfl

namespace Config

open Record

variable {env : Environment} {path : String} {file : File} {content : ByteArray} {ms : List (String × Json)}
  {j j' : Journal}

/-! ### Fields -/

private theorem read_eq_ok {c : Config} : Config.read ms = .ok c ↔
    FieldIs "check_invariants" true Record.bool ms c.checkInvariants ∧
      FieldIs "solver_name" "minisat22" Record.string ms c.solverName ∧
      FieldIs "max_solutions" none (nullable (intFrom 1)) ms c.maxSolutions ∧
      FieldIs "trace_contexts" true Record.bool ms c.traceContexts := by
  simp only [← optional_eq_ok, ← both_eq_ok]
  unfold Config.read
  obtain ⟨check, solver, solutions, contexts⟩ := c
  dsimp only
  cases both (Record.optional "check_invariants" true Record.bool ms)
    (both (Record.optional "solver_name" "minisat22" Record.string ms)
      (both (Record.optional "max_solutions" none (nullable (intFrom 1)) ms)
        (Record.optional "trace_contexts" true Record.bool ms))) with
  | error fs => simp [Except.map]
  | ok p =>
    obtain ⟨a, b, c, d⟩ := p
    simp [Except.map]

/-! ### Settings of the environment -/

private theorem member?_override {name : String} (h : "solver_name" ≠ name) :
    Json.member? name (override env ms) = Json.member? name (override ⟨env.checkInvariants, none⟩ ms) := by
  unfold override
  dsimp only
  split
  · split
    · rfl
    · exact Json.member?_enterMember_of_ne h
  · rfl

private theorem member?_override_noSolver {check : Option String} {name : String} (h : "check_invariants" ≠ name) :
    Json.member? name (override ⟨check, none⟩ ms) = Json.member? name ms := by
  cases check with
  | none => rfl
  | some setting => exact Json.member?_enterMember_of_ne h

private theorem member?_override_of_ne {name : String} (hcheck : "check_invariants" ≠ name)
    (hsolver : "solver_name" ≠ name) : Json.member? name (override env ms) = Json.member? name ms :=
  (member?_override hsolver).trans (member?_override_noSolver hcheck)

private theorem member?_override_check : Json.member? "check_invariants" (override env ms) =
    (env.checkInvariants.map fun setting => .bool (isOn setting)).or (Json.member? "check_invariants" ms) := by
  rw [member?_override (by decide)]
  cases env.checkInvariants with
  | none => rfl
  | some setting => exact Json.member?_enterMember

private theorem member?_override_solver : Json.member? "solver_name" (override env ms) =
    ((env.solverName.filter (!·.isEmpty)).map .str).or (Json.member? "solver_name" ms) := by
  obtain ⟨check, solver⟩ := env
  have hnone : Json.member? "solver_name" (override ⟨check, none⟩ ms) = Json.member? "solver_name" ms :=
    member?_override_noSolver (by decide)
  cases solver with
  | none => exact hnone
  | some name =>
    unfold override at hnone ⊢
    dsimp only at hnone ⊢
    by_cases hempty : name.isEmpty
    · rw [if_pos hempty, Option.filter_some, hempty]
      exact hnone
    · rw [if_neg hempty, Option.filter_some, Bool.eq_false_iff.2 hempty]
      exact Json.member?_enterMember

/-- The configuration is what the environment and the members of the file say, each field for itself. -/
structure Follows (c : Config) (env : Environment) (ms : List (String × Json)) : Prop where
  checkInvariants : match env.checkInvariants with
    | some setting => c.checkInvariants = isOn setting
    | none => FieldIs "check_invariants" true Record.bool ms c.checkInvariants
  solverName : match env.solverName.filter (!·.isEmpty) with
    | some name => c.solverName = name
    | none => FieldIs "solver_name" "minisat22" Record.string ms c.solverName
  maxSolutions : FieldIs "max_solutions" none (nullable (intFrom 1)) ms c.maxSolutions
  traceContexts : FieldIs "trace_contexts" true Record.bool ms c.traceContexts

private theorem read_override_eq_ok {c : Config} : Config.read (override env ms) = .ok c ↔ c.Follows env ms := by
  have hcheck : FieldIs "check_invariants" true Record.bool (override env ms) c.checkInvariants ↔
      match env.checkInvariants with
      | some setting => c.checkInvariants = isOn setting
      | none => FieldIs "check_invariants" true Record.bool ms c.checkInvariants := by
    unfold FieldIs
    rw [member?_override_check]
    cases env.checkInvariants with
    | none => exact Iff.rfl
    | some setting =>
      rw [Option.map_some, Option.some_or]
      dsimp only [Record.bool]
      rw [Except.ok.injEq, eq_comm]
  have hsolver : FieldIs "solver_name" "minisat22" Record.string (override env ms) c.solverName ↔
      match env.solverName.filter (!·.isEmpty) with
      | some name => c.solverName = name
      | none => FieldIs "solver_name" "minisat22" Record.string ms c.solverName := by
    unfold FieldIs
    rw [member?_override_solver]
    cases env.solverName.filter (!·.isEmpty) with
    | none => exact Iff.rfl
    | some name =>
      rw [Option.map_some, Option.some_or]
      dsimp only [Record.string]
      rw [Except.ok.injEq, eq_comm]
  rw [read_eq_ok, hcheck, hsolver]
  unfold FieldIs
  rw [member?_override_of_ne (by decide) (by decide), member?_override_of_ne (by decide) (by decide)]
  exact ⟨fun ⟨h1, h2, h3, h4⟩ => ⟨h1, h2, h3, h4⟩, fun h => ⟨h.1, h.2, h.3, h.4⟩⟩

/-- The configuration without a file. -/
def ofEnvironment (env : Environment) : Config where
  checkInvariants := (env.checkInvariants.map isOn).getD true
  solverName := (env.solverName.filter (!·.isEmpty)).getD "minisat22"

private theorem follows_ofEnvironment (env : Environment) : (ofEnvironment env).Follows env [] where
  checkInvariants := by
    unfold ofEnvironment
    cases env.checkInvariants with
    | none => rfl
    | some setting =>
      dsimp only
      rw [Option.map_some, Option.getD_some]
  solverName := by
    unfold ofEnvironment
    cases env.solverName.filter (!·.isEmpty) with
    | none => rfl
    | some name => rfl
  maxSolutions := rfl
  traceContexts := rfl

/-! ### Loading -/

private theorem load_of_fileMembers (h : fileMembers path file j = .ok ms j') :
    load env path file j = match Config.read (override env ms) with
      | .ok c => .ok c j'
      | .error fs => .error (.invalidConfig fs) j' := by
  show EStateM.bind _ _ j = _
  unfold EStateM.bind
  rw [h]
  dsimp only
  cases Config.read (override env ms) <;> rfl

private theorem load_of_fileMembers_error {x : Error} (h : fileMembers path file j = .error x j') :
    load env path file j = .error x j' := by
  show EStateM.bind _ _ j = _
  unfold EStateM.bind
  rw [h]

private theorem load_of_no_members (h : fileMembers path file j = .ok [] j') :
    load env path file j = .ok (ofEnvironment env) j' := by
  rw [load_of_fileMembers h, read_override_eq_ok.2 (follows_ofEnvironment env)]

private theorem load_missing (env : Environment) (path : String) (j : Journal) :
    load env path .missing j = .ok (ofEnvironment env) j :=
  load_of_no_members rfl

private theorem load_bytes_of_not_text (h : ∀ text : String, text.toUTF8 ≠ content) :
    load env path (.bytes content) j = .error .invalidText j := by
  apply load_of_fileMembers_error
  have hnone : String.fromUTF8? content = none := by
    rw [Option.eq_none_iff_forall_ne_some]
    intro text htext
    exact h text (fromUTF8?_eq_some_iff.1 htext)
  rw [fileMembers, hnone]
  rfl

section

variable {text : String} (htext : text.toUTF8 = content)
include htext

private theorem fileMembers_of_text : fileMembers path (.bytes content) j = match Json.parseWith .replaced text with
    | .ok (.obj ms) => .ok ms j
    | .ok v => .ok [] (j.notice (.configNotObject path v.kind))
    | .error .malformed => .ok [] (j.notice (.unreadableConfig path))
    | .error .oversized => .error .oversizedNumber j := by
  rw [fileMembers, fromUTF8?_eq_some_iff.2 htext]
  dsimp only
  cases Json.parseWith .replaced text with
  | ok v => cases v <;> rfl
  | error x => cases x <;> rfl

private theorem load_bytes_of_oversized (h : Json.parseWith .replaced text = .error .oversized) :
    load env path (.bytes content) j = .error .oversizedNumber j := by
  apply load_of_fileMembers_error
  rw [fileMembers_of_text htext, h]

private theorem load_bytes_of_obj (h : Json.parseWith .replaced text = .ok (.obj ms)) :
    (∃ c : Config, c.Follows env ms ∧ load env path (.bytes content) j = .ok c j) ∨
      (∀ c : Config, ¬c.Follows env ms) ∧ ∃ fs, load env path (.bytes content) j = .error (.invalidConfig fs) j := by
  have hms : fileMembers path (.bytes content) j = .ok ms j := by
    rw [fileMembers_of_text htext, h]
  rw [load_of_fileMembers hms]
  cases hread : Config.read (override env ms) with
  | ok c => exact .inl ⟨c, read_override_eq_ok.1 hread, rfl⟩
  | error fs =>
    refine .inr ⟨fun c hc => ?_, fs, rfl⟩
    rw [read_override_eq_ok.2 hc] at hread
    cases hread

private theorem load_bytes_of_not_obj (hover : Json.parseWith .replaced text ≠ .error .oversized)
    (hobj : ∀ ms, Json.parseWith .replaced text ≠ .ok (.obj ms)) :
    ∃ n : Notice, n.level = "WARNING" ∧
      load env path (.bytes content) j = .ok (ofEnvironment env) (j.notice n) := by
  have hms : ∃ n : Notice, n.level = "WARNING" ∧ fileMembers path (.bytes content) j = .ok [] (j.notice n) := by
    rw [fileMembers_of_text htext]
    split
    · rename_i ms hparse
      exact absurd hparse (hobj ms)
    · rename_i v _ _
      exact ⟨.configNotObject path v.kind, rfl, rfl⟩
    · exact ⟨.unreadableConfig path, rfl, rfl⟩
    · rename_i hparse
      exact absurd hparse hover
  obtain ⟨n, hlevel, hms⟩ := hms
  exact ⟨n, hlevel, load_of_no_members hms⟩

end

/-! ### Surviving a file -/

/-- Loading ends with a configuration or refuses its input. -/
def Settles : EStateM.Result Error Journal Config → Prop
  | .ok _ _ => True
  | .error x _ => x.kind = .validation

/-- Bytes are the UTF-8 of text that holds a JSON value. -/
def Holds (content : ByteArray) (v : Json) : Prop :=
  ∃ text : String, text.toUTF8 = content ∧ Json.parseWith .replaced text = .ok v

/-- Bytes are the UTF-8 of text in which no integer is read that is too long. -/
def IsConvertible (content : ByteArray) : Prop :=
  ∃ text : String, text.toUTF8 = content ∧ Json.parseWith .replaced text ≠ .error .oversized

private theorem holds_toUTF8 {text : String} {v : Json} :
    Holds text.toUTF8 v ↔ Json.parseWith .replaced text = .ok v := by
  constructor
  · rintro ⟨other, hother, hparse⟩
    have heq : other = text := String.toByteArray_inj.1 hother
    rwa [heq] at hparse
  · intro hparse
    exact ⟨text, rfl, hparse⟩

private theorem load_of_not_isConvertible (h : ¬IsConvertible content) :
    load env path (.bytes content) j = .error .invalidText j ∨
      load env path (.bytes content) j = .error .oversizedNumber j := by
  by_cases htext : ∃ text : String, text.toUTF8 = content
  · obtain ⟨text, htext⟩ := htext
    have hover : Json.parseWith .replaced text = .error .oversized := by
      by_contra hover
      exact h ⟨text, htext, hover⟩
    exact .inr (load_bytes_of_oversized htext hover)
  · exact .inl (load_bytes_of_not_text fun text ht => htext ⟨text, ht⟩)

private theorem load_of_not_holds (h : IsConvertible content) (hobj : ∀ ms, ¬Holds content (.obj ms)) :
    ∃ n : Notice, n.level = "WARNING" ∧
      load env path (.bytes content) j = .ok (ofEnvironment env) (j.notice n) := by
  obtain ⟨text, htext, hover⟩ := h
  exact load_bytes_of_not_obj htext hover fun ms hms => hobj ms ⟨text, htext, hms⟩

private theorem settles_of_isConvertible (h : IsConvertible content) :
    Settles (load env path (.bytes content) j) := by
  by_cases hobj : ∃ ms, Holds content (.obj ms)
  · obtain ⟨ms, text, htext, hparse⟩ := hobj
    rcases load_bytes_of_obj htext hparse with ⟨c, -, hload⟩ | ⟨-, fs, hload⟩
    · rw [hload]
      trivial
    · rw [hload]
      rfl
  · obtain ⟨n, -, hload⟩ := load_of_not_holds h fun ms hms => hobj ⟨ms, hms⟩
    rw [hload]
    trivial

private theorem settles_iff_isConvertible : Settles (load env path (.bytes content) j) ↔ IsConvertible content := by
  refine ⟨fun h => ?_, settles_of_isConvertible⟩
  by_contra hconv
  -- neither of the two errors that escape is one of validation
  rcases load_of_not_isConvertible hconv with hload | hload
  · rw [hload] at h
    cases h
  · rw [hload] at h
    cases h

/-- What loading a configuration comes to for any bytes in the file and any environment.  It ends with a configuration
or refuses its input exactly when the bytes are text in which no integer is read that is too long; what is no text and
what has such an integer escapes as an error of its own.  A JSON object gives the configuration that follows from it
and the environment, or is refused if there is none.  Other text that can be converted counts as much as a file that
is not there, with one warning. -/
theorem load_settles (env : Environment) (path : String) (content : ByteArray) (j : Journal) :
    (Settles (load env path (.bytes content) j) ↔ IsConvertible content) ∧
      ((∀ text : String, text.toUTF8 ≠ content) → load env path (.bytes content) j = .error .invalidText j) ∧
      (∀ text : String, text.toUTF8 = content → Json.parseWith .replaced text = .error .oversized →
        load env path (.bytes content) j = .error .oversizedNumber j) ∧
      (∀ ms, Holds content (.obj ms) →
        (∃ c : Config, c.Follows env ms ∧ load env path (.bytes content) j = .ok c j) ∨
          (∀ c : Config, ¬c.Follows env ms) ∧
            ∃ fs, load env path (.bytes content) j = .error (.invalidConfig fs) j) ∧
      (IsConvertible content → (∀ ms, ¬Holds content (.obj ms)) → ∃ n : Notice, n.level = "WARNING" ∧
        load env path .missing j = .ok (ofEnvironment env) j ∧
        load env path (.bytes content) j = .ok (ofEnvironment env) (j.notice n)) := by
  refine ⟨settles_iff_isConvertible, load_bytes_of_not_text, ?_, ?_, ?_⟩
  · intro text htext hover
    exact load_bytes_of_oversized htext hover
  · rintro ms ⟨text, htext, hparse⟩
    exact load_bytes_of_obj htext hparse
  · intro hconv hobj
    obtain ⟨n, hlevel, hload⟩ := load_of_not_holds hconv hobj
    exact ⟨n, hlevel, load_missing env path j, hload⟩

/-- A list counts for nothing; an object without members gives what the environment says. -/
theorem load_settles_of_brackets :
    let env : Environment := ⟨some "no", none⟩
    IsConvertible "[1]".toUTF8 ∧ (∀ ms, ¬Holds "[1]".toUTF8 (.obj ms)) ∧
      (∃ n : Notice, n.level = "WARNING" ∧ load env "config.json" .missing .empty = .ok (ofEnvironment env) .empty ∧
        load env "config.json" (.bytes "[1]".toUTF8) .empty = .ok (ofEnvironment env) (Journal.empty.notice n)) ∧
      Holds "\x7b\x7d".toUTF8 (.obj []) ∧
        ∃ c : Config, c.Follows env [] ∧ load env "config.json" (.bytes "\x7b\x7d".toUTF8) .empty = .ok c .empty := by
  intro env
  have hlist : Json.parseWith .replaced "[1]" = .ok (.arr [.int 1]) := rfl
  have hconv : IsConvertible "[1]".toUTF8 := ⟨"[1]", rfl, by rw [hlist]; nofun⟩
  have hobj : ∀ ms, ¬Holds "[1]".toUTF8 (.obj ms) := by
    intro ms hms
    rw [holds_toUTF8, hlist] at hms
    cases hms
  have hempty : Holds "\x7b\x7d".toUTF8 (.obj []) := holds_toUTF8.2 rfl
  obtain ⟨-, -, -, -, hwarned⟩ := load_settles env "config.json" "[1]".toUTF8 .empty
  obtain ⟨-, -, -, hread, -⟩ := load_settles env "config.json" "\x7b\x7d".toUTF8 .empty
  refine ⟨hconv, hobj, hwarned hconv hobj, hempty, ?_⟩
  rcases hread [] hempty with hc | ⟨hnone, -⟩
  · exact hc
  · exact absurd (follows_ofEnvironment env) (hnone _)

/-- A byte that is in no text in UTF-8 escapes. -/
theorem load_escapes :
    load ⟨none, none⟩ "config.json" (.bytes ⟨#[255]⟩) .empty = .error .invalidText .empty ∧
      ¬Settles (load ⟨none, none⟩ "config.json" (.bytes ⟨#[255]⟩) .empty) := by
  refine ⟨rfl, ?_⟩
  intro h
  cases h

end Config

end Clausify
