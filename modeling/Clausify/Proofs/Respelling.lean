import Clausify.Proofs.Assembly
import Clausify.Run

/-!
# Replacing literals

A literal may be replaced by another of the same variable and polarity, in any of the places where a program hands one
over (`Respelled`).  The programs then make encoders that run in lockstep (`Respelled.lockstep`), so a run returns the
same formula or the same error (`Respelled.same_run`).
-/

namespace Clausify

variable {I α β : Type}

open Construction in
/-- The constructions apply the same operations of the library, to literals of the same variables and polarities.  The
values of the encoders are related by `R`; a snapshot is not among the operations, as it shows the literals.  Values
with the same plain representation are the same, or literals of the same variable and polarity
(`Value.plain_eq_iff`). -/
inductive Respelled [Index I] : {α β : Type} → (α → β → Prop) → Construction I α → Construction I β → Prop where
  | fail {α β : Type} {R : α → β → Prop} (x : Error) : Respelled R (.error x) (.error x)
  | other {α β : Type} {R : α → β → Prop} (kind : String) : Respelled R (.ok (.other kind)) (.ok (.other kind))
  /-- What is handed over depends on computed values, such as literals that are negated or lifted. -/
  | compute {α β γ δ : Type} {R : α → β → Prop} {Q : γ → δ → Prop} {x : Except Error γ} {y : Except Error δ}
      {f : γ → Construction I α} {g : δ → Construction I β} (h : SameResult Q x y)
      (hf : ∀ a b, Q a b → Respelled R (f a) (g b)) : Respelled R (x.bind f) (y.bind g)
  | pure {α β : Type} {R : α → β → Prop} {a : α} {b : β} (h : R a b) :
      Respelled R (.ok (.encoder (.pure a))) (.ok (.encoder (.pure b)))
  | bind {α β γ δ : Type} {R : α → β → Prop} {Q : γ → δ → Prop} {x : Construction I α} {y : Construction I β}
      {f : α → Construction I γ} {g : β → Construction I δ} (h : Respelled R x y)
      (hf : ∀ a b, R a b → Respelled Q (f a) (g b)) :
      Respelled Q (x.bind fun e => made (Checked.bind e f)) (y.bind fun e => made (Checked.bind e g))
  | andThen {α β γ δ : Type} {R : α → β → Prop} {Q : γ → δ → Prop} {x : Construction I α} {y : Construction I β}
      {x' : Construction I γ} {y' : Construction I δ} (h : Respelled R x y) (h' : Respelled Q x' y') :
      Respelled Q (x.bind fun e => x'.bind fun e' => made (Checked.andThen e e'))
        (y.bind fun e => y'.bind fun e' => made (Checked.andThen e e'))
  | map {α β γ δ : Type} {R : α → β → Prop} {Q : γ → δ → Prop} {x : Construction I α} {y : Construction I β}
      {f : α → γ} {g : β → δ} (h : Respelled R x y) (hf : ∀ a b, R a b → Q (f a) (g b)) :
      Respelled Q (x.bind fun e => made (Checked.map f e)) (y.bind fun e => made (Checked.map g e))
  | seq {ι κ α β : Type} {R : α → β → Prop} {P : ι → κ → Prop} {is : List ι} {js : List κ}
      {f : ι → Construction I α} {g : κ → Construction I β} (h : List.Forall₂ P is js)
      (hf : ∀ i j, P i j → Respelled R (f i) (g j)) :
      Respelled Eq ((is.mapM (m := Except Error) f).bind fun es => made (Checked.seq es))
        ((js.mapM (m := Except Error) g).bind fun es => made (Checked.seq es))
  | eachChosen {ι κ α β : Type} {R : α → β → Prop} {P : ι → κ → Prop} {is : List ι} {js : List κ}
      {f : ι → Construction I α} {g : κ → Construction I β} (h : List.Forall₂ P is js)
      (hf : ∀ i j, P i j → Respelled R (f i) (g j)) :
      Respelled Eq (.ok (.encoder (Checked.eachChosen is f))) (.ok (.encoder (Checked.eachChosen js g)))
  | onlyIf {α β : Type} {R : α → β → Prop} (late cond : Bool) {x : Construction I α} {y : Construction I β}
      (h : Respelled R x y) :
      Respelled Eq ((deferred late x).bind fun e => made (Checked.onlyIf cond e))
        ((deferred late y).bind fun e => made (Checked.onlyIf cond e))
  | ite {α β : Type} {R : α → β → Prop} (late late' cond : Bool) {x x' : Construction I α} {y y' : Construction I β}
      (h : Respelled R x y) (h' : Respelled R x' y') :
      Respelled R ((deferred late x).bind fun e => (deferred late' x').bind fun e' => made (Checked.ite cond e e'))
        ((deferred late y).bind fun e => (deferred late' y').bind fun e' => made (Checked.ite cond e e'))
  | require {c d : List Value} (h : c.map Value.plain = d.map Value.plain) :
      Respelled Eq (made (Checked.require c)) (made (Checked.require d))
  | requireAll {cs ds : List (List Value)} (h : cs.map (List.map Value.plain) = ds.map (List.map Value.plain)) :
      Respelled Eq (.ok (.encoder (Checked.requireAll cs))) (.ok (.encoder (Checked.requireAll ds)))
  | exclude (a : Assignment) : Respelled Eq (.ok (.encoder (.exclude a))) (.ok (.encoder (.exclude a)))
  | prescribe (a : Assignment) : Respelled Eq (.ok (.encoder (.prescribe a))) (.ok (.encoder (.prescribe a)))
  | context {α β : Type} {R : α → β → Prop} (name : String) {x : Construction I α} {y : Construction I β}
      (h : Respelled R x y) :
      Respelled R (x.bind fun e => made (Checked.context name e)) (y.bind fun e => made (Checked.context name e))
  | unlessAny {α β : Type} {R : α → β → Prop} {gs hs : List Value} {x : Construction I α} {y : Construction I β}
      (hg : gs.map Value.plain = hs.map Value.plain) (h : Respelled R x y) :
      Respelled R (x.bind fun e => made (Checked.unlessAny gs e)) (y.bind fun e => made (Checked.unlessAny hs e))
  | ifAll {α β : Type} {R : α → β → Prop} {gs hs : List Value} {x : Construction I α} {y : Construction I β}
      (hg : gs.map Value.plain = hs.map Value.plain) (h : Respelled R x y) :
      Respelled R (x.bind fun e => made (Checked.ifAll gs e)) (y.bind fun e => made (Checked.ifAll hs e))
  | withFresh {α β : Type} {R : α → β → Prop} (n : Value) {x : Construction I α} {y : Construction I β}
      (h : Respelled R x y) :
      Respelled R (x.bind fun e => made (Checked.withFresh n (.given e)))
        (y.bind fun e => made (Checked.withFresh n (.given e)))
  | withScope {α β : Type} {R : α → β → Prop} (n : Value) {f : Scope → Construction I α}
      {g : Scope → Construction I β} (h : ∀ scope, Respelled R (f scope) (g scope)) :
      Respelled R (made (Checked.withFresh n (.made f))) (made (Checked.withFresh n (.made g)))
  | gate {g g' : Gate Value} (h : g.map Value.plain = g'.map Value.plain) :
      Respelled Eq (made (g.check.map Gate.encode)) (made (g'.check.map Gate.encode))
  | cardinality {c c' : Cardinality Value Value} (h : c.map Value.plain = c'.map Value.plain) :
      Respelled Eq (made c.construct) (made c'.construct)
  | expr (e : Expr) : Respelled Eq (.ok (.encoder e.encode)) (.ok (.encoder e.encode))
  | constraint (c : Candidate) : Respelled Eq (made c.encode) (made c.encode)
  | attempt {α β : Type} {R : α → β → Prop} {x : Construction I α} {y : Construction I β} (h : Respelled R x y) :
      Respelled (SameResult R) (x.map fun e => .encoder (Checked.attempt e))
        (y.map fun e => .encoder (Checked.attempt e))

/-! ### What is handed over -/

/-- Encoders in lockstep, or something of the same other kind. -/
inductive Supplied.Lockstep (S : State I → State I → Prop) (R : α → β → Prop) :
    Supplied I α → Supplied I β → Prop where
  | encoder {e : Encoder I α} {f : Encoder I β} (h : Encoder.Lockstep S R e f) :
      Lockstep S R (.encoder e) (.encoder f)
  | other (kind : String) : Lockstep S R (.other kind) (.other kind)

section

variable {S : State I → State I → Prop} {R : α → β → Prop} {x : Construction I α} {y : Construction I β}

private theorem Supplied.Lockstep.get {a : Supplied I α} {b : Supplied I β} (h : Supplied.Lockstep S R a b) :
    SameResult (Encoder.Lockstep S R) a.get b.get := by
  cases h with
  | encoder h => exact .ok h
  | other kind => exact .error _

private theorem Supplied.Lockstep.receiver {a : Supplied I α} {b : Supplied I β} (h : Supplied.Lockstep S R a b) :
    SameResult (Encoder.Lockstep S R) a.receiver b.receiver := by
  cases h with
  | encoder h => exact .ok h
  | other kind => exact .error _

private theorem Supplied.Lockstep.given {a : Supplied I α} {b : Supplied I β} (h : Supplied.Lockstep S R a b)
    (scope : Scope) :
    SameResult (Encoder.Lockstep S R) (ScopeBody.get scope (.given a)) (ScopeBody.get scope (.given b)) := by
  cases h with
  | encoder h => exact .ok h
  | other kind => exact .error _

private theorem Construction.made_lockstep {x : Except Error (Encoder I α)} {y : Except Error (Encoder I β)}
    (h : SameResult (Encoder.Lockstep S R) x y) :
    SameResult (Supplied.Lockstep S R) (Construction.made x) (Construction.made y) :=
  h.map fun _ _ => .encoder

private theorem Construction.get_lockstep (h : SameResult (Supplied.Lockstep S R) x y) :
    SameResult (Encoder.Lockstep S R) (do (← x).get) (do (← y).get) :=
  h.bind fun _ _ hab => hab.get

private theorem Construction.deferred_lockstep (h : SameResult (Supplied.Lockstep S R) x y) (late : Bool) :
    SameResult (fun d d' => SameResult (Encoder.Lockstep S R) d.get d'.get) (Construction.deferred late x)
      (Construction.deferred late y) := by
  cases late with
  | true => exact .ok (Construction.get_lockstep h)
  | false =>
    refine h.map fun a b hab => ?_
    cases hab with
    | encoder h => exact .ok h
    | other kind => exact .error _

end

/-! ### Lockstep -/

open State

variable [Index I]

namespace Checked

variable {R : α → β → Prop}

section

variable {a : Supplied I α} {b : Supplied I β} (h : Supplied.Lockstep State.Respelled R a b)

include h

private theorem context_lockstep (name : String) :
    SameResult (Encoder.Lockstep State.Respelled R) (context name a) (context name b) :=
  h.get.bind fun _ _ hef => .ok (bisimilar_respelled.context name hef)

private theorem unlessAny_lockstep {gs hs : List Value} (hg : gs.map Value.plain = hs.map Value.plain) :
    SameResult (Encoder.Lockstep State.Respelled R) (unlessAny gs a) (unlessAny hs b) :=
  (ofValues_same hg).bind fun _ _ hgs => h.get.bind fun _ _ hef => .ok (bisimilar_respelled.unlessAny hgs hef)

private theorem ifAll_lockstep {gs hs : List Value} (hg : gs.map Value.plain = hs.map Value.plain) :
    SameResult (Encoder.Lockstep State.Respelled R) (ifAll gs a) (ifAll hs b) := by
  refine (ofValues_same hg).bind fun gs hs hgs => h.get.bind fun e f hef => .ok (bisimilar_respelled.unlessAny ?_ hef)
  rw [List.map_map, List.map_map]
  exact map_same Literal.plain_negate_plain hgs

private theorem attempt_lockstep : Encoder.Lockstep State.Respelled (SameResult R) (attempt a) (attempt b) := by
  cases h with
  | encoder h => exact bisimilar_respelled.attempt h
  | other kind => exact bisimilar_respelled.pure (.error _)

end

private theorem withFresh_lockstep (n : Value) {body : ScopeBody I α} {body' : ScopeBody I β}
    (h : ∀ scope, SameResult (Encoder.Lockstep State.Respelled R) (body.get scope) (body'.get scope)) :
    SameResult (Encoder.Lockstep State.Respelled R) (withFresh n body) (withFresh n body') := by
  unfold withFresh
  cases scopeSize n with
  | error x => exact .error x
  | ok n => exact (h ⟨n⟩).bind fun e f hef => .ok (bisimilar_respelled.withFresh n hef)

private theorem onlyIf_lockstep (cond : Bool) {d : Deferred I α} {d' : Deferred I β}
    (h : SameResult (Encoder.Lockstep State.Respelled R) d.get d'.get) :
    SameResult (Encoder.Lockstep State.Respelled Eq) (onlyIf cond d) (onlyIf cond d') := by
  cases cond with
  | true => exact h.bind fun e f hef => .ok (bisimilar_respelled.map hef fun _ _ _ => rfl)
  | false => exact .ok (bisimilar_respelled.pure rfl)

omit [Index I] in
private theorem ite_lockstep (cond : Bool) {yes no : Deferred I α} {yes' no' : Deferred I β}
    (h : SameResult (Encoder.Lockstep State.Respelled R) yes.get yes'.get)
    (h' : SameResult (Encoder.Lockstep State.Respelled R) no.get no'.get) :
    SameResult (Encoder.Lockstep State.Respelled R) (ite cond yes no) (ite cond yes' no') := by
  cases cond with
  | true => exact h
  | false => exact h'

private theorem require_lockstep {c d : List Value} (h : c.map Value.plain = d.map Value.plain) :
    SameResult (Encoder.Lockstep (I := I) State.Respelled Eq) (require c) (require d) :=
  (ofValues_same h).bind fun _ _ hcd => .ok (bisimilar_respelled.require hcd)

end Checked

private theorem Encoder.prescribe_lockstep (a : Assignment) :
    Encoder.Lockstep (I := I) State.Respelled Eq (prescribe a) (prescribe a) := by
  refine bisimilar_respelled.eachChosen (P := Eq) (R := Eq) (List.forall₂_same.2 fun _ _ => rfl) fun e e' he => ?_
  cases he
  exact .ok (bisimilar_respelled.require rfl)

private theorem Gate.check_lockstep {g g' : Gate Value} (h : g.map Value.plain = g'.map Value.plain) :
    SameResult (Encoder.Lockstep (I := I) State.Respelled Eq) (g.check.map encode) (g'.check.map encode) := by
  have hcheck : SameResult (fun a b => a.map Literal.plain = b.map Literal.plain) g.check g'.check := by
    refine .of_map_eq ?_
    rw [← check_plain, h, check_plain]
  exact hcheck.map fun _ _ => encode_lockstep

private theorem Cardinality.construct_lockstep {c c' : Cardinality Value Value}
    (h : c.map Value.plain = c'.map Value.plain) :
    SameResult (Encoder.Lockstep (I := I) State.Respelled Eq) c.construct c'.construct := by
  have hcheck : SameResult (fun a b => a.map Literal.plain = b.map Literal.plain) c.check c'.check := by
    refine .of_map_eq ?_
    rw [← check_plain, h, check_plain]
  rw [construct_eq, construct_eq]
  exact hcheck.map fun _ _ => encode_lockstep

theorem Candidate.encode_lockstep (c : Candidate) :
    SameResult (Encoder.Lockstep (I := I) State.Respelled Eq) c.encode c.encode := by
  unfold encode
  cases c.get with
  | error x => exact .error x
  | ok c => exact .ok (Constraint.encode_lockstep c)

namespace Respelled

open Construction

variable {R : α → β → Prop} {x : Construction I α} {y : Construction I β}

/-- From states that differ in the representation of assumptions only, the encoders run in lockstep. -/
theorem lockstep (h : Respelled R x y) : SameResult (Supplied.Lockstep State.Respelled R) x y := by
  have hS := bisimilar_respelled (I := I)
  induction h with
  | fail x => exact .error x
  | other kind => exact .ok (.other kind)
  | compute h _ ih => exact h.bind ih
  | pure h => exact .ok (.encoder (hS.pure h))
  | bind _ _ ih ihf =>
    refine ih.bind fun a b hab => made_lockstep (hab.get.bind fun e f hef => ?_)
    exact .ok (hS.bind hef fun a b hab => get_lockstep (ihf a b hab))
  | andThen _ _ ih ih' =>
    refine ih.bind fun a b hab => ih'.bind fun c d hcd => made_lockstep ?_
    exact hab.receiver.bind fun e f hef => hcd.get.bind fun e' f' hef' => .ok (hS.andThen hef hef')
  | map _ hf ih =>
    exact ih.bind fun a b hab => made_lockstep (hab.receiver.bind fun e f hef => .ok (hS.map hef hf))
  | seq h _ ih =>
    refine (SameResult.mapM h ih).bind fun as bs hab => made_lockstep ?_
    exact (SameResult.mapM hab fun _ _ => Supplied.Lockstep.get).bind fun es fs hefs => .ok (hS.seq hefs)
  | eachChosen h _ ih => exact .ok (.encoder (hS.eachChosen h fun i j hij => get_lockstep (ih i j hij)))
  | onlyIf late cond _ ih =>
    exact (deferred_lockstep ih late).bind fun d d' hd => made_lockstep (Checked.onlyIf_lockstep cond hd)
  | ite late late' cond _ _ ih ih' =>
    refine (deferred_lockstep ih late).bind fun d d' hd => (deferred_lockstep ih' late').bind fun c c' hc => ?_
    exact made_lockstep (Checked.ite_lockstep cond hd hc)
  | require h => exact made_lockstep (Checked.require_lockstep h)
  | requireAll h =>
    exact .ok (.encoder (hS.eachChosen (R := Eq) (map_eq_iff_forall₂.1 h) fun c d => Checked.require_lockstep))
  | exclude a => exact .ok (.encoder (hS.require rfl))
  | prescribe a => exact .ok (.encoder (Encoder.prescribe_lockstep a))
  | context name _ ih => exact ih.bind fun a b hab => made_lockstep (Checked.context_lockstep hab name)
  | unlessAny hg _ ih => exact ih.bind fun a b hab => made_lockstep (Checked.unlessAny_lockstep hab hg)
  | ifAll hg _ ih => exact ih.bind fun a b hab => made_lockstep (Checked.ifAll_lockstep hab hg)
  | withFresh n _ ih =>
    exact ih.bind fun a b hab => made_lockstep (Checked.withFresh_lockstep n hab.given)
  | withScope n _ ih => exact made_lockstep (Checked.withFresh_lockstep n fun scope => get_lockstep (ih scope))
  | gate h => exact made_lockstep (Gate.check_lockstep h)
  | cardinality h => exact made_lockstep (Cardinality.construct_lockstep h)
  | expr e => exact .ok (.encoder (Expr.encode_lockstep e))
  | constraint c => exact made_lockstep (Candidate.encode_lockstep c)
  | attempt _ ih => exact ih.map fun a b hab => .encoder (Checked.attempt_lockstep hab)

/-- Literals of the same variables and polarities may be embedded in a temporary scope. -/
theorem embed {v w : Value} (h : v.plain = w.plain) {f : Literal → Construction I α} {g : Literal → Construction I β}
    (hf : ∀ l, Respelled R (f l) (g l)) : Respelled R ((Literal.embed v).bind f) ((Literal.embed w).bind g) := by
  have hsame : SameResult Eq (Literal.embed v) (Literal.embed w) := .of_map_eq (f := id) (congrArg _ (embed_same h))
  refine .compute hsame fun l k hlk => ?_
  cases hlk
  exact hf l

end Respelled

/-! ### Runs -/

/-- The results have the same formula and the same variable map, and related values. -/
structure Result.Same (R : α → β → Prop) (r : Result I α) (r' : Result I β) : Prop where
  clauses_eq : r.clauses = r'.clauses
  numVars_eq : r.numVars = r'.numVars
  varMap_eq : r.varMap = r'.varMap
  value : R r.value r'.value

private theorem State.Respelled.checkFinished_eq {s t : State I} (h : s.Respelled t) (invariants : Bool) :
    s.checkFinished invariants = t.checkFinished invariants := by
  obtain ⟨as, rfl, has⟩ := h
  have hempty := congrArg List.isEmpty has
  rw [List.isEmpty_map, List.isEmpty_map] at hempty
  have hcheck : { s with assumptions := as }.check = s.check := rfl
  unfold checkFinished
  dsimp only
  rw [hcheck, hempty]

private theorem Encoder.Lockstep.runFrom {R : α → β → Prop} {e : Encoder I α} {f : Encoder I β}
    (h : Encoder.Lockstep State.Respelled R e f) (s : State I) :
    SameOutcome Eq (Result.Same R) (e.runFrom s) (f.runFrom s) := by
  have hr := h s s (.refl s)
  unfold Encoder.runFrom
  generalize e.runOn s = r at hr
  generalize f.runOn s = r' at hr
  cases hr with
  | error x hend =>
    obtain ⟨as, rfl, -⟩ := hend
    exact .error x rfl
  | @ok a b t u hab hend =>
    dsimp only
    rw [← hend.checkFinished_eq]
    obtain ⟨as, rfl, -⟩ := hend
    cases t.checkFinished s.checkInvariants with
    | error x => exact .error x rfl
    | ok _ => exact .ok ⟨rfl, rfl, rfl, hab⟩ rfl

/-- Replacing literals by others of the same variable and polarity, anywhere in what is handed over, a run returns the
same formula, with the same variable map, or fails with the same error; and it leaves the same journal. -/
theorem Respelled.same_run {R : α → β → Prop} {x : Construction I α} {y : Construction I β} (h : Respelled R x y)
    (vars : List Value) (embedding : Option (Table Value)) (config : Config) (j : Journal) :
    SameOutcome Eq (Result.Same R) ((Journaled.ofExcept x >>= fun e => run vars e embedding config) j)
      ((Journaled.ofExcept y >>= fun e => run vars e embedding config) j) := by
  show SameOutcome Eq _ (EStateM.bind _ _ j) (EStateM.bind _ _ j)
  cases h.lockstep with
  | error x => exact .error x rfl
  | @ok a b hab =>
    show SameOutcome Eq _ (run vars a embedding config j) (run vars b embedding config j)
    unfold run
    cases VarMap.ofUniverse (I := I) vars embedding with
    | error x => exact .error x rfl
    | ok m =>
      cases hab with
      | other kind => exact .error _ rfl
      | encoder hab => exact hab.runFrom _

open Construction in
theorem Respelled.same_run_of_foreign_literals :
    let inner (w : Value) : Construction Int Unit :=
      made (Checked.withFresh (.int 1) (.made fun scope => (Literal.embed w).bind fun l => (scope.get 0).bind fun t =>
        made (Checked.require [l.toValue, t.toValue])))
    let guarded (v w : Value) : Construction Int Unit := (inner w).bind fun e => made (Checked.ifAll [v] e)
    let p (v w : Value) : Construction Int Unit :=
      (made (Cardinality.atMost [v, w] (.int 1)).construct).bind fun e =>
        (guarded v w).bind fun e' => made (Checked.andThen e e')
    let results (e : Construction Int Unit) :=
      (Journaled.ofExcept e >>= fun e => run [.int 1, .int 2] e none {}) .empty
    (∀ v p, (Value.foreign v p).neg = .error .unsuitableValue) ∧
      Respelled Eq (p (.int 1) (.lit (.int 2) false)) (p (.foreign (.int 1) true) (.foreign (.int 2) false)) ∧
      ∃ r j r' j', results (p (.int 1) (.lit (.int 2) false)) = .ok r j ∧
        results (p (.foreign (.int 1) true) (.foreign (.int 2) false)) = .ok r' j' ∧
        r.clauses = [[-1, 3], [2, -3], [-1, -2, 4]] ∧ r'.clauses = r.clauses := by
  intro inner guarded p results
  have hp :
      Respelled Eq (p (.int 1) (.lit (.int 2) false)) (p (.foreign (.int 1) true) (.foreign (.int 2) false)) := by
    refine .andThen (.cardinality (I := Int) rfl) (.ifAll rfl (.withScope _ fun scope => .embed rfl fun l => ?_))
    refine .compute (Q := Eq) (.of_map_eq (f := id) rfl) fun t t' ht => ?_
    cases ht
    exact .require rfl
  have hrun : ∃ r j, results (p (.int 1) (.lit (.int 2) false)) = .ok r j ∧
      r.clauses = [[-1, 3], [2, -3], [-1, -2, 4]] := ⟨_, _, rfl, rfl⟩
  obtain ⟨r, j, hr, hc⟩ := hrun
  have hsame : SameOutcome Eq (Result.Same Eq) (results _) (results _) := hp.same_run [.int 1, .int 2] none {} .empty
  rw [hr] at hsame
  refine ⟨fun v p => rfl, hp, r, j, ?_⟩
  generalize results (p (.foreign (.int 1) true) (.foreign (.int 2) false)) = q at hsame ⊢
  cases hsame with
  | ok h hj => exact ⟨_, _, hr, rfl, hc, h.clauses_eq.symm⟩

end Clausify
