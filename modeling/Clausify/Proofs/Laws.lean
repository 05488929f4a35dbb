import Clausify.Encoder.Checked
import Clausify.Proofs.Lockstep

/-!
# Laws of composition

A composed encoder checks the counter once more behind its parts.  Each part that succeeded was checked already, so
the counter did not fall meanwhile (`Ascending`) and the further check passes: a composed encoder is carried out as
its parts are (`runOn_bind`, `runOn_seq`).  So the laws of a monad hold for all encoders, whatever a step does to the
state, and a sequence that is grouped in another way differs in its value only (`Encoder.bind_laws_and_grouping`).
-/

namespace Clausify.Encoder

variable {I α β γ ι : Type}

/-! ### Computations that do not set the counter back -/

/-- The computation does not set the counter back when it succeeds. -/
def Ascending (x : EStateM Error (State I) α) : Prop := ∀ s a t, x s = .ok a t → s.nextVar ≤ t.nextVar

private theorem ascending_pure (a : α) : Ascending (pure a : EStateM Error (State I) α) := by
  intro s b t h
  cases h
  exact Int.le_refl _

theorem Ascending.bind {x : EStateM Error (State I) α} {f : α → EStateM Error (State I) β} (hx : Ascending x)
    (hf : ∀ a, Ascending (f a)) : Ascending (x >>= f) := by
  intro s b u h
  obtain ⟨a, t, ht, hu⟩ := bindState_eq_ok.1 h
  exact Int.le_trans (hx s a t ht) (hf a t b u hu)

private theorem ascending_forM {f : ι → EStateM Error (State I) PUnit} (hf : ∀ i, Ascending (f i)) (is : List ι) :
    Ascending (is.forM f) := by
  induction is with
  | nil => exact ascending_pure PUnit.unit
  | cons i is ih =>
    have hcons : (i :: is).forM f = (f i >>= fun _ => is.forM f) := List.forM_cons
    rw [hcons]
    exact (hf i).bind fun _ => ih

theorem ascending_runOn (e : Encoder I α) : Ascending e.runOn := fun _ _ _ h => (runOn_eq_ok_iff.1 h).2

private theorem ascending_runChosen (choice : Except Error (Encoder I α)) : Ascending (runChosen choice) := by
  cases choice with
  | error x =>
    intro s a t h
    cases h
  | ok e => exact ascending_runOn e

/-- Where the step does not set the counter back, the check behind it passes. -/
theorem Ascending.runOn_eq {e : Encoder I α} (h : Ascending e.step) : e.runOn = e.step := by
  funext s
  unfold runOn
  cases hs : e.step s with
  | error x t => rfl
  | ok a t => exact if_neg (Int.not_lt.2 (h s a t hs))

/-! ### Composed encoders are carried out as their parts are -/

theorem runOn_pure (a : α) : (Encoder.pure a : Encoder I α).runOn = pure a := (ascending_pure a).runOn_eq

theorem runOn_bind (e : Encoder I α) (f : α → Except Error (Encoder I β)) :
    (e.bind f).runOn = (e.runOn >>= fun a => runChosen (f a)) :=
  ((ascending_runOn e).bind fun a => ascending_runChosen (f a)).runOn_eq

private theorem runOn_andThen (e : Encoder I α) (f : Encoder I β) :
    (e.andThen f).runOn = (e.runOn >>= fun _ => f.runOn) :=
  ((ascending_runOn e).bind fun _ => ascending_runOn f).runOn_eq

theorem runOn_map (f : α → β) (e : Encoder I α) : (e.map f).runOn = (e.runOn >>= fun a => pure (f a)) :=
  ((ascending_runOn e).bind fun a => ascending_pure (f a)).runOn_eq

theorem runOn_eachChosen (items : List ι) (f : ι → Except Error (Encoder I α)) :
    (eachChosen items f).runOn = items.forM fun i => (runChosen (f i) >>= fun _ => pure PUnit.unit) :=
  Ascending.runOn_eq
    (ascending_forM (fun i => (ascending_runChosen (f i)).bind fun _ => ascending_pure PUnit.unit) items)

theorem eachChosen_map (g : β → ι) (items : List β) (f : ι → Except Error (Encoder I α)) :
    eachChosen (items.map g) f = eachChosen items fun i => f (g i) := by
  unfold eachChosen
  simp only [List.forM_eq_forM, List.forM_map]

/-- A loop is the sequence of its rounds. -/
theorem each_eq_seq (items : List ι) (f : ι → Encoder I α) : each items f = seq (items.map f) :=
  (eachChosen_map f items .ok).symm

theorem runOn_seq (es : List (Encoder I α)) :
    (seq es).runOn = es.forM fun e => (e.runOn >>= fun _ => pure PUnit.unit) :=
  runOn_eachChosen es .ok

theorem runOn_seq_cons (e : Encoder I α) (es : List (Encoder I α)) :
    (seq (e :: es)).runOn = (e.runOn >>= fun _ => (seq es).runOn) := by
  rw [runOn_seq, runOn_seq]
  refine List.forM_cons.trans ?_
  rw [bind_assoc]
  rfl

theorem runOn_each_singleton (i : ι) (f : ι → Encoder I Unit) : (each [i] f).runOn = (f i).runOn := by
  rw [each_eq_seq, runOn_seq]
  refine List.forM_cons.trans ?_
  rw [bind_assoc]
  exact bind_pure _

/-- Only how the rounds are carried out matters. -/
theorem runOn_each_congr {items : List ι} {f g : ι → Encoder I α} (h : ∀ i ∈ items, (f i).runOn = (g i).runOn) :
    (each items f).runOn = (each items g).runOn := by
  have hforM : ∀ f : ι → Encoder I α,
      (each items f).runOn = (items.map fun i => (f i).runOn).forM fun x => (x >>= fun _ => pure PUnit.unit) := by
    intro f
    unfold each
    rw [runOn_eachChosen]
    simp only [List.forM_eq_forM, List.forM_map]
    rfl
  rw [hforM, hforM, List.map_congr_left h]

/-- What is chosen late and then bound is carried out in the same order. -/
private theorem runChosen_bind (choice : Except Error (Encoder I α)) (f : α → Except Error (Encoder I β)) :
    runChosen (do return (← choice).bind f) = (runChosen choice >>= fun a => runChosen (f a)) := by
  cases choice with
  | error x => rfl
  | ok e => exact runOn_bind e f

/-- Bound from the left or from the right, three encoders are carried out in the same order. -/
private theorem runOn_bind_bind (e : Encoder I α) (f : α → Except Error (Encoder I β))
    (g : β → Except Error (Encoder I γ)) :
    ((e.bind f).bind g).runOn = (e.bind fun a => do return (← f a).bind g).runOn := by
  rw [runOn_bind, runOn_bind, runOn_bind, bind_assoc]
  simp only [runChosen_bind]

/-! ### Groups -/

/-- The encoder carries out the encoders of a list in order, in groups that `seq` and `andThen` make.  The value of a
group may be replaced. -/
inductive Grouped : List (Encoder I α) → {β : Type} → Encoder I β → Prop where
  | single (e : Encoder I α) : Grouped [e] e
  | andThen {β γ : Type} {es fs : List (Encoder I α)} {g : Encoder I β} {h : Encoder I γ} :
      Grouped es g → Grouped fs h → Grouped (es ++ fs) (g.andThen h)
  | seq {ι β : Type} (items : List ι) (es : ι → List (Encoder I α)) (g : ι → Encoder I β) :
      (∀ i ∈ items, Grouped (es i) (g i)) → Grouped (items.flatMap es) (.seq (items.map g))
  | map {β γ : Type} {es : List (Encoder I α)} {g : Encoder I β} (f : β → γ) : Grouped es g → Grouped es (g.map f)

/-- What an encoder does, without its value. -/
def effect (e : Encoder I α) : EStateM Error (State I) PUnit := e.runOn >>= fun _ => pure PUnit.unit

private theorem effect_seq (es : List (Encoder I α)) : (seq es).effect = es.forM effect := by
  unfold effect
  rw [runOn_seq]
  exact bind_pure _

private theorem effect_andThen (e : Encoder I α) (f : Encoder I β) :
    (e.andThen f).effect = (e.effect >>= fun _ => f.effect) := by
  unfold effect
  rw [runOn_andThen, bind_assoc, bind_assoc]
  simp only [pure_bind]

private theorem effect_map (f : α → β) (e : Encoder I α) : (e.map f).effect = e.effect := by
  unfold effect
  rw [runOn_map, bind_assoc]
  simp only [pure_bind]

/-- A group does what its encoders do one after the other. -/
private theorem Grouped.effect_eq {es : List (Encoder I α)} {g : Encoder I β} (h : Grouped es g) :
    g.effect = es.forM effect := by
  induction h with
  | single e =>
    have hsingle : [e].forM effect = (e.effect >>= fun _ => pure PUnit.unit) := List.forM_cons
    rw [hsingle]
    exact (bind_pure _).symm
  | andThen _ _ ihg ihh =>
    rw [effect_andThen, ihg, ihh]
    exact List.forM_append.symm
  | @seq ι β items es g hg ih =>
    rw [effect_seq]
    clear hg
    induction items with
    | nil => rfl
    | cons i items ihs =>
      obtain ⟨hi, his⟩ := List.forall_mem_cons.1 ih
      have hcons : ((i :: items).map g).forM effect = ((g i).effect >>= fun _ => (items.map g).forM effect) :=
        List.forM_cons
      rw [hcons, hi, ihs his, List.flatMap_cons]
      exact List.forM_append.symm
  | map f _ ih => rw [effect_map, ih]

/-- Encoders that do the same have the same outcome, up to the value. -/
private theorem sameOutcome_of_effect_eq {e : Encoder I α} {f : Encoder I β} (h : e.effect = f.effect) (s : State I) :
    SameOutcome Eq (fun _ _ => True) (e.runOn s) (f.runOn s) := by
  have hs : EStateM.bind e.runOn (fun _ => EStateM.pure PUnit.unit) s =
      EStateM.bind f.runOn (fun _ => EStateM.pure PUnit.unit) s := congrFun h s
  unfold EStateM.bind at hs
  generalize e.runOn s = r at hs ⊢
  generalize f.runOn s = r' at hs ⊢
  cases r with
  | ok a t =>
    cases r' with
    | ok b u =>
      cases hs
      exact .ok trivial rfl
    | error y u => cases hs
  | error x t =>
    cases r' with
    | ok b u => cases hs
    | error y u =>
      cases hs
      exact .error x rfl

/-! ### Laws -/

/-- The laws of a monad hold for all encoders, for continuations that may fail or choose something that is no encoder,
and in every state: both sides have the same value or error and leave the same state.  A sequence that is grouped in
any way by `seq` and `andThen` fails with the same error or succeeds, and leaves the same state. -/
theorem bind_laws_and_grouping :
    (∀ (a : α) (f : α → Except Error (Supplied I β)) (s : State I),
      runChosen (Checked.bind (.encoder (.pure a)) f) s = runChosen (do (← f a).get) s) ∧
    (∀ (m : Encoder I α) (s : State I),
      runChosen (Checked.bind (.encoder m) fun a => .ok (.encoder (.pure a))) s = m.runOn s) ∧
    (∀ (m : Encoder I α) (f : α → Except Error (Supplied I β)) (g : β → Except Error (Supplied I γ)) (s : State I),
      runChosen (do Checked.bind (.encoder (← Checked.bind (.encoder m) f)) g) s =
        runChosen (Checked.bind (.encoder m) fun a => do return .encoder (← Checked.bind (← f a) g)) s) ∧
    ∀ (es : List (Encoder I α)) (g : Encoder I β), Grouped es g → ∀ s,
      SameOutcome Eq (fun _ _ => True) ((seq es).runOn s) (g.runOn s) := by
  refine ⟨fun a f s => ?_, fun m s => ?_, fun m f g s => ?_, fun es g hg s => ?_⟩
  · have hbind := runOn_bind (.pure a) fun a => do (← f a).get
    rw [runOn_pure, pure_bind] at hbind
    exact congrFun hbind s
  · have hbind := runOn_bind m fun a => .ok (.pure a)
    have hpure (a : α) : runChosen (.ok (.pure a : Encoder I α)) = pure a := runOn_pure a
    simp only [hpure, bind_pure] at hbind
    exact congrFun hbind s
  · have hchosen (a : α) :
        (do (← (do return .encoder (← Checked.bind (← f a) g) : Except Error (Supplied I γ))).get) =
        (do return (← (do (← f a).get)).bind fun b => do (← g b).get : Except Error (Encoder I γ)) := by
      rcases f a with x | ⟨e⟩ | ⟨kind⟩ <;> rfl
    have hassoc := runOn_bind_bind m (fun a => do (← f a).get) fun b => do (← g b).get
    simp only [← hchosen] at hassoc
    exact congrFun hassoc s
  · refine sameOutcome_of_effect_eq ?_ s
    rw [effect_seq, hg.effect_eq]

/-- The second of three steps sets the counter back.  The third one is not carried out, in whichever group it
stands. -/
theorem bind_laws_and_grouping_of_lowered_counter :
    let move (n : Int) : Encoder Int Unit := .modify fun s => { s with nextVar := s.nextVar + n }
    let es := [move 4, move (-2), move 1]
    let g := (move 4).andThen (seq [(move (-2)).andThen (move 1)])
    let s : State Int := .initial (.ofTable .empty) true true .empty
    Grouped es g ∧ SameOutcome Eq (fun _ _ => True) ((seq es).runOn s) (g.runOn s) ∧
      g.runOn s = .error (.counterDecreased 5 3) { s with nextVar := 3 } := by
  intro move es g s
  have hpair : Grouped [move (-2), move 1] ((move (-2)).andThen (move 1)) := .andThen (.single _) (.single _)
  have hg : Grouped es g :=
    .andThen (.single (move 4)) (.seq [()] (fun _ => [move (-2), move 1]) (fun _ => _) fun _ _ => hpair)
  exact ⟨hg, (@bind_laws_and_grouping Int Unit Unit Unit).2.2.2 es g hg s, rfl⟩

end Clausify.Encoder
