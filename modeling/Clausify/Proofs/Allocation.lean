import Clausify.Proofs.Frame

/-!
# The ranges of temporary scopes

The journal records each range of indices that is taken for temporaries.  The ranges recorded during a run follow
each other without a gap from the first free index to the last (`Program.closed_allocates`), so no two of them meet
(`Tiles.pairwise_disjoint`).  Events are only ever added at the end (`Program.closed_later`).
-/

namespace Clausify

/-- The range of indices that an event takes. -/
def Event.range? : Event → Option TempRange
  | .temporariesAllocated base count _ => some ⟨base, count⟩
  | _ => none

/-- The ranges of indices taken for temporaries, in order. -/
def Journal.ranges (j : Journal) : List TempRange :=
  j.events.filterMap Event.range?

namespace Journal

@[simp] theorem ranges_event (j : Journal) (e : Event) :
    (j.event e).ranges = j.ranges ++ e.range?.toList := by
  unfold ranges Journal.event
  rw [List.filterMap_append]
  cases h : e.range? <;> simp [h]

@[simp] theorem ranges_notice (j : Journal) (n : Notice) : (j.notice n).ranges = j.ranges := rfl

@[simp] theorem ranges_warn (j : Journal) (x : Error) : (j.warn x).ranges = j.ranges := by
  unfold warn
  split <;> rfl

theorem events_warn (j : Journal) (x : Error) : (j.warn x).events = j.events := by
  unfold warn
  split <;> rfl

end Journal

/-! ### Tilings -/

/-- The ranges follow each other from `lo` on and end below `hi`. -/
def Tiles (lo hi : Int) : List TempRange → Prop
  | [] => lo = hi
  | r :: rs => r.base = lo ∧ 0 ≤ r.count ∧ Tiles (lo + r.count) hi rs

namespace Tiles

theorem le {lo hi : Int} {rs : List TempRange} (h : Tiles lo hi rs) : lo ≤ hi := by
  induction rs generalizing lo with
  | nil => exact Int.le_of_eq h
  | cons r rs ih =>
    obtain ⟨-, hc, h⟩ := h
    have := ih h
    omega

private theorem append {lo mid hi : Int} {rs rs' : List TempRange} (h : Tiles lo mid rs) (h' : Tiles mid hi rs') :
    Tiles lo hi (rs ++ rs') := by
  induction rs generalizing lo with
  | nil =>
    have e : lo = mid := h
    rw [e]
    exact h'
  | cons r rs ih => exact ⟨h.1, h.2.1, ih h.2.2⟩

private theorem singleton (lo : Int) (n : Nat) : Tiles lo (lo + n) [⟨lo, n⟩] :=
  ⟨rfl, Int.natCast_nonneg n, rfl⟩

/-- All indices of a tiling lie within its bounds. -/
theorem between {lo hi : Int} {rs : List TempRange} (h : Tiles lo hi rs) :
    ∀ r ∈ rs, ∀ n ∈ r.indices, lo ≤ n ∧ n < hi := by
  induction rs generalizing lo with
  | nil =>
    intro r hr
    cases hr
  | cons r rs ih =>
    obtain ⟨hb, hc, h⟩ := h
    intro r' hr' n hn
    rcases List.mem_cons.1 hr' with rfl | hr'
    · have := TempRange.mem_indices.1 hn
      have := h.le
      omega
    · have := ih h r' hr' n hn
      omega

end Tiles

/-! ### Ranges taken meanwhile -/

variable {I : Type}

namespace State

/-- Between the states the indices from the first next free index to the second were taken for temporaries, in
ranges that were recorded. -/
def Allocates (s t : State I) : Prop :=
  ∃ rs, t.journal.ranges = s.journal.ranges ++ rs ∧ Tiles s.nextVar t.nextVar rs

theorem Allocates.of_eq {s t : State I} (hj : t.journal.ranges = s.journal.ranges) (hn : t.nextVar = s.nextVar) :
    s.Allocates t :=
  ⟨[], by rw [hj, List.append_nil], hn.symm⟩

theorem Allocates.trans {s t u : State I} (h : s.Allocates t) (h' : t.Allocates u) : s.Allocates u := by
  obtain ⟨rs, hrs, ht⟩ := h
  obtain ⟨rs', hrs', ht'⟩ := h'
  exact ⟨rs ++ rs', by rw [hrs', hrs, List.append_assoc], ht.append ht'⟩

theorem ranges_openContext (s : State I) (name : String) :
    (s.openContext name).journal.ranges = s.journal.ranges := by
  unfold openContext eventIf State.event State.notice
  dsimp only
  split
  · rw [Journal.ranges_event, Journal.ranges_notice]
    exact List.append_nil _
  · exact Journal.ranges_notice _ _

theorem nextVar_openContext (s : State I) (name : String) : (s.openContext name).nextVar = s.nextVar := by
  obtain ⟨j, e⟩ := s.openContext_eq name
  rw [e]

theorem allocates_takeFresh (s : State I) (n : Nat) : s.Allocates (s.takeFresh n) := by
  refine ⟨[⟨s.nextVar, n⟩], ?_, Tiles.singleton s.nextVar n⟩
  show ((s.journal.event _).notice _).ranges = _
  rw [Journal.ranges_notice, Journal.ranges_event]
  rfl

private theorem Allocates.leave {s inner : State I} (h : s.Allocates inner) :
    s.Allocates (endState (s.leave inner)) := by
  obtain ⟨rs, hrs, ht⟩ := h
  rw [leave_of_le ht.le, endState_ok]
  exact ⟨rs, hrs, ht⟩

end State

variable [Index I]

theorem Program.closed_allocates : Program.Closed (State.Allocates (I := I)) where
  refl s := .of_eq rfl rfl
  trans := State.Allocates.trans
  warn s x := .of_eq (Journal.ranges_warn s.journal x) rfl
  addClause h := by
    obtain ⟨d, -, -, rfl⟩ := State.addClause_eq_ok.1 h
    exact .of_eq rfl rfl
  context {s t name} h := by
    have : s.Allocates t := State.Allocates.trans
      (.of_eq (s.ranges_openContext name) (s.nextVar_openContext name)) h
    exact this
  contextLeft s path := .of_eq ((Journal.ranges_event _ _).trans (List.append_nil _)) rfl
  unlessAny h := h
  takeFresh := State.allocates_takeFresh
  leave {s t inner n} he h := by
    obtain ⟨gs, -, rfl⟩ := State.enter_eq_ok.1 he
    have h : (s.takeFresh n).Allocates t := h
    exact (s.allocates_takeFresh n).trans h.leave

/-- The events of a state come first among those of a later one. -/
def State.Later (s t : State I) : Prop := s.journal.events <+: t.journal.events

omit [Index I] in
theorem State.Later.ranges {s t : State I} (h : s.Later t) : s.journal.ranges <+: t.journal.ranges :=
  h.filterMap _

omit [Index I] in
private theorem State.later_openContext (s : State I) (name : String) : s.Later (s.openContext name) := by
  unfold State.Later State.openContext State.eventIf
  dsimp only
  split
  · exact List.prefix_append _ _
  · exact List.prefix_rfl

omit [Index I] in
theorem State.journal_enter {s inner : State I} {base : Int} {n : Nat} (h : s.enter base n = .ok inner) :
    inner.journal = s.journal := by
  obtain ⟨gs, -, rfl⟩ := State.enter_eq_ok.1 h
  rfl

omit [Index I] in
theorem State.journal_leave (s inner : State I) : (endState (s.leave inner)).journal = inner.journal := by
  unfold State.leave
  dsimp only
  split <;> rfl

theorem Program.closed_later : Program.Closed (State.Later (I := I)) where
  refl s := List.prefix_rfl
  trans := List.IsPrefix.trans
  warn s x := by
    have e : (s.journal.warn x).events = s.journal.events := Journal.events_warn ..
    exact ⟨[], (List.append_nil _).trans e.symm⟩
  addClause h := by
    obtain ⟨d, -, -, rfl⟩ := State.addClause_eq_ok.1 h
    exact List.prefix_rfl
  context {s t name} h := (s.later_openContext name).trans h
  contextLeft s path := List.prefix_append _ _
  unlessAny h := h
  takeFresh s n := List.prefix_append _ _
  leave {s t inner n} he h := by
    obtain ⟨gs, -, rfl⟩ := State.enter_eq_ok.1 he
    have h : (s.takeFresh n).Later t := h
    unfold State.Later
    rw [State.journal_leave]
    exact (List.prefix_append _ _).trans h

end Clausify
