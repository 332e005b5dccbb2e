import Mathlib.Data.List.Forall2

/-!
# Runs of calls on a component

A component answers calls one at a time: `step call s` is its reply and its next state. `trace`
lists the replies and states of a run after every call, `final` is the state the run ends in, and
`Along` says that a condition holds of every call of the run in the state the call is made in. The
rules are the induction over a run, done once: an invariant of one step holds after every call
(`Along.invariant`), conditions that the invariant relates carry over (`Along.mono`), a run freezes
what it shows if its single steps do (`freezes_iff_along`), and two components whose steps answer
alike and preserve a relation give the same observations after every call (`map_trace_eq`) and agree
on conditions that agree step by step (`along_iff_along`).
-/

set_option autoImplicit false
set_option relaxedAutoImplicit false

namespace Bitstream.Foundation

variable {κ σ ρ : Type*}

/-- The replies and states of a run, after every call. -/
def trace (step : κ → σ → ρ × σ) : List κ → σ → List (ρ × σ)
  | [], _ => []
  | call :: calls, s => step call s :: trace step calls (step call s).2

/-- The state in which a run ends. -/
def final (step : κ → σ → ρ × σ) : List κ → σ → σ
  | [], s => s
  | call :: calls, s => final step calls (step call s).2

/-- A condition holds of every call of a run, in the state in which the call is made. -/
def Along (step : κ → σ → ρ × σ) (P : κ → σ → Prop) : List κ → σ → Prop
  | [], _ => True
  | call :: calls, s => P call s ∧ Along step P calls (step call s).2

instance Along.decidable (step : κ → σ → ρ × σ) (P : κ → σ → Prop)
    [∀ call s, Decidable (P call s)] : ∀ calls s, Decidable (Along step P calls s)
  | [], _ => .isTrue trivial
  | call :: calls, s =>
    have := Along.decidable step P calls (step call s).2
    inferInstanceAs (Decidable (P call s ∧ Along step P calls (step call s).2))

section Runs

variable {step : κ → σ → ρ × σ}

theorem final_append (calls more : List κ) (s : σ) :
    final step (calls ++ more) s = final step more (final step calls s) := by
  induction calls generalizing s with
  | nil => rfl
  | cons call calls ih => exact ih (step call s).2

theorem trace_append (calls more : List κ) (s : σ) :
    trace step (calls ++ more) s = trace step calls s ++ trace step more (final step calls s) := by
  induction calls generalizing s with
  | nil => rfl
  | cons call calls ih =>
    show step call s :: trace step (calls ++ more) (step call s).2 = _
    rw [ih]
    rfl

/-- A condition on the calls alone holds along every run. -/
theorem Along.of_forall {P : κ → σ → Prop} {calls : List κ} (h : ∀ call ∈ calls, ∀ s, P call s)
    (s : σ) : Along step P calls s := by
  induction calls generalizing s with
  | nil => trivial
  | cons call calls ih =>
    exact ⟨h call List.mem_cons_self s, ih (fun c hc ↦ h c (List.mem_cons_of_mem call hc)) _⟩

theorem Along.of_calls {P : κ → Prop} {calls : List κ} (h : ∀ call ∈ calls, P call) (s : σ) :
    Along step (fun call _ ↦ P call) calls s := .of_forall (fun call hcall _ ↦ h call hcall) s

/-- An invariant that every admitted step preserves holds after every call of the run. -/
theorem Along.invariant {P : κ → σ → Prop} (Inv : σ → Prop)
    (hstep : ∀ call s, Inv s → P call s → Inv (step call s).2) {calls : List κ} {s : σ}
    (halong : Along step P calls s) (hs : Inv s) : ∀ entry ∈ trace step calls s, Inv entry.2 := by
  induction calls generalizing s with
  | nil =>
    intro entry hentry
    exact absurd hentry List.not_mem_nil
  | cons call calls ih =>
    intro entry hentry
    have hnext := hstep call s hs halong.1
    rcases List.mem_cons.mp hentry with rfl | hentry
    · exact hnext
    · exact ih halong.2 hnext entry hentry

/-- Such an invariant holds at the end of the run. -/
theorem Along.final_invariant {P : κ → σ → Prop} (Inv : σ → Prop)
    (hstep : ∀ call s, Inv s → P call s → Inv (step call s).2) {calls : List κ} {s : σ}
    (halong : Along step P calls s) (hs : Inv s) : Inv (final step calls s) := by
  induction calls generalizing s with
  | nil => exact hs
  | cons call calls ih => exact ih halong.2 (hstep call s hs halong.1)

/-- Under an invariant, a condition that implies another step by step implies it along the run. -/
theorem Along.mono {P Q : κ → σ → Prop} (Inv : σ → Prop)
    (hstep : ∀ call s, Inv s → P call s → Inv (step call s).2 ∧ Q call s) {calls : List κ} {s : σ}
    (halong : Along step P calls s) (hs : Inv s) : Along step Q calls s := by
  induction calls generalizing s with
  | nil => trivial
  | cons call calls ih =>
    obtain ⟨hnext, hq⟩ := hstep call s hs halong.1
    exact ⟨hq, ih halong.2 hnext⟩

/-- From the first moment on at which a flag is up, a run no longer changes what is shown. -/
def Freezes {ω : Type*} (step : κ → σ → ρ × σ) (flag : σ → Prop) (shown : σ → ω) (calls : List κ)
    (s : σ) : Prop :=
  ∀ first later : List κ, first ++ later <+: calls → flag (final step first s) →
    shown (final step (first ++ later) s) = shown (final step first s)

/-- Where a flag that is up stays up, a run freezes exactly when no single call made under the flag
changes what is shown. -/
theorem freezes_iff_along {ω : Type*} {C : κ → σ → Prop} (flag : σ → Prop) (shown : σ → ω)
    (Inv : σ → Prop)
    (hstep : ∀ call s, Inv s → C call s →
      Inv (step call s).2 ∧ (flag s → flag (step call s).2))
    {calls : List κ} {s : σ} (halong : Along step C calls s) (hs : Inv s) :
    Freezes step flag shown calls s ↔
      Along step (fun call s ↦ flag s → shown (step call s).2 = shown s) calls s := by
  induction calls generalizing s with
  | nil =>
    constructor
    · intro _
      trivial
    · intro _ first later hwithin _
      obtain ⟨rfl, rfl⟩ := List.append_eq_nil_iff.mp (List.prefix_nil.mp hwithin)
      rfl
  | cons call calls ih =>
    obtain ⟨hnext, hflag⟩ := hstep call s hs halong.1
    have htail := ih halong.2 hnext
    constructor
    · intro hfreezes
      refine ⟨fun hup ↦ hfreezes [] [call] (List.prefix_append [call] calls) hup, ?_⟩
      refine htail.mp fun first later hwithin hup ↦ ?_
      exact hfreezes (call :: first) later ((List.prefix_cons_inj call).mpr hwithin) hup
    · intro ⟨hhead, hrest⟩ first later hwithin hup
      cases first with
      | nil =>
        cases later with
        | nil => rfl
        | cons next later =>
          obtain ⟨rfl, hinit⟩ := List.cons_prefix_cons.mp hwithin
          have hlater := htail.mpr hrest [] later hinit (hflag hup)
          exact hlater.trans (hhead hup)
      | cons next first =>
        obtain ⟨rfl, hinit⟩ := List.cons_prefix_cons.mp hwithin
        exact htail.mpr hrest first later hinit hup

end Runs

/-- A condition on one component and a condition on a related one that agree step by step, as long
as the first has held, agree along the run. -/
theorem along_iff_along {κ' σ' ρ' : Type*} {step : κ → σ → ρ × σ} {step' : κ' → σ' → ρ' × σ'}
    {C P : κ → σ → Prop} {Q : κ' → σ' → Prop} (R : σ → σ' → Prop) (f : κ → κ')
    (hstep : ∀ call s s', R s s' → C call s →
      (P call s ↔ Q (f call) s') ∧ (P call s → R (step call s).2 (step' (f call) s').2))
    {calls : List κ} {s : σ} {s' : σ'} (halong : Along step C calls s) (hs : R s s') :
    Along step P calls s ↔ Along step' Q (calls.map f) s' := by
  induction calls generalizing s s' with
  | nil => exact Iff.rfl
  | cons call calls ih =>
    obtain ⟨hiff, hnext⟩ := hstep call s s' hs halong.1
    constructor
    · intro ⟨hp, hrest⟩
      exact ⟨hiff.mp hp, (ih halong.2 (hnext hp)).mp hrest⟩
    · intro ⟨hq, hrest⟩
      have hp := hiff.mpr hq
      exact ⟨hp, (ih halong.2 (hnext hp)).mpr hrest⟩

/-- Two components whose steps are observed alike and preserve a relation between their states, when
they take related calls, are observed alike after every call. -/
theorem map_trace_eq_of_forall₂ {κ' σ' ρ' ω : Type*} {step : κ → σ → ρ × σ}
    {step' : κ' → σ' → ρ' × σ'} {S : κ → κ' → Prop} {P : κ → σ → Prop} {R : σ → σ' → Prop}
    {observe : ρ × σ → ω} {observe' : ρ' × σ' → ω}
    (hstep : ∀ call call' s s', S call call' → R s s' → P call s →
      observe (step call s) = observe' (step' call' s') ∧ R (step call s).2 (step' call' s').2)
    {calls : List κ} {calls' : List κ'} (hcalls : List.Forall₂ S calls calls') {s : σ} {s' : σ'}
    (halong : Along step P calls s) (hs : R s s') :
    (trace step calls s).map observe = (trace step' calls' s').map observe' := by
  induction hcalls generalizing s s' with
  | nil => rfl
  | cons hcall _ ih =>
    obtain ⟨hobserve, hnext⟩ := hstep _ _ s s' hcall hs halong.1
    simp only [trace, List.map_cons, hobserve, ih halong.2 hnext]

/-- Two runs of calls that agree through two functions are related call by call. -/
theorem forall₂_of_map_eq {κ' τ : Type*} {f : κ → τ} {g : κ' → τ} {calls : List κ}
    {calls' : List κ'} (h : calls'.map g = calls.map f) :
    List.Forall₂ (fun call call' ↦ g call' = f call) calls calls' := by
  have heq : List.Forall₂ (· = ·) (calls'.map g) (calls.map f) := by
    rw [h, List.forall₂_eq_eq_eq]
  exact (List.forall₂_map_right_iff.mp (List.forall₂_map_left_iff.mp heq)).flip

/-- The same, where what is observed of the first component depends on the call. -/
theorem zipWith_trace_eq {κ' σ' ρ' ω : Type*} {step : κ → σ → ρ × σ} {step' : κ' → σ' → ρ' × σ'}
    {S : κ → κ' → Prop} {P : κ → σ → Prop} {R : σ → σ' → Prop} {observe : κ → ρ × σ → ω}
    {observe' : ρ' × σ' → ω}
    (hstep : ∀ call call' s s', S call call' → R s s' → P call s →
      observe call (step call s) = observe' (step' call' s') ∧
        R (step call s).2 (step' call' s').2)
    {calls : List κ} {calls' : List κ'} (hcalls : List.Forall₂ S calls calls') {s : σ} {s' : σ'}
    (halong : Along step P calls s) (hs : R s s') :
    List.zipWith observe calls (trace step calls s) = (trace step' calls' s').map observe' := by
  induction hcalls generalizing s s' with
  | nil => rfl
  | cons hcall _ ih =>
    obtain ⟨hobserve, hnext⟩ := hstep _ _ s s' hcall hs halong.1
    simp only [trace, List.zipWith_cons_cons, List.map_cons, hobserve, ih halong.2 hnext]

/-- Observations that do not depend on the call, where the second component is called through `f`.
-/
theorem map_trace_eq {κ' σ' ρ' ω : Type*} {step : κ → σ → ρ × σ} {step' : κ' → σ' → ρ' × σ'}
    {P : κ → σ → Prop} {R : σ → σ' → Prop} {observe : ρ × σ → ω} {observe' : ρ' × σ' → ω}
    (f : κ → κ')
    (hstep : ∀ call s s', R s s' → P call s →
      observe (step call s) = observe' (step' (f call) s') ∧
        R (step call s).2 (step' (f call) s').2)
    {calls : List κ} {s : σ} {s' : σ'} (halong : Along step P calls s) (hs : R s s') :
    (trace step calls s).map observe = (trace step' (calls.map f) s').map observe' := by
  have hcalls : List.Forall₂ (fun call call' ↦ call' = f call) calls (calls.map f) :=
    List.forall₂_map_right_iff.mpr (List.forall₂_same.mpr fun _ _ ↦ rfl)
  refine map_trace_eq_of_forall₂ (fun call call' s s' hcall hs hp ↦ ?_) hcalls halong hs
  rw [hcall]
  exact hstep call s s' hs hp

/-- The same, where the condition under which the steps are related is one on the second component.
-/
theorem map_trace_eq_of_along {κ' σ' ρ' ω : Type*} {step : κ → σ → ρ × σ}
    {step' : κ' → σ' → ρ' × σ'} {P : κ' → σ' → Prop} {R : σ → σ' → Prop} {observe : ρ × σ → ω}
    {observe' : ρ' × σ' → ω} (f : κ → κ')
    (hstep : ∀ call s s', R s s' → P (f call) s' →
      observe (step call s) = observe' (step' (f call) s') ∧
        R (step call s).2 (step' (f call) s').2)
    {calls : List κ} {s : σ} {s' : σ'} (halong : Along step' P (calls.map f) s') (hs : R s s') :
    (trace step calls s).map observe = (trace step' (calls.map f) s').map observe' := by
  induction calls generalizing s s' with
  | nil => rfl
  | cons call calls ih =>
    obtain ⟨hobserve, hnext⟩ := hstep call s s' hs halong.1
    simp only [trace, List.map_cons, hobserve]
    rw [ih halong.2 hnext]

/-- The relation between two such components holds at the end of the run. -/
theorem final_related {κ' σ' ρ' : Type*} {step : κ → σ → ρ × σ} {step' : κ' → σ' → ρ' × σ'}
    {P : κ → σ → Prop} {R : σ → σ' → Prop} (f : κ → κ')
    (hstep : ∀ call s s', R s s' → P call s → R (step call s).2 (step' (f call) s').2)
    {calls : List κ} {s : σ} {s' : σ'} (halong : Along step P calls s) (hs : R s s') :
    R (final step calls s) (final step' (calls.map f) s') := by
  induction calls generalizing s s' with
  | nil => exact hs
  | cons call calls ih => exact ih halong.2 (hstep call s s' hs halong.1)

end Bitstream.Foundation
