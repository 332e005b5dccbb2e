import Bitstream.Foundation.CheckedEvaluation

/-!
# While loops

The loop `while (guard) { body }` of C, with a body that may break off. `WhileEnds` is the meaning
of the loop: it ends from a state in another after finitely many passes, and in at most one
(`WhileEnds.unique`). `whileLoop` evaluates a bounded number of passes. Where a measure falls with
every pass, a bound that reaches the measure is enough: the bounded loop ends where the loop does
(`whileLoop_ends`). `whileLoop_ensures` is the rule for what the loop does, and
`assertingLoop_ensures` the one of a loop whose body asserts.
-/

set_option autoImplicit false
set_option relaxedAutoImplicit false

namespace Bitstream.Foundation

/-- How a pass of a loop ends, and in which state. -/
inductive Pass (σ : Type)
  /-- The guard is tested again. -/
  | next (s : σ)
  /-- The loop is left by a `break`. -/
  | leave (s : σ)

variable {σ : Type}

/-- The pass ends in a state of which `next` holds, or leaves the loop in one of which `leave`
holds. -/
def Pass.Ends (next leave : σ → Prop) : Pass σ → Prop
  | .next s => next s
  | .leave s => leave s

/-- The same of a pass whose assertions may fail. -/
def Pass.EndsOr (failed : Prop) (next leave : σ → Prop) : Option (Pass σ) → Prop
  | none => failed
  | some pass => pass.Ends next leave

/-- The loop ends, from the first state in the second. -/
inductive WhileEnds (guard : σ → Prop) (body : σ → Eval (Pass σ)) (mode : Overshift) :
    σ → σ → Prop
  | exit {s : σ} (hguard : ¬ guard s) : WhileEnds guard body mode s s
  | leave {s t : σ} (hguard : guard s) (hbody : (body s).value mode = .leave t) :
    WhileEnds guard body mode s t
  | next {s t u : σ} (hguard : guard s) (hbody : (body s).value mode = .next t)
    (hrest : WhileEnds guard body mode t u) : WhileEnds guard body mode s u

/-- At most `fuel` passes of the loop. -/
def whileLoop (guard : σ → Prop) [DecidablePred guard] (body : σ → Eval (Pass σ)) :
    ℕ → σ → Eval σ
  | 0, s => pure s
  | fuel + 1, s =>
    if guard s then do
      match ← body s with
      | .next t => whileLoop guard body fuel t
      | .leave t => pure t
    else pure s

/-- At most `fuel` passes of a loop whose body asserts; none when an assertion fails. -/
def assertingLoop (guard : σ → Prop) [DecidablePred guard] (body : σ → Eval (Option (Pass σ))) :
    ℕ → σ → Eval (Option σ)
  | 0, s => pure (some s)
  | fuel + 1, s =>
    if guard s then do
      match ← body s with
      | none => pure none
      | some (.next t) => assertingLoop guard body fuel t
      | some (.leave t) => pure (some t)
    else pure (some s)

variable {guard : σ → Prop} {body : σ → Eval (Pass σ)} {mode : Overshift}

/-- A loop ends in one state only. -/
theorem WhileEnds.unique {s t u : σ} (h : WhileEnds guard body mode s t)
    (k : WhileEnds guard body mode s u) : t = u := by
  induction h with
  | exit hguard =>
    cases k with
    | exit => rfl
    | leave hguard' => exact absurd hguard' hguard
    | next hguard' => exact absurd hguard' hguard
  | leave hguard hbody =>
    cases k with
    | exit hguard' => exact absurd hguard hguard'
    | leave _ hbody' => exact Pass.leave.inj (hbody.symm.trans hbody')
    | next _ hbody' => exact nomatch hbody.symm.trans hbody'
  | next hguard hbody _ ih =>
    cases k with
    | exit hguard' => exact absurd hguard hguard'
    | leave _ hbody' => exact nomatch hbody.symm.trans hbody'
    | next _ hbody' hrest =>
      obtain rfl := Pass.next.inj (hbody.symm.trans hbody')
      exact ih hrest

/-- A bound on the passes that reaches a falling measure is enough: the bounded loop ends where the
loop does. -/
theorem whileLoop_ends [DecidablePred guard] (measure : σ → ℕ)
    (hpos : ∀ s, guard s → 0 < measure s)
    (hfalls : ∀ s t, guard s → (body s).value mode = .next t → measure t < measure s)
    {fuel : ℕ} {s : σ} (hfuel : measure s ≤ fuel) :
    WhileEnds guard body mode s ((whileLoop guard body fuel s).value mode) := by
  induction fuel generalizing s with
  | zero =>
    refine .exit fun hguard ↦ ?_
    have hmeasure := hpos s hguard
    omega
  | succ fuel ih =>
    unfold whileLoop
    by_cases hguard : guard s
    · rw [if_pos hguard, Eval.value_bind]
      cases hbody : (body s).value mode with
      | next t =>
        have hmeasure := hfalls s t hguard hbody
        exact .next hguard hbody (ih (by omega))
      | leave t => exact .leave hguard hbody
    · rw [if_neg hguard]
      exact .exit hguard

/-- The rule of a loop with an invariant that bounds the passes left: the loop is defined, and
leaves through its guard or a `break` with the postcondition. -/
theorem whileLoop_ensures [DecidablePred guard] {post : σ → Prop} (Inv : ℕ → σ → Prop)
    (hexit : ∀ n s, Inv n s → ¬ guard s → post s) (hzero : ∀ s, Inv 0 s → ¬ guard s)
    (hbody : ∀ n s, Inv (n + 1) s → guard s → Eval.Ensures mode (body s) (Pass.Ends (Inv n) post))
    {n : ℕ} {s : σ} (h : Inv n s) : Eval.Ensures mode (whileLoop guard body n s) post := by
  induction n generalizing s with
  | zero => exact Eval.ensures_pure (hexit 0 s h (hzero s h))
  | succ n ih =>
    unfold whileLoop
    by_cases hguard : guard s
    · rw [if_pos hguard]
      refine (hbody n s h hguard).bind fun pass hpass ↦ ?_
      cases pass with
      | next t => exact ih hpass
      | leave t => exact Eval.ensures_pure hpass
    · rw [if_neg hguard]
      exact Eval.ensures_pure (hexit _ s h hguard)

/-- The rule of a loop whose body asserts. Where an assertion fails, `post none` is to be shown. -/
theorem assertingLoop_ensures [DecidablePred guard] {body : σ → Eval (Option (Pass σ))}
    {post : Option σ → Prop} (Inv : ℕ → σ → Prop)
    (hexit : ∀ n s, Inv n s → ¬ guard s → post (some s)) (hzero : ∀ s, Inv 0 s → ¬ guard s)
    (hbody : ∀ n s, Inv (n + 1) s → guard s →
      Eval.Ensures mode (body s) (Pass.EndsOr (post none) (Inv n) fun t ↦ post (some t)))
    {n : ℕ} {s : σ} (h : Inv n s) : Eval.Ensures mode (assertingLoop guard body n s) post := by
  induction n generalizing s with
  | zero => exact Eval.ensures_pure (hexit 0 s h (hzero s h))
  | succ n ih =>
    unfold assertingLoop
    by_cases hguard : guard s
    · rw [if_pos hguard]
      refine (hbody n s h hguard).bind fun result hresult ↦ ?_
      cases result with
      | none => exact Eval.ensures_pure hresult
      | some pass =>
        cases pass with
        | next t => exact ih hresult
        | leave t => exact Eval.ensures_pure hresult
    · rw [if_neg hguard]
      exact Eval.ensures_pure (hexit _ s h hguard)

end Bitstream.Foundation
