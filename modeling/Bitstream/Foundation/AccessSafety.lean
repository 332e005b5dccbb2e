import Bitstream.Foundation.CheckedEvaluation

/-!
# Evaluations that meet some of their obligations

`Eval.Ensures` asks for every obligation. Code that is called outside its documented domain may
shift too far and still keep inside its arrays, and that is a property of its own. `Eval.Meets` is
the triple in which the obligations asked for are a parameter, with the same rules along the
structure of a program; what an undefined shift yields is then left open. `Obligation.InBounds` asks
for the memory accesses alone, and `Eval.DefinedIff` says exactly when every obligation is met.
-/

set_option autoImplicit false
set_option relaxedAutoImplicit false

namespace Bitstream.Foundation

/-- The accessed elements exist; nothing is asked of shifts, sums and differences. -/
def Obligation.InBounds : Obligation → Prop
  | .access first count size => first + count ≤ size
  | .shift _ _ | .add _ _ _ | .sub _ _ => True

instance : DecidablePred Obligation.InBounds
  | .access first count size => inferInstanceAs (Decidable (first + count ≤ size))
  | .shift _ _ | .add _ _ _ | .sub _ _ => .isTrue trivial

theorem Obligation.Holds.inBounds {o : Obligation} (h : o.Holds) : o.InBounds := by
  cases o with
  | access => exact h
  | shift | add | sub => trivial

namespace Eval

variable {α β : Type}

/-- Every memory access of the evaluation stays in its array. -/
def InBounds (x : Eval α) (mode : Overshift) : Prop := ∀ o ∈ (x mode).obligations, o.InBounds

instance (x : Eval α) (mode : Overshift) : Decidable (x.InBounds mode) :=
  inferInstanceAs (Decidable (∀ o ∈ (x mode).obligations, o.InBounds))

/-- Every obligation of the evaluation is one that `P` allows, and its value satisfies `post`. -/
def Meets (P : Obligation → Prop) (mode : Overshift) (x : Eval α) (post : α → Prop) : Prop :=
  (∀ o ∈ (x mode).obligations, P o) ∧ post (x.value mode)

variable {P Q : Obligation → Prop} {mode : Overshift}

theorem Ensures.meets {x : Eval α} {post : α → Prop} (h : Ensures mode x post)
    (hP : ∀ o : Obligation, o.Holds → P o) : Meets P mode x post :=
  ⟨fun o ho ↦ hP o (h.defined o ho), h.post⟩

theorem Meets.weaken {x : Eval α} {post : α → Prop} (h : Meets P mode x post)
    (hPQ : ∀ o, P o → Q o) : Meets Q mode x post := ⟨fun o ho ↦ hPQ o (h.1 o ho), h.2⟩

theorem meets_pure {a : α} {post : α → Prop} (h : post a) : Meets P mode (pure a) post :=
  ⟨fun _ ho ↦ absurd ho List.not_mem_nil, h⟩

/-- The rule of sequential composition. -/
theorem Meets.bind {x : Eval α} {f : α → Eval β} {mid : α → Prop} {post : β → Prop}
    (hx : Meets P mode x mid) (hf : ∀ a, mid a → Meets P mode (f a) post) :
    Meets P mode (x >>= f) post := by
  have hnext := hf _ hx.2
  exact ⟨List.forall_mem_append.mpr ⟨hx.1, hnext.1⟩, hnext.2⟩

theorem Meets.map {x : Eval α} {f : α → β} {post : β → Prop}
    (hx : Meets P mode x fun a ↦ post (f a)) : Meets P mode (f <$> x) post :=
  hx.bind fun _ ha ↦ meets_pure ha

/-- The rule of consequence. -/
theorem Meets.mono {x : Eval α} {mid post : α → Prop} (hx : Meets P mode x mid)
    (h : ∀ a, mid a → post a) : Meets P mode x post := ⟨hx.1, h _ hx.2⟩

private theorem meets_single {x : Eval α} {o : Obligation} {post : α → Prop}
    (hone : (x mode).obligations = [o]) (h : P o) (hpost : post (x.value mode)) :
    Meets P mode x post := by
  refine ⟨fun p hp ↦ ?_, hpost⟩
  rw [hone] at hp
  obtain rfl := List.mem_singleton.mp hp
  exact h

theorem meets_shiftLeft {m count : ℕ} {word : BitVec m} (h : P (.shift m count)) :
    Meets P mode (shiftLeft word count) fun result ↦ count < m → result = word <<< count :=
  meets_single rfl h fun hcount ↦ value_shiftLeft mode word hcount

theorem meets_shiftRight {m count : ℕ} {word : BitVec m} (h : P (.shift m count)) :
    Meets P mode (shiftRight word count) fun result ↦ count < m → result = word >>> count :=
  meets_single rfl h fun hcount ↦ value_shiftRight mode word hcount

theorem meets_add {width left right : ℕ} (h : P (.add width left right)) :
    Meets P mode (add width left right) fun result ↦ result = (left + right) % 2 ^ width :=
  meets_single rfl h rfl

theorem meets_sub {left right : ℕ} (width : ℕ) (h : P (.sub left right)) :
    Meets P mode (sub width left right) fun result ↦ right ≤ left → result = left - right :=
  meets_single rfl h fun hle ↦ value_sub mode width hle

theorem meets_store {array : List β} {size index : ℕ} {element : β}
    (h : P (.access index 1 size)) :
    Meets P mode (store array size index element) fun result ↦
      result = array.set index element :=
  meets_single rfl h rfl

/-! ### Exact conditions -/

/-- The evaluation is defined exactly if `fits`, and its value satisfies `post` in any case. -/
def DefinedIff (fits : Prop) (mode : Overshift) (x : Eval α) (post : α → Prop) : Prop :=
  (x.Defined mode ↔ fits) ∧ post (x.value mode)

theorem Ensures.definedIff {fits : Prop} {x : Eval α} {post : α → Prop}
    (h : Ensures mode x post) (hfits : fits) : DefinedIff fits mode x post :=
  ⟨iff_of_true h.defined hfits, h.post⟩

theorem DefinedIff.ensures {fits : Prop} {x : Eval α} {post : α → Prop}
    (h : DefinedIff fits mode x post) (hfits : fits) : Ensures mode x post :=
  ⟨h.1.mpr hfits, h.2⟩

/-- What comes behind an evaluation that is defined decides. -/
theorem Ensures.bind_definedIff {fits : Prop} {x : Eval α} {f : α → Eval β} {mid : α → Prop}
    {post : β → Prop} (hx : Ensures mode x mid)
    (hf : ∀ a, mid a → DefinedIff fits mode (f a) post) : DefinedIff fits mode (x >>= f) post := by
  have hnext := hf _ hx.post
  refine ⟨?_, hnext.2⟩
  rw [defined_bind, and_iff_right hx.defined]
  exact hnext.1

theorem DefinedIff.congr {fits other : Prop} {x : Eval α} {mid post : α → Prop}
    (hx : DefinedIff fits mode x mid) (hfits : fits ↔ other) (h : ∀ a, mid a → post a) :
    DefinedIff other mode x post := ⟨hx.1.trans hfits, h _ hx.2⟩

/-- What comes in front of an evaluation that is defined decides. -/
theorem DefinedIff.bind_ensures {fits : Prop} {x : Eval α} {f : α → Eval β} {mid : α → Prop}
    {post : β → Prop} (hx : DefinedIff fits mode x mid)
    (hf : ∀ a, mid a → Ensures mode (f a) post) : DefinedIff fits mode (x >>= f) post := by
  have hnext := hf _ hx.2
  refine ⟨?_, hnext.post⟩
  rw [defined_bind, and_iff_left hnext.defined]
  exact hx.1

theorem definedIff_storeBlock {array block : List β} {size index : ℕ} :
    DefinedIff (index + block.length ≤ size) mode (storeBlock array size index block) fun result ↦
      result = array.take index ++ block ++ array.drop (index + block.length) :=
  ⟨defined_storeBlock mode array size index block, value_storeBlock mode array size index block⟩

end Eval

end Bitstream.Foundation
