import Mathlib.Algebra.Group.Nat.Defs
import Mathlib.Tactic.SimpRw

/-!
# Evaluation of C arithmetic with its obligations

C leaves a shift by the width of its operand or more undefined, wraps unsigned arithmetic, and
does not check array bounds. An `Eval` computes a value from what such shifts happen to yield
(`Overshift`) and records an `Obligation` for every shift, unsigned sum, unsigned difference and
memory access it evaluates. `Eval.Defined` says that every recorded obligation holds,
`Eval.Determined` that a defined evaluation does not depend on the `Overshift`, and `Eval.Ensures`
that an evaluation is defined and its value satisfies a postcondition; the rules of each derive it
along the structure of a program.
-/

set_option autoImplicit false
set_option relaxedAutoImplicit false

namespace Bitstream.Foundation

/-- What a shift of an `m`-bit word by `m` or more yields. -/
structure Overshift where
  left : (m : ℕ) → BitVec m → ℕ → BitVec m
  right : (m : ℕ) → BitVec m → ℕ → BitVec m

/-- A machine that shifts by the count modulo the width. -/
def Overshift.masked : Overshift where
  left := fun m word count ↦ word <<< (count % m)
  right := fun m word count ↦ word >>> (count % m)

/-- A condition that C expects of an operation and does not check. -/
inductive Obligation
  /-- A word of `width` bits is shifted by `count`. -/
  | shift (width count : ℕ)
  /-- Two unsigned numbers of `width` bits are added. -/
  | add (width left right : ℕ)
  /-- An unsigned number is subtracted from another. -/
  | sub (left right : ℕ)
  /-- `count` elements from `first` on are accessed in an array of `size` elements. -/
  | access (first count size : ℕ)
  deriving DecidableEq, Repr

/-- The condition holds: the shift is defined, the sum and the difference are exact, the accessed
elements exist. -/
def Obligation.Holds : Obligation → Prop
  | .shift width count => count < width
  | .add width left right => left + right < 2 ^ width
  | .sub left right => right ≤ left
  | .access first count size => first + count ≤ size

instance : DecidablePred Obligation.Holds
  | .shift width count => inferInstanceAs (Decidable (count < width))
  | .add width left right => inferInstanceAs (Decidable (left + right < 2 ^ width))
  | .sub left right => inferInstanceAs (Decidable (right ≤ left))
  | .access first count size => inferInstanceAs (Decidable (first + count ≤ size))

/-- The value of an evaluation and the obligations met on the way, in order. -/
structure Outcome (α : Type) where
  value : α
  obligations : List Obligation

/-- A computation whose undefined shifts yield what an `Overshift` says. -/
def Eval (α : Type) : Type := Overshift → Outcome α

namespace Eval

instance : Monad Eval where
  pure value := fun _ ↦ ⟨value, []⟩
  bind first next := fun mode ↦
    ⟨(next (first mode).value mode).value,
      (first mode).obligations ++ (next (first mode).value mode).obligations⟩

variable {α β : Type}

/-- The value that an evaluation returns. -/
def value (x : Eval α) (mode : Overshift) : α := (x mode).value

/-- Every obligation that an evaluation meets holds. -/
def Defined (x : Eval α) (mode : Overshift) : Prop := ∀ o ∈ (x mode).obligations, o.Holds

instance (x : Eval α) (mode : Overshift) : Decidable (x.Defined mode) :=
  inferInstanceAs (Decidable (∀ o ∈ (x mode).obligations, o.Holds))

/-! ### Operations -/

/-- `word << count`. -/
def shiftLeft {m : ℕ} (word : BitVec m) (count : ℕ) : Eval (BitVec m) := fun mode ↦
  ⟨if count < m then word <<< count else mode.left m word count, [.shift m count]⟩

/-- `word >> count`. -/
def shiftRight {m : ℕ} (word : BitVec m) (count : ℕ) : Eval (BitVec m) := fun mode ↦
  ⟨if count < m then word >>> count else mode.right m word count, [.shift m count]⟩

/-- The sum of two unsigned numbers of `width` bits. -/
def add (width left right : ℕ) : Eval ℕ := fun _ ↦
  ⟨(left + right) % 2 ^ width, [.add width left right]⟩

/-- The difference of two unsigned numbers of `width` bits. -/
def sub (width left right : ℕ) : Eval ℕ := fun _ ↦
  ⟨if right ≤ left then left - right else left + 2 ^ width - right, [.sub left right]⟩

/-- The element at an index of an array of `size` elements. -/
def load {β : Type} [Inhabited β] (array : List β) (size index : ℕ) : Eval β := fun _ ↦
  ⟨array.getD index default, [.access index 1 size]⟩

/-- An array of `size` elements with the element at an index replaced. -/
def store {β : Type} (array : List β) (size index : ℕ) (element : β) : Eval (List β) := fun _ ↦
  ⟨array.set index element, [.access index 1 size]⟩

/-- The elements that `memcpy` reads from an index of an array of `size` elements on. -/
def loadBlock {β : Type} (array : List β) (size index count : ℕ) : Eval (List β) := fun _ ↦
  ⟨(array.drop index).take count, [.access index count size]⟩

/-- An array of `size` elements after `memcpy` has written a block from an index on. -/
def storeBlock {β : Type} (array : List β) (size index : ℕ) (block : List β) : Eval (List β) :=
  fun _ ↦ ⟨array.take index ++ block ++ array.drop (index + block.length),
    [.access index block.length size]⟩

/-! ### Values and definedness, operation by operation -/

variable (mode : Overshift)

@[simp] theorem value_bind (x : Eval α) (f : α → Eval β) :
    (x >>= f).value mode = (f (x.value mode)).value mode := rfl

theorem bind_assoc {γ : Type} (x : Eval α) (f : α → Eval β) (g : β → Eval γ) :
    x >>= f >>= g = x >>= fun a ↦ f a >>= g :=
  funext fun _ ↦ congrArg (Outcome.mk _) (List.append_assoc _ _ _)

@[simp] theorem value_ite (c : Prop) [Decidable c] (x y : Eval α) :
    (if c then x else y).value mode = if c then x.value mode else y.value mode := by
  split <;> rfl

@[simp] theorem value_add (width left right : ℕ) :
    (add width left right).value mode = (left + right) % 2 ^ width := rfl

theorem value_sub {left right : ℕ} (width : ℕ) (h : right ≤ left) :
    (sub width left right).value mode = left - right := if_pos h

theorem value_shiftLeft {m count : ℕ} (word : BitVec m) (h : count < m) :
    (shiftLeft word count).value mode = word <<< count := if_pos h

theorem value_shiftRight {m count : ℕ} (word : BitVec m) (h : count < m) :
    (shiftRight word count).value mode = word >>> count := if_pos h

@[simp] theorem value_load [Inhabited β] (array : List β) (size index : ℕ) :
    (load array size index).value mode = array.getD index default := rfl

@[simp] theorem value_store (array : List β) (size index : ℕ) (element : β) :
    (store array size index element).value mode = array.set index element := rfl

@[simp] theorem value_loadBlock (array : List β) (size index count : ℕ) :
    (loadBlock array size index count).value mode = (array.drop index).take count := rfl

@[simp] theorem value_storeBlock (array : List β) (size index : ℕ) (block : List β) :
    (storeBlock array size index block).value mode =
      array.take index ++ block ++ array.drop (index + block.length) := rfl

@[simp] theorem defined_pure (a : α) : (pure a : Eval α).Defined mode := by
  intro o ho
  exact absurd ho List.not_mem_nil

@[simp] theorem defined_bind (x : Eval α) (f : α → Eval β) :
    (x >>= f).Defined mode ↔ x.Defined mode ∧ (f (x.value mode)).Defined mode :=
  List.forall_mem_append

@[simp] theorem defined_map (f : α → β) (x : Eval α) :
    (f <$> x).Defined mode ↔ x.Defined mode := by
  show (x >>= fun a ↦ pure (f a)).Defined mode ↔ _
  simp only [defined_bind, defined_pure, and_true]

private theorem forall_mem_single (o : Obligation) : (∀ p ∈ [o], p.Holds) ↔ o.Holds :=
  List.forall_mem_singleton

@[simp] theorem defined_shiftLeft {m : ℕ} (word : BitVec m) (count : ℕ) :
    (shiftLeft word count).Defined mode ↔ count < m := forall_mem_single _

@[simp] theorem defined_shiftRight {m : ℕ} (word : BitVec m) (count : ℕ) :
    (shiftRight word count).Defined mode ↔ count < m := forall_mem_single _

@[simp] theorem defined_add (width left right : ℕ) :
    (add width left right).Defined mode ↔ left + right < 2 ^ width := forall_mem_single _

@[simp] theorem defined_sub (width left right : ℕ) :
    (sub width left right).Defined mode ↔ right ≤ left := forall_mem_single _

@[simp] theorem defined_load [Inhabited β] (array : List β) (size index : ℕ) :
    (load array size index).Defined mode ↔ index < size := forall_mem_single _

@[simp] theorem defined_store (array : List β) (size index : ℕ) (element : β) :
    (store array size index element).Defined mode ↔ index < size := forall_mem_single _

@[simp] theorem defined_loadBlock (array : List β) (size index count : ℕ) :
    (loadBlock array size index count).Defined mode ↔ index + count ≤ size := forall_mem_single _

@[simp] theorem defined_storeBlock (array : List β) (size index : ℕ) (block : List β) :
    (storeBlock array size index block).Defined mode ↔ index + block.length ≤ size :=
  forall_mem_single _

/-! ### Independence of undefined shifts -/

/-- Where it is defined, the evaluation does not depend on what undefined shifts yield. -/
def Determined (x : Eval α) : Prop :=
  ∀ mode other : Overshift, x.Defined mode → x other = x mode

theorem determined_pure (a : α) : Determined (pure a : Eval α) := fun _ _ _ ↦ rfl

theorem Determined.bind {x : Eval α} {f : α → Eval β} (hx : x.Determined)
    (hf : ∀ a, (f a).Determined) : (x >>= f).Determined := by
  intro mode other hdefined
  obtain ⟨hfirst, hnext⟩ := (defined_bind mode x f).mp hdefined
  have hsame : x other = x mode := hx mode other hfirst
  have hthen : f (x other).value other = f (x mode).value mode := by
    rw [hsame]
    exact hf _ mode other hnext
  show Outcome.mk (f (x other).value other).value
    ((x other).obligations ++ (f (x other).value other).obligations) = _
  rw [hthen, hsame]
  rfl

theorem Determined.map {x : Eval α} {f : α → β} (hx : x.Determined) : (f <$> x).Determined :=
  hx.bind fun a ↦ determined_pure (f a)

theorem Determined.ite {c : Prop} [Decidable c] {x y : Eval α} (hx : c → x.Determined)
    (hy : ¬ c → y.Determined) : (if c then x else y).Determined := by
  by_cases hc : c
  · rw [if_pos hc]
    exact hx hc
  · rw [if_neg hc]
    exact hy hc

theorem determined_shiftLeft {m : ℕ} (word : BitVec m) (count : ℕ) :
    (shiftLeft word count).Determined := by
  intro mode other hdefined
  have hcount := (defined_shiftLeft mode word count).mp hdefined
  have hsame := (value_shiftLeft other word hcount).trans (value_shiftLeft mode word hcount).symm
  exact congrArg (Outcome.mk · [.shift m count]) hsame

theorem determined_shiftRight {m : ℕ} (word : BitVec m) (count : ℕ) :
    (shiftRight word count).Determined := by
  intro mode other hdefined
  have hcount := (defined_shiftRight mode word count).mp hdefined
  have hsame := (value_shiftRight other word hcount).trans (value_shiftRight mode word hcount).symm
  exact congrArg (Outcome.mk · [.shift m count]) hsame

theorem determined_add (width left right : ℕ) : (add width left right).Determined :=
  fun _ _ _ ↦ rfl

theorem determined_sub (width left right : ℕ) : (sub width left right).Determined :=
  fun _ _ _ ↦ rfl

theorem determined_store (array : List β) (size index : ℕ) (element : β) :
    (store array size index element).Determined := fun _ _ _ ↦ rfl

theorem determined_storeBlock (array : List β) (size index : ℕ) (block : List β) :
    (storeBlock array size index block).Determined := fun _ _ _ ↦ rfl

/-! ### Postconditions -/

/-- Every obligation of the evaluation holds and its value satisfies `post`. -/
def Ensures (x : Eval α) (post : α → Prop) : Prop := x.Defined mode ∧ post (x.value mode)

variable {mode}

theorem Ensures.defined {x : Eval α} {post : α → Prop} (h : Ensures mode x post) :
    x.Defined mode := h.1

theorem Ensures.post {x : Eval α} {post : α → Prop} (h : Ensures mode x post) :
    post (x.value mode) := h.2

theorem ensures_pure {a : α} {post : α → Prop} (h : post a) : Ensures mode (pure a) post :=
  ⟨defined_pure mode a, h⟩

/-- The rule of sequential composition. -/
theorem Ensures.bind {x : Eval α} {f : α → Eval β} {mid : α → Prop} {post : β → Prop}
    (hx : Ensures mode x mid) (hf : ∀ a, mid a → Ensures mode (f a) post) :
    Ensures mode (x >>= f) post :=
  have hnext := hf _ hx.2
  ⟨(defined_bind mode x f).mpr ⟨hx.1, hnext.1⟩, hnext.2⟩

/-- Sequential composition after a computation whose value is known. -/
theorem Ensures.bind_eq {x : Eval α} {f : α → Eval β} {a : α} {post : β → Prop}
    (hx : Ensures mode x fun result ↦ result = a) (hf : Ensures mode (f a) post) :
    Ensures mode (x >>= f) post := by
  refine hx.bind ?_
  rintro _ rfl
  exact hf

theorem Ensures.map {x : Eval α} {f : α → β} {post : β → Prop}
    (hx : Ensures mode x fun a ↦ post (f a)) : Ensures mode (f <$> x) post :=
  ⟨(defined_map mode f x).mpr hx.1, hx.2⟩

/-- The rule of consequence. -/
theorem Ensures.mono {x : Eval α} {mid post : α → Prop} (hx : Ensures mode x mid)
    (h : ∀ a, mid a → post a) : Ensures mode x post := ⟨hx.1, h _ hx.2⟩

theorem ensures_shiftLeft {m count : ℕ} {word : BitVec m} (h : count < m) :
    Ensures mode (shiftLeft word count) fun result ↦ result = word <<< count :=
  ⟨(defined_shiftLeft mode word count).mpr h, value_shiftLeft mode word h⟩

theorem ensures_shiftRight {m count : ℕ} {word : BitVec m} (h : count < m) :
    Ensures mode (shiftRight word count) fun result ↦ result = word >>> count :=
  ⟨(defined_shiftRight mode word count).mpr h, value_shiftRight mode word h⟩

theorem ensures_add {width left right : ℕ} (h : left + right < 2 ^ width) :
    Ensures mode (add width left right) fun result ↦ result = left + right :=
  ⟨(defined_add mode width left right).mpr h, Nat.mod_eq_of_lt h⟩

theorem ensures_sub {left right : ℕ} (width : ℕ) (h : right ≤ left) :
    Ensures mode (sub width left right) fun result ↦ result = left - right :=
  ⟨(defined_sub mode width left right).mpr h, value_sub mode width h⟩

theorem ensures_load [Inhabited β] {array : List β} {size index : ℕ} (h : index < size) :
    Ensures mode (load array size index) fun result ↦ result = array.getD index default :=
  ⟨(defined_load mode array size index).mpr h, value_load mode array size index⟩

theorem ensures_store {array : List β} {size index : ℕ} {element : β} (h : index < size) :
    Ensures mode (store array size index element) fun result ↦ result = array.set index element :=
  ⟨(defined_store mode array size index element).mpr h, value_store mode array size index element⟩

theorem ensures_loadBlock {array : List β} {size index count : ℕ} (h : index + count ≤ size) :
    Ensures mode (loadBlock array size index count) fun result ↦
      result = (array.drop index).take count :=
  ⟨(defined_loadBlock mode array size index count).mpr h,
    value_loadBlock mode array size index count⟩

theorem ensures_storeBlock {array block : List β} {size index : ℕ}
    (h : index + block.length ≤ size) :
    Ensures mode (storeBlock array size index block) fun result ↦
      result = array.take index ++ block ++ array.drop (index + block.length) :=
  ⟨(defined_storeBlock mode array size index block).mpr h,
    value_storeBlock mode array size index block⟩

end Eval

end Bitstream.Foundation
