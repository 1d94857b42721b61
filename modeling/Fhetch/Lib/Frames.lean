/-
Framed data: readers of a stream of tokens, and the frames they take.

A reader has the tokens that are left and a state of its own, and may throw. It takes a
frame if it reads exactly that off any stream that begins with it, whatever comes behind,
and throws on a stream that ends inside it. Frames compose as their readers do, so a layout
of counts, scalars and loops is read back, and no file that was cut short is, once that is
known of the scalars.
-/
import Mathlib.Data.List.Basic

set_option autoImplicit false

namespace Frames

/-- A reader. -/
abbrev Reader (τ σ α : Type) := StateT (List τ × σ) Option α

variable {τ σ α β : Type}

/-! ## Frames -/

/-- **A reader takes a frame**: it returns a value and changes its state, as long as the
state is one that it may have there. -/
structure Takes (P : σ → Prop) (r : Reader τ σ α) (w : List τ) (a : α) (f : σ → σ) : Prop where
  whole : ∀ rest s, P s → r (w ++ rest, s) = some (a, rest, f s)
  cut : ∀ l s, P s → l <+: w → l ≠ w → r (l, s) = none

variable {P Q : σ → Prop} {r : Reader τ σ α} {w w' : List τ} {a : α} {b : β} {f g : σ → σ}

/-- A reader that takes nothing. -/
theorem Takes.of_nil (h : ∀ rest s, P s → r (rest, s) = some (a, rest, f s)) : Takes P r [] a f where
  whole := h
  cut _ _ _ hl hne := absurd (List.prefix_nil.mp hl) hne

theorem Takes.pure (a : α) : Takes P (pure a : Reader τ σ α) [] a id := .of_nil fun _ _ _ => rfl

theorem Takes.mono (h : Takes Q r w a f) (hP : ∀ s, P s → Q s) : Takes P r w a f where
  whole rest s hs := h.whole rest s (hP s hs)
  cut l s hs := h.cut l s (hP s hs)

/-- The same frame and the same change, written in another way. -/
theorem Takes.of_eq (h : Takes P r w a f) (hw : w = w') (hf : ∀ s, f s = g s) : Takes P r w' a g := by
  obtain rfl := hw
  obtain rfl : f = g := funext hf
  exact h

/-- A prefix of two frames ends in the first or goes into the second. -/
theorem prefix_append_cases {l : List τ} (h : l <+: w ++ w') :
    (l <+: w ∧ l ≠ w) ∨ ∃ l', l = w ++ l' ∧ l' <+: w' := by
  obtain ⟨t, ht⟩ := h
  rcases List.append_eq_append_iff.mp ht with ⟨m, rfl, rfl⟩ | ⟨l', rfl, rfl⟩
  · by_cases hm : m = []
    · exact .inr ⟨[], by rw [hm, List.append_nil, List.append_nil], List.nil_prefix⟩
    · exact .inl ⟨List.prefix_append l m, fun heq => hm (List.self_eq_append_right.mp heq)⟩
  · exact .inr ⟨l', rfl, List.prefix_append l' t⟩

/-- **One frame after another.** -/
theorem Takes.bind {k : α → Reader τ σ β} (h : Takes P r w a f) (hk : Takes Q (k a) w' b g)
    (hstep : ∀ s, P s → Q (f s)) : Takes P (r >>= k) (w ++ w') b (g ∘ f) where
  whole rest s hs := by
    show (r (w ++ w' ++ rest, s)).bind _ = _
    rw [List.append_assoc, h.whole _ _ hs]
    exact hk.whole rest (f s) (hstep s hs)
  cut l s hs hl hne := by
    show (r (l, s)).bind _ = _
    rcases prefix_append_cases hl with ⟨hl, hne⟩ | ⟨l', rfl, hl'⟩
    · rw [h.cut l s hs hl hne]
      rfl
    · rw [h.whole _ _ hs]
      exact hk.cut l' (f s) (hstep s hs) hl' fun heq => hne (congrArg _ heq)

/-! ## Loops -/

/-- `for (i = 0; i < n; ++i)`, left at the first body that says so. It says whether all of
them ran. -/
def timesWhile : ℕ → Reader τ σ Bool → Reader τ σ Bool
  | 0, _ => pure true
  | n + 1, body => do if ← body then timesWhile n body else pure false

/-- The same with a body that is never left. -/
def times : ℕ → Reader τ σ Unit → Reader τ σ Unit
  | 0, _ => pure ()
  | n + 1, body => do body; times n body

section Loops

variable {γ : Type} {I : List γ → σ → Prop} {W : γ → List τ} {F : γ → σ → σ}

/-- **A loop takes the frames of its rounds**, as long as each leaves what the next one may
begin with. -/
theorem Takes.times {R : Reader τ σ Unit} (l : List γ)
    (hbody : ∀ x ∈ l, ∀ rest, Takes (I (x :: rest)) R (W x) () (F x))
    (hstep : ∀ x rest s, I (x :: rest) s → I rest (F x s)) :
    Takes (I l) (times l.length R) (l.flatMap W) () fun s => l.foldl (fun s x => F x s) s := by
  induction l with
  | nil => exact .pure ()
  | cons x l ih =>
    obtain ⟨hx, hl⟩ := List.forall_mem_cons.mp hbody
    rw [List.flatMap_cons]
    exact (hx l).bind (k := fun _ => Frames.times l.length R) (ih hl) (hstep x l)

theorem Takes.timesWhile {R : Reader τ σ Bool} (l : List γ)
    (hbody : ∀ x ∈ l, ∀ rest, Takes (I (x :: rest)) R (W x) true (F x))
    (hstep : ∀ x rest s, I (x :: rest) s → I rest (F x s)) :
    Takes (I l) (timesWhile l.length R) (l.flatMap W) true fun s => l.foldl (fun s x => F x s) s := by
  induction l with
  | nil => exact .pure true
  | cons x l ih =>
    obtain ⟨hx, hl⟩ := List.forall_mem_cons.mp hbody
    rw [List.flatMap_cons]
    exact (hx l).bind (k := fun b => if b then Frames.timesWhile l.length R else Pure.pure false)
      (ih hl) (hstep x l)

/-- **A loop that counts more rounds than there are frames** throws, on all of them and on
any part, as its body does on an empty stream. -/
theorem times_past {R : Reader τ σ Unit} {n : ℕ} (l : List γ) (hn : l.length < n)
    (hbody : ∀ x ∈ l, ∀ rest, Takes (I (x :: rest)) R (W x) () (F x))
    (hstep : ∀ x rest s, I (x :: rest) s → I rest (F x s)) (hempty : ∀ s, R ([], s) = none) :
    ∀ tokens s, I l s → tokens <+: l.flatMap W → times n R (tokens, s) = none := by
  induction l generalizing n with
  | nil =>
    intro tokens s _ htokens
    obtain ⟨m, rfl⟩ := Nat.exists_eq_succ_of_ne_zero (Nat.ne_zero_of_lt hn)
    rw [List.prefix_nil.mp htokens]
    show (R ([], s)).bind _ = _
    rw [hempty]
    rfl
  | cons x l ih =>
    intro tokens s hs htokens
    obtain ⟨hx, hl⟩ := List.forall_mem_cons.mp hbody
    rw [List.length_cons] at hn
    obtain ⟨m, rfl⟩ := Nat.exists_eq_succ_of_ne_zero (Nat.ne_zero_of_lt hn)
    show (R (tokens, s)).bind _ = _
    rw [List.flatMap_cons] at htokens
    rcases prefix_append_cases htokens with ⟨hbefore, hne⟩ | ⟨rest, rfl, hrest⟩
    · rw [(hx l).cut _ _ hs hbefore hne]
      rfl
    · rw [(hx l).whole _ _ hs]
      exact ih (Nat.lt_of_succ_lt_succ hn) hl _ _ (hstep x l s hs) hrest

end Loops

/-! ## Scalars -/

/-- How a type is put into a stream and got out of it. -/
structure Codec (τ α : Type) where
  put : α → List τ
  get : List τ → Option (α × List τ)

/-- A codec gets back what it put, and nothing from a part of it. -/
structure Codec.Exact (c : Codec τ α) (a : α) : Prop where
  get_put : ∀ rest, c.get (c.put a ++ rest) = some (a, rest)
  get_cut : ∀ l, l <+: c.put a → l ≠ c.put a → c.get l = none

/-- A codec as a reader. -/
def Codec.read (c : Codec τ α) : Reader τ σ α := fun (tokens, s) =>
  (c.get tokens).map fun (a, rest) => (a, rest, s)

theorem Codec.Exact.takes {c : Codec τ α} {a : α} (h : c.Exact a) : Takes P c.read (c.put a) a id where
  whole rest s _ := by
    rw [read, h.get_put]
    rfl
  cut l s _ hl hne := by
    rw [read, h.get_cut l hl hne]
    rfl

/-- A codec that gets what a reader without a state reads. -/
def Codec.of (put : α → List τ) (r : Reader τ Unit α) : Codec τ α where
  put := put
  get l := (r (l, ())).map fun (a, rest, _) => (a, rest)

theorem Takes.exact (put : α → List τ) {r : Reader τ Unit α} (h : Takes (fun _ => True) r (put a) a id) :
    (Codec.of put r).Exact a where
  get_put rest := by
    show (r (put a ++ rest, ())).map _ = _
    rw [h.whole rest () trivial]
    rfl
  get_cut l hl hne := by
    show (r (l, ())).map _ = _
    rw [h.cut l () trivial hl hne]
    rfl

/-- A loop that keeps what its rounds return. -/
def collect : ℕ → Reader τ σ α → Reader τ σ (List α)
  | 0, _ => pure []
  | n + 1, r => do
    let a ← r
    let l ← collect n r
    return a :: l

theorem Takes.collect {put : α → List τ} {r : Reader τ σ α} (l : List α)
    (h : ∀ a ∈ l, Takes P r (put a) a id) : Takes P (collect l.length r) (l.flatMap put) l id := by
  induction l with
  | nil => exact .pure []
  | cons a l ih =>
    obtain ⟨ha, hl⟩ := List.forall_mem_cons.mp h
    exact (ha.bind (k := fun a => Frames.collect l.length r >>= fun l => Pure.pure (a :: l))
      ((ih hl).bind (k := fun l => Pure.pure (a :: l)) (Q := P) (.pure (a :: l)) fun _ => id) fun _ => id).of_eq
      (by rw [List.append_nil, List.flatMap_cons]) fun _ => rfl

end Frames
