/-
Straight-line programs over a flat memory.

A program is a list of instructions; an instruction reads some addresses,
updates a control state and possibly writes one address. Nothing here says what
an instruction computes, only what it may look at (`Machine.act_congr`), and
that one law carries the two results a consumer of recorded programs wants:

* **freeing is unobservable** (`Machine.runFreeing_agree`): blanking an address
  that no later instruction reads changes neither the control state nor the
  memory at the addresses kept for the end;
* **the live-in set is complete** (`Machine.runFreeing_agree_of_covered`): two
  memories that agree on a set covering every read-before-write give runs that
  agree wherever the program wrote.

An instruction may fail to have an outcome at all (`act` returns `none`); the
results then say that both runs lack one. Every induction is on the program,
and the relation carried is agreement of two memories on a set of addresses
that shrinks (freeing) or grows (live-in) with the suffix still to run.
-/
import Mathlib.Data.Option.Basic
import Mathlib.Logic.Function.Basic
import Mathlib.Tactic.Common

set_option autoImplicit false

namespace Fhetch.Lib

/-- Two related optional results stay related under maps that respect the
relation on the values the results really have. -/
theorem rel_map {α β γ δ : Type*} {R : α → β → Prop} {R' : γ → δ → Prop} {f : α → γ} {g : β → δ}
    {x : Option α} {y : Option β} (h : Option.Rel R x y)
    (hfg : ∀ a b, x = some a → y = some b → R a b → R' (f a) (g b)) :
    Option.Rel R' (x.map f) (y.map g) := by
  cases h with
  | none => exact .none
  | some hab => exact .some (hfg _ _ rfl rfl hab)

/-- Instructions `I` over a memory `A → V` and a control state `σ`. `act`
gives the next control state and the value written at `dest`, if one is. -/
structure Machine (I A V σ : Type*) where
  act : I → σ → (A → V) → Option (σ × Option V)
  dest : I → A
  reads : I → List A
  /-- An instruction sees the memory only through `reads`. -/
  act_congr : ∀ i s m m', (∀ a ∈ reads i, m a = m' a) → act i s m = act i s m'

namespace Machine

variable {I A V σ : Type*} [DecidableEq A]

/-- Write at an address, when there is something to write. -/
def put (m : A → V) (a : A) : Option V → A → V
  | none => m
  | some v => Function.update m a v

@[simp] theorem put_none (m : A → V) (a : A) : put m a none = m := rfl

@[simp] theorem put_some (m : A → V) (a : A) (v : V) :
    put m a (some v) = Function.update m a v := rfl

theorem put_of_ne (m : A → V) {a b : A} (w : Option V) (h : b ≠ a) : put m a w b = m b := by
  cases w with
  | none => rfl
  | some v => exact Function.update_of_ne h v m

/-- Writing the same value at the same address keeps two memories in agreement
wherever they agreed. -/
theorem put_agree {m m' : A → V} {a b : A} (w : Option V) (h : m b = m' b) :
    put m a w b = put m' a w b := by
  by_cases hb : b = a
  · subst hb
    cases w with
    | none => exact h
    | some v => simp only [put_some, Function.update_self]
  · rw [put_of_ne m w hb, put_of_ne m' w hb, h]

/-- Set a list of addresses back to `blank`. -/
def erase (blank : V) (as : List A) (m : A → V) : A → V :=
  fun a => if a ∈ as then blank else m a

@[simp] theorem erase_nil (blank : V) (m : A → V) : erase blank [] m = m := by
  funext a; simp only [erase, List.not_mem_nil, if_false]

theorem erase_of_mem {blank : V} {as : List A} {m : A → V} {a : A} (h : a ∈ as) :
    erase blank as m a = blank := if_pos h

theorem erase_of_not_mem {blank : V} {as : List A} {m : A → V} {a : A} (h : a ∉ as) :
    erase blank as m a = m a := if_neg h

variable (M : Machine I A V σ)

/-- One instruction, on control state and memory together. -/
def step (i : I) (c : σ × (A → V)) : Option (σ × (A → V)) :=
  (M.act i c.1 c.2).map fun r => (r.1, put c.2 (M.dest i) r.2)

/-- Run a program whose first instruction has index `k`, blanking `free j`
after instruction `j`. -/
def runFreeing (blank : V) (free : ℕ → List A) : List I → ℕ → σ × (A → V) → Option (σ × (A → V))
  | [], _, c => some c
  | i :: rest, k, c =>
    (M.step i c).bind fun c => runFreeing blank free rest (k + 1) (c.1, erase blank (free k) c.2)

/-- Run a program and free nothing. -/
def run : List I → σ × (A → V) → Option (σ × (A → V))
  | [], c => some c
  | i :: rest, c => (M.step i c).bind fun c => run rest c

@[simp] theorem run_nil (c : σ × (A → V)) : M.run [] c = some c := rfl

theorem run_cons (i : I) (rest : List I) (c : σ × (A → V)) :
    M.run (i :: rest) c = (M.step i c).bind (M.run rest) := rfl

/-- A schedule that frees nothing is no schedule. -/
theorem runFreeing_empty (blank : V) (p : List I) (k : ℕ) (c : σ × (A → V)) :
    M.runFreeing blank (fun _ => []) p k c = M.run p c := by
  induction p generalizing k c with
  | nil => rfl
  | cons i rest ih => simp only [runFreeing, run_cons, erase_nil, ih]

/-! ## Freeing -/

/-- A schedule is safe for a program starting at index `k` when what it frees
after an instruction is neither kept for the end nor read later. -/
def Safe (keep : A → Prop) (free : ℕ → List A) : List I → ℕ → Prop
  | [], _ => True
  | _ :: rest, k =>
    (∀ a ∈ free k, ¬ keep a ∧ ∀ i ∈ rest, a ∉ M.reads i) ∧ Safe keep free rest (k + 1)

omit [DecidableEq A] in
/-- A schedule is safe when, index by index, what it frees is not kept and not
read at a larger index. -/
theorem safe_of_index {keep : A → Prop} {free : ℕ → List A} (p : List I) :
    ∀ k, (∀ j a, j < p.length → a ∈ free (k + j) →
      ¬ keep a ∧ ∀ j' i, j < j' → p[j']? = some i → a ∉ M.reads i) → M.Safe keep free p k := by
  induction p with
  | nil => intro _ _; trivial
  | cons i rest ih =>
    intro k h
    refine ⟨fun a ha => ?_, ih (k + 1) fun j a hj ha => ?_⟩
    · obtain ⟨hk, hr⟩ := h 0 a (Nat.succ_pos _) ha
      refine ⟨hk, fun i' hi' => ?_⟩
      obtain ⟨j, hj⟩ := List.mem_iff_getElem?.mp hi'
      exact hr (j + 1) i' (Nat.succ_pos j) (by rwa [List.getElem?_cons_succ])
    · obtain ⟨hk, hr⟩ := h (j + 1) a (Nat.succ_lt_succ hj) (by rwa [show k + (j + 1) = k + 1 + j by omega])
      exact ⟨hk, fun j' i' hj' hi' =>
        hr (j' + 1) i' (by omega) (by rwa [List.getElem?_cons_succ])⟩

/-- The addresses whose contents can still matter: kept for the end, or read by
an instruction of the suffix. -/
def Needed (keep : A → Prop) (p : List I) (a : A) : Prop := keep a ∨ ∃ i ∈ p, a ∈ M.reads i

/-- **Freeing is unobservable.** From memories that agree on the needed
addresses, the freeing run and the plain run both lack an outcome, or end in
the same control state with memories that agree on the kept addresses. -/
theorem runFreeing_agree (blank : V) (keep : A → Prop) (free : ℕ → List A) (p : List I) :
    ∀ (k : ℕ) (s : σ) (m m' : A → V), M.Safe keep free p k →
      (∀ a, M.Needed keep p a → m a = m' a) →
      Option.Rel (fun c c' => c.1 = c'.1 ∧ ∀ a, keep a → c.2 a = c'.2 a)
        (M.runFreeing blank free p k (s, m)) (M.run p (s, m')) := by
  induction p with
  | nil =>
    intro k s m m' _ hm
    exact Option.Rel.some ⟨rfl, fun a ha => hm a (.inl ha)⟩
  | cons i rest ih =>
    intro k s m m' ⟨hfree, hsafe⟩ hm
    have hact : M.act i s m = M.act i s m' :=
      M.act_congr i s m m' fun a ha => hm a (.inr ⟨i, List.mem_cons_self, ha⟩)
    simp only [runFreeing, run_cons, step, hact]
    cases M.act i s m' with
    | none => exact Option.Rel.none
    | some r =>
      obtain ⟨s₁, w⟩ := r
      simp only [Option.map_some, Option.bind_some]
      refine ih (k + 1) s₁ _ _ hsafe fun a ha => ?_
      -- what the schedule blanks here is not needed by the rest
      have hkept : a ∉ free k := by
        intro hmem
        obtain ⟨hk, hr⟩ := hfree a hmem
        rcases ha with h | ⟨j, hj, hja⟩
        · exact hk h
        · exact hr j hj hja
      rw [erase_of_not_mem hkept]
      refine put_agree w (hm a ?_)
      rcases ha with h | ⟨j, hj, hja⟩
      · exact .inl h
      · exact .inr ⟨j, List.mem_cons_of_mem _ hj, hja⟩

/-- An address that is blank and that nothing more writes stays blank. -/
theorem runFreeing_blank {blank : V} {free : ℕ → List A} {a : A} (p : List I) :
    ∀ (k : ℕ) (c c' : σ × (A → V)), (∀ i ∈ p, ∀ s m s' v, M.act i s m = some (s', some v) →
      M.dest i ≠ a) → c.2 a = blank → M.runFreeing blank free p k c = some c' → c'.2 a = blank := by
  induction p with
  | nil =>
    intro k c c' _ hc h
    obtain rfl : c = c' := Option.some.inj h
    exact hc
  | cons i rest ih =>
    intro k c c' hw hc h
    simp only [runFreeing, step] at h
    cases hact : M.act i c.1 c.2 with
    | none => rw [hact] at h; exact absurd h (by simp)
    | some r =>
      obtain ⟨s₁, w⟩ := r
      rw [hact] at h
      simp only [Option.map_some, Option.bind_some] at h
      refine ih (k + 1) _ c' (fun j hj => hw j (List.mem_cons_of_mem _ hj)) ?_ h
      show erase blank (free k) (put c.2 (M.dest i) w) a = blank
      -- blanked by the schedule, or left alone by a write that goes elsewhere
      by_cases hfree : a ∈ free k
      · exact erase_of_mem hfree
      · rw [erase_of_not_mem hfree]
        cases w with
        | none => exact hc
        | some v =>
          have hne : M.dest i ≠ a := hw i List.mem_cons_self _ _ _ _ hact
          simpa only [put_some, Function.update_of_ne hne.symm] using hc

/-- An address that is never freed and that nothing writes keeps its contents. -/
theorem runFreeing_keep {blank : V} {free : ℕ → List A} {a : A} (hfree : ∀ j, a ∉ free j)
    (p : List I) :
    ∀ (k : ℕ) (c c' : σ × (A → V)), (∀ i ∈ p, ∀ s m s' v, M.act i s m = some (s', some v) →
      M.dest i ≠ a) → M.runFreeing blank free p k c = some c' → c'.2 a = c.2 a := by
  induction p with
  | nil =>
    intro k c c' _ h
    obtain rfl : c = c' := Option.some.inj h
    rfl
  | cons i rest ih =>
    intro k c c' hw h
    rw [runFreeing, step] at h
    obtain ⟨c₁, h₁, hrest⟩ := Option.bind_eq_some_iff.mp h
    obtain ⟨⟨s₁, w⟩, hact, rfl⟩ := Option.map_eq_some_iff.mp h₁
    refine (ih (k + 1) _ c' (fun j hj => hw j (List.mem_cons_of_mem _ hj)) hrest).trans
      ((erase_of_not_mem (hfree k)).trans ?_)
    cases w with
    | none => rfl
    | some v => exact put_of_ne c.2 (some v) (hw i List.mem_cons_self _ _ _ _ hact).symm

/-- **Nothing stays resident.** An address the schedule frees after instruction
`k + n` and that no later instruction writes is blank at the end of the run. -/
theorem runFreeing_freed {blank : V} {free : ℕ → List A} {a : A} (p : List I) :
    ∀ (n k : ℕ) (c c' : σ × (A → V)), n < p.length → a ∈ free (k + n) →
      (∀ i ∈ p.drop (n + 1), ∀ s m s' v, M.act i s m = some (s', some v) → M.dest i ≠ a) →
      M.runFreeing blank free p k c = some c' → c'.2 a = blank := by
  induction p with
  | nil => intro n k c c' hn; exact absurd hn (Nat.not_lt_zero n)
  | cons i rest ih =>
    intro n k c c' hn hfree hw h
    simp only [runFreeing] at h
    obtain ⟨c₁, -, h₁⟩ := Option.bind_eq_some_iff.mp h
    -- freed by this instruction, and nothing writes it after; or freed later
    cases n with
    | zero =>
      refine M.runFreeing_blank rest (k + 1) _ c' ?_ ?_ h₁
      · simpa using hw
      · exact erase_of_mem hfree
    | succ n =>
      refine ih n (k + 1) _ c' (by simpa using hn) ?_ ?_ h₁
      · rwa [show k + 1 + n = k + (n + 1) by omega]
      · simpa using hw

/-! ## Live-in sets -/

/-- A set of addresses covers a program when every instruction reads only
covered addresses or ones an earlier instruction wrote; `writes` says which
instructions are sure to write their destination. -/
def Covered (writes : I → Prop) : (A → Prop) → List I → Prop
  | _, [] => True
  | known, i :: rest =>
    (∀ a ∈ M.reads i, known a) ∧ Covered writes (fun a => known a ∨ (writes i ∧ a = M.dest i)) rest

/-- The addresses a program is sure to write. -/
def Written (writes : I → Prop) (p : List I) (a : A) : Prop := ∃ i ∈ p, writes i ∧ a = M.dest i

variable {ok : σ → Prop} {writes : I → Prop}

/-- A run that ends `ok` was `ok` all along. -/
theorem ok_of_runFreeing_ok {blank : V} {free : ℕ → List A}
    (hstep : ∀ i s m s' w, M.act i s m = some (s', w) → ok s' → ok s) (p : List I) :
    ∀ (k : ℕ) (c c' : σ × (A → V)), M.runFreeing blank free p k c = some c' → ok c'.1 → ok c.1 := by
  induction p with
  | nil =>
    intro k c c' h hok
    obtain rfl : c = c' := Option.some.inj h
    exact hok
  | cons i rest ih =>
    intro k c c' h hok
    rw [runFreeing, step] at h
    obtain ⟨c₁, h₁, hrest⟩ := Option.bind_eq_some_iff.mp h
    obtain ⟨r, hact, rfl⟩ := Option.map_eq_some_iff.mp h₁
    exact hstep i c.1 c.2 r.1 r.2 hact (ih (k + 1) _ c' hrest hok)

/-- **The live-in set is complete.** Let `ok` be a predicate on control states
that, when it holds after a step, held before it and makes the instructions in
`writes` write. If a run ends `ok` and the covered set contains every
read-before-write, a second memory that agrees on the covered set runs to the
same control state and agrees wherever the program wrote, whatever is freed on
the way. -/
theorem runFreeing_agree_of_covered {blank : V} {free : ℕ → List A}
    (hstep : ∀ i s m s' w, M.act i s m = some (s', w) → ok s' → ok s ∧ (writes i → w.isSome))
    (p : List I) :
    ∀ (known : A → Prop) (k : ℕ) (s s' : σ) (m m' m₁ : A → V), M.Covered writes known p →
      (∀ a, known a → m a = m' a) → M.runFreeing blank free p k (s, m) = some (s', m₁) → ok s' →
      ∃ m₂, M.runFreeing blank free p k (s, m') = some (s', m₂) ∧
        ∀ a, known a ∨ M.Written writes p a → m₁ a = m₂ a := by
  induction p with
  | nil =>
    intro known k s s' m m' m₁ _ hm h _
    obtain ⟨rfl, rfl⟩ := Prod.mk.inj (Option.some.inj h)
    refine ⟨m', rfl, fun a ha => ?_⟩
    rcases ha with h | ⟨i, hi, -⟩
    · exact hm a h
    · exact absurd hi List.not_mem_nil
  | cons i rest ih =>
    intro known k s s' m m' m₁ ⟨hread, hcov⟩ hm h hok
    have hact : M.act i s m = M.act i s m' := M.act_congr i s m m' fun a ha => hm a (hread a ha)
    rw [runFreeing, step] at h
    obtain ⟨c₁, h₁, hrest⟩ := Option.bind_eq_some_iff.mp h
    obtain ⟨⟨s₁, w⟩, hres, rfl⟩ := Option.map_eq_some_iff.mp h₁
    -- the write is certain only because the rest of the run is known to end `ok`
    have hok₁ : ok s₁ := M.ok_of_runFreeing_ok
      (fun i s m s' w h hok => (hstep i s m s' w h hok).1) rest (k + 1) _ _ hrest hok
    have hw : writes i → w.isSome := (hstep i s m s₁ w hres hok₁).2
    have hagree : ∀ a, known a ∨ (writes i ∧ a = M.dest i) →
        erase blank (free k) (put m (M.dest i) w) a =
          erase blank (free k) (put m' (M.dest i) w) a := by
      intro a ha
      by_cases hfree : a ∈ free k
      · rw [erase_of_mem hfree, erase_of_mem hfree]
      · rw [erase_of_not_mem hfree, erase_of_not_mem hfree]
        rcases ha with ha | ⟨hwi, rfl⟩
        · exact put_agree w (hm a ha)
        · obtain ⟨v, rfl⟩ := Option.isSome_iff_exists.mp (hw hwi)
          simp only [put_some, Function.update_self]
    obtain ⟨m₂, hm₂, heq⟩ := ih _ (k + 1) s₁ s' _ _ m₁ hcov hagree hrest hok
    refine ⟨m₂, ?_, fun a ha => heq a ?_⟩
    · rw [runFreeing, step, ← hact, hres]
      exact hm₂
    · rcases ha with ha | ⟨j, hj, hwj, rfl⟩
      · exact .inl (.inl ha)
      · rcases List.mem_cons.mp hj with rfl | hj
        · exact .inl (.inr ⟨hwj, rfl⟩)
        · exact .inr ⟨j, hj, hwj, rfl⟩

end Machine

end Fhetch.Lib
