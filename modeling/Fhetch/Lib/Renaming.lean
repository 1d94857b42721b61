/-
Straight-line programs under other names.

A line applies an operation to the values at some addresses and writes what it gives.
Nothing here says what the operations are. A second program does the same over numbered
addresses, each result at the next number: an address that is read before it is written
gets a number under which its value has to be supplied, and an address can be given a
number behind which nothing is known, as long as no line reads it there.

What the second program leaves at the number of an address is then what the first leaves
at the address. The induction is on how the second program came about, and what carries
it is that no number is written twice.
-/
import Mathlib.Data.List.Basic
import Mathlib.Data.List.Forall2
import Mathlib.Logic.Function.Basic

set_option autoImplicit false

namespace Renaming

/-! ## Lines -/

/-- An operation, what it is applied to, and where its result goes. -/
structure Line (Op A : Type*) where
  op : Op
  reads : List A
  dest : A

section Evaluating

variable {Op A V : Type*} [DecidableEq A] (apply : Op → List V → Option V)

/-- The memory after a line, if its operation has an outcome. -/
def Line.step (m : A → V) (l : Line Op A) : Option (A → V) :=
  (apply l.op (l.reads.map m)).map fun v => Function.update m l.dest v

def evaluate (m : A → V) (lines : List (Line Op A)) : Option (A → V) :=
  lines.foldlM (Line.step apply) m

variable {apply}

@[simp] theorem evaluate_nil (m : A → V) : evaluate apply m ([] : List (Line Op A)) = some m := rfl

theorem evaluate_cons (m : A → V) (l : Line Op A) (lines : List (Line Op A)) :
    evaluate apply m (l :: lines) = (l.step apply m).bind fun m => evaluate apply m lines := rfl

theorem evaluate_append (m : A → V) (lines lines' : List (Line Op A)) :
    evaluate apply m (lines ++ lines') =
      (evaluate apply m lines).bind fun m => evaluate apply m lines' := List.foldlM_append

theorem evaluate_concat (m : A → V) (lines : List (Line Op A)) (l : Line Op A) :
    evaluate apply m (lines ++ [l]) = (evaluate apply m lines).bind fun m => l.step apply m := by
  have hsingle : (fun m => evaluate apply m [l]) = fun m => l.step apply m := by
    funext m
    rw [evaluate_cons]
    exact Option.bind_fun_some _
  rw [evaluate_append, hsingle]

end Evaluating

/-! ## Numbers for addresses -/

/-- The numbers given so far, and the next one. Behind those of `planted` nothing is
known. -/
structure Names (A : Type*) where
  place : A → Option ℕ
  next : ℕ
  planted : List A

namespace Names

variable {A : Type*} [DecidableEq A] (ns : Names A)

/-- No address has a number. -/
def fresh (start : ℕ) : Names A := ⟨fun _ => none, start, []⟩

/-- The next number is nobody's. -/
def skip : Names A := { ns with next := ns.next + 1 }

/-- An address gets the next number. -/
def supply (a : A) : Names A :=
  { ns with place := Function.update ns.place a (some ns.next), next := ns.next + 1 }

/-- The same, with nothing behind it. -/
def plant (a : A) : Names A := { ns.supply a with planted := a :: ns.planted }

/-- An address is written: it gets the next number, and its value is known. -/
def write (a : A) : Names A := { ns.supply a with planted := ns.planted.filter (· ≠ a) }

theorem supply_place (a b : A) :
    (ns.supply a).place b = if b = a then some ns.next else ns.place b := Function.update_apply ..

/-- A line under the numbers of its operands: it does the same, to the next number. -/
structure Renames {Op V : Type*} (apply : Op → List V → Option V) (l : Line Op A) (l' : Line Op ℕ) :
    Prop where
  reads : List.Forall₂ (fun a x => ns.place a = some x ∧ a ∉ ns.planted) l.reads l'.reads
  dest : l'.dest = ns.next
  op : apply l'.op = apply l.op

end Names

/-- **How a program comes about from another**: the lines so far of both, and what has to
be supplied, each an address and the number of its value. -/
inductive Translates {Op A V : Type*} [DecidableEq A] (apply : Op → List V → Option V) (start : ℕ) :
    List (Line Op A) → List (Line Op ℕ) → List (A × ℕ) → Names A → Prop
  | nil : Translates apply start [] [] [] (.fresh start)
  | skip {p p' inputs ns} (h : Translates apply start p p' inputs ns) :
    Translates apply start p p' inputs ns.skip
  | supply {p p' inputs ns} (a : A) (h : Translates apply start p p' inputs ns)
    (hnew : ns.place a = none) : Translates apply start p p' (inputs ++ [(a, ns.next)]) (ns.supply a)
  | plant {p p' inputs ns} (a : A) (h : Translates apply start p p' inputs ns) :
    Translates apply start p p' inputs (ns.plant a)
  | line {p p' inputs ns} {l : Line Op A} {l' : Line Op ℕ} (h : Translates apply start p p' inputs ns)
    (hl : ns.Renames apply l l') : Translates apply start (p ++ [l]) (p' ++ [l']) inputs (ns.write l.dest)

namespace Translates

variable {Op A V : Type*} [DecidableEq A] {apply : Op → List V → Option V} {start : ℕ}
  {p : List (Line Op A)} {p' : List (Line Op ℕ)} {inputs : List (A × ℕ)} {ns : Names A}

/-- Numbers in use are below the next. -/
theorem place_lt (h : Translates apply start p p' inputs ns) :
    ∀ a x, ns.place a = some x → x < ns.next := by
  have hnext : ∀ {ns : Names A} {b : A}, (∀ a x, ns.place a = some x → x < ns.next) →
      ∀ a x, (ns.supply b).place a = some x → x < ns.next + 1 := by
    intro ns b hbelow a x hx
    rw [Names.supply_place] at hx
    split at hx
    · rw [← Option.some.inj hx]
      exact Nat.lt_succ_self _
    · exact Nat.lt_succ_of_lt (hbelow a x hx)
  induction h with
  | nil => exact fun a x hx => absurd hx (by simp [Names.fresh])
  | skip h ih => exact fun a x hx => Nat.lt_succ_of_lt (ih a x hx)
  | supply a h hnew ih => exact hnext ih
  | plant a h ih => exact hnext ih
  | line h hl ih => exact hnext ih

/-- What is supplied has numbers of its own. -/
theorem inputs_apart (h : Translates apply start p p' inputs ns) :
    (∀ e ∈ inputs, e.2 < ns.next) ∧ ∀ {a b x}, (a, x) ∈ inputs → (b, x) ∈ inputs → a = b := by
  induction h with
  | nil => exact ⟨List.forall_mem_nil _, fun h => absurd h List.not_mem_nil⟩
  | skip h ih => exact ⟨fun e he => Nat.lt_succ_of_lt (ih.1 e he), ih.2⟩
  | plant a h ih => exact ⟨fun e he => Nat.lt_succ_of_lt (ih.1 e he), ih.2⟩
  | line h hl ih => exact ⟨fun e he => Nat.lt_succ_of_lt (ih.1 e he), ih.2⟩
  | @supply p p' inputs ns c h hnew ih =>
    refine ⟨List.forall_mem_append.mpr ⟨fun e he => Nat.lt_succ_of_lt (ih.1 e he),
      List.forall_mem_singleton.mpr (Nat.lt_succ_self _)⟩, fun {a b x} ha hb => ?_⟩
    rcases List.mem_append.mp ha with ha | ha
    · rcases List.mem_append.mp hb with hb | hb
      · exact ih.2 ha hb
      · have hlt := ih.1 _ ha
        obtain ⟨-, rfl⟩ := Prod.mk.inj (List.mem_singleton.mp hb)
        exact absurd hlt (Nat.lt_irrefl _)
    · obtain ⟨rfl, rfl⟩ := Prod.mk.inj (List.mem_singleton.mp ha)
      rcases List.mem_append.mp hb with hb | hb
      · exact absurd (ih.1 _ hb) (Nat.lt_irrefl _)
      · exact (Prod.mk.inj (List.mem_singleton.mp hb)).1.symm

/-- An address that a line wrote has the number of a result, unless it was planted since. -/
theorem place_dest (h : Translates apply start p p' inputs ns) :
    ∀ l ∈ p, l.dest ∉ ns.planted → ∃ l' ∈ p', ns.place l.dest = some l'.dest := by
  induction h with
  | nil => exact List.forall_mem_nil _
  | skip h ih => exact ih
  | @supply p p' inputs ns a h hnew ih =>
    intro l hl hplanted
    obtain ⟨l', hl', hplace⟩ := ih l hl hplanted
    refine ⟨l', hl', ?_⟩
    have hne : l.dest ≠ a := by
      rintro rfl
      rw [hnew] at hplace
      exact absurd hplace (by simp)
    rw [Names.supply_place, if_neg hne, hplace]
  | @plant p p' inputs ns a h ih =>
    intro l hl hplanted
    obtain ⟨hne, hplanted⟩ := not_or.mp (mt List.mem_cons.mpr hplanted)
    obtain ⟨l', hl', hplace⟩ := ih l hl hplanted
    refine ⟨l', hl', ?_⟩
    show (ns.supply a).place l.dest = _
    rw [Names.supply_place, if_neg hne, hplace]
  | @line p p' inputs ns l₁ l₁' h hl₁ ih =>
    intro l hl hplanted
    by_cases hdest : l.dest = l₁.dest
    · refine ⟨l₁', List.mem_append_right _ (List.mem_singleton_self _), ?_⟩
      show (ns.supply l₁.dest).place l.dest = _
      rw [Names.supply_place, if_pos hdest, hl₁.dest]
    · have hl : l ∈ p := (List.mem_append.mp hl).resolve_right fun hmem =>
        hdest (congrArg Line.dest (List.mem_singleton.mp hmem))
      have hkept : l.dest ∉ ns.planted := fun hmem =>
        hplanted (List.mem_filter.mpr ⟨hmem, decide_eq_true hdest⟩)
      obtain ⟨l', hl', hplace⟩ := ih l hl hkept
      refine ⟨l', List.mem_append_left _ hl', ?_⟩
      show (ns.supply l₁.dest).place l.dest = _
      rw [Names.supply_place, if_neg hdest, hplace]

/-- What holds between the memories of the two programs. -/
structure Agrees (ns : Names A) (m₀ m : A → V) (m₀' m' : ℕ → V) : Prop where
  known : ∀ a x, ns.place a = some x → a ∉ ns.planted → m' x = m a
  unnamed : ∀ a, ns.place a = none → m a = m₀ a
  unused : ∀ x, ns.next ≤ x → m' x = m₀' x

/-- An address gets a number that holds its value, or it is planted. -/
theorem Agrees.supply {m₀ m : A → V} {m₀' m' : ℕ → V} (h : Agrees ns m₀ m m₀' m') (a : A)
    (planted : List A)
    (hold : ∀ b, b ≠ a → b ∉ planted → b ∉ ns.planted) (hvalue : a ∉ planted → m' ns.next = m a) :
    Agrees { ns.supply a with planted := planted } m₀ m m₀' m' := by
  refine ⟨fun b x hx hb => ?_, fun b hb => ?_, fun x hx => h.unused x (Nat.le_of_succ_le hx)⟩
  · replace hx : (ns.supply a).place b = some x := hx
    rw [Names.supply_place] at hx
    split at hx
    · rename_i hba
      subst hba
      rw [← Option.some.inj hx]
      exact hvalue hb
    · rename_i hba
      exact h.known b x hx (hold b hba hb)
  · replace hb : (ns.supply a).place b = none := hb
    rw [Names.supply_place] at hb
    split at hb
    · exact absurd hb (by simp)
    · exact h.unnamed b hb

/-- **The two programs run alike.** Where the first has an outcome, so has the second,
from any memory that holds what is to be supplied; and the number of an address holds at
the end what the address does. -/
theorem runs (h : Translates apply start p p' inputs ns) {m₀ : A → V} (m₀' : ℕ → V) :
    (∀ e ∈ inputs, m₀' e.2 = m₀ e.1) → ∀ {m : A → V}, evaluate apply m₀ p = some m →
      ∃ m', evaluate apply m₀' p' = some m' ∧ Agrees ns m₀ m m₀' m' := by
  induction h with
  | nil =>
    intro _ m hm
    obtain rfl := Option.some.inj hm
    exact ⟨m₀', rfl, fun a x hx => absurd hx (by simp [Names.fresh]), fun _ _ => rfl, fun _ _ => rfl⟩
  | skip h ih =>
    intro hinputs m hm
    obtain ⟨m', hm', hagrees⟩ := ih hinputs hm
    exact ⟨m', hm', hagrees.known, hagrees.unnamed, fun x hx => hagrees.unused x (Nat.le_of_succ_le hx)⟩
  | @supply p p' inputs ns a h hnew ih =>
    intro hinputs m hm
    obtain ⟨hold, hlast⟩ := List.forall_mem_append.mp hinputs
    obtain ⟨m', hm', hagrees⟩ := ih hold hm
    refine ⟨m', hm', hagrees.supply a ns.planted (fun _ _ hb => hb) fun _ => ?_⟩
    -- neither program has touched the address or its number
    rw [hagrees.unused _ (Nat.le_refl _), hagrees.unnamed a hnew]
    exact hlast _ (List.mem_singleton_self _)
  | @plant p p' inputs ns a h ih =>
    intro hinputs m hm
    obtain ⟨m', hm', hagrees⟩ := ih hinputs hm
    refine ⟨m', hm', hagrees.supply a (a :: ns.planted) (fun b _ hb => ?_) fun ha => ?_⟩
    · exact fun hplanted => hb (List.mem_cons_of_mem _ hplanted)
    · exact absurd List.mem_cons_self ha
  | @line p p' inputs ns l l' h hl ih =>
    intro hinputs m hm
    rw [evaluate_concat] at hm
    obtain ⟨m₁, hm₁, hstep⟩ := Option.bind_eq_some_iff.mp hm
    obtain ⟨v, hv, rfl⟩ := Option.map_eq_some_iff.mp hstep
    obtain ⟨m', hm', hagrees⟩ := ih hinputs hm₁
    -- the operands are the same, so the result is
    have hoperands : l'.reads.map m' = l.reads.map m₁ := by
      have hmap : List.Forall₂ (fun a x => m' x = m₁ a) l.reads l'.reads :=
        hl.reads.imp fun a x hax => hagrees.known a x hax.1 hax.2
      generalize l.reads = as, l'.reads = xs at hmap ⊢
      induction hmap with
      | nil => rfl
      | cons hax _ ihmap => rw [List.map_cons, List.map_cons, hax, ihmap]
    have hstep' : l'.step apply m' = some (Function.update m' l'.dest v) := by
      rw [Line.step, hoperands, hl.op, hv, Option.map_some]
    refine ⟨Function.update m' l'.dest v, ?_, ?_⟩
    · rw [evaluate_concat, hm', Option.bind_some, hstep']
    rw [hl.dest]
    -- the line writes an address, and the next number, which no other address has
    refine ⟨fun b x hx hb => ?_, fun b hb => ?_, fun x hx => ?_⟩
    · replace hx : (ns.supply l.dest).place b = some x := hx
      rw [Names.supply_place] at hx
      split at hx
      · rename_i hbl
        subst hbl
        rw [← Option.some.inj hx, Function.update_self, Function.update_self]
      · rename_i hbl
        have hlt := h.place_lt b x hx
        rw [Function.update_of_ne (by omega), Function.update_of_ne hbl]
        refine hagrees.known b x hx fun hplanted => hb (List.mem_filter.mpr ⟨hplanted, ?_⟩)
        exact decide_eq_true hbl
    · replace hb : (ns.supply l.dest).place b = none := hb
      rw [Names.supply_place] at hb
      split at hb
      · exact absurd hb (by simp)
      · rename_i hbl
        rw [Function.update_of_ne hbl, hagrees.unnamed b hb]
    · have hlt : ns.next + 1 ≤ x := hx
      rw [Function.update_of_ne (by omega), hagrees.unused x (by omega)]

end Translates

end Renaming
