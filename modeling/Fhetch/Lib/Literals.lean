/-
The integer literals of C, and what `strtoull` makes of them.

A literal is digits in base ten that do not start with 0, digits in base sixteen behind
`0x`, or digits in base eight behind a 0. `strtoull` in base 0 reads a literal whole; what
it reads whole besides starts with white space or a sign.
-/
import Fhetch.Lib.Text

set_option autoImplicit false

namespace Fhetch.Lib

/-- An unsigned literal and its value. -/
inductive Literal : List UInt8 → ℕ → Prop
  | decimal {c : UInt8} {cs : List UInt8} (hc : c ≠ 0x30) (hcs : ∀ d ∈ c :: cs, digitVal d < 10) :
    Literal (c :: cs) (magnitude 10 (c :: cs))
  | hexadecimal {x c : UInt8} {cs : List UInt8} (hx : x = 0x78 ∨ x = 0x58)
    (hcs : ∀ d ∈ c :: cs, digitVal d < 16) : Literal (0x30 :: x :: c :: cs) (magnitude 16 (c :: cs))
  | octal {cs : List UInt8} (hcs : ∀ d ∈ cs, digitVal d < 8) : Literal (0x30 :: cs) (magnitude 8 cs)

theorem magnitude_zero_cons (base : ℕ) (cs : List UInt8) :
    magnitude base (0x30 :: cs) = magnitude base cs := by
  have hzero : digitVal 0x30 = 0 := by decide
  rw [magnitude, List.foldl_cons, hzero, Nat.zero_mul]
  rfl

/-- Digits are worth less than their base to their number. -/
theorem magnitude_lt {base : ℕ} {ds : List UInt8} (h : ∀ c ∈ ds, digitVal c < base) :
    magnitude base ds < base ^ ds.length := by
  induction ds using List.reverseRecOn with
  | nil => exact Nat.one_pos
  | append_singleton ds c ih =>
    have hc : digitVal c < base := h c (List.mem_append_right _ List.mem_cons_self)
    have hds := ih fun d hd => h d (List.mem_append_left _ hd)
    rw [magnitude, List.foldl_append, List.foldl_cons, List.foldl_nil, List.length_append,
      List.length_singleton, pow_succ]
    calc magnitude base ds * base + digitVal c
        < magnitude base ds * base + base := Nat.add_lt_add_left hc _
      _ = (magnitude base ds + 1) * base := (Nat.succ_mul _ _).symm
      _ ≤ base ^ ds.length * base := Nat.mul_le_mul_right base hds

/-- A literal holds four bits for each of its characters, at most. -/
theorem Literal.lt_pow {s : List UInt8} {n : ℕ} (h : Literal s n) : n < 16 ^ s.length := by
  have hpow : ∀ {base len len' m : ℕ}, m < base ^ len → base ≤ 16 → len ≤ len' → m < 16 ^ len' :=
    fun hm hbase hlen => hm.trans_le ((Nat.pow_le_pow_left hbase _).trans
      (Nat.pow_le_pow_right (by decide) hlen))
  rcases h with ⟨-, hcs⟩ | ⟨-, hcs⟩ | hcs
  · exact hpow (magnitude_lt hcs) (by decide) (Nat.le_refl _)
  · exact hpow (magnitude_lt hcs) (Nat.le_refl _) (by simp only [List.length_cons]; omega)
  · exact hpow (magnitude_lt hcs) (by decide) (Nat.le_succ _)

/-- The digits that are left behind the prefix. -/
structure Digits (s : List UInt8) (n : ℕ) : Prop where
  ne_nil : (splitBase s).2 ≠ []
  digit : ∀ c ∈ (splitBase s).2, digitVal c < (splitBase s).1
  value : magnitude (splitBase s).1 (splitBase s).2 = n

theorem splitBase_decimal {c : UInt8} (hc : c ≠ 0x30) (cs : List UInt8) :
    splitBase (c :: cs) = (10, c :: cs) := if_pos hc

theorem splitBase_hexadecimal {x d : UInt8} (hx : x = 0x78 ∨ x = 0x58) (hd : digitVal d < 16)
    (ds : List UInt8) : splitBase (0x30 :: x :: d :: ds) = (16, d :: ds) := by
  simp [splitBase, hx, hd]

theorem splitBase_octal {s : List UInt8}
    (h : ∀ x d ds, s = x :: d :: ds → ¬ ((x = 0x78 ∨ x = 0x58) ∧ digitVal d < 16)) :
    splitBase (0x30 :: s) = (8, 0x30 :: s) := by
  rcases s with - | ⟨x, - | ⟨d, ds⟩⟩
  · rfl
  · rfl
  · have hx := h x d ds rfl
    simp [splitBase, hx]

/-- **A literal is its digits behind its prefix.** -/
theorem literal_iff_digits {s : List UInt8} {n : ℕ} : Literal s n ↔ Digits s n := by
  constructor
  · rintro (⟨hc, hcs⟩ | ⟨hx, hcs⟩ | hcs)
    · rename_i c cs
      have hsplit := splitBase_decimal hc cs
      exact ⟨by rw [hsplit]; exact List.cons_ne_nil _ _, by rw [hsplit]; exact hcs, by rw [hsplit]⟩
    · rename_i x c cs
      have hsplit := splitBase_hexadecimal hx (hcs c List.mem_cons_self) cs
      exact ⟨by rw [hsplit]; exact List.cons_ne_nil _ _, by rw [hsplit]; exact hcs, by rw [hsplit]⟩
    · rename_i cs
      have hsplit : splitBase (0x30 :: cs) = (8, 0x30 :: cs) := by
        apply splitBase_octal
        rintro x d ds rfl
        -- `x` is no octal digit
        have hx := hcs x List.mem_cons_self
        have hne : ∀ y : UInt8, 8 ≤ digitVal y → x ≠ y := by
          rintro y hy rfl
          omega
        rintro ⟨h | h, -⟩
        · exact hne 0x78 (by decide) h
        · exact hne 0x58 (by decide) h
      refine ⟨by rw [hsplit]; exact List.cons_ne_nil _ _, ?_, by rw [hsplit]; exact magnitude_zero_cons 8 cs⟩
      rw [hsplit]
      exact List.forall_mem_cons.mpr ⟨Nat.zero_lt_succ 7, hcs⟩
  · rintro ⟨hne, hdigit, rfl⟩
    rcases s with - | ⟨c, cs⟩
    · exact absurd rfl hne
    · by_cases hc : c = 0x30
      · rw [hc] at hdigit ⊢
        -- the prefix counts only when a hexadecimal digit follows it
        by_cases hprefix : ∃ x d ds, cs = x :: d :: ds ∧ (x = 0x78 ∨ x = 0x58) ∧ digitVal d < 16
        · obtain ⟨x, d, ds, rfl, hx, hd⟩ := hprefix
          have hsplit := splitBase_hexadecimal hx hd ds
          rw [hsplit] at hdigit ⊢
          exact .hexadecimal hx hdigit
        · have hsplit : splitBase (0x30 :: cs) = (8, 0x30 :: cs) := by
            apply splitBase_octal
            rintro x d ds hcs ⟨hx, hd⟩
            exact hprefix ⟨x, d, ds, hcs, hx, hd⟩
          rw [hsplit] at hdigit ⊢
          dsimp only
          rw [magnitude_zero_cons]
          exact .octal (List.forall_mem_cons.mp hdigit).2
      · have hsplit := splitBase_decimal hc cs
        rw [hsplit] at hdigit ⊢
        exact .decimal hc hdigit

/-- A literal is digits and at most an `x`: neither white space nor a sign is in it. -/
theorem Literal.plain {s : List UInt8} {n : ℕ} (h : Literal s n) {c : UInt8} (hc : c ∈ s) :
    isSpace c = false ∧ c ≠ 0x2D ∧ c ≠ 0x2B := by
  have hplain : ∀ d : UInt8, digitVal d < 36 ∨ d = 0x78 ∨ d = 0x58 →
      isSpace d = false ∧ d ≠ 0x2D ∧ d ≠ 0x2B := by
    rintro d (hd | rfl | rfl)
    · refine ⟨?_, ?_, ?_⟩
      · by_contra hspace
        rw [Bool.not_eq_false] at hspace
        simp only [isSpace, Bool.or_eq_true, Bool.and_eq_true, decide_eq_true_eq] at hspace
        revert hd
        unfold digitVal
        simp only [Bool.and_eq_true, decide_eq_true_eq, UInt8.le_iff_toNat_le, ← UInt8.toNat_inj] at hspace ⊢
        simp only [UInt8.reduceToNat] at hspace ⊢
        split
        · omega
        · split
          · omega
          · split
            · omega
            · omega
      · rintro rfl
        exact absurd hd (by decide)
      · rintro rfl
        exact absurd hd (by decide)
    · decide
    · decide
  apply hplain
  rcases h with ⟨-, hcs⟩ | ⟨hx, hcs⟩ | hcs
  · have := hcs c hc
    omega
  · rcases List.mem_cons.mp hc with rfl | hc
    · exact .inl (by decide)
    · rcases List.mem_cons.mp hc with rfl | hc
      · exact .inr hx
      · have := hcs c hc
        omega
  · rcases List.mem_cons.mp hc with rfl | hc
    · exact .inl (by decide)
    · have := hcs c hc
      omega

/-- **What `strtoull` reads whole**: white space, a sign, and a literal that fits. -/
theorem strtoull_whole_iff {s : List UInt8} (hs : s ≠ []) {v : ℕ} :
    (strtoull s).erange = false ∧ (strtoull s).rest = [] ∧ (strtoull s).value = v ↔
      ∃ m, Literal (splitSign (s.dropWhile isSpace)).2 m ∧ m < 2 ^ 64 ∧
        v = if (splitSign (s.dropWhile isSpace)).1 then (2 ^ 64 - m) % 2 ^ 64 else m := by
  simp only [literal_iff_digits]
  generalize hu : (splitSign (s.dropWhile isSpace)).2 = u
  generalize hneg : (splitSign (s.dropWhile isSpace)).1 = negative
  have hdigits : (∃ m, Digits u m ∧ m < 2 ^ 64 ∧ v = if negative then (2 ^ 64 - m) % 2 ^ 64 else m) ↔
      (splitBase u).2 ≠ [] ∧ (∀ c ∈ (splitBase u).2, digitVal c < (splitBase u).1) ∧
        magnitude (splitBase u).1 (splitBase u).2 < 2 ^ 64 ∧
        v = if negative then (2 ^ 64 - magnitude (splitBase u).1 (splitBase u).2) % 2 ^ 64
          else magnitude (splitBase u).1 (splitBase u).2 := by
    constructor
    · rintro ⟨m, ⟨hne, hdigit, rfl⟩, hm, hv⟩
      exact ⟨hne, hdigit, hm, hv⟩
    · rintro ⟨hne, hdigit, hm, hv⟩
      exact ⟨_, ⟨hne, hdigit, rfl⟩, hm, hv⟩
  rw [hdigits]
  simp only [strtoull, hu, hneg]
  generalize (splitBase u).1 = base
  generalize (splitBase u).2 = ds
  -- the whole text is digits of the base, or the scan stops before its end
  by_cases hall : ∀ c ∈ ds, digitVal c < base
  · have htake : ds.takeWhile (fun c => digitVal c < base) = ds :=
      List.takeWhile_eq_self_iff.mpr fun c hc => decide_eq_true (hall c hc)
    have hdrop : ds.dropWhile (fun c => digitVal c < base) = [] :=
      List.dropWhile_eq_nil_iff.mpr fun c hc => decide_eq_true (hall c hc)
    rw [htake, hdrop]
    by_cases hnil : ds = []
    · rw [hnil, if_pos (show [].isEmpty = true from rfl)]
      exact iff_of_false (fun h => hs h.2.1) (fun h => h.1 rfl)
    · rw [if_neg (by rwa [List.isEmpty_iff])]
      by_cases hm : 2 ^ 64 ≤ magnitude base ds
      · rw [if_pos hm]
        exact iff_of_false (fun h => absurd h.1 (by simp)) (fun h => absurd h.2.2.1 (by omega))
      · rw [if_neg hm]
        dsimp only
        refine ⟨fun h => ⟨hnil, hall, by omega, h.2.2.symm⟩, fun h => ⟨rfl, rfl, h.2.2.2.symm⟩⟩
  · -- a character that is no digit is left
    have hdrop : ds.dropWhile (fun c => digitVal c < base) ≠ [] := by
      intro hnil
      rw [List.dropWhile_eq_nil_iff] at hnil
      exact hall fun c hc => of_decide_eq_true (hnil c hc)
    refine iff_of_false (fun h => ?_) (fun h => hall h.2.1)
    by_cases hempty : (ds.takeWhile fun c => digitVal c < base).isEmpty
    · rw [if_pos hempty] at h
      exact hs h.2.1
    · rw [if_neg hempty] at h
      by_cases hm : 2 ^ 64 ≤ magnitude base (ds.takeWhile fun c => digitVal c < base)
      · rw [if_pos hm] at h
        exact absurd h.1 (by simp)
      · rw [if_neg hm] at h
        exact hdrop h.2.1

end Fhetch.Lib
