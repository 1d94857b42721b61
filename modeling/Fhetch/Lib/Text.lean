/-
Text as a C++ reader takes it apart: lines, trimmed views, tokens, numerals.

A text is its bytes, and the "C" locale decides what a space or a digit is.
Two spaces are in play. A stream extraction stops at any `isspace` character;
the trimming of the readers here knows only blanks, tabs and line ends. A token
is therefore trimmed, but a trimmed line may still hold a vertical tab.
-/
import Mathlib.Data.List.DropRight
import Mathlib.Data.Nat.Digits.Lemmas

set_option autoImplicit false

namespace Fhetch.Lib

/-! ## Lines -/

/-- The line end. -/
def newline : UInt8 := 0x0A

/-- The lines `std::getline` yields, without their ends: an unfinished last line
counts only when it holds something. -/
def getlines : List UInt8 → List (List UInt8)
  | [] => []
  | c :: cs =>
    if c = newline then [] :: getlines cs
    else match getlines cs with
      | [] => [[c]]
      | l :: ls => (c :: l) :: ls

theorem getlines_append {l : List UInt8} (hl : newline ∉ l) (rest : List UInt8) :
    getlines (l ++ newline :: rest) = l :: getlines rest := by
  induction l with
  | nil => rw [List.nil_append, getlines, if_pos rfl]
  | cons c l ih =>
    have hc : c ≠ newline := fun h => hl (h ▸ List.mem_cons_self)
    rw [List.cons_append, getlines, if_neg hc, ih fun h => hl (List.mem_cons_of_mem c h)]

/-- A part that ends its last line ends before the rest. -/
theorem getlines_ended (s rest : List UInt8) :
    getlines (s ++ newline :: rest) = getlines (s ++ [newline]) ++ getlines rest := by
  induction s with
  | nil => simp [getlines]
  | cons c s ih =>
    rw [List.cons_append, List.cons_append, getlines, getlines, ih]
    split
    · rfl
    · -- the line that is open here has an end, so there is one
      have hne : getlines (s ++ [newline]) ≠ [] := by
        intro h
        cases s with
        | nil => simp [getlines] at h
        | cons d s =>
          rw [List.cons_append, getlines] at h
          split at h
          · exact absurd h (by simp)
          · split at h <;> exact absurd h (by simp)
      obtain ⟨l, ls, hls⟩ := List.exists_cons_of_ne_nil hne
      rw [hls]
      rfl

/-- A last line that holds something needs no end. -/
theorem getlines_unended {l : List UInt8} (hne : l ≠ []) (hl : newline ∉ l) : getlines l = [l] := by
  induction l with
  | nil => exact absurd rfl hne
  | cons c l ih =>
    have hc : c ≠ newline := fun h => hl (h ▸ List.mem_cons_self)
    rw [getlines, if_neg hc]
    by_cases hnil : l = []
    · rw [hnil, getlines]
    · rw [ih hnil fun h => hl (List.mem_cons_of_mem c h)]

theorem getlines_flatMap {ls : List (List UInt8)} (hls : ∀ l ∈ ls, newline ∉ l)
    (rest : List UInt8) :
    getlines (ls.flatMap (fun l => l ++ [newline]) ++ rest) = ls ++ getlines rest := by
  induction ls with
  | nil => rfl
  | cons l ls ih =>
    rw [List.flatMap_cons, List.append_assoc, List.append_assoc, List.singleton_append,
      getlines_append (hls l List.mem_cons_self),
      ih fun l' h => hls l' (List.mem_cons_of_mem l h), List.cons_append]

theorem newline_not_mem_getlines (t : List UInt8) : ∀ l ∈ getlines t, newline ∉ l := by
  induction t with
  | nil => intro l hl; exact absurd hl List.not_mem_nil
  | cons c cs ih =>
    intro l hl
    rw [getlines] at hl
    -- a break opens a line; any other character joins the line behind it
    by_cases hc : c = newline
    · rw [if_pos hc] at hl
      rcases List.mem_cons.mp hl with rfl | hl
      · exact List.not_mem_nil
      · exact ih l hl
    · rw [if_neg hc] at hl
      cases hrest : getlines cs with
      | nil =>
        rw [hrest] at hl
        rw [List.mem_singleton.mp hl, List.mem_singleton]
        exact fun h => hc h.symm
      | cons l' ls =>
        rw [hrest] at hl ih
        rcases List.mem_cons.mp hl with rfl | hl
        · intro h
          rcases List.mem_cons.mp h with h | h
          · exact hc h.symm
          · exact ih l' List.mem_cons_self h
        · exact ih l (List.mem_cons_of_mem l' hl)

/-- Each line but the last has an end. -/
theorem sum_getlines_le (t : List UInt8) :
    ((getlines t).map fun l => l.length + 1).sum ≤ t.length + 1 := by
  induction t with
  | nil => exact Nat.zero_le _
  | cons c cs ih =>
    rw [getlines, List.length_cons]
    by_cases hc : c = newline
    · rw [if_pos hc, List.map_cons, List.sum_cons, List.length_nil]
      omega
    · rw [if_neg hc]
      cases hrest : getlines cs with
      | nil =>
        simp only [List.map_cons, List.map_nil, List.sum_cons, List.sum_nil, List.length_singleton]
        omega
      | cons l ls =>
        rw [hrest, List.map_cons, List.sum_cons] at ih
        simp only [List.map_cons, List.sum_cons, List.length_cons]
        omega

/-! ## Trimming -/

/-- The blanks a trimmed view drops: `" \t\r\n"`. -/
def isBlank (c : UInt8) : Bool := c = 0x20 || c = 0x09 || c = 0x0D || c = 0x0A

/-- The view from the first to the last character that is not blank. -/
def trim (s : List UInt8) : List UInt8 := (s.dropWhile isBlank).rdropWhile isBlank

/-- A view that starts and ends with something. -/
structure Trimmed (s : List UInt8) : Prop where
  head : ∀ c, s.head? = some c → isBlank c = false
  last : ∀ c, s.getLast? = some c → isBlank c = false

theorem Trimmed.nil : Trimmed [] := ⟨by simp, by simp⟩

/-- The two ends of a given view can be looked at. -/
theorem Trimmed.of_ends {s : List UInt8} (hhead : s.head?.all (! isBlank ·))
    (hlast : s.getLast?.all (! isBlank ·)) : Trimmed s := by
  refine ⟨fun c hc => ?_, fun c hc => ?_⟩
  · rwa [hc, Option.all_some, Bool.not_eq_true'] at hhead
  · rwa [hc, Option.all_some, Bool.not_eq_true'] at hlast

theorem dropWhile_of_head {s : List UInt8} (h : ∀ c, s.head? = some c → isBlank c = false) :
    s.dropWhile isBlank = s := by
  rcases s with - | ⟨c, s⟩
  · rfl
  · rw [List.dropWhile_cons, h c rfl]
    rfl

theorem trim_of_trimmed {s : List UInt8} (h : Trimmed s) : trim s = s := by
  rw [trim, dropWhile_of_head h.head, List.rdropWhile_eq_self_iff]
  intro hne
  rw [h.last _ (List.getLast?_eq_some_getLast hne)]
  exact Bool.false_ne_true

theorem trim_cons_of_blank {c : UInt8} (hc : isBlank c) (s : List UInt8) :
    trim (c :: s) = trim s := by
  rw [trim, List.dropWhile_cons, if_pos hc, trim]

theorem mem_of_mem_trim {c : UInt8} {s : List UInt8} (h : c ∈ trim s) : c ∈ s :=
  (List.dropWhile_suffix isBlank).subset ((List.rdropWhile_prefix isBlank _).subset h)

theorem length_trim_le (s : List UInt8) : (trim s).length ≤ s.length :=
  (List.rdropWhile_prefix isBlank _).length_le.trans (List.dropWhile_suffix isBlank).length_le

/-- What is no blank stays. -/
theorem mem_trim {c : UInt8} (hc : isBlank c = false) {s : List UInt8} (h : c ∈ s) : c ∈ trim s := by
  have hdrop : c ∈ s.dropWhile isBlank := by
    rw [← s.takeWhile_append_dropWhile (p := isBlank)] at h
    rcases List.mem_append.mp h with h | h
    · rw [List.mem_takeWhile_imp h] at hc
      exact absurd hc (by decide)
    · exact h
  rw [← List.rdropWhile_append_rtakeWhile (p := isBlank) (l := s.dropWhile isBlank)] at hdrop
  rcases List.mem_append.mp hdrop with h | h
  · exact h
  · rw [List.mem_rtakeWhile_imp h] at hc
    exact absurd hc (by decide)

theorem trim_trimmed (s : List UInt8) : Trimmed (trim s) := by
  constructor
  · intro c hc
    -- a prefix of what the first drop left starts where that does
    obtain ⟨rest, hrest⟩ := List.rdropWhile_prefix isBlank (s.dropWhile isBlank)
    have hhead : (s.dropWhile isBlank).head? = some c := by
      rw [← hrest, List.head?_append, show (List.rdropWhile _ _).head? = some c from hc]
      rfl
    have hnot := List.head?_dropWhile_not isBlank s
    rwa [hhead] at hnot
  · intro c hc
    have hne : trim s ≠ [] := fun h => by rw [h] at hc; exact absurd hc (by simp)
    have hlast := List.rdropWhile_last_not isBlank _ hne
    rw [List.getLast?_eq_some_getLast hne, Option.some.injEq] at hc
    rw [← hc]
    exact Bool.eq_false_iff.mpr hlast

/-- What stands between two trimmed texts does not matter. -/
theorem Trimmed.between {s t : List UInt8} (hs : Trimmed s) (hs₀ : s ≠ []) (ht : Trimmed t)
    (ht₀ : t ≠ []) (mid : List UInt8) : Trimmed (s ++ (mid ++ t)) := by
  obtain ⟨c, cs, rfl⟩ := List.exists_cons_of_ne_nil hs₀
  refine ⟨fun d hd => hs.head d hd, fun d hd => ht.last d ?_⟩
  rwa [← List.append_assoc, List.getLast?_append_of_ne_nil _ ht₀] at hd

/-- Dropping blanks at the end stops at anything else. -/
theorem rdropWhile_append_cons {c : UInt8} (hc : isBlank c = false) (s t : List UInt8) :
    (s ++ c :: t).rdropWhile isBlank = s ++ c :: t.rdropWhile isBlank := by
  induction t using List.reverseRecOn with
  | nil => rw [List.rdropWhile_concat_neg _ _ _ (by rw [hc]; exact Bool.false_ne_true)]; rfl
  | append_singleton t d ih =>
    rw [← List.cons_append, ← List.append_assoc]
    by_cases hd : isBlank d
    · rw [List.rdropWhile_concat_pos _ _ _ hd, List.rdropWhile_concat_pos _ _ _ hd, ih]
    · rw [List.rdropWhile_concat_neg _ _ _ hd, List.rdropWhile_concat_neg _ _ _ hd,
        List.append_assoc, List.cons_append]

/-- A text that starts with something loses blanks at its end only. -/
theorem trim_cons_of_not_blank {c : UInt8} (hc : isBlank c = false) (s : List UInt8) :
    trim (c :: s) = c :: s.rdropWhile isBlank := by
  rw [trim, List.dropWhile_cons, hc, if_neg Bool.false_ne_true]
  exact rdropWhile_append_cons hc [] s

/-- What follows a text that holds something does not move the text's start. -/
theorem trim_append_cons {s : List UInt8} (hs : trim s ≠ []) {c : UInt8} (hc : isBlank c = false) :
    ∃ pad, (∀ b ∈ pad, isBlank b) ∧ ∀ mid tail,
      trim (s ++ (mid ++ c :: tail)) = trim s ++ (pad ++ mid) ++ c :: tail.rdropWhile isBlank := by
  have hne : s.dropWhile isBlank ≠ [] := by
    intro h
    exact hs (by rw [trim, h, List.rdropWhile_nil])
  refine ⟨(s.dropWhile isBlank).rtakeWhile isBlank, fun b hb => List.mem_rtakeWhile_imp hb,
    fun mid tail => ?_⟩
  rw [trim, List.dropWhile_append, if_neg (by rwa [List.isEmpty_iff]), ← List.append_assoc,
    rdropWhile_append_cons hc, ← List.append_assoc, trim, List.rdropWhile_append_rtakeWhile]

theorem trim_concat_of_blank {c : UInt8} (hc : isBlank c) (s : List UInt8) :
    trim (s ++ [c]) = trim s := by
  rw [trim, trim, List.dropWhile_append]
  split
  · rename_i hnil
    rw [List.isEmpty_iff.mp hnil, List.dropWhile_cons, if_pos hc]
    rfl
  · rw [List.rdropWhile_concat_pos _ _ _ hc]

theorem trim_append_blanks {pad : List UInt8} (hpad : ∀ b ∈ pad, isBlank b) (s : List UInt8) :
    trim (s ++ pad) = trim s := by
  induction pad using List.reverseRecOn with
  | nil => rw [List.append_nil]
  | append_singleton pad b ih =>
    rw [← List.append_assoc, trim_concat_of_blank (hpad b (List.mem_append_right _ List.mem_cons_self)),
      ih fun b' hb' => hpad b' (List.mem_append_left _ hb')]

/-- Trimming the end first makes no difference. -/
theorem trim_rdropWhile (s : List UInt8) : trim (s.rdropWhile isBlank) = trim s := by
  induction s using List.reverseRecOn with
  | nil => rfl
  | append_singleton s c ih =>
    by_cases hc : isBlank c
    · rw [List.rdropWhile_concat_pos _ _ _ hc, ih, trim_concat_of_blank hc]
    · rw [List.rdropWhile_concat_neg _ _ _ hc]

/-! ## Tokens -/

/-- `isspace`. -/
def isSpace (c : UInt8) : Bool := c = 0x20 || (0x09 ≤ c && c ≤ 0x0D)

/-- The tokens of a text, the first of them begun already. -/
def tokensFrom (begun : List UInt8) : List UInt8 → List (List UInt8)
  | [] => if begun.isEmpty then [] else [begun]
  | c :: cs =>
    if isSpace c then
      if begun.isEmpty then tokensFrom [] cs else begun :: tokensFrom [] cs
    else tokensFrom (begun ++ [c]) cs

/-- What extracting strings from a stream yields until it ends. -/
def tokens (s : List UInt8) : List (List UInt8) := tokensFrom [] s

/-- Something an extraction yields whole. -/
structure Word (w : List UInt8) : Prop where
  nonempty : w ≠ []
  solid : ∀ c ∈ w, isSpace c = false

/-- Every character of a given text can be looked at. -/
theorem Word.of_all {w : List UInt8} (hne : w ≠ []) (hall : w.all (! isSpace ·)) : Word w :=
  ⟨hne, fun c hc => by rw [← Bool.not_eq_true']; exact List.all_eq_true.mp hall c hc⟩

theorem tokensFrom_append {w : List UInt8} (hw : ∀ c ∈ w, isSpace c = false) :
    ∀ begun rest, tokensFrom begun (w ++ rest) = tokensFrom (begun ++ w) rest := by
  induction w with
  | nil => intro begun rest; rw [List.append_nil, List.nil_append]
  | cons c w ih =>
    intro begun rest
    rw [List.cons_append, tokensFrom, hw c List.mem_cons_self, if_neg Bool.false_ne_true,
      ih (fun d hd => hw d (List.mem_cons_of_mem c hd)), List.append_assoc, List.singleton_append]

theorem tokens_word {w : List UInt8} (hw : Word w) : tokens w = [w] := by
  rw [tokens, ← List.append_nil w, tokensFrom_append hw.solid, List.nil_append, List.append_nil,
    tokensFrom, if_neg (mt List.isEmpty_iff.mp hw.nonempty)]

theorem tokens_word_append {w : List UInt8} (hw : Word w) {c : UInt8} (hc : isSpace c)
    (rest : List UInt8) : tokens (w ++ c :: rest) = w :: tokens rest := by
  rw [tokens, tokensFrom_append hw.solid, List.nil_append, tokensFrom, if_pos hc,
    if_neg (mt List.isEmpty_iff.mp hw.nonempty), tokens]

theorem isSpace_of_isBlank {c : UInt8} (h : isBlank c) : isSpace c := by
  revert h
  simp only [isBlank, isSpace, Bool.or_eq_true, decide_eq_true_eq]
  rintro (((rfl | rfl) | rfl) | rfl) <;> decide

theorem Word.trimmed {w : List UInt8} (hw : Word w) : Trimmed w := by
  have hsolid : ∀ c ∈ w, isBlank c = false := fun c hc => by
    by_contra h
    have := isSpace_of_isBlank (eq_true_of_ne_false h)
    rw [hw.solid c hc] at this
    exact Bool.false_ne_true this
  exact ⟨fun c hc => hsolid c (List.mem_of_head? hc),
    fun c hc => hsolid c (List.mem_of_getLast? hc)⟩

/-! ## Numerals -/

/-- The value of a character as a digit; 36 for one that is no digit of any
base. -/
def digitVal (c : UInt8) : ℕ :=
  if 0x30 ≤ c && c ≤ 0x39 then c.toNat - 0x30
  else if 0x41 ≤ c && c ≤ 0x5A then c.toNat - 0x41 + 10
  else if 0x61 ≤ c && c ≤ 0x7A then c.toNat - 0x61 + 10
  else 36

/-- The upper-case digit of a value. -/
def digitChar (d : ℕ) : UInt8 := if d < 10 then UInt8.ofNat (0x30 + d) else UInt8.ofNat (0x37 + d)

theorem digitVal_digitChar : ∀ d < 36, digitVal (digitChar d) = d := by decide

theorem digitChar_solid : ∀ d < 36, isSpace (digitChar d) = false := by decide

/-- A number in a base, most significant digit first. -/
def numeral (base n : ℕ) : List UInt8 :=
  if n = 0 then [digitChar 0] else (Nat.digits base n).reverse.map digitChar

/-- What `std::to_string` renders. -/
def decimal (n : ℕ) : List UInt8 := numeral 10 n

/-- The number a run of digits stands for. -/
def magnitude (base : ℕ) (ds : List UInt8) : ℕ := ds.foldl (fun v c => v * base + digitVal c) 0

section Numeral

variable {base : ℕ} (hbase : 1 < base) (hle : base ≤ 36)

include hbase hle

theorem numeral_digits (n : ℕ) : ∀ c ∈ numeral base n, ∃ d < base, c = digitChar d := by
  intro c hc
  rw [numeral] at hc
  split at hc
  · exact ⟨0, by omega, List.mem_singleton.mp hc⟩
  · obtain ⟨d, hd, rfl⟩ := List.mem_map.mp hc
    exact ⟨d, Nat.digits_lt_base hbase (List.mem_reverse.mp hd), rfl⟩

theorem digitVal_numeral (n : ℕ) : ∀ c ∈ numeral base n, digitVal c < base := by
  intro c hc
  obtain ⟨d, hd, rfl⟩ := numeral_digits hbase hle n c hc
  rwa [digitVal_digitChar d (by omega)]

theorem magnitude_numeral (n : ℕ) : magnitude base (numeral base n) = n := by
  rw [numeral]
  split
  · rename_i h
    rw [h]
    rw [magnitude, List.foldl_cons, List.foldl_nil, digitVal_digitChar 0 (by decide), Nat.zero_mul]
  · rw [magnitude, List.foldl_map, List.foldl_reverse]
    have hval : ∀ ds : List ℕ, (∀ d ∈ ds, d < base) →
        ds.foldr (fun d v => v * base + digitVal (digitChar d)) 0 = Nat.ofDigits base ds := by
      intro ds hds
      induction ds with
      | nil => rfl
      | cons d ds ih =>
        rw [List.foldr_cons, ih fun d' h => hds d' (List.mem_cons_of_mem d h),
          digitVal_digitChar d (by have := hds d List.mem_cons_self; omega), Nat.ofDigits_cons,
          Nat.mul_comm, Nat.add_comm]
    rw [hval _ fun d hd => Nat.digits_lt_base hbase hd, Nat.ofDigits_digits]

theorem numeral_word (n : ℕ) : Word (numeral base n) := by
  constructor
  · rw [numeral]
    split
    · exact List.cons_ne_nil _ _
    · rename_i h
      intro hnil
      rw [List.map_eq_nil_iff, List.reverse_eq_nil_iff, Nat.digits_eq_nil_iff_eq_zero] at hnil
      exact h hnil
  · intro c hc
    obtain ⟨d, hd, rfl⟩ := numeral_digits hbase hle n c hc
    exact digitChar_solid d (by omega)

/-- A numeral holds digits only. -/
theorem not_mem_numeral (n : ℕ) {c : UInt8} (hc : digitVal c = 36) : c ∉ numeral base n := by
  intro hmem
  have := digitVal_numeral hbase hle n c hmem
  omega

end Numeral

/-- A numeral of a positive number starts with a digit that is not zero. -/
theorem numeral_head {base : ℕ} (hbase : 1 < base) {n : ℕ} (hn : n ≠ 0) :
    ∃ d ds, numeral base n = digitChar d :: ds ∧ 0 < d ∧ d < base := by
  have hne : Nat.digits base n ≠ [] := Nat.digits_ne_nil_iff_ne_zero.mpr hn
  have hlast := Nat.getLast_digit_ne_zero base hn
  refine ⟨(Nat.digits base n).getLast hne, ((Nat.digits base n).dropLast.reverse.map digitChar), ?_,
    Nat.pos_of_ne_zero hlast, Nat.digits_lt_base hbase (List.getLast_mem hne)⟩
  rw [numeral, if_neg hn, ← List.map_cons]
  congr 1
  conv_lhs => rw [← List.dropLast_append_getLast hne]
  rw [List.reverse_append, List.reverse_singleton, List.singleton_append]

/-! ## `strtoull` -/

/-- What `strtoull` reports: the value, whether it overflowed, and where it
stopped. -/
structure Strtoull where
  value : ℕ
  erange : Bool
  rest : List UInt8
  deriving DecidableEq

/-- One optional sign. -/
def splitSign : List UInt8 → Bool × List UInt8
  | [] => (false, [])
  | c :: cs => if c = 0x2D then (true, cs) else if c = 0x2B then (false, cs) else (false, c :: cs)

/-- The base a prefix selects when the caller asks for base 0. `0x` is a prefix
only in front of a hexadecimal digit, and a lone `0` stays to be read. -/
def splitBase : List UInt8 → ℕ × List UInt8
  | [] => (10, [])
  | c :: cs =>
    if c ≠ 0x30 then (10, c :: cs)
    else match cs with
      | x :: d :: ds =>
        if (x = 0x78 || x = 0x58) && digitVal d < 16 then (16, d :: ds) else (8, c :: cs)
      | _ => (8, c :: cs)

/-- `strtoull(s, &end, 0)`: leading white space, a sign, a base prefix, digits. A
negative value is negated in the unsigned type; with no digits nothing is
consumed. -/
def strtoull (s : List UInt8) : Strtoull :=
  let signed := splitSign (s.dropWhile isSpace)
  let based := splitBase signed.2
  let digits := based.2.takeWhile fun c => digitVal c < based.1
  let rest := based.2.dropWhile fun c => digitVal c < based.1
  let m := magnitude based.1 digits
  if digits.isEmpty then ⟨0, false, s⟩
  else if 2 ^ 64 ≤ m then ⟨2 ^ 64 - 1, true, rest⟩
  else ⟨if signed.1 then (2 ^ 64 - m) % 2 ^ 64 else m, false, rest⟩

/-- Digits alone, past the prefix that selects their base, are read whole. -/
theorem strtoull_of_numeral {s : List UInt8} {base n : ℕ} (hbase : 1 < base) (hle : base ≤ 36)
    (hn : n < 2 ^ 64) (hspace : s.dropWhile isSpace = s) (hsign : splitSign s = (false, s))
    (hsplit : splitBase s = (base, numeral base n)) : strtoull s = ⟨n, false, []⟩ := by
  have htake : (numeral base n).takeWhile (fun c => digitVal c < base) = numeral base n :=
    List.takeWhile_eq_self_iff.mpr fun c hc =>
      decide_eq_true (digitVal_numeral hbase hle n c hc)
  have hdrop : (numeral base n).dropWhile (fun c => digitVal c < base) = [] :=
    List.dropWhile_eq_nil_iff.mpr fun c hc => decide_eq_true (digitVal_numeral hbase hle n c hc)
  have hne : (numeral base n).isEmpty = false :=
    List.isEmpty_eq_false_iff.mpr (numeral_word hbase hle n).nonempty
  simp only [strtoull, hspace, hsign, hsplit, htake, hdrop, hne, magnitude_numeral hbase hle,
    Bool.false_eq_true, if_false, if_neg (Nat.not_le.mpr hn)]

/-- A base prefix holds digits and an `x`. -/
theorem mem_splitBase {c : UInt8} (hdigit : digitVal c = 36) {s : List UInt8} (h : c ∈ s) :
    c ∈ (splitBase s).2 ∧ (splitBase s).1 ≤ 36 := by
  unfold splitBase
  split
  · exact ⟨h, Nat.le_of_ble_eq_true rfl⟩
  · split
    · exact ⟨h, Nat.le_of_ble_eq_true rfl⟩
    · rename_i h0
      rw [not_not] at h0
      split
      · split
        · rename_i hx
          rw [Bool.and_eq_true, Bool.or_eq_true, decide_eq_true_eq, decide_eq_true_eq] at hx
          -- the prefix is dropped, and `c` is neither of its two characters
          have hne : c ≠ 0x30 := fun h => absurd hdigit (by rw [h]; decide)
          refine ⟨?_, Nat.le_of_ble_eq_true rfl⟩
          rw [h0] at h
          refine (List.mem_cons.mp ((List.mem_cons.mp h).resolve_left hne)).resolve_left ?_
          rintro rfl
          rcases hx.1 with hx | hx <;> exact absurd hdigit (by rw [hx]; decide)
        · exact ⟨h, Nat.le_of_ble_eq_true rfl⟩
      · exact ⟨h, Nat.le_of_ble_eq_true rfl⟩

/-- **A character of no number stops the scan.** What holds one is not read whole. -/
theorem mem_strtoull_rest {c : UInt8} (hdigit : digitVal c = 36) (hspace : isSpace c = false)
    (hsign : c ≠ 0x2D ∧ c ≠ 0x2B) {s : List UInt8} (h : c ∈ s) : c ∈ (strtoull s).rest := by
  have hdrop : ∀ {p : UInt8 → Bool} {l : List UInt8}, p c = false → c ∈ l → c ∈ l.dropWhile p := by
    intro p l hp hl
    rw [← l.takeWhile_append_dropWhile (p := p)] at hl
    refine (List.mem_append.mp hl).resolve_left fun hmem => ?_
    rw [List.mem_takeWhile_imp hmem] at hp
    exact absurd hp (by decide)
  have hskip : c ∈ s.dropWhile isSpace := hdrop hspace h
  have hsigned : c ∈ (splitSign (s.dropWhile isSpace)).2 := by
    cases hs : s.dropWhile isSpace with
    | nil => rw [hs] at hskip; exact absurd hskip List.not_mem_nil
    | cons d ds =>
      rw [hs] at hskip
      rw [splitSign]
      -- a sign is dropped, and `c` is none
      split
      · rename_i hd
        exact (List.mem_cons.mp hskip).resolve_left (hd ▸ hsign.1)
      · split
        · rename_i hd
          exact (List.mem_cons.mp hskip).resolve_left (hd ▸ hsign.2)
        · exact hskip
  have hbased : c ∈ (splitBase (splitSign (s.dropWhile isSpace)).2).2 ∧
      (splitBase (splitSign (s.dropWhile isSpace)).2).1 ≤ 36 :=
    mem_splitBase hdigit hsigned
  simp only [strtoull]
  split
  · exact h
  split <;> exact hdrop (decide_eq_false (by omega)) hbased.1

/-- The value fits the return type. -/
theorem strtoull_value_lt (s : List UInt8) : (strtoull s).value < 2 ^ 64 := by
  simp only [strtoull]
  split
  · exact Nat.two_pow_pos 64
  split
  · exact Nat.sub_lt (Nat.two_pow_pos 64) Nat.one_pos
  · rename_i h
    show (if _ then _ else _) < _
    split
    · exact Nat.mod_lt _ (Nat.two_pow_pos 64)
    · exact Nat.not_le.mp h

theorem dropWhile_isSpace_digit {d : ℕ} (hd : d < 36) (ds : List UInt8) :
    (digitChar d :: ds).dropWhile isSpace = digitChar d :: ds := by
  rw [List.dropWhile_cons, digitChar_solid d hd, if_neg Bool.false_ne_true]

theorem splitSign_digit {d : ℕ} (hd : d < 36) (ds : List UInt8) :
    splitSign (digitChar d :: ds) = (false, digitChar d :: ds) := by
  have hsigns : ∀ d < 36, digitChar d ≠ 0x2D ∧ digitChar d ≠ 0x2B := by decide
  rw [splitSign, if_neg (hsigns d hd).1, if_neg (hsigns d hd).2]

/-- Different numbers have different decimals. -/
theorem decimal_injective {m n : ℕ} (h : decimal m = decimal n) : m = n := by
  have hmagnitude := congrArg (magnitude 10) h
  rwa [decimal, decimal, magnitude_numeral (by decide) (by decide),
    magnitude_numeral (by decide) (by decide)] at hmagnitude

/-- **A decimal is read back.** Its first digit is not zero unless it is all of
it, so no prefix is mistaken for one of another base. -/
theorem strtoull_decimal {n : ℕ} (hn : n < 2 ^ 64) : strtoull (decimal n) = ⟨n, false, []⟩ := by
  by_cases h0 : n = 0
  · rw [h0]
    rfl
  · obtain ⟨d, ds, heq, hpos, hd⟩ := numeral_head (show 1 < 10 by decide) h0
    have hnz : ∀ d < 10, 0 < d → digitChar d ≠ 0x30 := by decide
    apply strtoull_of_numeral (show 1 < 10 by decide) (by decide) hn
    · rw [decimal, heq, dropWhile_isSpace_digit (by omega)]
    · rw [decimal, heq, splitSign_digit (by omega)]
    · rw [decimal, heq]
      exact if_pos (hnz d hd hpos)

/-- So is a hexadecimal with its prefix. -/
theorem strtoull_hex {n : ℕ} (hn : n < 2 ^ 64) :
    strtoull (0x30 :: 0x78 :: numeral 16 n) = ⟨n, false, []⟩ := by
  have hsplit : splitBase (0x30 :: 0x78 :: numeral 16 n) = (16, numeral 16 n) := by
    have hword : Word (numeral 16 n) := numeral_word (by decide) (by decide) n
    obtain ⟨d, ds, heq⟩ := List.exists_cons_of_ne_nil hword.nonempty
    have hd : digitVal d < 16 :=
      digitVal_numeral (by decide) (by decide) n d (heq ▸ List.mem_cons_self)
    rw [heq]
    simp [splitBase, hd]
  exact strtoull_of_numeral (by decide) (by decide) hn rfl rfl hsplit

end Fhetch.Lib
