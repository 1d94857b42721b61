/-
The numbers of the text form (`to_uint` of `src/fhetch_reader.cpp`).

A sign at the start of a token is refused before `strtoull` sees it. The token is trimmed
of blanks, tabs and line ends only, and `strtoull` skips every white space there is: behind
a vertical tab or a form feed it still finds its sign. The tokens of an instruction are
taken from a stream, which stops at those too. The rest of a `modulus_count` or `m[i]` line
is not.
-/
import Fhetch.Lib.Literals
import Fhetch.Reader

set_option autoImplicit false

namespace Fhetch

open Lib

/-! ## Tokens -/

/-- A token holds no white space. -/
theorem tokens_solid (s : Str) : ∀ tok ∈ tokens s, ∀ c ∈ tok, isSpace c = false := by
  have hfrom : ∀ (s begun : Str), (∀ c ∈ begun, isSpace c = false) →
      ∀ tok ∈ tokensFrom begun s, ∀ c ∈ tok, isSpace c = false := by
    intro s
    induction s with
    | nil =>
      intro begun hbegun tok htok
      rw [tokensFrom] at htok
      split at htok
      · exact absurd htok List.not_mem_nil
      · rw [List.mem_singleton.mp htok]
        exact hbegun
    | cons c s ih =>
      intro begun hbegun tok htok
      have hnone : ∀ d ∈ ([] : Str), isSpace d = false := fun _ hd => absurd hd List.not_mem_nil
      rw [tokensFrom] at htok
      -- white space closes the token that was begun; anything else goes to it
      by_cases hc : isSpace c
      · rw [if_pos hc] at htok
        split at htok
        · exact ih [] hnone tok htok
        · rcases List.mem_cons.mp htok with rfl | htok
          · exact hbegun
          · exact ih [] hnone tok htok
      · rw [if_neg hc] at htok
        apply ih (begun ++ [c]) (List.forall_mem_append.mpr ⟨hbegun, ?_⟩) tok htok
        exact List.forall_mem_singleton.mpr (Bool.eq_false_iff.mpr hc)
  exact hfrom s [] fun _ hd => absurd hd List.not_mem_nil

/-! ## What is read -/

/-- A number behind white space that is not trimmed, and maybe a sign. -/
def SkipsToNumber (s : Str) : Prop :=
  (s.head? = some 0x0B ∨ s.head? = some 0x0C) ∧
    ∃ m < 2 ^ 64, Literal (splitSign (s.dropWhile isSpace)).2 m

theorem to_uint_eq_some_iff {tok : Str} {v : UInt64} : to_uint tok = some v ↔
    strip_comma tok ≠ [] ∧ (strip_comma tok).head? ≠ some 0x2D ∧ (strip_comma tok).head? ≠ some 0x2B ∧
      ∃ m, Literal (splitSign ((strip_comma tok).dropWhile isSpace)).2 m ∧ m < 2 ^ 64 ∧
        v.toNat = if (splitSign ((strip_comma tok).dropWhile isSpace)).1 then (2 ^ 64 - m) % 2 ^ 64
          else m := by
  unfold to_uint
  rcases strip_comma tok with - | ⟨c, cs⟩
  · exact iff_of_false (by simp) (fun h => h.1 rfl)
  · rw [← strtoull_whole_iff (List.cons_ne_nil c cs)]
    dsimp only
    -- a sign in front is refused before anything is converted
    by_cases hsign : c = 0x2D ∨ c = 0x2B
    · rw [if_pos (by simpa using hsign)]
      refine iff_of_false (by simp) fun h => ?_
      rcases hsign with rfl | rfl
      · exact h.2.1 rfl
      · exact h.2.2.1 rfl
    · obtain ⟨hminus, hplus⟩ := not_or.mp hsign
      rw [if_neg (by simpa using hsign)]
      by_cases hwhole : (strtoull (c :: cs)).erange = false ∧ (strtoull (c :: cs)).rest = []
      · have hlt := strtoull_value_lt (c :: cs)
        rw [if_neg (by simp [hwhole.1, hwhole.2]), Option.some_inj, ← UInt64.toNat_inj,
          UInt64.toNat_ofNat_of_lt' hlt]
        exact ⟨fun h => ⟨List.cons_ne_nil _ _, by simpa using hminus, by simpa using hplus,
          hwhole.1, hwhole.2, h⟩, fun h => h.2.2.2.2.2⟩
      · rw [if_pos]
        · exact iff_of_false (by simp) fun h => hwhole ⟨h.2.2.2.1, h.2.2.2.2.1⟩
        · rw [Bool.or_eq_true, Bool.not_eq_true', List.isEmpty_eq_false_iff]
          by_contra hnot
          rw [not_or, Bool.not_eq_true, not_not] at hnot
          exact hwhole hnot

theorem head_of_literal {s : Str} {m : ℕ} (h : Literal s m) : ∃ c, s.head? = some c ∧
    isSpace c = false ∧ c ≠ 0x2D ∧ c ≠ 0x2B := by
  rcases s with - | ⟨c, cs⟩
  · exact absurd rfl (literal_iff_digits.mp h).ne_nil
  · exact ⟨c, rfl, h.plain List.mem_cons_self⟩

/-- Without white space and a sign in front, `strtoull` reads the text itself. -/
theorem unsigned_of_head {s : Str} {c : UInt8} (hs : s.head? = some c) (hspace : isSpace c = false)
    (hminus : c ≠ 0x2D) (hplus : c ≠ 0x2B) : splitSign (s.dropWhile isSpace) = (false, s) := by
  rcases s with - | ⟨d, ds⟩
  · exact absurd hs (by simp)
  · obtain rfl : d = c := Option.some.inj hs
    rw [List.dropWhile_cons, hspace, if_neg Bool.false_ne_true, splitSign, if_neg hminus, if_neg hplus]

/-- White space that survives the trimming is a vertical tab or a form feed. -/
theorem untrimmed_space {c : UInt8} (hspace : isSpace c) (hblank : isBlank c = false) :
    c = 0x0B ∨ c = 0x0C := by
  simp only [isSpace, isBlank, Bool.or_eq_true, Bool.and_eq_true, Bool.or_eq_false_iff, decide_eq_true_eq,
    decide_eq_false_iff_not, UInt8.le_iff_toNat_le, ← UInt8.toNat_inj, UInt8.reduceToNat] at hspace hblank ⊢
  omega

/-- **A token is read as its literal**, unless there is white space in front that was not
trimmed and a number behind. -/
theorem to_uint_iff_literal {tok : Str} (h : ¬ SkipsToNumber (strip_comma tok)) (v : UInt64) :
    to_uint tok = some v ↔ Literal (strip_comma tok) v.toNat := by
  rw [to_uint_eq_some_iff]
  constructor
  · rintro ⟨hne, hminus, hplus, m, hliteral, hm, hv⟩
    obtain ⟨c, cs, hcs⟩ := List.exists_cons_of_ne_nil hne
    have hhead : (strip_comma tok).head? = some c := by rw [hcs]; rfl
    rw [hhead, Ne, Option.some_inj] at hminus hplus
    -- white space that survives trimming is what `strtoull` skips
    by_cases hspace : isSpace c
    · refine absurd ⟨?_, m, hm, hliteral⟩ h
      have htrimmed : Trimmed (strip_comma tok) := trim_trimmed _
      rw [hhead, Option.some_inj, Option.some_inj]
      exact untrimmed_space hspace (htrimmed.head c hhead)
    · rw [unsigned_of_head hhead (Bool.eq_false_iff.mpr hspace) hminus hplus] at hliteral hv
      rw [hv]
      exact hliteral
  · intro hliteral
    obtain ⟨c, hhead, hspace, hminus, hplus⟩ := head_of_literal hliteral
    rw [unsigned_of_head hhead hspace hminus hplus, hhead]
    refine ⟨?_, by simpa using hminus, by simpa using hplus, _, hliteral, v.toNat_lt, rfl⟩
    intro hnil
    rw [hnil] at hhead
    exact absurd hhead (by simp)

/-- And there it is read as something that is no literal. -/
theorem to_uint_of_skips {tok : Str} (h : SkipsToNumber (strip_comma tok)) :
    ∃ v, to_uint tok = some v ∧ ¬ Literal (strip_comma tok) v.toNat := by
  obtain ⟨hhead, m, hm, hliteral⟩ := h
  have hlt : (if (splitSign ((strip_comma tok).dropWhile isSpace)).1 then (2 ^ 64 - m) % 2 ^ 64 else m) <
      2 ^ 64 := by
    split
    · exact Nat.mod_lt _ (Nat.two_pow_pos 64)
    · exact hm
  refine ⟨UInt64.ofNat _, to_uint_eq_some_iff.mpr ⟨?_, ?_, ?_, m, hliteral, hm,
    UInt64.toNat_ofNat_of_lt' hlt⟩, fun hnumber => ?_⟩
  · intro hnil
    rw [hnil] at hhead
    exact absurd hhead (by simp)
  · rcases hhead with hhead | hhead
    · rw [hhead]
      decide
    · rw [hhead]
      decide
  · rcases hhead with hhead | hhead
    · rw [hhead]
      decide
    · rw [hhead]
      decide
  -- a literal does not start with white space
  · obtain ⟨c, hc, hspace, -⟩ := head_of_literal hnumber
    rcases hhead with hhead | hhead
    · rw [hhead, Option.some_inj] at hc
      rw [← hc] at hspace
      exact absurd hspace (by decide)
    · rw [hhead, Option.some_inj] at hc
      rw [← hc] at hspace
      exact absurd hspace (by decide)

/-- A token without white space has none in front. -/
theorem not_skipsToNumber {tok : Str} (h : ∀ c ∈ tok, isSpace c = false) :
    ¬ SkipsToNumber (strip_comma tok) := by
  rintro ⟨hhead, -⟩
  rcases hhead with hhead | hhead
  · have := h _ (mem_of_mem_strip_comma (List.mem_of_mem_head? hhead))
    exact absurd this (by decide)
  · have := h _ (mem_of_mem_strip_comma (List.mem_of_mem_head? hhead))
    exact absurd this (by decide)

/-- No sign in a text. -/
def Signless (s : Str) : Prop := 0x2D ∉ s ∧ 0x2B ∉ s

/-- What is read as its literal has no sign anywhere. -/
theorem signless_of_to_uint {tok : Str} (h : ¬ SkipsToNumber (strip_comma tok))
    (hread : (to_uint tok).isSome) : Signless tok := by
  obtain ⟨v, hv⟩ := Option.isSome_iff_exists.mp hread
  have hliteral := (to_uint_iff_literal h v).mp hv
  exact ⟨fun hmem => (hliteral.plain (mem_strip_comma (by decide) (by decide) hmem)).2.1 rfl,
    fun hmem => (hliteral.plain (mem_strip_comma (by decide) (by decide) hmem)).2.2 rfl⟩

/-- An address has no sign either. -/
theorem signless_of_to_addr_token {tok : Str} (h : ∀ c ∈ tok, isSpace c = false)
    (hread : (to_addr_token tok).isSome) : Signless tok := by
  unfold to_addr_token at hread
  split at hread
  · exact absurd hread (by simp)
  · rename_i c cs hcs
    split at hread
    · rename_i hc
      have hsolid : ∀ d ∈ cs, isSpace d = false := fun d hd =>
        h d (mem_of_mem_strip_comma (hcs ▸ List.mem_cons_of_mem c hd))
      obtain ⟨hminus, hplus⟩ := signless_of_to_uint (not_skipsToNumber hsolid) hread
      refine ⟨fun hmem => ?_, fun hmem => ?_⟩
      · have hstrip := mem_strip_comma (by decide) (by decide) hmem
        rw [hcs, hc] at hstrip
        exact hminus ((List.mem_cons.mp hstrip).resolve_left (by decide))
      · have hstrip := mem_strip_comma (by decide) (by decide) hmem
        rw [hcs, hc] at hstrip
        exact hplus ((List.mem_cons.mp hstrip).resolve_left (by decide))
    · exact absurd hread (by simp)

/-- Nor has the number behind a name. -/
theorem signless_of_to_named {tok name : Str} (h : ∀ c ∈ tok, isSpace c = false)
    (hread : (to_named tok name).isSome) : Signless ((strip_comma tok).drop name.length) := by
  unfold to_named at hread
  dsimp only at hread
  split at hread
  · exact absurd hread (by simp)
  · have hsolid : ∀ d ∈ (strip_comma tok).drop name.length, isSpace d = false := fun d hd =>
      h d (mem_of_mem_strip_comma (List.mem_of_mem_drop hd))
    exact signless_of_to_uint (not_skipsToNumber hsolid) hread

/-- **Number tokens.** A token is read as its literal, or not at all, exactly if it is not
white space that was not trimmed in front of a number. None of an instruction's is. -/
theorem to_uint_exact_iff (tok : Str) :
    ((∀ v, to_uint tok = some v ↔ Literal (strip_comma tok) v.toNat) ↔
      ¬ SkipsToNumber (strip_comma tok)) ∧
    (¬ SkipsToNumber (strip_comma tok) → (to_uint tok).isSome → Signless tok) ∧
    ∀ t : Str, tok ∈ tokens t → ¬ SkipsToNumber (strip_comma tok) ∧
      ((to_uint tok).isSome → Signless tok) ∧ ((to_addr_token tok).isSome → Signless tok) ∧
      ∀ name, (to_named tok name).isSome → Signless ((strip_comma tok).drop name.length) := by
  refine ⟨⟨fun hall hskips => ?_, to_uint_iff_literal⟩, signless_of_to_uint, fun t htok => ?_⟩
  · obtain ⟨v, hv, hnot⟩ := to_uint_of_skips hskips
    exact hnot ((hall v).mp hv)
  · have hsolid := tokens_solid t tok htok
    exact ⟨not_skipsToNumber hsolid, signless_of_to_uint (not_skipsToNumber hsolid),
      signless_of_to_addr_token hsolid, fun name => signless_of_to_named hsolid⟩

theorem to_uint_exact_iff_hexadecimal : Signless (str " 0x1F,") ∧ Signless (str "%12,") := by
  refine ⟨(to_uint_exact_iff (str " 0x1F,")).2.1 ?_ (by decide),
    ((to_uint_exact_iff (str "%12,")).2.2 (str "%12, %3") (by decide)).2.2.1 (by decide)⟩
  rintro ⟨hhead, -⟩
  revert hhead
  decide

/-- A vertical tab hides a sign from the check. -/
theorem sign_behind_vertical_tab :
    ¬ (∀ v, to_uint (0x0B :: str "-5") = some v ↔ Literal (strip_comma (0x0B :: str "-5")) v.toNat) ∧
      (Reader.modulus_entry {} (str "m[0] " ++ 0x0B :: str "-5")).map
        (fun r => r.result_.program.modulus_table) = some [18446744073709551611] := by
  refine ⟨fun hall => ?_, by decide⟩
  have hliteral := (hall 18446744073709551611).mp (by decide)
  exact absurd (hliteral.plain (c := 0x2D) (by decide)).2.1 (by decide)

end Fhetch
