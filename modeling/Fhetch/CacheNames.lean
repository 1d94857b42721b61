/-
The name of a configuration (`cache_parameters`, `full_program_name`,
`is_cache_valid` in `src/compiler.cpp`).

Keys and values are joined with underscores behind the program's name. What comes
of it can be taken apart at any of its underscores, so a name says which pieces
there are between underscores, and no more: not which underscores were in the
strings, and not which string was a key.
-/
import Fhetch.TraceDirectory

set_option autoImplicit false

namespace Fhetch

open Lib

/-! ## Names -/

/-- Key-value pairs, in the order they were given. -/
abbrev CacheParameters := List (Str × Str)

/-- The loop of `cache_parameters`. -/
def cache_suffix (params : CacheParameters) : Str :=
  params.foldl (fun suffix p =>
    (if suffix.isEmpty then suffix else suffix ++ str "_") ++ (p.1 ++ str "_" ++ p.2)) []

def full_program_name (program_name : Str) (params : CacheParameters) : Str :=
  if (cache_suffix params).isEmpty then program_name
  else program_name ++ (str "_" ++ cache_suffix params)

/-- No key and no value is empty. -/
def CacheParameters.NonEmpty (params : CacheParameters) : Prop := ∀ p ∈ params, p.1 ≠ [] ∧ p.2 ≠ []

/-- The underscore. -/
def separator : UInt8 := 0x5F

/-- What stands between underscores in the keys and values, in order. -/
def pieces (params : CacheParameters) : List Str :=
  params.flatMap fun p => p.1.splitOn separator ++ p.2.splitOn separator

/-! ## A name and its pieces -/

/-- Behind something, each pair goes behind an underscore. -/
theorem foldl_suffix (params : CacheParameters) : ∀ {suffix : Str}, suffix ≠ [] →
    params.foldl (fun suffix p =>
      (if suffix.isEmpty then suffix else suffix ++ str "_") ++ (p.1 ++ str "_" ++ p.2)) suffix =
    suffix ++ params.flatMap fun p => separator :: (p.1 ++ separator :: p.2) := by
  induction params with
  | nil => exact fun _ => (List.append_nil _).symm
  | cons p params ih =>
    intro suffix hne
    rw [List.foldl_cons, if_neg fun h => hne (List.isEmpty_iff.mp h),
      ih (List.append_ne_nil_of_left_ne_nil (List.append_ne_nil_of_left_ne_nil hne _) _),
      List.flatMap_cons]
    simp only [List.append_assoc, separator, str, List.cons_append]
    rfl

theorem cache_suffix_cons (p : Str × Str) (params : CacheParameters) :
    cache_suffix (p :: params) = (p.1 ++ separator :: p.2) ++
      params.flatMap fun p => separator :: (p.1 ++ separator :: p.2) := by
  have hne : p.1 ++ str "_" ++ p.2 ≠ [] :=
    List.append_ne_nil_of_left_ne_nil (List.append_ne_nil_of_right_ne_nil _ (by decide)) _
  have hjoin : p.1 ++ str "_" ++ p.2 = p.1 ++ separator :: p.2 := by
    rw [List.append_assoc]
    rfl
  have h := foldl_suffix params hne
  rw [hjoin] at h
  rw [cache_suffix, List.foldl_cons, List.isEmpty_nil, if_pos rfl, List.nil_append, hjoin, h]

theorem cache_suffix_eq_nil {params : CacheParameters} : cache_suffix params = [] ↔ params = [] := by
  cases params with
  | nil => exact ⟨fun _ => rfl, fun _ => rfl⟩
  | cons p params =>
    rw [cache_suffix_cons]
    simp

theorem pieces_cons (p : Str × Str) (params : CacheParameters) : pieces (p :: params) =
    p.1.splitOn separator ++ (p.2.splitOn separator ++ pieces params) := by
  rw [pieces, List.flatMap_cons, List.append_assoc, pieces]

/-- **A name comes apart into its pieces.** -/
theorem splitOn_cache_suffix {params : CacheParameters} (hne : params ≠ []) :
    (cache_suffix params).splitOn separator = pieces params := by
  have hrest : ∀ (params : CacheParameters) (s : Str),
      (s ++ params.flatMap fun p => separator :: (p.1 ++ separator :: p.2)).splitOn separator =
        s.splitOn separator ++ pieces params := by
    intro params
    induction params with
    | nil => exact fun s => by rw [List.flatMap_nil, List.append_nil, pieces, List.flatMap_nil,
        List.append_nil]
    | cons p params ih =>
      intro s
      rw [List.flatMap_cons, List.cons_append, List.splitOn_append_cons_self, List.append_assoc,
        List.cons_append, List.splitOn_append_cons_self, ih, pieces_cons]
  obtain ⟨p, params, rfl⟩ := List.exists_cons_of_ne_nil hne
  rw [cache_suffix_cons, List.append_assoc, List.cons_append, List.splitOn_append_cons_self, hrest,
    pieces_cons]

/-- The program's name, and the underscore behind it, are the same for all. -/
theorem full_program_name_eq_iff_suffix (program : Str) (params params' : CacheParameters) :
    full_program_name program params' = full_program_name program params ↔
      cache_suffix params' = cache_suffix params := by
  -- a name with a suffix is longer than the program
  have hlong : ∀ s : Str, program ++ (str "_" ++ s) ≠ program := by
    intro s h
    have := congrArg List.length h
    rw [List.length_append, List.length_append] at this
    have : (str "_").length = 1 := rfl
    omega
  rw [full_program_name, full_program_name]
  by_cases hp : cache_suffix params = []
  · by_cases hp' : cache_suffix params' = []
    · rw [hp, hp']
      exact ⟨fun _ => rfl, fun _ => rfl⟩
    · rw [hp, if_pos List.isEmpty_nil, if_neg fun h => hp' (List.isEmpty_iff.mp h)]
      exact ⟨fun h => absurd h (hlong _), fun h => absurd h hp'⟩
  · rw [if_neg fun h => hp (List.isEmpty_iff.mp h)]
    by_cases hp' : cache_suffix params' = []
    · rw [hp', if_pos List.isEmpty_nil]
      exact ⟨fun h => absurd h.symm (hlong _), fun h => absurd h.symm hp⟩
    · rw [if_neg fun h => hp' (List.isEmpty_iff.mp h), List.append_cancel_left_eq,
        List.append_cancel_left_eq]

/-- **Two names are the same exactly when the pieces are.** -/
theorem full_program_name_eq_iff (program : Str) (params params' : CacheParameters) :
    full_program_name program params' = full_program_name program params ↔
      pieces params' = pieces params := by
  have hpieces : ∀ {params : CacheParameters}, pieces params = [] → params = [] := by
    intro params h
    by_contra hne
    rw [← splitOn_cache_suffix hne] at h
    exact List.splitOn_ne_nil _ _ h
  rw [full_program_name_eq_iff_suffix]
  by_cases hp : params = []
  · rw [hp, show cache_suffix [] = [] from rfl, show pieces [] = [] from rfl, cache_suffix_eq_nil]
    exact ⟨fun h => by rw [h]; rfl, hpieces⟩
  · by_cases hp' : params' = []
    · rw [hp', show cache_suffix [] = [] from rfl, show pieces [] = [] from rfl]
      exact ⟨fun h => absurd (cache_suffix_eq_nil.mp h.symm) hp, fun h => absurd (hpieces h.symm) hp⟩
    · rw [← splitOn_cache_suffix hp, ← splitOn_cache_suffix hp']
      refine ⟨fun h => by rw [h], fun h => ?_⟩
      -- joining the pieces gives the suffix back
      calc cache_suffix params'
          = [separator].intercalate ((cache_suffix params').splitOn separator) :=
            (List.intercalate_splitOn separator).symm
        _ = [separator].intercalate ((cache_suffix params).splitOn separator) := by rw [h]
        _ = cache_suffix params := List.intercalate_splitOn separator

/-! ## What a name identifies -/

/-- No other parameters have the name of these. -/
def NameIdentifies (program : Str) (params : CacheParameters) : Prop :=
  ∀ params', params'.NonEmpty →
    full_program_name program params' = full_program_name program params → params' = params

/-- The name of a file: a path that goes through no directory. -/
def FileName (name : Str) : Prop := 47 ∉ name ∧ 0 ∉ name

/-- A trace that makes the cache valid was recorded under these parameters, if the names
are those of files. Two paths with a slash in them may lead to one file. -/
def TraceIdentifies (program : Str) (params : CacheParameters) : Prop :=
  ∀ (d : Dir) (path : Str) params' ext, params'.NonEmpty → FileName (full_program_name program params') →
    ext ∈ [str ".fhex", str ".fhetch"] →
    existing_trace_path d (full_program_name program params) = some path →
    path = full_program_name program params' ++ ext → params' = params

/-- Parameters whose name comes apart in one way: none, or one pair whose
underscores cannot be the one between key and value. -/
def Unsplittable (params : CacheParameters) : Prop :=
  params = [] ∨ ∃ k v, params = [(k, v)] ∧ separator ∉ k.tail ∧ separator ∉ v.dropLast

/-- The two forms of a trace have different names. -/
theorem trace_name_cancel {name name' ext ext' : Str} (hext : ext ∈ [str ".fhex", str ".fhetch"])
    (hext' : ext' ∈ [str ".fhex", str ".fhetch"]) (h : name ++ ext = name' ++ ext') :
    name = name' := by
  have hlast : ext.getLast? = ext'.getLast? := by
    have hne : ∀ e ∈ [str ".fhex", str ".fhetch"], e ≠ [] := by decide
    have := congrArg List.getLast? h
    rwa [List.getLast?_append_of_ne_nil _ (hne ext hext),
      List.getLast?_append_of_ne_nil _ (hne ext' hext')] at this
  have hsame : ∀ e ∈ [str ".fhex", str ".fhetch"], ∀ e' ∈ [str ".fhex", str ".fhetch"],
      e.getLast? = e'.getLast? → e = e' := by decide
  rw [hsame ext hext ext' hext' hlast] at h
  exact List.append_cancel_right h

theorem existing_trace_path_name {d : Dir} {program path : Str}
    (h : existing_trace_path d program = some path) :
    ∃ ext ∈ [str ".fhex", str ".fhetch"], path = program ++ ext := by
  obtain ⟨ext, hmem, hfound⟩ := List.exists_of_findSome?_eq_some h
  split at hfound
  · exact ⟨ext, hmem, (Option.some.inj hfound).symm⟩
  · exact absurd hfound (by simp)

theorem NameIdentifies.trace {program : Str} {params : CacheParameters} (h : NameIdentifies program params) :
    TraceIdentifies program params := by
  intro d path params' ext hne _ hext hfound hpath
  obtain ⟨ext', hext', rfl⟩ := existing_trace_path_name hfound
  exact h params' hne (trace_name_cancel hext hext' hpath.symm)

/-- The trace of other parameters that have the same name. -/
theorem TraceIdentifies.name {program : Str} {params : CacheParameters} (h : TraceIdentifies program params)
    (hfile : FileName (full_program_name program params)) : NameIdentifies program params := by
  intro params' hne hname
  have hfound : existing_trace_path (Dir.put (fun _ => none) (full_program_name program params ++ str ".fhex") [])
      (full_program_name program params) = some (full_program_name program params ++ str ".fhex") := by
    rw [existing_trace_path, List.findSome?_cons, Dir.put, Function.update_self]
    rfl
  exact h _ _ params' (str ".fhex") hne (hname ▸ hfile) List.mem_cons_self hfound (by rw [hname])

/-- One pair, its underscore the only one that can be between two strings. -/
theorem eq_of_unsplittable {k v : Str} {params : CacheParameters} (hk : separator ∉ k.tail)
    (hv : separator ∉ v.dropLast) (hne : params.NonEmpty)
    (h : cache_suffix params = k ++ separator :: v) : params = [(k, v)] := by
  rcases params with - | ⟨⟨k', v'⟩, rest⟩
  · exact absurd h.symm (by simp [cache_suffix])
  obtain ⟨hk', hv'⟩ : k' ≠ [] ∧ v' ≠ [] := hne (k', v') List.mem_cons_self
  rw [cache_suffix_cons, List.append_assoc, List.cons_append] at h
  -- the first underscore between two strings is the one of the pair
  have hcut : k' = k ∧ v' ++ rest.flatMap (fun p => separator :: (p.1 ++ separator :: p.2)) = v := by
    rcases List.append_eq_append_iff.mp h with ⟨m, hm, hrest⟩ | ⟨m, hm, hrest⟩
    · rcases m with - | ⟨c, m⟩
      · rw [List.append_nil] at hm
        exact ⟨hm.symm, (List.cons.inj hrest).2⟩
      · obtain ⟨rfl, hrest'⟩ := List.cons.inj hrest
        refine absurd ?_ hk
        obtain ⟨d, ds, rfl⟩ := List.exists_cons_of_ne_nil hk'
        rw [hm]
        exact List.mem_append_right ds List.mem_cons_self
    · rcases m with - | ⟨c, m⟩
      · rw [List.append_nil] at hm
        exact ⟨hm, (List.cons.inj hrest).2.symm⟩
      · obtain ⟨rfl, hrest'⟩ := List.cons.inj hrest
        refine absurd ?_ hv
        replace hrest' : v = m ++ separator ::
            (v' ++ rest.flatMap fun p => separator :: (p.1 ++ separator :: p.2)) := hrest'
        rw [hrest', List.dropLast_append_of_ne_nil (by simp)]
        apply List.mem_append_right
        obtain ⟨d, ds, hd⟩ := List.exists_cons_of_ne_nil
          (List.append_ne_nil_of_left_ne_nil hv' (rest.flatMap fun p =>
            separator :: (p.1 ++ separator :: p.2)))
        rw [hd, List.dropLast_cons_of_ne_nil (List.cons_ne_nil d ds)]
        exact List.mem_cons_self
  obtain ⟨rfl, hv₀⟩ := hcut
  rcases rest with - | ⟨⟨k₂, v₂⟩, rest⟩
  · rw [List.flatMap_nil, List.append_nil] at hv₀
    rw [hv₀]
  · -- a second pair would put an underscore inside the value
    exfalso
    obtain ⟨-, hv₂⟩ := hne (k₂, v₂) (List.mem_cons_of_mem _ List.mem_cons_self)
    apply hv
    rw [← hv₀, List.flatMap_cons, List.dropLast_append_of_ne_nil (by simp)]
    apply List.mem_append_right
    rw [List.cons_append, List.dropLast_cons_of_ne_nil (by simp)]
    exact List.mem_cons_self

/-- Any other parameters share their name with some. -/
theorem exists_same_name (program : Str) {params : CacheParameters} (hne : params.NonEmpty)
    (h : ¬ Unsplittable params) : ∃ params', params'.NonEmpty ∧ params' ≠ params ∧
      full_program_name program params' = full_program_name program params := by
  simp only [full_program_name_eq_iff]
  rcases params with - | ⟨⟨k, v⟩, rest⟩
  · exact absurd (.inl rfl) h
  obtain ⟨hk, hv⟩ : k ≠ [] ∧ v ≠ [] := hne (k, v) List.mem_cons_self
  have hone : ∀ {k v : Str}, k ≠ [] → v ≠ [] → CacheParameters.NonEmpty [(k, v)] := by
    intro k v hk hv p hp
    rw [List.mem_singleton.mp hp]
    exact ⟨hk, hv⟩
  rcases rest with - | ⟨⟨k₂, v₂⟩, rest⟩
  · have hmem : separator ∈ k.tail ∨ separator ∈ v.dropLast := by
      by_contra hout
      rw [not_or] at hout
      exact h (.inr ⟨k, v, rfl, hout⟩)
    rcases hmem with hmem | hmem
    · -- an underscore inside the key
      obtain ⟨c, ks, rfl⟩ := List.exists_cons_of_ne_nil hk
      obtain ⟨a, b, hab⟩ := List.append_of_mem hmem
      replace hab : ks = a ++ separator :: b := hab
      refine ⟨[(c :: a, b ++ separator :: v)], hone (List.cons_ne_nil _ _) (by simp), ?_, ?_⟩
      · intro heq
        have := congrArg (fun p : CacheParameters => (p.map fun p => p.1.length)) heq
        simp [hab] at this
      · rw [pieces_cons, pieces_cons, hab, List.splitOn_append_cons_self, ← List.cons_append,
          List.splitOn_append_cons_self, List.append_assoc, List.append_assoc]
    · -- an underscore inside the value
      obtain ⟨a, b, hab⟩ := List.append_of_mem hmem
      have hsplit : v = a ++ separator :: (b ++ [v.getLast hv]) := by
        conv_lhs => rw [← List.dropLast_append_getLast hv, hab]
        rw [List.append_assoc, List.cons_append]
      refine ⟨[(k ++ separator :: a, b ++ [v.getLast hv])], hone (by simp) (by simp), ?_, ?_⟩
      · intro heq
        have := congrArg (fun p : CacheParameters => (p.map fun p => p.1.length)) heq
        simp at this
      · rw [pieces_cons, pieces_cons, List.splitOn_append_cons_self]
        conv_rhs => rw [hsplit]
        rw [List.splitOn_append_cons_self, List.append_assoc, List.append_assoc]
  · -- two pairs are one whose value has the second in it
    obtain ⟨-, hv₂⟩ := hne (k₂, v₂) (List.mem_cons_of_mem _ List.mem_cons_self)
    refine ⟨(k, v ++ separator :: (k₂ ++ separator :: v₂)) :: rest, ?_, ?_, ?_⟩
    · intro p hp
      rcases List.mem_cons.mp hp with rfl | hp
      · exact ⟨hk, by simp⟩
      · exact hne p (List.mem_cons_of_mem _ (List.mem_cons_of_mem _ hp))
    · intro heq
      have := congrArg List.length heq
      simp at this
    · rw [pieces_cons, pieces_cons, pieces_cons, List.splitOn_append_cons_self,
        List.splitOn_append_cons_self, List.append_assoc, List.append_assoc]

/-- **A name identifies its parameters exactly when it comes apart in one way.**
For two lists of parameters, that is a matter of their pieces. -/
theorem cache_parameters_identify_iff (program : Str) (params : CacheParameters)
    (hne : params.NonEmpty) :
    (∀ params', params'.NonEmpty →
      ((full_program_name program params' = full_program_name program params → params' = params) ↔
        (params' = params ∨ pieces params' ≠ pieces params))) ∧
      (NameIdentifies program params ↔ Unsplittable params) ∧
      (FileName (full_program_name program params) → (TraceIdentifies program params ↔ Unsplittable params)) := by
  have hname : NameIdentifies program params ↔ Unsplittable params := by
    constructor
    · intro h
      by_contra hsplit
      obtain ⟨params', hne', hdiff, hname⟩ := exists_same_name program hne hsplit
      exact hdiff (h params' hne' hname)
    · intro h params' hne' heq
      rw [full_program_name_eq_iff_suffix] at heq
      rcases h with rfl | ⟨k, v, rfl, hk, hv⟩
      · exact cache_suffix_eq_nil.mp heq
      · apply eq_of_unsplittable hk hv hne'
        rw [heq, cache_suffix_cons, List.flatMap_nil, List.append_nil]
  refine ⟨fun params' _ => ?_, hname, fun hfile => ?_⟩
  · rw [full_program_name_eq_iff, or_iff_not_imp_right, not_not]
  · rw [← hname]
    exact ⟨fun h => h.name hfile, fun h => h.trace⟩

theorem cache_parameters_identify_iff_source :
    NameIdentifies (str "p") [(str "source", str "t")] ∧ TraceIdentifies (str "p") [(str "source", str "t")] := by
  have hne : CacheParameters.NonEmpty [(str "source", str "t")] := by
    intro p hp
    rw [List.mem_singleton.mp hp]
    decide
  have hone : Unsplittable [(str "source", str "t")] := .inr ⟨_, _, rfl, by decide, by decide⟩
  obtain ⟨-, hname, htrace⟩ := cache_parameters_identify_iff (str "p") [(str "source", str "t")] hne
  exact ⟨hname.mpr hone, (htrace ⟨by decide, by decide⟩).mpr hone⟩

/-- **An underscore in a key, or in a value.** The trace recorded under the one
configuration is valid for the other. -/
theorem underscore_moves :
    CacheParameters.NonEmpty [(str "a_b", str "c")] ∧ CacheParameters.NonEmpty [(str "a", str "b_c")] ∧
      full_program_name (str "p") [(str "a_b", str "c")] =
        full_program_name (str "p") [(str "a", str "b_c")] ∧
      is_cache_valid (Dir.put (fun _ => none) (full_program_name (str "p") [(str "a_b", str "c")] ++
        str ".fhex") []) (full_program_name (str "p") [(str "a", str "b_c")]) = true ∧
      [(str "a_b", str "c")] ≠ [(str "a", str "b_c")] := by
  refine ⟨?_, ?_, by decide, by decide, by decide⟩
  · intro p hp
    rw [List.mem_singleton.mp hp]
    decide
  · intro p hp
    rw [List.mem_singleton.mp hp]
    decide

end Fhetch
