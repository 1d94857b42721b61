/-
The data files of a recorded project: the writers of `src/auto_facade.cpp` and
`src/cereal_io.h`, and the loaders of `src/local_replay.cpp`.

An `.ids` file is a count and that many addresses. A `.bin` file holds the polynomials for
them, without their addresses, in one of three layouts: tagged inputs, of which there are
five kinds, evaluation keys, and the tables of a bootstrap. A loader gives each residue of
a `.bin` the next address of the `.ids`, and hands both to a sink.

The archive behind a `.bin` is a library's. What is relied on is that it reads a scalar, a
vector and a `DCRTPoly` back as they were written, and throws where the file ends inside
one. Whether a loader that fails has filled its sink is left out: every caller drops what
it got from one.
-/
import Fhetch.Api
import Fhetch.Encoding
import Fhetch.Replay
import Fhetch.Lib.Bytes
import Fhetch.Lib.Frames

set_option autoImplicit false

namespace Fhetch

open Lib Frames

/-! ## Addresses -/

/-- `cereal_io::write_addr_ids`. -/
def write_addr_ids (ids : List ℕ) : Bytes := leBytes 8 ids.length ++ ids.flatMap (leBytes 8)

/-- `read_ids` and `cereal_io::read_addr_ids`. What the file does not have stays zero.
`none` is a count that no vector can have. -/
def read_ids (data : Bytes) : Option (List ℕ) :=
  let n := leNat (data.take 8)
  if 2 ^ 60 ≤ n then none
  else some ((List.range n).map fun i => leNat ((data.drop (8 + 8 * i)).take 8))

/-- Pieces of one length, from the `i`-th on. -/
theorem drop_flatMap {α β : Type} {f : α → List β} {k : ℕ} (hf : ∀ a, (f a).length = k) (l : List α) :
    ∀ i, (l.flatMap f).drop (k * i) = (l.drop i).flatMap f := by
  induction l with
  | nil => exact fun i => by simp
  | cons a l ih =>
    intro i
    cases i with
    | zero => rfl
    | succ i =>
      rw [List.flatMap_cons, List.drop_succ_cons, ← ih i, Nat.mul_succ, Nat.add_comm, ← List.drop_drop,
        List.drop_left' (hf a)]

/-- **Addresses are read back** as they were written. -/
theorem read_ids_write {ids : List ℕ} (hlength : ids.length < 2 ^ 60) (hids : ∀ a ∈ ids, a < 2 ^ 64) :
    read_ids (write_addr_ids ids) = some ids := by
  have hpow : (2 : ℕ) ^ 64 = 256 ^ 8 := by decide
  have hcount : leNat ((write_addr_ids ids).take 8) = ids.length := by
    rw [write_addr_ids, List.take_left' (leBytes_length 8 _), leNat_leBytes (by omega)]
  rw [read_ids, hcount, if_neg (by omega)]
  refine congrArg some (List.ext_getElem (by simp) fun i hi hi' => ?_)
  have hrest : (write_addr_ids ids).drop (8 + 8 * i) = (ids.drop i).flatMap (leBytes 8) := by
    rw [write_addr_ids, ← List.drop_drop, List.drop_left' (leBytes_length 8 _), drop_flatMap (leBytes_length 8)]
  rw [List.getElem_map, List.getElem_range, hrest, List.drop_eq_getElem_cons hi', List.flatMap_cons,
    List.take_left' (leBytes_length 8 _), leNat_leBytes (hpow ▸ hids _ (List.getElem_mem hi'))]

/-! ## Polynomials -/

/-- A `DCRTPoly` as it is stored: its format, and of every tower the modulus and the
values. -/
structure DcrtPoly where
  format : Format
  towers : List (ℕ × Poly)

/-- The archive. -/
structure Archive where
  opening : Codec UInt8 Unit
  u8 : Codec UInt8 ℕ
  u32 : Codec UInt8 ℕ
  u64 : Codec UInt8 ℕ
  values : Codec UInt8 Poly
  dcrt : Codec UInt8 DcrtPoly

/-- A modulus and values of 64 bits, in a vector that has a size. -/
structure TowerFits (t : ℕ × Poly) : Prop where
  modulus : t.1 < 2 ^ 64
  length : t.2.length < 2 ^ 64
  values : ∀ x ∈ t.2, x < 2 ^ 64

structure DcrtPoly.Fits (d : DcrtPoly) : Prop where
  length : d.towers.length < 2 ^ 64
  towers : ∀ t ∈ d.towers, TowerFits t

/-- The archive does as documented. -/
structure Archive.Documented (A : Archive) : Prop where
  opening : A.opening.Exact ()
  u8 : ∀ n < 2 ^ 8, A.u8.Exact n
  u32 : ∀ n < 2 ^ 32, A.u32.Exact n
  u64 : ∀ n < 2 ^ 64, A.u64.Exact n
  values : ∀ v : Poly, v.length < 2 ^ 64 → (∀ x ∈ v, x < 2 ^ 64) → A.values.Exact v
  dcrt : ∀ d : DcrtPoly, d.Fits → A.dcrt.Exact d

/-! ## Loaders -/

/-- What a loader holds: the addresses that are left, and what the sink was handed. -/
structure Loading where
  id_it : List ℕ
  sunk : List CapturedElement := []

/-- A residue for the next address, if there is one. -/
def Loading.sink (s : Loading) (tower : ℕ × Poly) : Loading :=
  match s.id_it with
  | [] => s
  | addr :: rest => ⟨rest, s.sunk ++ [⟨addr, tower.2, tower.1⟩]⟩

/-- Residues in order. -/
def Loading.deliver (s : Loading) (towers : List (ℕ × Poly)) : Loading := towers.foldl Loading.sink s

abbrev Load := Frames.Reader UInt8 Loading

/-- A step that only touches what the loader holds. -/
def onLoading (f : Loading → Loading) : Load Unit := modify fun p => (p.1, f p.2)

section Loaders

variable (A : Archive)

/-- A polynomial, and `extract_dcrt_towers`. -/
def read_dcrt : Load Unit := do
  let dcrt ← A.dcrt.read
  onLoading fun s => s.deliver dcrt.towers

def read_dcrt_group (n : ℕ) : Load Unit := times n (read_dcrt A)

/-- The rest of a loop that is left where the addresses end. -/
def sink_next (tower : ℕ × Poly) : Load Bool := fun (bytes, s) =>
  if s.id_it.isEmpty then some (false, bytes, s) else some (true, bytes, s.sink tower)

/-- An element of a proxy. -/
def read_proxy_element : Load Bool := do
  let modulus ← A.u64.read
  let values ← A.values.read
  sink_next (modulus, values)

/-- A group behind its size. -/
def read_sized_group : Load Unit := do
  let n ← A.u32.read
  read_dcrt_group A n

/-- One instance; `false` for a payload type that is none. -/
def read_instance : Load Bool := do
  let payload_type ← A.u8.read
  let count ← A.u32.read
  match payload_type with
  | 0 | 1 =>
    read_dcrt_group A count
    return true
  | 2 =>
    let _ ← A.u8.read
    let _ ← timesWhile count (read_proxy_element A)
    return true
  | 3 | 4 =>
    times count (read_sized_group A)
    return true
  | _ => return false

/-- A load of a whole file. `none` is one that fails. -/
def loaded_by (load : Load Bool) (data : Bytes) (ids : List ℕ) : Option (List CapturedElement) :=
  (load (data, ⟨ids, []⟩)).bind fun (ok, _, s) => if ok then some s.sunk else none

def load_input_bin : Bytes → List ℕ → Option (List CapturedElement) := loaded_by do
  A.opening.read
  let instances ← A.u32.read
  timesWhile instances (read_instance A)

/-- A key: its A vector, and its B vector. -/
def read_key : Load Unit := do
  read_sized_group A
  read_sized_group A

def load_key_bin : Bytes → List ℕ → Option (List CapturedElement) := loaded_by do
  A.opening.read
  let num_keys ← A.u32.read
  times num_keys (read_key A)
  return true

/-- A number that is read over. -/
def skip_u32 : Load Unit := do
  let _ ← A.u32.read

def read_2d : Load Unit := do
  let outer_size ← A.u32.read
  times outer_size (read_sized_group A)

/-- An entry: `m_slots` and `m_dim1`, twice nine parameters, and four tables. -/
def read_precompute : Load Unit := do
  times 2 (skip_u32 A)
  times 2 (times 9 (skip_u32 A))
  read_2d A
  read_2d A
  read_sized_group A
  read_sized_group A

def load_bp_bin : Bytes → List ℕ → Option (List CapturedElement) := loaded_by do
  A.opening.read
  let num_entries ← A.u32.read
  times num_entries (read_precompute A)
  return true

end Loaders

/-! ## Layouts -/

/-- What an instance of an input file can hold. -/
inductive Payload where
  | ciphertext (elements : List DcrtPoly)
  | plaintext (element : DcrtPoly)
  | dcrtpoly_proxy (format : Format) (elements : List (ℕ × Poly))
  | ciphertext_vector (ciphertexts : List (List DcrtPoly))
  | plaintext_vector (plaintexts : List DcrtPoly)

/-- The tables of a bootstrap for one number of slots. -/
structure BootTables (α : Type) where
  m_slots : ℕ
  m_dim1 : ℕ
  params_enc : List ℕ
  params_dec : List ℕ
  m_U0hatTPreFFT : List (List α)
  m_U0PreFFT : List (List α)
  m_U0Pre : List α
  m_U0hatTPre : List α

abbrev BootPrecompute := BootTables DcrtPoly

section Layouts

variable (A : Archive)

/-- A size, as it is cast. -/
def size_bytes (n : ℕ) : Bytes := A.u32.put (n % 2 ^ 32)

def dcrt_bytes (polys : List DcrtPoly) : Bytes := polys.flatMap A.dcrt.put

def sized_bytes (polys : List DcrtPoly) : Bytes := size_bytes A polys.length ++ dcrt_bytes A polys

/-- The format flag of a proxy. -/
def formatFlag : Format → ℕ
  | .Evaluation => 1
  | .Coefficient => 0

def proxy_bytes (elements : List (ℕ × Poly)) : Bytes :=
  elements.flatMap fun e => A.u64.put e.1 ++ A.values.put e.2

def Payload.bytes : Payload → Bytes
  | .ciphertext elements => A.u8.put 0 ++ (size_bytes A elements.length ++ dcrt_bytes A elements)
  | .plaintext element => A.u8.put 1 ++ (size_bytes A 1 ++ dcrt_bytes A [element])
  | .dcrtpoly_proxy format elements =>
    A.u8.put 2 ++ (size_bytes A elements.length ++ (A.u8.put (formatFlag format) ++ proxy_bytes A elements))
  | .ciphertext_vector l => A.u8.put 3 ++ (size_bytes A l.length ++ l.flatMap (sized_bytes A))
  | .plaintext_vector l => A.u8.put 4 ++ (size_bytes A l.length ++ l.flatMap fun d => sized_bytes A [d])

def input_bytes (payloads : List Payload) : Bytes :=
  A.opening.put () ++ (size_bytes A payloads.length ++ payloads.flatMap (Payload.bytes A))

/-- `serialize_eval_keys`. -/
def key_bytes (keys : List (List DcrtPoly × List DcrtPoly)) : Bytes :=
  A.opening.put () ++ (size_bytes A keys.length ++
    keys.flatMap fun key => sized_bytes A key.1 ++ sized_bytes A key.2)

def bytes_2d (outer : List (List DcrtPoly)) : Bytes := size_bytes A outer.length ++ outer.flatMap (sized_bytes A)

def BootPrecompute.bytes (e : BootPrecompute) : Bytes :=
  [e.m_slots, e.m_dim1].flatMap A.u32.put ++ ([e.params_enc, e.params_dec].flatMap (·.flatMap A.u32.put) ++
    (bytes_2d A e.m_U0hatTPreFFT ++ (bytes_2d A e.m_U0PreFFT ++
      (sized_bytes A e.m_U0Pre ++ sized_bytes A e.m_U0hatTPre))))

/-- The file of `tag_bootstrap_precompute`. Entries of the map that hold nothing are
counted, and not written. -/
def bp_bytes (bootMap : List (Option BootPrecompute)) : Bytes :=
  A.opening.put () ++ (size_bytes A bootMap.length ++ (bootMap.filterMap id).flatMap (BootPrecompute.bytes A))

end Layouts

/-! ## What is delivered -/

/-- Residues with the addresses for them. -/
def addressed (ids : List ℕ) (towers : List (ℕ × Poly)) : List CapturedElement :=
  List.zipWith (fun a t => ⟨a, t.2, t.1⟩) ids towers

namespace Loading

theorem sink_eq (s : Loading) (t : ℕ × Poly) :
    s.sink t = ⟨s.id_it.drop 1, s.sunk ++ addressed s.id_it [t]⟩ := by
  obtain ⟨ids, sunk⟩ := s
  cases ids with
  | nil => simp [sink, addressed]
  | cons a rest => simp [sink, addressed]

/-- Each residue takes an address, for as long as there are any. -/
theorem deliver_eq (towers : List (ℕ × Poly)) : ∀ s : Loading,
    s.deliver towers = ⟨s.id_it.drop towers.length, s.sunk ++ addressed s.id_it towers⟩ := by
  induction towers with
  | nil => exact fun s => by simp [deliver, addressed]
  | cons t towers ih =>
    intro s
    show (s.sink t).deliver towers = _
    rw [ih, sink_eq]
    obtain ⟨ids, sunk⟩ := s
    cases ids with
    | nil => simp [addressed]
    | cons a rest => simp [addressed]

theorem deliver_flatMap {β : Type} (l : List β) (f : β → List (ℕ × Poly)) (s : Loading) :
    l.foldl (fun s x => s.deliver (f x)) s = s.deliver (l.flatMap f) := (List.foldl_flatMap ..).symm

/-- The addresses that are left after a part are enough for the rest. -/
theorem enough_after {towers towers' : List (ℕ × Poly)} {s : Loading}
    (h : (towers ++ towers').length ≤ s.id_it.length) :
    towers'.length ≤ (s.deliver towers).id_it.length := by
  rw [deliver_eq, List.length_drop]
  rw [List.length_append] at h
  omega

end Loading

/-! ## What the loaders take -/

section Taking

variable {A : Archive} {P : Loading → Prop}

theorem takes_size (hA : A.Documented) {n : ℕ} (hn : n < 2 ^ 32) :
    Takes P A.u32.read (size_bytes A n) n id := by
  rw [size_bytes, Nat.mod_eq_of_lt hn]
  exact (hA.u32 n hn).takes

theorem takes_onLoading (f : Loading → Loading) : Takes P (onLoading f) [] () f := .of_nil fun _ _ _ => rfl

theorem takes_dcrt (hA : A.Documented) {d : DcrtPoly} (hd : d.Fits) :
    Takes P (read_dcrt A) (A.dcrt.put d) () (·.deliver d.towers) :=
  ((hA.dcrt d hd).takes.bind (takes_onLoading (P := P) _) fun _ => id).of_eq (List.append_nil _) fun _ => rfl

/-- A group of polynomials. -/
theorem takes_group (hA : A.Documented) {l : List DcrtPoly} (hl : ∀ d ∈ l, d.Fits) :
    Takes P (read_dcrt_group A l.length) (dcrt_bytes A l) () (·.deliver (l.flatMap DcrtPoly.towers)) :=
  (Takes.times (I := fun _ _ => True) l (fun d hd _ => takes_dcrt hA (hl d hd)) fun _ _ _ _ => trivial)
    |>.mono (fun _ _ => trivial) |>.of_eq rfl fun s => s.deliver_flatMap l _

/-- A list that a size of 32 bits can count, of polynomials that fit. -/
structure GroupFits (l : List DcrtPoly) : Prop where
  size : l.length < 2 ^ 32
  fits : ∀ d ∈ l, d.Fits

theorem takes_sized (hA : A.Documented) {l : List DcrtPoly} (hl : GroupFits l) :
    Takes P (read_sized_group A) (sized_bytes A l) () (·.deliver (l.flatMap DcrtPoly.towers)) :=
  (takes_size hA hl.size).bind (Q := P) (takes_group hA hl.fits) fun _ => id

/-- A loop over sized groups. -/
theorem takes_groups (hA : A.Documented) {l : List (List DcrtPoly)} (hl : ∀ g ∈ l, GroupFits g) :
    Takes P (times l.length (read_sized_group A)) (l.flatMap (sized_bytes A)) ()
      (·.deliver (l.flatMap (·.flatMap DcrtPoly.towers))) :=
  (Takes.times (I := fun _ _ => True) l (fun g hg _ => takes_sized hA (hl g hg)) fun _ _ _ _ => trivial)
    |>.mono (fun _ _ => trivial) |>.of_eq rfl fun s => s.deliver_flatMap l _

/-- The elements of a proxy, with an address for each. -/
theorem takes_proxy (hA : A.Documented) {l : List (ℕ × Poly)}
    (hl : ∀ e ∈ l, TowerFits e) :
    Takes (fun s => l.length ≤ s.id_it.length) (timesWhile l.length (read_proxy_element A)) (proxy_bytes A l)
      true (·.deliver l) := by
  refine Takes.timesWhile (I := fun rest (s : Loading) => rest.length ≤ s.id_it.length) l (fun e he rest => ?_)
    fun e rest s hs => ?_
  · obtain ⟨hmodulus, hlength, hvalues⟩ := hl e he
    let enough : Loading → Prop := fun s => (e :: rest).length ≤ s.id_it.length
    -- an address is left
    have hsink : Takes enough (sink_next (e.1, e.2)) [] true fun s => s.sink e := by
      refine .of_nil fun bytes s hs => ?_
      have hne : s.id_it.isEmpty = false := by
        rw [List.isEmpty_eq_false_iff]
        exact List.ne_nil_of_length_pos (Nat.zero_lt_of_lt hs)
      rw [sink_next, hne]
      rfl
    have hvalue := (hA.values e.2 hlength hvalues).takes.bind (k := fun values => sink_next (e.1, values)) hsink fun _ => id
    refine ((hA.u64 e.1 hmodulus).takes.bind hvalue fun _ => id).of_eq ?_ fun _ => rfl
    rw [List.append_nil]
  · rw [s.sink_eq, List.length_drop]
    rw [List.length_cons] at hs
    omega

/-- A payload whose sizes 32 bits can count, and whose polynomials fit. -/
def Payload.Fits : Payload → Prop
  | .ciphertext elements => GroupFits elements
  | .plaintext element => element.Fits
  | .dcrtpoly_proxy _ elements => elements.length < 2 ^ 32 ∧ ∀ e ∈ elements, TowerFits e
  | .ciphertext_vector l => l.length < 2 ^ 32 ∧ ∀ g ∈ l, GroupFits g
  | .plaintext_vector l => GroupFits l

/-- The residues of a payload. -/
def Payload.towers : Payload → List (ℕ × Poly)
  | .ciphertext elements => elements.flatMap DcrtPoly.towers
  | .plaintext element => element.towers
  | .dcrtpoly_proxy _ elements => elements
  | .ciphertext_vector l => l.flatMap (·.flatMap DcrtPoly.towers)
  | .plaintext_vector l => l.flatMap DcrtPoly.towers

/-- A single polynomial is a group. -/
theorem groupFits_singleton {d : DcrtPoly} (hd : d.Fits) : GroupFits [d] :=
  ⟨by show 1 < 2 ^ 32; decide, List.forall_mem_singleton.mpr hd⟩

/-- **An instance of each kind.** -/
theorem takes_instance (hA : A.Documented) {p : Payload} (hp : p.Fits) :
    Takes (fun s => p.towers.length ≤ s.id_it.length) (read_instance A) (p.bytes A) true (·.deliver p.towers) := by
  cases p with
  | ciphertext elements =>
    exact ((hA.u8 0 (by decide)).takes.bind (Q := fun _ => True) ((takes_size hA hp.size).bind (Q := fun _ => True)
      (((takes_group hA hp.fits).bind (Q := fun _ => True) (.pure true) fun _ _ => trivial))
      fun _ => id) fun _ _ => trivial).of_eq (by rw [Payload.bytes, List.append_nil]) fun _ => rfl
  | plaintext element =>
    have hgroup := groupFits_singleton hp
    refine ((hA.u8 1 (by decide)).takes.bind (Q := fun _ => True) ((takes_size hA hgroup.size).bind (Q := fun _ => True)
      (((takes_group hA hgroup.fits).bind (Q := fun _ => True) (.pure true) fun _ _ => trivial))
      fun _ => id) fun _ _ => trivial).of_eq ?_ fun s => ?_
    · rw [Payload.bytes, List.append_nil]
      rfl
    · exact congrArg s.deliver (List.append_nil _)
  | dcrtpoly_proxy format elements =>
    have hflag : formatFlag format < 2 ^ 8 := by cases format <;> decide
    have helements := (takes_proxy hA hp.2).bind (k := fun _ => pure true) (Q := fun _ => True) (.pure true)
      fun _ _ => trivial
    refine ((hA.u8 2 (by decide)).takes.bind ((takes_size hA hp.1).bind ((hA.u8 _ hflag).takes.bind helements
      fun _ => id) fun _ => id) fun _ => id).of_eq ?_ fun _ => rfl
    rw [Payload.bytes, List.append_nil]
  | ciphertext_vector l =>
    exact ((hA.u8 3 (by decide)).takes.bind (Q := fun _ => True) ((takes_size hA hp.1).bind (Q := fun _ => True)
      (((takes_groups hA hp.2).bind (Q := fun _ => True) (.pure true) fun _ _ => trivial))
      fun _ => id) fun _ _ => trivial).of_eq (by rw [Payload.bytes, List.append_nil]) fun _ => rfl
  | plaintext_vector l =>
    have hgroups : ∀ g ∈ l.map fun d => [d], GroupFits g := by
      rw [List.forall_mem_map]
      exact fun d hd => groupFits_singleton (hp.fits d hd)
    have htakes := takes_groups (P := fun _ => True) hA hgroups
    rw [List.length_map, List.flatMap_map, List.flatMap_map] at htakes
    refine ((hA.u8 4 (by decide)).takes.bind (Q := fun _ => True) ((takes_size hA hp.size).bind (Q := fun _ => True)
      ((htakes.bind (Q := fun _ => True) (.pure true) fun _ _ => trivial))
      fun _ => id) fun _ _ => trivial).of_eq (by rw [Payload.bytes, List.append_nil]) fun s => ?_
    refine congrArg s.deliver (List.flatMap_congr fun d _ => ?_)
    exact List.append_nil _

/-- Numbers that are read over. -/
theorem takes_skipped (hA : A.Documented) {l : List ℕ} (hl : ∀ n ∈ l, n < 2 ^ 32) :
    Takes P (times l.length (skip_u32 A)) (l.flatMap A.u32.put) () id := by
  refine ((Takes.times (I := fun _ _ => True) (F := fun _ s => s) l (fun n hn _ => ?_) fun _ _ _ _ => trivial)
    |>.mono (fun _ _ => trivial)).of_eq rfl fun s => ?_
  · exact ((hA.u32 n (hl n hn)).takes.bind (k := fun _ => pure ()) (Q := fun _ => True) (.pure ())
      fun _ _ => trivial).of_eq (List.append_nil _) fun _ => rfl
  · induction l with
    | nil => rfl
    | cons n l ih => exact ih fun m hm => hl m (List.mem_cons_of_mem n hm)

/-- Nine parameters of 32 bits. -/
structure ParamsFit (l : List ℕ) : Prop where
  length : l.length = 9
  lt : ∀ n ∈ l, n < 2 ^ 32

/-- A table of tables. -/
structure TableFits (l : List (List DcrtPoly)) : Prop where
  size : l.length < 2 ^ 32
  fits : ∀ g ∈ l, GroupFits g

theorem takes_2d (hA : A.Documented) {l : List (List DcrtPoly)} (hl : TableFits l) :
    Takes P (read_2d A) (bytes_2d A l) () (·.deliver (l.flatMap (·.flatMap DcrtPoly.towers))) :=
  (takes_size hA hl.size).bind (k := fun n => times n (read_sized_group A)) (takes_groups hA hl.fits) fun _ => id

structure BootPrecompute.Fits (e : BootPrecompute) : Prop where
  m_slots : e.m_slots < 2 ^ 32
  m_dim1 : e.m_dim1 < 2 ^ 32
  params_enc : ParamsFit e.params_enc
  params_dec : ParamsFit e.params_dec
  m_U0hatTPreFFT : TableFits e.m_U0hatTPreFFT
  m_U0PreFFT : TableFits e.m_U0PreFFT
  m_U0Pre : GroupFits e.m_U0Pre
  m_U0hatTPre : GroupFits e.m_U0hatTPre

/-- The residues of an entry, in the order of its tables. -/
def BootPrecompute.towers (e : BootPrecompute) : List (ℕ × Poly) :=
  e.m_U0hatTPreFFT.flatMap (·.flatMap DcrtPoly.towers) ++ (e.m_U0PreFFT.flatMap (·.flatMap DcrtPoly.towers) ++
    (e.m_U0Pre.flatMap DcrtPoly.towers ++ e.m_U0hatTPre.flatMap DcrtPoly.towers))

theorem Loading.deliver_append (s : Loading) (towers towers' : List (ℕ × Poly)) :
    s.deliver (towers ++ towers') = (s.deliver towers).deliver towers' := List.foldl_append

/-- **An entry of the bootstrap's tables.** -/
theorem takes_precompute (hA : A.Documented) {e : BootPrecompute} (he : e.Fits) :
    Takes P (read_precompute A) (e.bytes A) () (·.deliver e.towers) := by
  have hnumbers : Takes P (times 2 (skip_u32 A)) ([e.m_slots, e.m_dim1].flatMap A.u32.put) () id :=
    takes_skipped hA (List.forall_mem_cons.mpr ⟨he.m_slots, List.forall_mem_singleton.mpr he.m_dim1⟩)
  have hparams : Takes P (times 2 (times 9 (skip_u32 A)))
      ([e.params_enc, e.params_dec].flatMap (·.flatMap A.u32.put)) () id :=
    (Takes.times (I := fun _ _ => True) (R := times 9 (skip_u32 A)) (F := fun _ s => s)
      [e.params_enc, e.params_dec] (fun l hl _ => by
        have hl : ParamsFit l := by
          rcases List.mem_pair.mp hl with rfl | rfl
          · exact he.params_enc
          · exact he.params_dec
        have htakes := takes_skipped (P := fun _ => True) hA hl.lt
        rwa [hl.length] at htakes) fun _ _ _ _ => trivial)
      |>.mono (fun _ _ => trivial) |>.of_eq rfl fun _ => rfl
  refine (hnumbers.bind (Q := P) (hparams.bind (Q := fun _ => True) ((takes_2d hA he.m_U0hatTPreFFT).bind
    (Q := fun _ => True) ((takes_2d hA he.m_U0PreFFT).bind (Q := fun _ => True) ((takes_sized hA he.m_U0Pre).bind
      (Q := fun _ => True) (takes_sized hA he.m_U0hatTPre) fun _ _ => trivial) fun _ _ => trivial)
        fun _ _ => trivial) fun _ _ => trivial) fun _ => id).of_eq rfl fun s => ?_
  simp only [BootPrecompute.towers, Loading.deliver_append]
  rfl

end Taking

/-! ## Files -/

/-- The residues of a key: those of its A vector, then those of its B vector. -/
def keyTowers (key : List DcrtPoly × List DcrtPoly) : List (ℕ × Poly) :=
  key.1.flatMap DcrtPoly.towers ++ key.2.flatMap DcrtPoly.towers

/-- A data file of a project. -/
inductive ProjectFile where
  | input (payloads : List Payload)
  | keys (l : List (List DcrtPoly × List DcrtPoly))
  | bootstrap (bootMap : List (Option BootPrecompute))

namespace ProjectFile

variable (A : Archive)

def bytes : ProjectFile → Bytes
  | input payloads => input_bytes A payloads
  | keys l => key_bytes A l
  | bootstrap bootMap => bp_bytes A bootMap

/-- The loader of each layout. -/
def load : ProjectFile → Bytes → List ℕ → Option (List CapturedElement)
  | input _ => load_input_bin A
  | keys _ => load_key_bin A
  | bootstrap _ => load_bp_bin A

/-- The residues of a file, in order. -/
def towers : ProjectFile → List (ℕ × Poly)
  | input payloads => payloads.flatMap Payload.towers
  | keys l => l.flatMap keyTowers
  | bootstrap bootMap => (bootMap.filterMap id).flatMap BootPrecompute.towers

/-- Sizes of 32 bits, and polynomials that fit. -/
def Fits : ProjectFile → Prop
  | input payloads => payloads.length < 2 ^ 32 ∧ ∀ p ∈ payloads, p.Fits
  | keys l => l.length < 2 ^ 32 ∧ ∀ key ∈ l, GroupFits key.1 ∧ GroupFits key.2
  | bootstrap bootMap => bootMap.length < 2 ^ 32 ∧ ∀ e ∈ bootMap.filterMap id, e.Fits

/-- Everything that is counted is written. -/
def Counted : ProjectFile → Prop
  | bootstrap bootMap => none ∉ bootMap
  | _ => True

instance : (file : ProjectFile) → Decidable file.Counted
  | bootstrap bootMap => decidable_of_iff (bootMap.all Option.isSome) (by
      rw [List.all_eq_true]
      exact ⟨fun h hnone => absurd (h _ hnone) (by simp), fun h e he => Option.isSome_iff_ne_none.mpr
        fun heq => h (heq ▸ he)⟩)
  | input _ => .isTrue trivial
  | keys _ => .isTrue trivial

end ProjectFile

section Files

variable {A : Archive} {P : Loading → Prop}

/-- A load that takes a file gives what it delivers, and fails on a part of the file. -/
theorem loaded_by_takes {load : Load Bool} {w : Bytes} {towers : List (ℕ × Poly)}
    (h : Takes P load w true (·.deliver towers)) {ids : List ℕ} (hids : P ⟨ids, []⟩) :
    loaded_by load w ids = some (addressed ids towers) ∧ ∀ l, l <+: w → l ≠ w → loaded_by load l ids = none := by
  constructor
  · have hwhole := h.whole [] ⟨ids, []⟩ hids
    rw [List.append_nil] at hwhole
    rw [loaded_by, hwhole, Loading.deliver_eq]
    rfl
  · intro l hl hne
    rw [loaded_by, h.cut l ⟨ids, []⟩ hids hl hne]
    rfl

theorem takes_input (hA : A.Documented) {payloads : List Payload} (hlength : payloads.length < 2 ^ 32)
    (hfits : ∀ p ∈ payloads, p.Fits) :
    Takes (fun s => (payloads.flatMap Payload.towers).length ≤ s.id_it.length)
      (do A.opening.read; let instances ← A.u32.read; timesWhile instances (read_instance A))
      (input_bytes A payloads) true (·.deliver (payloads.flatMap Payload.towers)) := by
  have hinstances : Takes (fun s => (payloads.flatMap Payload.towers).length ≤ s.id_it.length)
      (timesWhile payloads.length (read_instance A)) (payloads.flatMap (Payload.bytes A)) true
      (·.deliver (payloads.flatMap Payload.towers)) := by
    refine (Takes.timesWhile
      (I := fun rest (s : Loading) => (rest.flatMap Payload.towers).length ≤ s.id_it.length) payloads
      (fun p hp rest => (takes_instance hA (hfits p hp)).mono fun s hs => ?_) fun p rest s hs => ?_)
      |>.of_eq rfl fun s => s.deliver_flatMap payloads _
    · rw [List.flatMap_cons, List.length_append] at hs
      exact (Nat.le_add_right _ _).trans hs
    · rw [List.flatMap_cons] at hs
      exact Loading.enough_after hs
  exact (hA.opening.takes.bind (k := fun _ => A.u32.read >>= fun n => timesWhile n (read_instance A))
    ((takes_size hA hlength).bind (k := fun n => timesWhile n (read_instance A)) hinstances fun _ => id) fun _ => id)

theorem takes_keys (hA : A.Documented) {keys : List (List DcrtPoly × List DcrtPoly)} (hlength : keys.length < 2 ^ 32)
    (hfits : ∀ key ∈ keys, GroupFits key.1 ∧ GroupFits key.2) :
    Takes P (do A.opening.read; let num_keys ← A.u32.read; times num_keys (read_key A); return true)
      (key_bytes A keys) true (·.deliver (keys.flatMap keyTowers)) := by
  have hkeys : Takes P (times keys.length (read_key A))
      (keys.flatMap fun key => sized_bytes A key.1 ++ sized_bytes A key.2) ()
      (·.deliver (keys.flatMap keyTowers)) := by
    refine ((Takes.times (I := fun _ _ => True) (F := fun key s => s.deliver (keyTowers key)) keys
      (fun key hkey _ => ?_) fun _ _ _ _ => trivial) |>.mono fun _ _ => trivial).of_eq rfl fun s =>
        s.deliver_flatMap keys _
    obtain ⟨hA', hB⟩ := hfits key hkey
    refine ((takes_sized hA hA').bind (Q := fun _ => True) (takes_sized hA hB) fun _ _ => trivial).of_eq rfl
      fun s => ?_
    exact (s.deliver_append _ _).symm
  exact (hA.opening.takes.bind (k := fun _ => A.u32.read >>= fun n => times n (read_key A) >>= fun _ => pure true)
    ((takes_size hA hlength).bind (k := fun n => times n (read_key A) >>= fun _ => pure true)
      (hkeys.bind (k := fun _ => pure true) (Q := fun _ => True) (.pure true) fun _ _ => trivial)
      fun _ => id) fun _ => id).of_eq (by rw [List.append_nil]; rfl) fun _ => rfl

theorem takes_bootstrap (hA : A.Documented) {entries : List BootPrecompute} (hlength : entries.length < 2 ^ 32)
    (hfits : ∀ e ∈ entries, e.Fits) :
    Takes P (do A.opening.read; let num_entries ← A.u32.read; times num_entries (read_precompute A); return true)
      (bp_bytes A (entries.map some)) true (·.deliver (entries.flatMap BootPrecompute.towers)) := by
  have hentries : Takes P (times entries.length (read_precompute A)) (entries.flatMap (BootPrecompute.bytes A)) ()
      (·.deliver (entries.flatMap BootPrecompute.towers)) :=
    ((Takes.times (I := fun _ _ => True) entries (fun e he _ => takes_precompute hA (hfits e he))
      fun _ _ _ _ => trivial) |>.mono fun _ _ => trivial).of_eq rfl fun s => s.deliver_flatMap entries _
  refine (hA.opening.takes.bind
    (k := fun _ => A.u32.read >>= fun n => times n (read_precompute A) >>= fun _ => pure true)
    ((takes_size hA hlength).bind (k := fun n => times n (read_precompute A) >>= fun _ => pure true)
      (hentries.bind (k := fun _ => pure true) (Q := fun _ => True) (.pure true) fun _ _ => trivial)
      fun _ => id) fun _ => id).of_eq ?_ fun _ => rfl
  rw [bp_bytes, List.length_map, List.filterMap_map, List.append_nil]
  congr 3
  exact (List.filterMap_some ..).symm

/-- A scalar takes a byte at least. -/
def Archive.Takes (A : Archive) : Prop := ∀ n, A.u32.put n ≠ []

/-- An entry without tables. -/
def emptyPrecompute : BootPrecompute := ⟨0, 0, List.replicate 9 0, List.replicate 9 0, [], [], [], []⟩

theorem emptyPrecompute_fits : emptyPrecompute.Fits := by
  have hparams : ParamsFit (List.replicate 9 0) := ⟨rfl, by decide⟩
  have htable : TableFits [] := ⟨by decide, List.forall_mem_nil _⟩
  have hgroup : GroupFits [] := ⟨by decide, List.forall_mem_nil _⟩
  exact ⟨by decide, by decide, hparams, hparams, htable, htable, hgroup, hgroup⟩

/-- **With an entry that is counted and not written**, the loader runs out of the file. -/
theorem load_uncounted (hA : A.Documented) (hbytes : A.Takes) {bootMap : List (Option BootPrecompute)}
    (hlength : bootMap.length < 2 ^ 32) (hfits : ∀ e ∈ bootMap.filterMap id, e.Fits) (hnone : none ∈ bootMap)
    (ids : List ℕ) {l : Bytes} (hl : l <+: bp_bytes A bootMap) : load_bp_bin A l ids = none := by
  have hfewer : (bootMap.filterMap id).length < bootMap.length := by
    rw [List.length_filterMap_eq_countP]
    refine lt_of_le_of_ne List.countP_le_length fun heq => ?_
    simpa using List.countP_eq_length.mp heq none hnone
  have hempty : ∀ s, read_precompute A ([], s) = none := fun s =>
    (takes_precompute (P := fun _ => True) hA emptyPrecompute_fits).cut [] s trivial List.nil_prefix
      (by simp [BootPrecompute.bytes, emptyPrecompute, hbytes 0])
  have hpast := times_past (I := fun _ _ => True) (bootMap.filterMap id) hfewer
    (fun e he _ => takes_precompute (P := fun _ => True) hA (hfits e he)) (fun _ _ _ _ => trivial) hempty
  -- the file ends in front of the entries, or among them
  have hload : (do A.opening.read; let n ← A.u32.read; times n (read_precompute A); return true : Load Bool)
      (l, ⟨ids, []⟩) = none := by
    show (A.opening.read (l, _)).bind _ = _
    rcases prefix_append_cases hl with ⟨hcut, hne⟩ | ⟨l', rfl, hrest⟩
    · rw [(hA.opening.takes (P := fun _ => True)).cut _ _ trivial hcut hne]
      rfl
    · rw [(hA.opening.takes (P := fun _ => True)).whole _ _ trivial]
      show (A.u32.read (l', _)).bind _ = _
      rcases prefix_append_cases hrest with ⟨hcut, hne⟩ | ⟨l'', rfl, hentries⟩
      · rw [(takes_size (P := fun _ => True) hA hlength).cut _ _ trivial hcut hne]
        rfl
      · rw [(takes_size (P := fun _ => True) hA hlength).whole _ _ trivial]
        show (times bootMap.length (read_precompute A) (l'', _)).bind _ = _
        rw [hpast _ _ trivial hentries]
        rfl
  rw [load_bp_bin, loaded_by, hload]
  rfl

theorem eq_map_some {α : Type} {l : List (Option α)} (h : none ∉ l) : l = (l.filterMap id).map some := by
  induction l with
  | nil => rfl
  | cons o l ih =>
    obtain ⟨ho, hl⟩ := not_or.mp (mt List.mem_cons.mpr h)
    obtain ⟨a, rfl⟩ := Option.ne_none_iff_exists'.mp (Ne.symm ho)
    show some a :: l = some a :: (l.filterMap id).map some
    rw [← ih hl]

theorem filterMap_map_some {α : Type} (l : List α) : (l.map some).filterMap id = l := by
  rw [List.filterMap_map]
  exact List.filterMap_some ..

/-- With nothing counted that is not written, the map is its entries. -/
theorem entries_of_counted {bootMap : List (Option BootPrecompute)} (h : none ∉ bootMap)
    (hlength : bootMap.length < 2 ^ 32) (hfits : ∀ e ∈ bootMap.filterMap id, e.Fits) :
    ∃ entries : List BootPrecompute, bootMap = entries.map some ∧ entries.length < 2 ^ 32 ∧
      ∀ e ∈ entries, e.Fits := by
  refine ⟨_, eq_map_some h, ?_, hfits⟩
  rw [eq_map_some h, List.length_map] at hlength
  exact hlength

/-- A file that was written whole. -/
theorem ProjectFile.load_bytes (hA : A.Documented) (hbytes : A.Takes) {file : ProjectFile} (hfits : file.Fits)
    {ids : List ℕ} (hids : file.towers.length ≤ ids.length) :
    file.load A (file.bytes A) ids = if file.Counted then some (addressed ids file.towers) else none := by
  cases file with
  | input payloads =>
    have hcounted : (input payloads).Counted := trivial
    rw [if_pos hcounted]
    exact (loaded_by_takes (takes_input hA hfits.1 hfits.2) hids).1
  | keys l =>
    have hcounted : (keys l).Counted := trivial
    rw [if_pos hcounted]
    exact (loaded_by_takes (P := fun _ => True) (takes_keys hA hfits.1 hfits.2) trivial).1
  | bootstrap bootMap =>
    by_cases hcounted : (bootstrap bootMap).Counted
    · obtain ⟨entries, rfl, hlength, hall⟩ := entries_of_counted hcounted hfits.1 hfits.2
      have hentries : (entries.map some).filterMap id = entries := filterMap_map_some entries
      rw [if_pos hcounted, ProjectFile.towers, hentries]
      exact (loaded_by_takes (P := fun _ => True) (takes_bootstrap hA hlength hall) trivial).1
    · rw [if_neg hcounted]
      exact load_uncounted hA hbytes hfits.1 hfits.2 (not_not.mp hcounted) ids List.prefix_rfl

/-- A file that was cut short. -/
theorem ProjectFile.load_cut (hA : A.Documented) (hbytes : A.Takes) {file : ProjectFile} (hfits : file.Fits)
    {ids : List ℕ} (hids : file.towers.length ≤ ids.length) {l : Bytes} (hl : l <+: file.bytes A)
    (hne : l ≠ file.bytes A) : file.load A l ids = none := by
  cases file with
  | input payloads => exact (loaded_by_takes (takes_input hA hfits.1 hfits.2) hids).2 l hl hne
  | keys l' =>
    exact (loaded_by_takes (P := fun _ => True) (takes_keys hA hfits.1 hfits.2) trivial).2 l hl hne
  | bootstrap bootMap =>
    by_cases hcounted : none ∈ bootMap
    · exact load_uncounted hA hbytes hfits.1 hfits.2 hcounted ids hl
    · obtain ⟨entries, rfl, hlength, hall⟩ := entries_of_counted hcounted hfits.1 hfits.2
      exact (loaded_by_takes (P := fun _ => True) (takes_bootstrap hA hlength hall) trivial).2 l hl hne

/-- **A data file is read back**: each residue with the address for it, in order, as long
as everything that the file counts was written, and there are addresses enough. A file
that was cut short is then refused. The file of the addresses is read back too. -/
theorem project_file_reads_back (hA : A.Documented) (hbytes : A.Takes) {file : ProjectFile} (hfits : file.Fits)
    {ids : List ℕ} (hids : file.towers.length ≤ ids.length) :
    (ids.length < 2 ^ 60 → (∀ a ∈ ids, a < 2 ^ 64) → read_ids (write_addr_ids ids) = some ids) ∧
      (file.Counted → file.load A (file.bytes A) ids = some (addressed ids file.towers)) ∧
      (¬ file.Counted → file.load A (file.bytes A) ids = none) ∧
      ∀ l, l <+: file.bytes A → l ≠ file.bytes A → file.load A l ids = none := by
  have hwhole := ProjectFile.load_bytes hA hbytes hfits hids
  refine ⟨read_ids_write, fun h => ?_, fun h => ?_, fun l => ProjectFile.load_cut hA hbytes hfits hids⟩
  · rw [hwhole, if_pos h]
  · rw [hwhole, if_neg h]

end Files

/-! ## An archive -/

/-- A number of `k` bytes, the lowest one first. -/
def leCodec (k : ℕ) : Codec UInt8 ℕ where
  put := leBytes k
  get l := if l.length < k then none else some (leNat (l.take k), l.drop k)

theorem leCodec_exact {k n : ℕ} (hn : n < 256 ^ k) : (leCodec k).Exact n where
  get_put rest := by
    have hlength : ¬ (leBytes k n ++ rest).length < k := by simp
    show (if (leBytes k n ++ rest).length < k then none
      else some (leNat ((leBytes k n ++ rest).take k), (leBytes k n ++ rest).drop k)) = _
    rw [if_neg hlength, List.take_left' (leBytes_length k n), List.drop_left' (leBytes_length k n),
      leNat_leBytes hn]
  get_cut l hl hne := by
    have hlength : l.length < k := by
      have hle := hl.length_le
      rw [show (leCodec k).put n = leBytes k n from rfl, leBytes_length] at hle
      refine lt_of_le_of_ne hle fun heq => hne (hl.eq_of_length ?_)
      rw [heq]
      exact (leBytes_length k n).symm
    exact if_pos hlength

def read_values : Frames.Reader UInt8 Unit Poly := do
  let n ← (leCodec 8).read
  collect n (leCodec 8).read

def put_values (v : Poly) : Bytes := leBytes 8 v.length ++ v.flatMap (leBytes 8)

def read_tower : Frames.Reader UInt8 Unit (ℕ × Poly) := do
  let modulus ← (leCodec 8).read
  let values ← read_values
  return (modulus, values)

def put_tower (t : ℕ × Poly) : Bytes := leBytes 8 t.1 ++ put_values t.2

/-- An archive of a machine that puts the lowest byte first: it says so in its first byte, a
vector has its size in front of it, and so has a polynomial its format and its number of
towers. -/
def referenceArchive : Archive where
  opening := .of (fun _ => [1]) do
    let _ ← (leCodec 1).read
  u8 := leCodec 1
  u32 := leCodec 4
  u64 := leCodec 8
  values := .of put_values read_values
  dcrt := .of (fun d => leBytes 1 (formatFlag d.format) ++ (leBytes 8 d.towers.length ++ d.towers.flatMap put_tower)) do
    let flag ← (leCodec 1).read
    let n ← (leCodec 8).read
    let towers ← collect n read_tower
    return ⟨if flag = 1 then .Evaluation else .Coefficient, towers⟩

theorem takes_values {P : Unit → Prop} {v : Poly} (hlength : v.length < 2 ^ 64) (hv : ∀ x ∈ v, x < 2 ^ 64) :
    Takes P read_values (put_values v) v id := by
  have hpow : (2 : ℕ) ^ 64 = 256 ^ 8 := by decide
  exact (leCodec_exact (hpow ▸ hlength)).takes.bind (k := fun n => collect n (leCodec 8).read)
    (Takes.collect (P := P) v fun x hx => (leCodec_exact (hpow ▸ hv x hx)).takes) fun _ => id

theorem takes_tower {P : Unit → Prop} {t : ℕ × Poly} (ht : TowerFits t) : Takes P read_tower (put_tower t) t id := by
  have hpow : (2 : ℕ) ^ 64 = 256 ^ 8 := by decide
  exact ((leCodec_exact (hpow ▸ ht.modulus)).takes.bind (k := fun q => read_values >>= fun v => pure (q, v))
    ((takes_values (P := P) ht.length ht.values).bind (k := fun v => pure (t.1, v)) (Q := P) (.pure t) fun _ => id)
    fun _ => id).of_eq (by rw [List.append_nil]; rfl) fun _ => rfl

theorem referenceArchive_documented : referenceArchive.Documented where
  opening := by
    refine Takes.exact (fun _ => [1]) ?_
    exact ((leCodec_exact (k := 1) (n := 1) (by decide)).takes.bind (k := fun _ => pure ()) (Q := fun _ => True)
      (.pure ()) fun _ _ => trivial).of_eq (by decide) fun _ => rfl
  u8 n hn := leCodec_exact hn
  u32 n hn := leCodec_exact ((by decide : (2 : ℕ) ^ 32 = 256 ^ 4) ▸ hn)
  u64 n hn := leCodec_exact ((by decide : (2 : ℕ) ^ 64 = 256 ^ 8) ▸ hn)
  values v hlength hv := Takes.exact _ (takes_values hlength hv)
  dcrt d hd := by
    have hpow : (2 : ℕ) ^ 64 = 256 ^ 8 := by decide
    have hflag : formatFlag d.format < 256 ^ 1 := by cases d.format <;> decide
    have hread : (⟨if formatFlag d.format = 1 then .Evaluation else .Coefficient, d.towers⟩ : DcrtPoly) = d := by
      obtain ⟨format, towers⟩ := d
      cases format <;> rfl
    have hpure : Takes (fun _ => True)
        (pure ⟨if formatFlag d.format = 1 then .Evaluation else .Coefficient, d.towers⟩ : Frames.Reader UInt8 Unit DcrtPoly)
        [] d id := by
      rw [hread]
      exact .pure d
    refine Takes.exact _ ?_
    exact ((leCodec_exact hflag).takes.bind (Q := fun _ => True)
      ((leCodec_exact (hpow ▸ hd.length)).takes.bind (Q := fun _ => True)
        ((Takes.collect d.towers fun t ht => takes_tower (hd.towers t ht)).bind hpure fun _ _ => trivial)
        fun _ _ => trivial) fun _ _ => trivial).of_eq (by rw [List.append_nil]; rfl) fun _ => rfl

theorem referenceArchive_takes : referenceArchive.Takes := fun n => List.ne_nil_of_length_pos (by
  rw [show referenceArchive.u32.put n = leBytes 4 n from rfl, leBytes_length]
  decide)

/-- A ciphertext of one polynomial, and a proxy. -/
def twoInstances : ProjectFile :=
  .input [.ciphertext [⟨.Evaluation, [(17, [1, 2])]⟩], .dcrtpoly_proxy .Coefficient [(19, [3, 4])]]

theorem project_file_reads_back_two : read_ids (write_addr_ids [5, 6]) = some [5, 6] ∧
    twoInstances.load referenceArchive (twoInstances.bytes referenceArchive) [5, 6] =
      some [⟨5, [1, 2], 17⟩, ⟨6, [3, 4], 19⟩] := by
  have hfits : twoInstances.Fits := by
    refine ⟨by decide, List.forall_mem_cons.mpr ⟨⟨by decide, List.forall_mem_singleton.mpr ⟨by decide, ?_⟩⟩,
      List.forall_mem_singleton.mpr ⟨by decide, ?_⟩⟩⟩
    · exact List.forall_mem_singleton.mpr ⟨by decide, by decide, by decide⟩
    · exact List.forall_mem_singleton.mpr ⟨by decide, by decide, by decide⟩
  have henough : twoInstances.towers.length ≤ [5, 6].length := by decide
  obtain ⟨hids, hread, -⟩ :=
    project_file_reads_back referenceArchive_documented referenceArchive_takes hfits henough
  exact ⟨hids (by decide) (by decide), hread trivial⟩

end Fhetch
