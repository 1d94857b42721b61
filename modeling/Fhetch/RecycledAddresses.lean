/-
Which addresses the probe layer hands out.

A free address is one in the pool, or one the counter has not reached. A call is a
few requests to the allocator, and each request keeps it so that no free address is
in use, with one exception: a reassignment returns the address of the id it
abandons to the pool without looking whether a move has put another id on that
address. So the condition on a run is that this look would have found nobody; and
that the counter, which has 64 bits, is not exhausted.

An id shares an address with those it was moved to. The invariant names for each
address an id that all those using it were moved from, through any number of
moves. Where a move finds its source alone on its address, no more than two ids
share one, and one of them was moved into the other.
-/
import Fhetch.Probes
import Fhetch.Lib.Runs
import Mathlib.Logic.Relation

set_option autoImplicit false

namespace Fhetch

open Relation (ReflTransGen)

namespace AddressAllocator

/-! ## Requests -/

/-- What a probe call asks of the allocator. -/
inductive Request where
  | map (openfhe_id : ℕ)
  | share (dst_id src_id : ℕ)
  | pin (openfhe_id : ℕ)
  | construct (poly_id : ℕ)
  | retain (src : ℕ)
  | release (dst_old : ℕ)
  | scratch
  | reserve (next_addr : UInt64)

def step (s : AddressAllocator) : Request → AddressAllocator
  | .map id => (s.map_address id).2
  | .share dst_id src_id => (s.map_address src_id).2.assign dst_id (s.map_address src_id).1
  | .pin id => s.pin id
  | .construct id => s.construct id
  | .retain id => s.retain id
  | .release id => s.release id
  | .scratch => s.scratch.2
  | .reserve next_addr => s.reserve_fhetch_addresses next_addr

variable (s : AddressAllocator)

/-- The counter can go on. -/
def Room : Prop := s.next_fhetch_addr + 1 < 2 ^ 64

/-- The id has an address, or one can be found for it. -/
def Mappable (openfhe_id : ℕ) : Prop :=
  (s.address_map openfhe_id).isSome ∨
    (s.compact_free_pool ≠ [] ∧ openfhe_id ∉ s.pinned_openfhe_ids) ∨ s.Room

/-- What a request must find: an address to hand out, and nobody else on one that
is recycled. -/
def Allowed : Request → Prop
  | .map id => s.Mappable id
  | .share _ src_id => s.Mappable src_id
  | .release dst_old => ∀ addr, s.recycled dst_old = some addr →
      ∀ id, s.address_map id = some addr → id = dst_old
  | .scratch => s.compact_free_pool ≠ [] ∨ s.Room
  | _ => True

/-- A source that is moved is alone on its address, up to where it is moved to. -/
def MovesAlone : Request → Prop
  | .share dst_id src_id => ∀ addr, s.address_map src_id = some addr →
      ∀ id, s.address_map id = some addr → id = src_id ∨ id = dst_id
  | _ => True

end AddressAllocator

open AddressAllocator (Request)

/-- The requests of a call. -/
def ProbeCall.requests (p : Probes) : ProbeCall → List Request
  | .id poly_id => [.construct poly_id]
  | .precompute poly_id | .pin_openfhe_id poly_id => [.pin poly_id]
  | .ensure_fhetch_address poly_id => [.map poly_id]
  | .reserve_fhetch_addresses next_addr => [.reserve next_addr]
  | .reassign_id dst_old src => [.retain src, .release dst_old]
  | .discrete_gaussian poly_id | .discrete_uniform poly_id | .binary_uniform poly_id
  | .ternary_uniform poly_id => .pin poly_id :: if p.should_record then [.map poly_id] else []
  | .address poly_id | .result poly_id | .max poly_id | .input poly_id | .output poly_id
  | .key poly_id | .zero poly_id _ => if p.should_record then [.map poly_id] else []
  | .copy dst_id src_id => if p.should_record then [.map src_id, .map dst_id] else []
  | .move dst_id src_id => if p.should_record then [.share dst_id src_id] else []
  | .add dst src1 src2 _ | .sub dst src1 src2 _ | .mul dst src1 src2 _ =>
    if p.should_record then [.map dst, .map src1, .map src2] else []
  | .addi dst src _ _ | .subi dst src _ _ | .muli dst src _ _ | .ntt dst src _ _
  | .intt dst src _ _ | .automorphism dst src _ _ _ _ | .switchmodulus dst src _ _ =>
    if p.should_record then [.map dst, .map src] else []
  | .multacceq dst src_acc src_mul _ _ =>
    if p.should_record then [.map dst, .map src_acc, .map src_mul, .scratch] else []
  | .start | .stop | .pause_recording | .resume_recording | .annotate _ | .suppress_probes _
  | .set_serialization_thread _ => []

section Requests

variable (p : Probes)

theorem Probes.mention_allocator (id : ℕ) : (p.mention id).toAddressAllocator =
    Runs.run AddressAllocator.step p.toAddressAllocator (if p.should_record then [.map id] else []) := by
  unfold Probes.mention
  split
  · rfl
  · rfl

theorem Probes.sampled_allocator (id : ℕ) : (p.sampled id).toAddressAllocator =
    Runs.run AddressAllocator.step p.toAddressAllocator
      (.pin id :: if p.should_record then [.map id] else []) := by
  rw [Runs.run_cons]
  exact (p.pin_openfhe_id id).mention_allocator id

theorem Probes.arithmetic_allocator (op : FhOpcode) (dst src1 src2 : ℕ) (q : UInt64) :
    (p.arithmetic op dst src1 src2 q).toAddressAllocator =
      Runs.run AddressAllocator.step p.toAddressAllocator
        (if p.should_record then [.map dst, .map src1, .map src2] else []) := by
  unfold Probes.arithmetic
  split
  · rfl
  · rfl

theorem Probes.inplace_allocator (dst src : ℕ) (emit : ℕ → ℕ → TraceWriter → TraceWriter) :
    (p.inplace dst src emit).toAddressAllocator =
      Runs.run AddressAllocator.step p.toAddressAllocator
        (if p.should_record then [.map dst, .map src] else []) := by
  unfold Probes.inplace
  split
  · rfl
  · rfl

theorem Probes.reassign_allocator (dst_old src : ℕ) :
    (p.openfhe_cprobe_reassign_id dst_old src).toAddressAllocator =
      (p.retain src).release dst_old := by
  unfold Probes.openfhe_cprobe_reassign_id
  dsimp only
  split
  · rfl
  · rfl

/-- **A call does to the allocator what its requests do**, one after another. -/
theorem Probes.step_allocator (call : ProbeCall) :
    (p.step call).toAddressAllocator =
      Runs.run AddressAllocator.step p.toAddressAllocator (call.requests p) := by
  cases call with
  | id | precompute | pin_openfhe_id | ensure_fhetch_address | reserve_fhetch_addresses
  | suppress_probes | set_serialization_thread => rfl
  | address | result | max | input | output | key => exact p.mention_allocator _
  | discrete_gaussian | discrete_uniform | binary_uniform | ternary_uniform =>
    exact p.sampled_allocator _
  | add | sub | mul => exact p.arithmetic_allocator _ _ _ _ _
  | addi | subi | muli | ntt | intt | automorphism => exact p.inplace_allocator _ _ _
  | reassign_id dst_old src => exact p.reassign_allocator dst_old src
  | start | stop | pause_recording | resume_recording | annotate =>
    -- the writer and the flags change, and no address
    simp only [Probes.step, Probes.start, Probes.stop, Probes.openfhe_cprobe_pause_recording,
      Probes.openfhe_cprobe_resume_recording, Probes.openfhe_cprobe_annotate]
    split <;> rfl
  | zero | copy | move | multacceq | switchmodulus =>
    simp only [Probes.step, Probes.openfhe_cprobe_zero, Probes.openfhe_cprobe_copy,
      Probes.openfhe_cprobe_move, Probes.openfhe_cprobe_multacceq,
      Probes.openfhe_cprobe_switchmodulus, ProbeCall.requests]
    split <;> rfl

end Requests

namespace AddressAllocator

/-! ## The invariant -/

/-- **Free addresses are free**: the pool holds each of them once, nobody has one,
and none is the sentinel or beyond the counter. -/
structure Sound (s : AddressAllocator) : Prop where
  nodup : s.compact_free_pool.Nodup
  unused : ∀ id addr, s.address_map id = some addr → addr ∉ s.compact_free_pool
  pooled : ∀ addr ∈ s.compact_free_pool, 1 ≤ addr ∧ addr < s.next_fhetch_addr
  mapped : ∀ id addr, s.address_map id = some addr → 1 ≤ addr ∧ addr < s.next_fhetch_addr
  counter : 1 ≤ s.next_fhetch_addr

/-- Each address has an id from which all that use it were moved. -/
def Owned (moved : ℕ → ℕ → Prop) (s : AddressAllocator) : Prop :=
  ∃ owner : ℕ → ℕ, ∀ id addr, s.address_map id = some addr → ReflTransGen moved (owner addr) id

/-- Of two ids on one address, one was moved into the other. -/
def Paired (moved : ℕ → ℕ → Prop) (s : AddressAllocator) : Prop :=
  ∀ id id' addr, s.address_map id = some addr → s.address_map id' = some addr →
    id = id' ∨ moved id id' ∨ moved id' id

/-- An address was free and is handed out. -/
structure HandedOut (addr : ℕ) (s s' : AddressAllocator) : Prop where
  map : s'.address_map = s.address_map
  pool : s'.compact_free_pool.Sublist s.compact_free_pool
  gone : addr ∉ s'.compact_free_pool
  unused : ∀ id, s.address_map id ≠ some addr
  positive : 1 ≤ addr
  below : addr < s'.next_fhetch_addr
  counter : s.next_fhetch_addr ≤ s'.next_fhetch_addr

variable {s s' : AddressAllocator} {moved : ℕ → ℕ → Prop} {addr : ℕ}

theorem Sound.fresh (h : s.Sound) (hroom : s.Room) : HandedOut s.fresh.1 s s.fresh.2 := by
  have hnext : s.fresh.2.next_fhetch_addr = s.next_fhetch_addr + 1 := Nat.mod_eq_of_lt hroom
  refine ⟨rfl, .refl _, ?_, ?_, h.counter, ?_, ?_⟩
  · intro hmem
    exact absurd (h.pooled _ hmem).2 (Nat.lt_irrefl _)
  · intro id hid
    exact absurd (h.mapped id _ hid).2 (Nat.lt_irrefl _)
  · rw [hnext]
    exact Nat.lt_succ_self _
  · rw [hnext]
    exact Nat.le_succ _

theorem Sound.take (h : s.Sound) {id : ℕ}
    (hfree : (s.compact_free_pool ≠ [] ∧ id ∉ s.pinned_openfhe_ids) ∨ s.Room) :
    HandedOut (s.take id).1 s (s.take id).2 := by
  unfold AddressAllocator.take
  rcases hpool : s.compact_free_pool with - | ⟨addr, pool⟩
  · exact h.fresh (hfree.resolve_left fun hne => hne.1 hpool)
  · dsimp only
    split
    · rename_i hpinned
      exact h.fresh (hfree.resolve_left fun hne => hne.2 hpinned)
    · have hmem : addr ∈ s.compact_free_pool := hpool ▸ List.mem_cons_self
      have hnodup : (addr :: pool).Nodup := hpool ▸ h.nodup
      refine ⟨rfl, ?_, (List.nodup_cons.mp hnodup).1, ?_, (h.pooled addr hmem).1,
        (h.pooled addr hmem).2, Nat.le_refl _⟩
      · rw [hpool]
        exact List.sublist_cons_self addr pool
      · intro id' hid'
        exact h.unused id' addr hid' hmem

/-- What is left when an address has been handed out. -/
theorem HandedOut.sound (ho : HandedOut addr s s') (h : s.Sound) : s'.Sound where
  nodup := h.nodup.sublist ho.pool
  unused := fun id a hid hmem => h.unused id a (ho.map ▸ hid) (ho.pool.subset hmem)
  pooled := fun a hmem => ⟨(h.pooled a (ho.pool.subset hmem)).1,
    (h.pooled a (ho.pool.subset hmem)).2.trans_le ho.counter⟩
  mapped := fun id a hid => ⟨(h.mapped id a (ho.map ▸ hid)).1,
    (h.mapped id a (ho.map ▸ hid)).2.trans_le ho.counter⟩
  counter := h.counter.trans ho.counter

theorem assign_address_map (id id' : ℕ) : (s.assign id addr).address_map id' =
    if id' = id then some addr else s.address_map id' :=
  Function.update_apply _ _ _ _

/-- An address outside the pool may be given to an id. -/
theorem Sound.assign (h : s.Sound) (hpool : addr ∉ s.compact_free_pool) (hpos : 1 ≤ addr)
    (hlt : addr < s.next_fhetch_addr) (id : ℕ) : (s.assign id addr).Sound := by
  refine ⟨h.nodup, ?_, h.pooled, ?_, h.counter⟩
  · intro id' a hid'
    rw [assign_address_map] at hid'
    split at hid'
    · rw [← Option.some.inj hid']
      exact hpool
    · exact h.unused id' a hid'
  · intro id' a hid'
    rw [assign_address_map] at hid'
    split at hid'
    · rw [← Option.some.inj hid']
      exact ⟨hpos, hlt⟩
    · exact h.mapped id' a hid'

/-! ## Requests keep it -/

theorem map_address_of_some {id : ℕ} (hid : s.address_map id = some addr) :
    s.map_address id = (addr, s) := by
  rw [AddressAllocator.map_address, hid]

theorem map_address_of_none {id : ℕ} (hid : s.address_map id = none) :
    s.map_address id = ((s.take id).1, (s.take id).2.assign id (s.take id).1) := by
  rw [AddressAllocator.map_address, hid]
  rfl

/-- The address an id has after it was mapped. -/
theorem Sound.map_address (h : s.Sound) {id : ℕ} (hid : s.Mappable id) :
    (s.map_address id).2.Sound ∧
      (s.map_address id).2.address_map id = some (s.map_address id).1 := by
  rcases hmap : s.address_map id with - | addr
  · have ho := h.take (hid.resolve_left (by rw [hmap]; exact Bool.false_ne_true))
    rw [map_address_of_none hmap]
    refine ⟨(ho.sound h).assign ho.gone ho.positive ho.below id, ?_⟩
    rw [assign_address_map, if_pos rfl]
  · rw [map_address_of_some hmap]
    exact ⟨h, hmap⟩

/-- A new address is owned by the id it is made for. -/
theorem Owned.map_address (hown : Owned moved s) (h : s.Sound) {id : ℕ} (hid : s.Mappable id) :
    Owned moved (s.map_address id).2 := by
  rcases hmap : s.address_map id with - | addr
  · have ho := h.take (hid.resolve_left (by rw [hmap]; exact Bool.false_ne_true))
    obtain ⟨owner, howner⟩ := hown
    rw [map_address_of_none hmap]
    refine ⟨Function.update owner (s.take id).1 id, ?_⟩
    intro id' a hid'
    rw [assign_address_map, ho.map] at hid'
    split at hid'
    · rename_i heq
      rw [← Option.some.inj hid', heq, Function.update_self]
    · have hne : a ≠ (s.take id).1 := by
        rintro rfl
        exact ho.unused id' hid'
      rw [Function.update_of_ne hne]
      exact howner id' a hid'
  · rw [map_address_of_some hmap]
    exact hown

/-- Mapping an id puts it on its own address or on one that nobody has. -/
theorem map_address_alone (h : s.Sound) {id : ℕ} (hid : s.Mappable id) :
    ∀ id' a, (s.map_address id).2.address_map id' = some a → s.address_map id' = some a ∨
      (id' = id ∧ a = (s.map_address id).1 ∧ ∀ id'', s.address_map id'' ≠ some a) := by
  intro id' a hid'
  rcases hmap : s.address_map id with - | addr
  · have ho := h.take (hid.resolve_left (by rw [hmap]; exact Bool.false_ne_true))
    rw [map_address_of_none hmap, assign_address_map, ho.map] at hid'
    rw [map_address_of_none hmap]
    split at hid'
    · rename_i heq
      obtain rfl := Option.some.inj hid'
      exact .inr ⟨heq, rfl, ho.unused⟩
    · exact .inl hid'
  · rw [map_address_of_some hmap] at hid'
    exact .inl hid'

/-- A new address is shared by nobody. -/
theorem Paired.map_address (hpaired : Paired moved s) (h : s.Sound) {id : ℕ} (hid : s.Mappable id) :
    Paired moved (s.map_address id).2 := by
  intro id₁ id₂ a h₁ h₂
  rcases map_address_alone h hid id₁ a h₁ with hold₁ | ⟨heq₁, -, hnew⟩
  · rcases map_address_alone h hid id₂ a h₂ with hold₂ | ⟨-, -, hnew⟩
    · exact hpaired id₁ id₂ a hold₁ hold₂
    · exact absurd hold₁ (hnew id₁)
  · rcases map_address_alone h hid id₂ a h₂ with hold₂ | ⟨heq₂, -, -⟩
    · exact absurd hold₂ (hnew id₂)
    · exact .inl (heq₁.trans heq₂.symm)

/-- **A move from an address of its own** makes a pair of the two ids. -/
theorem Paired.share (hpaired : Paired moved s) (h : s.Sound) {dst src : ℕ} (hok : s.Mappable src)
    (halone : s.MovesAlone (.share dst src)) (hmoved : moved src dst) :
    Paired moved ((s.map_address src).2.assign dst (s.map_address src).1) := by
  obtain ⟨-, hsrc⟩ := h.map_address hok
  -- besides the two of them nobody is on the address
  have hothers : ∀ id, (s.map_address src).2.address_map id = some (s.map_address src).1 →
      id = src ∨ id = dst := by
    intro id hid
    rcases map_address_alone h hok id _ hid with hold | ⟨heq, -, -⟩
    · rcases map_address_alone h hok src _ hsrc with hold' | ⟨-, -, hnew⟩
      · exact halone _ hold' id hold
      · exact absurd hold (hnew id)
    · exact .inl heq
  have hjoin : ∀ id, (s.map_address src).2.address_map id = some (s.map_address src).1 →
      dst = id ∨ moved dst id ∨ moved id dst := by
    intro id hid
    rcases hothers id hid with rfl | rfl
    · exact .inr (.inr hmoved)
    · exact .inl rfl
  intro id₁ id₂ a h₁ h₂
  rw [assign_address_map] at h₁ h₂
  split at h₁
  · rename_i heq₁
    obtain rfl := Option.some.inj h₁
    split at h₂
    · rename_i heq₂
      exact .inl (heq₁.trans heq₂.symm)
    · rw [heq₁]
      exact hjoin id₂ h₂
  · split at h₂
    · rename_i heq₂
      obtain rfl := Option.some.inj h₂
      rw [heq₂]
      rcases hjoin id₁ h₁ with heq | hmoved | hmoved
      · exact .inl heq.symm
      · exact .inr (.inr hmoved)
      · exact .inr (.inl hmoved)
    · exact hpaired.map_address h hok id₁ id₂ a h₁ h₂

/-- An id joins another one on its address. -/
theorem Owned.assign (hown : Owned moved s) {dst src : ℕ} (hsrc : s.address_map src = some addr)
    (hmoved : moved src dst) : Owned moved (s.assign dst addr) := by
  obtain ⟨owner, howner⟩ := hown
  refine ⟨owner, ?_⟩
  intro id a hid
  rw [assign_address_map] at hid
  split at hid
  · rename_i heq
    rw [← Option.some.inj hid, heq]
    exact (howner src addr hsrc).tail hmoved
  · exact howner id a hid

/-- Losing a reference changes the map and the pool when an address is recycled, and
neither of them otherwise. -/
theorem release_eq (s : AddressAllocator) (dst_old : ℕ) :
    ∃ count : ℕ → Option ℤ, s.release dst_old = match s.recycled dst_old with
      | some addr => { s with
          refcount := count
          compact_free_pool := addr :: s.compact_free_pool
          address_map := Function.update s.address_map dst_old none }
      | none => { s with refcount := count } := by
  unfold AddressAllocator.release recycled
  rcases hcount : s.refcount dst_old with - | count
  · exact ⟨s.refcount, by simp⟩
  · dsimp only
    by_cases hlast : count - 1 = 0
    · have hone : count = 1 := by omega
      by_cases hpinned : dst_old ∈ s.pinned_openfhe_ids
      · simp [hlast, hpinned]
      · rw [if_pos hlast, if_neg hpinned, if_pos ⟨by rw [hone], hpinned⟩]
        rcases hmap : s.address_map dst_old with - | addr
        · exact ⟨_, rfl⟩
        · exact ⟨_, rfl⟩
    · have hmore : ¬ (some count = some 1 ∧ dst_old ∉ s.pinned_openfhe_ids) := by
        rintro ⟨hone, -⟩
        rw [Option.some.inj hone] at hlast
        exact hlast rfl
      rw [if_neg hlast, if_neg hmore]
      exact ⟨_, rfl⟩

theorem recycled_mapped {dst_old : ℕ} (h : s.recycled dst_old = some addr) :
    s.address_map dst_old = some addr := by
  unfold recycled at h
  split at h
  · exact h
  · exact absurd h (by simp)

theorem erase_address_map {dst_old id : ℕ} {a : ℕ}
    (h : Function.update s.address_map dst_old none id = some a) :
    id ≠ dst_old ∧ s.address_map id = some a := by
  rw [Function.update_apply] at h
  split at h
  · exact absurd h (by simp)
  · exact ⟨‹_›, h⟩

/-- **Recycling.** Once the abandoned id is gone, its address is free exactly when
nobody else was on it. -/
theorem Sound.release (h : s.Sound) {dst_old : ℕ} (hok : s.Allowed (.release dst_old)) :
    (s.release dst_old).Sound := by
  obtain ⟨count, heq⟩ := release_eq s dst_old
  rw [heq]
  rcases hrec : s.recycled dst_old with - | addr
  · exact ⟨h.nodup, h.unused, h.pooled, h.mapped, h.counter⟩
  · have hmap : s.address_map dst_old = some addr := recycled_mapped hrec
    refine ⟨List.nodup_cons.mpr ⟨h.unused dst_old addr hmap, h.nodup⟩, ?_, ?_, ?_, h.counter⟩
    · intro id a hid
      obtain ⟨hne, hold⟩ := erase_address_map hid
      rw [List.mem_cons]
      rintro (rfl | hmem)
      · exact hne (hok a hrec id hold)
      · exact h.unused id a hold hmem
    · intro a hmem
      rcases List.mem_cons.mp hmem with rfl | hmem
      · exact h.mapped dst_old a hmap
      · exact h.pooled a hmem
    · intro id a hid
      exact h.mapped id a (erase_address_map hid).2

/-- A recycled address that somebody else is on is not free. -/
theorem release_shared {dst_old : ℕ} (hbad : ¬ s.Allowed (.release dst_old)) :
    ¬ (s.release dst_old).Sound := by
  unfold Allowed at hbad
  push Not at hbad
  obtain ⟨addr, hrec, id, hid, hne⟩ := hbad
  obtain ⟨count, heq⟩ := release_eq s dst_old
  intro h
  rw [heq, hrec] at h
  have hid' : Function.update s.address_map dst_old none id = some addr := by
    rw [Function.update_of_ne hne]
    exact hid
  exact h.unused id addr hid' List.mem_cons_self

theorem Owned.release (hown : Owned moved s) (dst_old : ℕ) : Owned moved (s.release dst_old) := by
  obtain ⟨owner, howner⟩ := hown
  obtain ⟨count, heq⟩ := release_eq s dst_old
  rw [heq]
  split
  · exact ⟨owner, fun id a hid => howner id a (erase_address_map hid).2⟩
  · exact ⟨owner, howner⟩

theorem scratch_address_map (s : AddressAllocator) : s.scratch.2.address_map = s.address_map := by
  unfold AddressAllocator.scratch
  split <;> rfl

theorem Sound.scratch (h : s.Sound) (hok : s.Allowed .scratch) : s.scratch.2.Sound := by
  unfold AddressAllocator.scratch
  rcases hpool : s.compact_free_pool with - | ⟨tmp, pool⟩
  · -- a fresh address, which nobody has, is all there is in the pool afterwards
    have ho := h.fresh (hok.resolve_left fun hne => hne hpool)
    refine ⟨List.nodup_singleton _, ?_, ?_, (ho.sound h).mapped, (ho.sound h).counter⟩
    · intro id a hid hmem
      rw [List.mem_singleton.mp hmem] at hid
      exact ho.unused id hid
    · intro a hmem
      rw [List.mem_singleton.mp hmem]
      exact ⟨ho.positive, ho.below⟩
  · exact h

/-- **One request.** -/
theorem Sound.step (h : s.Sound) {request : Request} (hok : s.Allowed request) :
    (s.step request).Sound := by
  cases request with
  | map id => exact (h.map_address hok).1
  | share dst_id src_id =>
    obtain ⟨hs, hsrc⟩ := h.map_address hok
    have hused := hs.mapped src_id _ hsrc
    exact hs.assign (hs.unused src_id _ hsrc) hused.1 hused.2 dst_id
  | release dst_old => exact h.release hok
  | scratch => exact h.scratch hok
  | reserve next_addr =>
    have hle : s.next_fhetch_addr ≤ max next_addr.toNat s.next_fhetch_addr := le_max_right _ _
    exact ⟨h.nodup, h.unused, fun a hmem => ⟨(h.pooled a hmem).1, (h.pooled a hmem).2.trans_le hle⟩,
      fun id a hid => ⟨(h.mapped id a hid).1, (h.mapped id a hid).2.trans_le hle⟩, h.counter.trans hle⟩
  | pin | construct | retain => exact ⟨h.nodup, h.unused, h.pooled, h.mapped, h.counter⟩

theorem Owned.step (hown : Owned moved s) (h : s.Sound) {request : Request}
    (hok : s.Allowed request) (hmoved : ∀ dst src, request = .share dst src → moved src dst) :
    Owned moved (s.step request) := by
  cases request with
  | map id => exact hown.map_address h hok
  | share dst_id src_id =>
    exact (hown.map_address h hok).assign (h.map_address hok).2 (hmoved dst_id src_id rfl)
  | release dst_old => exact hown.release dst_old
  | scratch =>
    obtain ⟨owner, howner⟩ := hown
    exact ⟨owner, fun id a hid => howner id a (scratch_address_map s ▸ hid)⟩
  | pin | construct | retain | reserve => exact hown

theorem Paired.release (hpaired : Paired moved s) (dst_old : ℕ) : Paired moved (s.release dst_old) := by
  obtain ⟨count, heq⟩ := release_eq s dst_old
  rw [heq]
  split
  · exact fun id₁ id₂ a h₁ h₂ => hpaired id₁ id₂ a (erase_address_map h₁).2 (erase_address_map h₂).2
  · exact hpaired

theorem Paired.step (hpaired : Paired moved s) (h : s.Sound) {request : Request} (hok : s.Allowed request)
    (halone : s.MovesAlone request) (hmoved : ∀ dst src, request = .share dst src → moved src dst) :
    Paired moved (s.step request) := by
  cases request with
  | map id => exact hpaired.map_address h hok
  | share dst_id src_id => exact hpaired.share h hok halone (hmoved dst_id src_id rfl)
  | release dst_old => exact hpaired.release dst_old
  | scratch =>
    intro id₁ id₂ a h₁ h₂
    rw [AddressAllocator.step, scratch_address_map] at h₁ h₂
    exact hpaired id₁ id₂ a h₁ h₂
  | pin | construct | retain | reserve => exact hpaired

end AddressAllocator

/-! ## Runs of calls -/

/-- One id was moved into another by some call. -/
def Moved (calls : List ProbeCall) (src dst : ℕ) : Prop := ProbeCall.move dst src ∈ calls

/-- Each request of a call finds what it must find. -/
def Probes.Allowed (p : Probes) (call : ProbeCall) : Prop :=
  Runs.Along AddressAllocator.step AddressAllocator.Allowed p.toAddressAllocator (call.requests p)

/-- A move finds its source alone on its address. -/
def Probes.MovesAlone (p : Probes) (call : ProbeCall) : Prop :=
  Runs.Along AddressAllocator.step AddressAllocator.MovesAlone p.toAddressAllocator (call.requests p)

/-- Only a move has two ids share an address. -/
theorem ProbeCall.move_of_request {p : Probes} {call : ProbeCall} {dst src : ℕ}
    (h : Request.share dst src ∈ call.requests p) : call = .move dst src := by
  cases call <;> simp [ProbeCall.requests] at h
  simp [h]

/-- Free addresses are free, and shared ones are shared by moves. -/
structure Probes.Inv (calls : List ProbeCall) (p : Probes) : Prop where
  sound : p.toAddressAllocator.Sound
  owned : p.toAddressAllocator.Owned (Moved calls)

theorem Probes.Inv.step {calls : List ProbeCall} {p : Probes} {call : ProbeCall} (h : p.Inv calls)
    (hok : p.Allowed call) (hcall : call ∈ calls) : (p.step call).Inv calls := by
  have hrun : ∀ (s : AddressAllocator) (request : Request),
      (s.Allowed request ∧ request ∈ call.requests p) →
      (s.Sound ∧ s.Owned (Moved calls)) →
      ((s.step request).Sound ∧ (s.step request).Owned (Moved calls)) := by
    rintro s request ⟨hrequest, hmem⟩ ⟨hsound, howned⟩
    refine ⟨hsound.step hrequest, howned.step hsound hrequest ?_⟩
    rintro dst src rfl
    rw [ProbeCall.move_of_request hmem] at hcall
    exact hcall
  have hend := Runs.run_invariant hrun ⟨h.sound, h.owned⟩ (Runs.Along.with_mem hok)
  rw [← p.step_allocator call] at hend
  exact ⟨hend.1, hend.2⟩

theorem Probes.Inv.paired_step {calls : List ProbeCall} {p : Probes} {call : ProbeCall} (h : p.Inv calls)
    (hpaired : p.toAddressAllocator.Paired (Moved calls)) (hok : p.Allowed call) (halone : p.MovesAlone call)
    (hcall : call ∈ calls) : (p.step call).toAddressAllocator.Paired (Moved calls) := by
  have hrun : ∀ (s : AddressAllocator) (request : Request),
      ((s.Allowed request ∧ s.MovesAlone request) ∧ request ∈ call.requests p) →
      (s.Sound ∧ s.Paired (Moved calls)) →
      ((s.step request).Sound ∧ (s.step request).Paired (Moved calls)) := by
    rintro s request ⟨⟨hrequest, halone⟩, hmem⟩ ⟨hsound, hpaired⟩
    refine ⟨hsound.step hrequest, hpaired.step hsound hrequest halone ?_⟩
    rintro dst src rfl
    rw [ProbeCall.move_of_request hmem] at hcall
    exact hcall
  rw [p.step_allocator call]
  exact (Runs.run_invariant hrun ⟨h.sound, hpaired⟩ (Runs.Along.with_mem (Runs.Along.and hok halone))).2

/-- What the allocator promises, for the moves of a run. -/
structure AddressAllocator.HandsOutFree (moved : ℕ → ℕ → Prop) (s : AddressAllocator) : Prop where
  nodup : s.compact_free_pool.Nodup
  unused : ∀ addr ∈ s.compact_free_pool, ∀ id, s.address_map id ≠ some addr
  range : ∀ addr, (addr ∈ s.compact_free_pool ∨ ∃ id, s.address_map id = some addr) →
    1 ≤ addr ∧ addr < s.next_fhetch_addr
  pinned : ∀ id ∈ s.pinned_openfhe_ids, ∀ addr, s.address_map id = some addr →
    addr ∉ s.compact_free_pool
  shared : ∀ id id' addr, s.address_map id = some addr → s.address_map id' = some addr →
    ∃ source, ReflTransGen moved source id ∧ ReflTransGen moved source id'

theorem Probes.Inv.hands_out_free {calls : List ProbeCall} {p : Probes} (h : p.Inv calls) :
    p.toAddressAllocator.HandsOutFree (Moved calls) := by
  obtain ⟨owner, howner⟩ := h.owned
  refine ⟨h.sound.nodup, fun addr hmem id hid => h.sound.unused id addr hid hmem, ?_,
    fun id _ addr hid => h.sound.unused id addr hid, ?_⟩
  · rintro addr (hmem | ⟨id, hid⟩)
    · exact h.sound.pooled addr hmem
    · exact h.sound.mapped id addr hid
  · intro id id' addr hid hid'
    exact ⟨owner addr, howner id addr hid, howner id' addr hid'⟩

theorem probes_inv (calls : List ProbeCall) : Probes.Inv calls {} := by
  refine ⟨⟨List.nodup_nil, nofun, nofun, nofun, Nat.le_refl _⟩, ⟨fun addr => addr, nofun⟩⟩

/-- **No address in use is handed out**, in a run that recycles only addresses
nobody is on and does not exhaust the counter. Where besides every move finds its
source alone on its address, of two ids on one address one was moved into the other. -/
theorem free_addresses_are_unused (calls : List ProbeCall)
    (hrun : Runs.Along Probes.step Probes.Allowed {} calls) :
    (Runs.run Probes.step {} calls).HandsOutFree (Moved calls) ∧
      (Runs.Along Probes.step Probes.MovesAlone {} calls →
        (Runs.run Probes.step {} calls).Paired (Moved calls)) := by
  constructor
  · have hstep : ∀ (p : Probes) (call : ProbeCall), (p.Allowed call ∧ call ∈ calls) →
        p.Inv calls → (p.step call).Inv calls :=
      fun p call hcall h => h.step hcall.1 hcall.2
    exact (Runs.run_invariant hstep (probes_inv calls) (Runs.Along.with_mem hrun)).hands_out_free
  · intro halone
    have hstep : ∀ (p : Probes) (call : ProbeCall),
        ((p.Allowed call ∧ p.MovesAlone call) ∧ call ∈ calls) →
        (p.Inv calls ∧ p.toAddressAllocator.Paired (Moved calls)) →
        ((p.step call).Inv calls ∧ (p.step call).toAddressAllocator.Paired (Moved calls)) :=
      fun p call hcall h => ⟨h.1.step hcall.1.1 hcall.2, h.1.paired_step h.2 hcall.1.1 hcall.1.2 hcall.2⟩
    exact (Runs.run_invariant hstep ⟨probes_inv calls, nofun⟩
      (Runs.Along.with_mem (Runs.Along.and hrun halone))).2

/-- An id, one that is reassigned after a use of its own, one that gets its address,
and one that this one is moved into. -/
theorem free_addresses_are_unused_reassigned :
    let calls : List ProbeCall := [.start, .id 1, .id 2, .add 2 1 1 7, .reassign_id 2 1, .address 3, .move 4 3]
    (Runs.run Probes.step {} calls).HandsOutFree (Moved calls) ∧
      (Runs.run Probes.step {} calls).Paired (Moved calls) := by
  intro calls
  have hfree : ∀ addr, some 1 = some addr → ∀ id,
      Function.update (Function.update (fun _ => none) 2 (some 1)) 1 (some 2) id = some addr → id = 2 := by
    intro addr haddr id hid
    rw [← Option.some.inj haddr, Function.update_apply, Function.update_apply] at hid
    by_contra hne
    rw [if_neg hne] at hid
    split at hid <;> simp at hid
  have halone : ∀ addr, some 1 = some addr → ∀ id,
      Function.update (Function.update (Function.update (Function.update (fun _ => none) 2 (some 1)) 1 (some 2))
        2 none) 3 (some 1) id = some addr → id = 3 ∨ id = 4 := by
    intro addr haddr id hid
    rw [← Option.some.inj haddr, Function.update_apply, Function.update_apply, Function.update_apply,
      Function.update_apply] at hid
    refine .inl ?_
    by_contra hne
    rw [if_neg hne] at hid
    by_cases htwo : id = 2
    · rw [if_pos htwo] at hid
      exact absurd hid (by simp)
    · rw [if_neg htwo, if_neg htwo] at hid
      split at hid <;> simp at hid
  have hallowed : Runs.Along Probes.step Probes.Allowed {} calls := by
    refine ⟨trivial, ⟨trivial, trivial⟩, ⟨trivial, trivial⟩, ⟨?_, ?_, ?_, trivial⟩, ⟨trivial, hfree, trivial⟩,
      ⟨?_, trivial⟩, ⟨.inl (by decide), trivial⟩, trivial⟩
    · exact .inr (.inr (show 1 + 1 < 2 ^ 64 by decide))
    · exact .inr (.inr (show 2 + 1 < 2 ^ 64 by decide))
    · exact .inl (by decide)
    · exact .inr (.inl ⟨by decide, by decide⟩)
  obtain ⟨hfree', hpaired⟩ := free_addresses_are_unused calls hallowed
  refine ⟨hfree', hpaired ⟨trivial, ⟨trivial, trivial⟩, ⟨trivial, trivial⟩, ⟨trivial, trivial, trivial, trivial⟩,
    ⟨trivial, trivial, trivial⟩, ⟨trivial, trivial⟩, ⟨halone, trivial⟩, trivial⟩⟩

/-- Moved into two ids, a source leaves both on its address. -/
example : ¬ (Runs.run Probes.step {} [.start, .id 1, .result 1, .move 2 1, .move 3 1]).Paired
    (Moved [.start, .id 1, .result 1, .move 2 1, .move 3 1]) := by
  intro h
  have hpair := h 2 3 1 (by decide) (by decide)
  simp [Moved] at hpair

/-- **A move and a reassignment free a pinned address.** A precomputed polynomial
is moved into another id, which is then abandoned: the address goes to the pool
with the precomputed polynomial still on it. -/
theorem moved_address_recycled :
    ¬ (Runs.run Probes.step {} [.start, .precompute 1, .id 2, .move 2 1,
      .reassign_id 2 3]).HandsOutFree
      (Moved [.start, .precompute 1, .id 2, .move 2 1, .reassign_id 2 3]) := by
  intro h
  exact h.pinned 1 (by decide) 1 (by decide) (by decide)

end Fhetch
