/-
The accumulation `openfhe_cprobe_multacceq` (`src/probes.cpp`).

The product needs an address of its own, which is borrowed from the pool of recycled
addresses. No id is on such an address, so it is neither the destination's nor the
multiplicand's, and nobody misses what was there. The accumulator is another matter:
in place, it is read from the address that the destination was copied from, and that
address may be a recycled one, even the one that is borrowed; or it may have been
written since the copy.

Behind this are two facts about links, as long as no id is moved. Only an address that
an id is on has a link, since recycling an address drops the link it has; and a link
leads to an address that was handed out at some time.
-/
import Fhetch.ProbeMeaning

set_option autoImplicit false

namespace Fhetch

open AddressAllocator (Request)

/-! ## Requests without moves -/

namespace AddressAllocator

variable {s s' : AddressAllocator}

/-- An address can be found for a request. -/
def Finds (s : AddressAllocator) : Request → Prop
  | .map id => s.Mappable id
  | .share _ src_id => s.Mappable src_id
  | .scratch => s.compact_free_pool ≠ [] ∨ s.Room
  | _ => True

/-- Nobody is moved: an address is one id's. -/
def Unshared (s : AddressAllocator) : Prop :=
  ∀ id id' addr, s.address_map id = some addr → s.address_map id' = some addr → id = id'

theorem Owned.unshared (h : s.Owned fun _ _ => False) : s.Unshared := by
  obtain ⟨owner, howner⟩ := h
  have howns : ∀ id addr, s.address_map id = some addr → owner addr = id := by
    intro id addr hid
    rcases (howner id addr hid).cases_head with heq | ⟨_, hmoved, _⟩
    · exact heq
    · exact hmoved.elim
  intro id id' addr hid hid'
  rw [← howns id addr hid, howns id' addr hid']

/-- What is recycled then is free, so that an address to hand out is all there is to find. -/
theorem Finds.allowed (hs : s.Unshared) {request : Request} (h : s.Finds request) : s.Allowed request := by
  cases request with
  | release dst_old => exact fun addr hrec id hid => hs id dst_old addr hid (recycled_mapped hrec)
  | map | share | scratch => exact h
  | pin | construct | retain | reserve => trivial

/-- The ids keep their addresses, and the counter goes up. -/
structure Kept (s s' : AddressAllocator) : Prop where
  map : ∀ id addr, s.address_map id = some addr → s'.address_map id = some addr
  counter : s.next_fhetch_addr ≤ s'.next_fhetch_addr

theorem Kept.trans {s'' : AddressAllocator} (h : s.Kept s') (h' : s'.Kept s'') : s.Kept s'' :=
  ⟨fun id addr hid => h'.map id addr (h.map id addr hid), h.counter.trans h'.counter⟩

theorem Sound.kept_map_address (h : s.Sound) {id : ℕ} (hid : s.Mappable id) :
    s.Kept (s.map_address id).2 := by
  by_cases hnone : s.address_map id = none
  · have ho := h.take (hid.resolve_left (by rw [hnone]; exact Bool.false_ne_true))
    rw [map_address_of_none hnone]
    refine ⟨fun id' addr hid' => ?_, ho.counter⟩
    have hne : id' ≠ id := by
      rintro rfl
      exact absurd (hnone.symm.trans hid') (by simp)
    rw [assign_address_map, if_neg hne, ho.map]
    exact hid'
  · obtain ⟨addr, haddr⟩ := Option.ne_none_iff_exists'.mp hnone
    rw [map_address_of_some haddr]
    exact ⟨fun _ _ h => h, Nat.le_refl _⟩

/-- The counter stays where it is, unless it gives an address. -/
theorem Sound.scratch_counter (h : s.Sound) (hok : s.Finds .scratch) :
    s.next_fhetch_addr ≤ s.scratch.2.next_fhetch_addr := by
  unfold AddressAllocator.scratch
  rcases hpool : s.compact_free_pool with - | ⟨tmp, pool⟩
  · exact (h.fresh (hok.resolve_left fun hne => hne hpool)).counter
  · exact Nat.le_refl _

/-- **Every request but a move and a recycling keeps addresses.** -/
theorem Sound.kept_step (h : s.Sound) {request : Request} (hok : s.Finds request)
    (hshare : ∀ dst src, request ≠ .share dst src) (hrelease : ∀ dst_old, request ≠ .release dst_old) :
    s.Kept (s.step request) := by
  cases request with
  | map id => exact h.kept_map_address hok
  | share dst src => exact absurd rfl (hshare dst src)
  | release dst_old => exact absurd rfl (hrelease dst_old)
  | scratch => exact ⟨fun id addr hid => by rwa [← scratch_address_map s] at hid, h.scratch_counter hok⟩
  | reserve next_addr => exact ⟨fun _ _ h => h, le_max_right _ _⟩
  | pin | construct | retain => exact ⟨fun _ _ h => h, Nat.le_refl _⟩

/-- The address that is borrowed is nobody's. It comes from the top of the pool, or is
above those that there have been. -/
theorem Sound.scratch_unused (h : s.Sound) (hok : s.Finds .scratch) :
    (∀ id, s.address_map id ≠ some s.scratch.1) ∧ s.scratch.1 < s.scratch.2.next_fhetch_addr ∧
      ∀ addr < s.next_fhetch_addr, addr = s.scratch.1 ↔ s.compact_free_pool.head? = some addr := by
  unfold AddressAllocator.scratch
  rcases hpool : s.compact_free_pool with - | ⟨tmp, pool⟩
  · have ho := h.fresh (hok.resolve_left fun hne => hne hpool)
    refine ⟨ho.unused, ho.below, fun addr haddr => ⟨?_, fun hhead => absurd hhead (by simp)⟩⟩
    rintro rfl
    exact absurd haddr (Nat.lt_irrefl _)
  · have hmem : tmp ∈ s.compact_free_pool := hpool ▸ List.mem_cons_self
    refine ⟨fun id hid => h.unused id tmp hid hmem, (h.pooled tmp hmem).2, fun addr _ => ?_⟩
    rw [List.head?_cons, Option.some.injEq]
    exact eq_comm

end AddressAllocator

/-! ## Calls without moves -/

/-- An address can be found for each polynomial that a call mentions. -/
def Probes.FindsAddresses (p : Probes) (call : ProbeCall) : Prop :=
  Runs.Along AddressAllocator.step AddressAllocator.Finds p.toAddressAllocator (call.requests p)

/-- A call that has one id take over the address of another. -/
def ProbeCall.Moves : ProbeCall → Prop
  | .move _ _ => True
  | _ => False

/-- A link leads from an address that an id is on to one that has been handed out. -/
structure Probes.Linked (p : Probes) : Prop where
  sound : p.toAddressAllocator.Sound
  owned : p.toAddressAllocator.Owned fun _ _ => False
  consistent : p.writer.Consistent
  linked : ∀ addr parent, p.data_parent addr = some parent → ∃ id, p.address_map id = some addr
  below : ∀ addr parent, p.data_parent addr = some parent → parent < p.next_fhetch_addr

theorem ProbeCall.release_of_request {p : Probes} {call : ProbeCall} {dst_old : ℕ}
    (h : Request.release dst_old ∈ call.requests p) : ∃ src, call = .reassign_id dst_old src := by
  cases call <;> simp [ProbeCall.requests] at h
  exact ⟨_, by rw [h]⟩

section Allocator

variable {p : Probes} {call : ProbeCall}

/-- The requests of a call that moves nothing keep what makes recycling safe. -/
theorem Probes.Linked.step_allocator (h : p.Linked) (hmove : ¬ call.Moves) (hfinds : p.FindsAddresses call) :
    (p.step call).toAddressAllocator.Sound ∧ (p.step call).toAddressAllocator.Owned fun _ _ => False := by
  have hrun : ∀ (s : AddressAllocator) (request : Request),
      (s.Finds request ∧ request ∈ call.requests p) → (s.Sound ∧ s.Owned fun _ _ => False) →
        ((s.step request).Sound ∧ (s.step request).Owned fun _ _ => False) := by
    rintro s request ⟨hfound, hmem⟩ ⟨hsound, howned⟩
    have hallowed := hfound.allowed howned.unshared
    refine ⟨hsound.step hallowed, howned.step hsound hallowed ?_⟩
    rintro dst src rfl
    rw [ProbeCall.move_of_request hmem] at hmove
    exact hmove trivial
  rw [p.step_allocator call]
  exact Runs.run_invariant hrun ⟨h.sound, h.owned⟩ (Runs.Along.with_mem hfinds)

/-- A call that recycles nothing either keeps all addresses. -/
theorem Probes.Linked.step_kept (h : p.Linked) (hmove : ¬ call.Moves) (hfinds : p.FindsAddresses call)
    (hrecycle : ∀ dst_old src, call ≠ .reassign_id dst_old src) :
    p.toAddressAllocator.Kept (p.step call).toAddressAllocator := by
  have hrun : ∀ (s : AddressAllocator) (request : Request),
      (s.Finds request ∧ request ∈ call.requests p) →
        ((s.Sound ∧ s.Owned fun _ _ => False) ∧ p.toAddressAllocator.Kept s) →
          (((s.step request).Sound ∧ (s.step request).Owned fun _ _ => False) ∧
            p.toAddressAllocator.Kept (s.step request)) := by
    rintro s request ⟨hfound, hmem⟩ ⟨⟨hsound, howned⟩, hkept⟩
    -- a call that neither moves nor recycles requests addresses only
    have hallowed := hfound.allowed howned.unshared
    have hshare : ∀ dst src, request ≠ .share dst src := by
      rintro dst src rfl
      rw [ProbeCall.move_of_request hmem] at hmove
      exact hmove trivial
    have hrelease : ∀ dst_old, request ≠ .release dst_old := by
      rintro dst_old rfl
      obtain ⟨src, hcall⟩ := ProbeCall.release_of_request hmem
      exact hrecycle dst_old src hcall
    refine ⟨⟨hsound.step hallowed, howned.step hsound hallowed fun dst src heq => hshare dst src heq⟩, ?_⟩
    exact hkept.trans (hsound.kept_step hfound hshare hrelease)
  rw [p.step_allocator call]
  exact (Runs.run_invariant hrun ⟨⟨h.sound, h.owned⟩, fun _ _ h => h, Nat.le_refl _⟩
    (Runs.Along.with_mem hfinds)).2

end Allocator

/-! ### The writer -/

section Writer

variable {p : Probes}

/-- The table stays one through every call. -/
theorem Probes.step_consistent (h : p.writer.Consistent) (call : ProbeCall) :
    (p.step call).writer.Consistent := by
  have hmention : ∀ id, (p.mention id).writer.Consistent := by
    intro id
    unfold Probes.mention
    split
    · exact h
    · exact h
  have hsampled : ∀ id, (p.sampled id).writer.Consistent := by
    intro id
    unfold Probes.sampled Probes.mention
    split
    · exact h
    · exact h
  have harithmetic : ∀ op dst src1 src2 q, (p.arithmetic op dst src1 src2 q).writer.Consistent := by
    intro op dst src1 src2 q
    unfold Probes.arithmetic
    split
    · exact h.emit_mod _ _
    · exact h
  have hinplace : ∀ dst src (emit : ℕ → ℕ → TraceWriter → TraceWriter),
      (∀ d a, (emit d a p.writer).Consistent) → (p.inplace dst src emit).writer.Consistent := by
    intro dst src emit hemit
    unfold Probes.inplace
    split
    · exact hemit _ _
    · exact h
  -- the writer is reached through its own operations
  cases call with
  | id | precompute | pin_openfhe_id | ensure_fhetch_address | reserve_fhetch_addresses
  | suppress_probes | set_serialization_thread => exact h
  | address | result | max | input | output | key => exact hmention _
  | discrete_gaussian | discrete_uniform | binary_uniform | ternary_uniform => exact hsampled _
  | add | sub | mul => exact harithmetic _ _ _ _ _
  | addi | subi | muli | ntt | intt | automorphism => exact hinplace _ _ _ fun _ _ => h.emit_mod _ _
  | start =>
    show p.start.writer.Consistent
    unfold Probes.start
    split
    · exact h
    · exact (TraceWriter.consistent_clear p.writer).flags true false
  | stop =>
    show p.stop.writer.Consistent
    unfold Probes.stop
    split
    · exact TraceWriter.normalize_consistent ((h.emit _).flags false false)
    · exact h
  | pause_recording =>
    show p.openfhe_cprobe_pause_recording.writer.Consistent
    unfold Probes.openfhe_cprobe_pause_recording
    split
    · exact h.flags p.writer.recording_ true
    · exact h
  | resume_recording =>
    show p.openfhe_cprobe_resume_recording.writer.Consistent
    unfold Probes.openfhe_cprobe_resume_recording
    split
    · exact h.flags p.writer.recording_ false
    · exact h
  | annotate text =>
    show (p.openfhe_cprobe_annotate text).writer.Consistent
    unfold Probes.openfhe_cprobe_annotate
    split
    · exact h.comment text
    · exact h
  | zero poly_id q =>
    show (p.openfhe_cprobe_zero poly_id q).writer.Consistent
    unfold Probes.openfhe_cprobe_zero
    split
    · show TraceWriter.Consistent (if q ≠ 0 then _ else _)
      split
      · exact h.emit_mod _ _
      · exact h.emit _
    · exact h
  | copy dst src =>
    show (p.openfhe_cprobe_copy dst src).writer.Consistent
    unfold Probes.openfhe_cprobe_copy
    split
    · exact h.emit _
    · exact h
  | move dst src =>
    show (p.openfhe_cprobe_move dst src).writer.Consistent
    unfold Probes.openfhe_cprobe_move
    split
    · exact h
    · exact h
  | reassign_id dst_old src =>
    show (p.openfhe_cprobe_reassign_id dst_old src).writer.Consistent
    unfold Probes.openfhe_cprobe_reassign_id
    dsimp only
    split
    · exact h
    · exact h
  | multacceq dst src_acc src_mul imm q =>
    show (p.openfhe_cprobe_multacceq dst src_acc src_mul imm q).writer.Consistent
    unfold Probes.openfhe_cprobe_multacceq
    split
    · exact (h.emit_mod _ _).emit_mod _ _
    · exact h
  | switchmodulus dst src old new =>
    show (p.openfhe_cprobe_switchmodulus dst src old new).writer.Consistent
    unfold Probes.openfhe_cprobe_switchmodulus
    split
    · exact ((((h.comment _).emit_mod _ _).emit_mod _ _).emit_mod _ _).emit_mod _ _
    · exact h

end Writer

/-! ### The links -/

section Links

variable {p : Probes} {call : ProbeCall}

/-- Dropping a link leaves no new one. -/
theorem unlink_some {links : ℕ → Option ℕ} {addr addr' parent : ℕ}
    (h : Function.update links addr none addr' = some parent) : addr' ≠ addr ∧ links addr' = some parent := by
  rw [Function.update_apply] at h
  split at h
  · exact absurd h (by simp)
  · exact ⟨‹_›, h⟩

/-- **Only a copy makes a link.** -/
theorem Probes.step_links (p : Probes) {call : ProbeCall} (hcopy : ∀ dst src, call ≠ .copy dst src)
    {addr parent : ℕ} (h : (p.step call).data_parent addr = some parent) : p.data_parent addr = some parent := by
  have hmention : ∀ id, (p.mention id).data_parent = p.data_parent := by
    intro id
    unfold Probes.mention
    split
    · rfl
    · rfl
  have harithmetic : ∀ op dst src1 src2 q, (p.arithmetic op dst src1 src2 q).data_parent addr = some parent →
      p.data_parent addr = some parent := by
    intro op dst src1 src2 q h
    unfold Probes.arithmetic at h
    split at h
    · exact (unlink_some h).2
    · exact h
  have hinplace : ∀ dst src emit, (p.inplace dst src emit).data_parent addr = some parent →
      p.data_parent addr = some parent := by
    intro dst src emit h
    unfold Probes.inplace at h
    split at h
    · exact (unlink_some h).2
    · exact h
  cases call with
  | id | precompute | pin_openfhe_id | ensure_fhetch_address | reserve_fhetch_addresses
  | suppress_probes | set_serialization_thread => exact h
  | address id | result id | max id | input id | output id | key id => exact hmention id ▸ h
  | discrete_gaussian id | discrete_uniform id | binary_uniform id | ternary_uniform id =>
    have hsampled : (p.sampled id).data_parent = p.data_parent := by
      unfold Probes.sampled Probes.mention
      split
      · rfl
      · rfl
    exact hsampled ▸ h
  | add | sub | mul => exact harithmetic _ _ _ _ _ h
  | addi | subi | muli | ntt | intt | automorphism => exact hinplace _ _ _ h
  | start | stop | pause_recording | resume_recording | annotate =>
    -- the writer and the flags change, and no link
    simp only [Probes.step, Probes.start, Probes.stop, Probes.openfhe_cprobe_pause_recording,
      Probes.openfhe_cprobe_resume_recording, Probes.openfhe_cprobe_annotate] at h
    split at h
    · exact h
    · exact h
  | copy dst src => exact absurd rfl (hcopy dst src)
  | zero poly_id q =>
    simp only [Probes.step, Probes.openfhe_cprobe_zero] at h
    split at h
    · exact (unlink_some h).2
    · exact h
  | move dst src =>
    simp only [Probes.step, Probes.openfhe_cprobe_move] at h
    split at h
    · exact h
    · exact h
  | reassign_id dst_old src =>
    simp only [Probes.step, Probes.openfhe_cprobe_reassign_id] at h
    split at h
    · exact (unlink_some h).2
    · exact h
  | multacceq dst src_acc src_mul imm q =>
    simp only [Probes.step, Probes.openfhe_cprobe_multacceq] at h
    split at h
    · exact (unlink_some h).2
    · exact h
  | switchmodulus dst src old new =>
    simp only [Probes.step, Probes.openfhe_cprobe_switchmodulus] at h
    split at h
    · exact (unlink_some h).2
    · exact h

/-- A copy: its link leads from the address of one id to that of another. -/
theorem Probes.Linked.copy (h : p.Linked) {dst src : ℕ} (hfinds : p.FindsAddresses (.copy dst src)) :
    (p.openfhe_cprobe_copy dst src).Linked := by
  have hmove : ¬ (ProbeCall.copy dst src).Moves := fun h => h
  obtain ⟨hsound, howned⟩ := h.step_allocator hmove hfinds
  have hkept : p.toAddressAllocator.Kept (p.openfhe_cprobe_copy dst src).toAddressAllocator :=
    h.step_kept hmove hfinds (fun _ _ => by simp)
  have hconsistent := Probes.step_consistent h.consistent (.copy dst src)
  by_cases hrecord : p.should_record = true
  · unfold Probes.FindsAddresses at hfinds
    rw [ProbeCall.requests, if_pos hrecord] at hfinds
    obtain ⟨hsrc, hdst, -⟩ := hfinds
    obtain ⟨hsound₁, hsa⟩ := h.sound.map_address hsrc
    have hlinks : (p.openfhe_cprobe_copy dst src).data_parent = Function.update p.data_parent
        ((p.map_address src).2.map_address dst).1 (some (p.map_address src).1) := by
      rw [Probes.openfhe_cprobe_copy, if_pos hrecord]
      rfl
    have hmap : (p.openfhe_cprobe_copy dst src).toAddressAllocator =
        ((p.map_address src).2.map_address dst).2.toAddressAllocator := by
      rw [Probes.openfhe_cprobe_copy, if_pos hrecord]
      rfl
    have hda : (p.openfhe_cprobe_copy dst src).address_map dst =
        some ((p.map_address src).2.map_address dst).1 := by
      rw [hmap]
      exact (hsound₁.map_address hdst).2
    have hsa' : (p.openfhe_cprobe_copy dst src).address_map src = some (p.map_address src).1 := by
      rw [hmap]
      exact (hsound₁.kept_map_address hdst).map src _ hsa
    -- the new link starts at a mapped address and leads below the counter
    refine ⟨hsound, howned, hconsistent, fun addr parent hlink => ?_, fun addr parent hlink => ?_⟩
    · change (p.openfhe_cprobe_copy dst src).data_parent addr = some parent at hlink
      rw [hlinks, Function.update_apply] at hlink
      by_cases haddr : addr = ((p.map_address src).2.map_address dst).1
      · exact ⟨dst, by rw [haddr]; exact hda⟩
      · rw [if_neg haddr] at hlink
        obtain ⟨id, hid⟩ := h.linked addr parent hlink
        exact ⟨id, hkept.map id addr hid⟩
    · change (p.openfhe_cprobe_copy dst src).data_parent addr = some parent at hlink
      rw [hlinks, Function.update_apply] at hlink
      by_cases haddr : addr = ((p.map_address src).2.map_address dst).1
      · rw [if_pos haddr] at hlink
        rw [← Option.some.inj hlink]
        exact (hsound.mapped src _ hsa').2
      · rw [if_neg haddr] at hlink
        exact (h.below addr parent hlink).trans_le hkept.counter
  · rw [Probes.openfhe_cprobe_copy, if_neg hrecord]
    exact h

/-- What a reassignment does to the map and the links. -/
theorem Probes.reassign_cases (p : Probes) (dst_old src : ℕ) :
    (p.openfhe_cprobe_reassign_id dst_old src).next_fhetch_addr = p.next_fhetch_addr ∧
      (((p.openfhe_cprobe_reassign_id dst_old src).data_parent = p.data_parent ∧
          (p.openfhe_cprobe_reassign_id dst_old src).address_map = p.address_map) ∨
        ∃ addr, p.address_map dst_old = some addr ∧
          (p.openfhe_cprobe_reassign_id dst_old src).data_parent =
            Function.update p.data_parent addr none ∧
          (p.openfhe_cprobe_reassign_id dst_old src).address_map =
            Function.update p.address_map dst_old none) := by
  obtain ⟨count, heq⟩ := AddressAllocator.release_eq (p.retain src) dst_old
  have halloc := p.reassign_allocator dst_old src
  -- a recycled address loses its mapping and its link together
  rcases hrec : (p.retain src).recycled dst_old with - | addr
  · rw [hrec] at heq
    rw [halloc, heq]
    refine ⟨rfl, .inl ⟨?_, rfl⟩⟩
    unfold Probes.openfhe_cprobe_reassign_id
    dsimp only
    rw [show AddressAllocator.recycled _ dst_old = none from hrec]
  · rw [hrec] at heq
    have hmapped : (p.retain src).address_map dst_old = some addr := AddressAllocator.recycled_mapped hrec
    rw [halloc, heq]
    refine ⟨rfl, .inr ⟨addr, hmapped, ?_, rfl⟩⟩
    unfold Probes.openfhe_cprobe_reassign_id
    dsimp only
    rw [show AddressAllocator.recycled _ dst_old = some addr from hrec]

/-- A reassignment: the link of a recycled address is dropped. -/
theorem Probes.Linked.reassign (h : p.Linked) {dst_old src : ℕ} :
    (p.openfhe_cprobe_reassign_id dst_old src).Linked := by
  have hmove : ¬ (ProbeCall.reassign_id dst_old src).Moves := fun h => h
  obtain ⟨hsound, howned⟩ := h.step_allocator hmove ⟨trivial, trivial, trivial⟩
  obtain ⟨hnext, hcases⟩ := p.reassign_cases dst_old src
  refine ⟨hsound, howned, Probes.step_consistent h.consistent (.reassign_id dst_old src),
    fun addr parent hlink => ?_, fun addr parent hlink => ?_⟩
  · rcases hcases with ⟨hlinks, hmap⟩ | ⟨recycled, hmapped, hlinks, hmap⟩
    · rw [hlinks] at hlink
      rw [hmap]
      exact h.linked addr parent hlink
    · rw [hlinks] at hlink
      obtain ⟨hne, hold⟩ := unlink_some hlink
      obtain ⟨id, hid⟩ := h.linked addr parent hold
      -- the owner of the address is not the id that gave one up
      have hother : id ≠ dst_old := by
        rintro rfl
        exact hne (Option.some.inj (hid.symm.trans hmapped))
      rw [hmap]
      exact ⟨id, (Function.update_of_ne hother _ _).trans hid⟩
  · rw [hnext]
    rcases hcases with ⟨hlinks, -⟩ | ⟨recycled, -, hlinks, -⟩
    · rw [hlinks] at hlink
      exact h.below addr parent hlink
    · rw [hlinks] at hlink
      exact h.below addr parent (unlink_some hlink).2

/-- **One call.** -/
theorem Probes.Linked.step (h : p.Linked) (hmove : ¬ call.Moves) (hfinds : p.FindsAddresses call) :
    (p.step call).Linked := by
  by_cases hcopy : ∃ dst src, call = .copy dst src
  · obtain ⟨dst, src, rfl⟩ := hcopy
    exact h.copy hfinds
  · by_cases hrecycle : ∃ dst_old src, call = .reassign_id dst_old src
    · obtain ⟨dst_old, src, rfl⟩ := hrecycle
      exact h.reassign
    · push Not at hcopy hrecycle
      obtain ⟨hsound, howned⟩ := h.step_allocator hmove hfinds
      have hkept := h.step_kept hmove hfinds hrecycle
      refine ⟨hsound, howned, Probes.step_consistent h.consistent call, ?_, ?_⟩
      · intro addr parent hlink
        obtain ⟨id, hid⟩ := h.linked addr parent (p.step_links hcopy hlink)
        exact ⟨id, hkept.map id addr hid⟩
      · intro addr parent hlink
        exact (h.below addr parent (p.step_links hcopy hlink)).trans_le hkept.counter

end Links

/-- What a call of a run without moves must find. -/
def Probes.Unmoved (p : Probes) (call : ProbeCall) : Prop := ¬ call.Moves ∧ p.FindsAddresses call

/-- **Every run.** -/
theorem linked_run {calls : List ProbeCall} (hcalls : Runs.Along Probes.step Probes.Unmoved {} calls) :
    (Runs.run Probes.step {} calls).Linked := by
  have hstart : Probes.Linked {} := by
    have hinv := probes_inv []
    refine ⟨hinv.sound, ⟨id, fun _ _ h => absurd h (by simp)⟩, (Recording.after_sound []).consistent, ?_, ?_⟩
    · exact fun _ _ h => absurd h (by simp)
    · exact fun _ _ h => absurd h (by simp)
  exact Runs.run_invariant (fun p call hcall h => h.step hcall.1 hcall.2) hstart hcalls

/-! ## The accumulation -/

/-- **What an accumulation records is exact and clobbers nothing**: the borrowed address
is none of those that its instructions name beside it, and running them writes the
accumulated value for the destination and leaves every other id's memory alone. -/
def Probes.Accumulates (M : NativeMath) (p : Probes) (dst src_acc src_mul : ℕ) (immediate q : UInt64)
    (impl : Impl) : Prop :=
  ∃ mul add, (p.openfhe_cprobe_multacceq dst src_acc src_mul immediate q).writer.instructions_ =
      p.writer.instructions_ ++ [mul, add] ∧
    mul.dest ≠ add.dest ∧ mul.dest ≠ add.src1 ∧ mul.dest ≠ mul.src1 ∧
    ∀ i k, ∃ impl', execute_loop M [] [mul, add] i impl k = some (impl', k + 2) ∧
      impl'.error_count = impl.error_count ∧
      ∃ da a sm,
        (p.openfhe_cprobe_multacceq dst src_acc src_mul immediate q).address_map dst = some da ∧
        (p.openfhe_cprobe_multacceq dst src_acc src_mul immediate q).address_map src_acc = some a ∧
        (p.openfhe_cprobe_multacceq dst src_acc src_mul immediate q).address_map src_mul = some sm ∧
        (∀ j < impl.ring_dim, impl'.coefficient j da =
          (impl.coefficient j a + impl.coefficient j sm * immediate.toNat) % q.toNat) ∧
        ∀ id addr, id ≠ dst →
          (p.openfhe_cprobe_multacceq dst src_acc src_mul immediate q).address_map id = some addr →
          impl'.memory addr = impl.memory addr

/-- What an accumulation in place must find behind the link of its address, if there is
one: an address that is not on top of the pool when the product is given its own, and that
holds what the destination's does. -/
def Probes.LinkHolds (p : Probes) (dst src_mul q : ℕ) (impl : Impl) : Prop :=
  ∀ addr parent, p.address_map dst = some addr → p.data_parent addr = some parent →
    (p.map_address src_mul).2.compact_free_pool.head? ≠ some parent ∧
    ∀ j < impl.ring_dim, impl.coefficient j parent ≡ impl.coefficient j addr [MOD q]

section Accumulation

variable {p : Probes} {dst src_acc src_mul : ℕ}

/-- The addresses of an accumulation. -/
structure Probes.Borrows (p p' : Probes) (dst src_acc src_mul da acc a sm tmp : ℕ) : Prop where
  destination : p'.address_map dst = some da
  accumulator : p'.address_map src_acc = some a
  multiplicand : p'.address_map src_mul = some sm
  resolved : acc = if a = da then (p.data_parent da).getD da else a
  /-- The borrowed address. -/
  unused : ∀ id, p'.address_map id ≠ some tmp
  below : tmp < p'.next_fhetch_addr
  mapped : ∀ id addr, p'.address_map id = some addr → addr < p'.next_fhetch_addr
  counter : p.next_fhetch_addr ≤ p'.next_fhetch_addr
  grows : ∀ id addr, p.address_map id = some addr → p'.address_map id = some addr
  unshared : p'.toAddressAllocator.Unshared
  /-- In place, of what was handed out before only the top of the pool is borrowed. -/
  top : (∃ id, p.address_map id = some da) → a = da → ∀ addr < p.next_fhetch_addr,
    addr = tmp ↔ (p.map_address src_mul).2.compact_free_pool.head? = some addr

theorem mulps_form : fh_operand_form .FH_SR_MULPS = .PolyScalar := rfl

theorem addp_form : fh_operand_form .FH_SR_ADDP = .PolyPoly := rfl

/-- The two operations. -/
def accumulationOps (da acc sm tmp : ℕ) (immediate q : UInt64) : List ApiOp :=
  [.ps .FH_SR_MULPS mulps_form tmp sm immediate q, .pp .FH_SR_ADDP addp_form da acc tmp q]

theorem Probes.map_address_of_mapped {id addr : ℕ} (h : p.address_map id = some addr) :
    p.map_address id = (addr, p) := by
  unfold Probes.map_address
  rw [AddressAllocator.map_address_of_some h]

/-- Looking up an id changes nothing if its address was in use. -/
theorem Probes.Linked.map_address_of_used (h : p.Linked) {id id' : ℕ} (hid : p.Mappable id)
    (hused : p.address_map id' = some (p.map_address id).1) : (p.map_address id).2 = p := by
  have hkept := (h.sound.kept_map_address hid).map id' _ hused
  obtain ⟨hsound, hmapped⟩ := h.sound.map_address hid
  have hsame : id' = id := (h.owned.map_address h.sound hid).unshared id' id _ hkept hmapped
  rw [hsame] at hused
  rw [Probes.map_address_of_mapped hused]

/-- **What the call records**, and over which addresses. -/
theorem Probes.Linked.multacceq (h : p.Linked) (hrecord : p.should_record = true) (immediate : UInt64)
    {q : UInt64} (hq : q ≠ 0) (hfinds : p.FindsAddresses (.multacceq dst src_acc src_mul immediate q)) :
    ∃ da acc a sm tmp, p.Borrows (p.openfhe_cprobe_multacceq dst src_acc src_mul immediate q) dst src_acc
        src_mul da acc a sm tmp ∧
      (p.openfhe_cprobe_multacceq dst src_acc src_mul immediate q).writer =
        (accumulationOps da acc sm tmp (immediate % q) q).foldl (fun tw op => op.record tw) p.writer := by
  have hmove : ¬ (ProbeCall.multacceq dst src_acc src_mul immediate q).Moves := fun h => h
  obtain ⟨hsound', howned'⟩ := h.step_allocator hmove hfinds
  have hkept := h.step_kept hmove hfinds (fun _ _ => by simp)
  simp only [Probes.step] at hsound' howned' hkept
  unfold Probes.FindsAddresses at hfinds
  rw [ProbeCall.requests, if_pos hrecord] at hfinds
  obtain ⟨hdst, hacc, hmul, hscratch, -⟩ := hfinds
  -- three lookups and a scratch address, each from a sound allocator
  obtain ⟨hsound₁, hda⟩ := h.sound.map_address hdst
  obtain ⟨hsound₂, ha⟩ := hsound₁.map_address hacc
  obtain ⟨hsound₃, hsm⟩ := hsound₂.map_address hmul
  have hkept₂ := hsound₁.kept_map_address hacc
  have hkept₃ := hsound₂.kept_map_address hmul
  obtain ⟨hunused, hbelow, htop⟩ := hsound₃.scratch_unused hscratch
  have hscratchmap := AddressAllocator.scratch_address_map
    (((p.map_address dst).2.map_address src_acc).2.map_address src_mul).2.toAddressAllocator
  have hstate : (p.openfhe_cprobe_multacceq dst src_acc src_mul immediate q).toAddressAllocator =
      (((p.map_address dst).2.map_address src_acc).2.map_address src_mul).2.toAddressAllocator.scratch.2 := by
    rw [Probes.openfhe_cprobe_multacceq, if_pos hrecord]
    rfl
  refine ⟨(p.map_address dst).1, ((p.map_address dst).2.map_address src_acc).2.resolve_inplace_src
    ((p.map_address dst).2.map_address src_acc).1 (p.map_address dst).1,
    ((p.map_address dst).2.map_address src_acc).1,
    (((p.map_address dst).2.map_address src_acc).2.map_address src_mul).1,
    (((p.map_address dst).2.map_address src_acc).2.map_address src_mul).2.toAddressAllocator.scratch.1,
    ?_, ?_⟩
  · refine ⟨?_, ?_, ?_, ?_, ?_, ?_, fun id addr hid => (hsound'.mapped id addr hid).2, hkept.counter,
      hkept.map, howned'.unshared, ?_⟩
    · rw [hstate, hscratchmap]
      exact hkept₃.map _ _ (hkept₂.map _ _ hda)
    · rw [hstate, hscratchmap]
      exact hkept₃.map _ _ ha
    · rw [hstate, hscratchmap]
      exact hsm
    · unfold Probes.resolve_inplace_src
      by_cases hsame : ((p.map_address dst).2.map_address src_acc).1 = (p.map_address dst).1
      · rw [if_pos hsame, if_pos hsame, hsame]
        rfl
      · rw [if_neg hsame, if_neg hsame]
    · rw [hstate, hscratchmap]
      exact hunused
    · rw [hstate]
      exact hbelow
    · -- both ids are the one that is on the address, so looking them up changed nothing
      rintro ⟨id, hid⟩ hsame addr haddr
      have hp₁ := h.map_address_of_used hdst hid
      have hp₂ : ((p.map_address dst).2.map_address src_acc).2 = p := by
        have hfound : (p.map_address dst).2.Mappable src_acc := hacc
        have hmapped : (p.map_address dst).2.address_map dst = some (p.map_address dst).1 := hda
        rw [hp₁] at hfound hsame hmapped ⊢
        exact h.map_address_of_used hfound (hsame ▸ hmapped)
      have htop₃ : ∀ addr < (((p.map_address dst).2.map_address src_acc).2.map_address src_mul).2.next_fhetch_addr,
          addr = (((p.map_address dst).2.map_address src_acc).2.map_address src_mul).2.scratch.1 ↔
            (((p.map_address dst).2.map_address src_acc).2.map_address src_mul).2.compact_free_pool.head? =
              some addr := htop
      have hcounter₃ : ((p.map_address dst).2.map_address src_acc).2.next_fhetch_addr ≤
          (((p.map_address dst).2.map_address src_acc).2.map_address src_mul).2.next_fhetch_addr :=
        hkept₃.counter
      rw [hp₂] at htop₃ hcounter₃ ⊢
      exact htop₃ addr (haddr.trans_le hcounter₃)
  · rw [Probes.openfhe_cprobe_multacceq, if_pos hrecord]
    dsimp only
    rw [if_pos hq]
    rfl

/-- **The condition, at the addresses.** -/
theorem Probes.Borrows.resolved_iff {p' : Probes} {da acc a sm tmp q : ℕ} {impl : Impl} (h : p.Linked)
    (hb : p.Borrows p' dst src_acc src_mul da acc a sm tmp) :
    (dst = src_acc → p.LinkHolds dst src_mul q impl) ↔
      acc ≠ tmp ∧ ∀ j < impl.ring_dim, impl.coefficient j acc ≡ impl.coefficient j a [MOD q] := by
  have hresolved := hb.resolved
  -- only an accumulation in place follows a link
  by_cases hsame : a = da
  · subst hsame
    have hids : dst = src_acc := hb.unshared dst src_acc a hb.destination hb.accumulator
    rw [if_pos rfl] at hresolved
    rcases hlink : p.data_parent a with - | parent
    · -- no link: the accumulator is read where it is
      rw [hlink, Option.getD_none] at hresolved
      subst hresolved
      refine ⟨fun _ => ⟨?_, fun _ _ => rfl⟩, fun _ _ addr parent haddr hparent => ?_⟩
      · rintro rfl
        exact hb.unused dst hb.destination
      · have heq := Option.some.inj ((hb.grows dst addr haddr).symm.trans hb.destination)
        rw [heq, hlink] at hparent
        exact absurd hparent (by simp)
    · rw [hlink, Option.getD_some] at hresolved
      subst hresolved
      obtain ⟨id, hid⟩ := h.linked a acc hlink
      have hdst : p.address_map dst = some a := by
        rw [hb.unshared dst id a hb.destination (hb.grows id a hid)]
        exact hid
      have htop := hb.top ⟨id, hid⟩ rfl acc (h.below a acc hlink)
      constructor
      · intro hholds
        obtain ⟨hhead, hvalue⟩ := hholds hids a acc hdst hlink
        exact ⟨fun heq => hhead (htop.mp heq), hvalue⟩
      · rintro ⟨hne, hvalue⟩ - addr parent haddr hparent
        obtain rfl := Option.some.inj (hdst.symm.trans haddr)
        obtain rfl := Option.some.inj (hlink.symm.trans hparent)
        exact ⟨fun hhead => hne (htop.mpr hhead), hvalue⟩
  · rw [if_neg hsame] at hresolved
    subst hresolved
    refine ⟨fun _ => ⟨?_, fun _ _ => rfl⟩, fun _ hids => ?_⟩
    · rintro rfl
      exact hb.unused src_acc hb.accumulator
    · subst hids
      exact absurd (Option.some.inj (hb.accumulator.symm.trans hb.destination)) hsame

/-- Running the two operations. -/
theorem replay_accumulation {M : NativeMath} (hM : M.Exact) {impl : Impl} (hsized : impl.Sized)
    {da acc sm tmp : ℕ} {immediate q : UInt64} (hq : q ≠ 0) (hda : da < 2 ^ 32) (hacc : acc < 2 ^ 32)
    (hsm : sm < 2 ^ 32) (htmp : tmp < 2 ^ 32) {mul add : Instruction}
    (hrec : List.Forall₂ (ApiOp.RecordedAs impl.trace.modulus_table)
      (accumulationOps da acc sm tmp immediate q) [mul, add]) (i k : ℕ) :
    ∃ impl', execute_loop M [] [mul, add] i impl k = some (impl', k + 2) ∧
      impl'.error_count = impl.error_count ∧
      (∀ j < impl.ring_dim, impl'.coefficient j da =
        (Function.update (impl.coefficient j) tmp (impl.coefficient j sm * immediate.toNat % q.toNat) acc +
          impl.coefficient j sm * immediate.toNat % q.toNat) % q.toNat) ∧
      ∀ addr, addr ≠ tmp → addr ≠ da → impl'.memory addr = impl.memory addr := by
  obtain ⟨hmul, hrest⟩ := List.forall₂_cons.mp hrec
  obtain ⟨hadd, -⟩ := List.forall₂_cons.mp hrest
  have harith : (ApiOp.ps .FH_SR_MULPS rfl tmp sm immediate q).Arithmetic ∧
      (ApiOp.pp .FH_SR_ADDP rfl da acc tmp q).Arithmetic := ⟨⟨.inr (.inr rfl), hq⟩, ⟨.inl rfl, hq⟩⟩
  have hfits : (ApiOp.ps .FH_SR_MULPS rfl tmp sm immediate q).Fits ∧
      (ApiOp.pp .FH_SR_ADDP rfl da acc tmp q).Fits :=
    ⟨⟨htmp, List.forall_mem_singleton.mpr hsm⟩,
      ⟨hda, List.forall_mem_cons.mpr ⟨hacc, List.forall_mem_singleton.mpr htmp⟩⟩⟩
  have hmultiplied : ∀ m : ℕ → ℕ, (ApiOp.ps .FH_SR_MULPS rfl tmp sm immediate q).value m =
      m sm * immediate.toNat % q.toNat := fun _ => rfl
  have hadded : ∀ m : ℕ → ℕ, (ApiOp.pp .FH_SR_ADDP rfl da acc tmp q).value m =
      (m acc + m tmp) % q.toNat := fun _ => rfl
  -- the product goes to the scratch address, the sum to the destination
  obtain ⟨v, qv, hexec, hlength, hvalue⟩ := (exec_arithmetic hM hsized harith.1 hfits.1 hmul).write
  have hsized₁ := hsized.write hlength tmp qv
  obtain ⟨w, qw, hexec', hlength', hvalue'⟩ := (exec_arithmetic hM hsized₁ harith.2 hfits.2 hadd).write
  refine ⟨(impl.write tmp v qv).write da w qw, ?_, rfl, fun j hj => ?_, fun addr htmp' hda' => ?_⟩
  · rw [execute_loop, hexec, Option.bind_some]
    show execute_loop M [] [add] (i + 1) (impl.write tmp v qv) (k + 1) = _
    rw [execute_loop, hexec', Option.bind_some]
    rfl
  · rw [Impl.coefficient_write, Function.update_self, hvalue' j hj, hadded, Impl.coefficient_write,
      hvalue j hj, hmultiplied]
    exact congrArg (fun x => (_ + x) % _) (Function.update_self _ _ _)
  · exact (Memory.commit_dest_of_ne _ _ _ hda').trans (Memory.commit_dest_of_ne _ _ _ htmp')

end Accumulation

/-- **The accumulation.** In every run that moves no id, an accumulation is exact and
clobbers nothing exactly if it is not in place, or finds no link, or one that still holds. -/
theorem accumulation_iff {M : NativeMath} (hM : M.Exact) {calls : List ProbeCall}
    (hcalls : Runs.Along Probes.step Probes.Unmoved {} calls) (dst src_acc src_mul : ℕ)
    (immediate q : UInt64) (hq : q ≠ 0) (hrecord : (Runs.run Probes.step {} calls).should_record = true)
    (hkeeps : (Runs.run Probes.step {} calls).writer.keeps = true)
    (hfinds : (Runs.run Probes.step {} calls).FindsAddresses
      (.multacceq dst src_acc src_mul immediate q))
    (hfits : ((Runs.run Probes.step {} calls).openfhe_cprobe_multacceq dst src_acc src_mul immediate q).Fits)
    {impl : Impl} (hsized : impl.Sized)
    (htable : ((Runs.run Probes.step {} calls).openfhe_cprobe_multacceq dst src_acc src_mul
      immediate q).writer.modulus_table_ <+: impl.trace.modulus_table) :
    (Runs.run Probes.step {} calls).Accumulates M dst src_acc src_mul immediate q impl ↔
      (dst = src_acc → (Runs.run Probes.step {} calls).LinkHolds dst src_mul q.toNat impl) := by
  have h := linked_run hcalls
  generalize Runs.run Probes.step {} calls = p at *
  obtain ⟨da, acc, a, sm, tmp, hb, hwriter⟩ := h.multacceq hrecord immediate hq hfinds
  rw [hb.resolved_iff h]
  have hlt : ∀ id addr, (p.openfhe_cprobe_multacceq dst src_acc src_mul immediate q).address_map id =
      some addr → addr < 2 ^ 32 := fun id addr hid => (hb.mapped id addr hid).trans_le hfits.1
  have hda := hlt dst da hb.destination
  have hsm := hlt src_mul sm hb.multiplicand
  have htmp : tmp < 2 ^ 32 := hb.below.trans_le hfits.1
  have hacc : acc < 2 ^ 32 := by
    rw [hb.resolved]
    split
    · rcases hlink : p.data_parent da with - | parent
      · exact hda
      · exact (h.below da parent hlink).trans_le (hb.counter.trans hfits.1)
    · exact hlt src_acc a hb.accumulator
  -- what the writer has of the call
  have harith : ∀ op ∈ accumulationOps da acc sm tmp (immediate % q) q, op.Arithmetic :=
    List.forall_mem_cons.mpr ⟨⟨.inr (.inr rfl), hq⟩, List.forall_mem_singleton.mpr ⟨.inl rfl, hq⟩⟩
  obtain ⟨-, -, -, insts, hinsts, hrec⟩ := record_calls harith h.consistent hkeeps
  rw [← hwriter] at hinsts hrec
  have hrecorded := (hrec hfits.2).imp fun _ _ hinst => ApiOp.RecordedAs.grow hinst htable
  obtain ⟨mul, rest, hmul, hrest, rfl⟩ := List.forall₂_cons_left_iff.mp hrecorded
  obtain ⟨add, rest, hadd, hnil, rfl⟩ := List.forall₂_cons_left_iff.mp hrest
  obtain rfl := List.forall₂_nil_left_iff.mp hnil
  have hproduct : ∀ x, x * (immediate % q).toNat % q.toNat = x * immediate.toNat % q.toNat := fun x => by
    rw [UInt64.toNat_mod, Nat.mul_mod_mod]
  have hexec := replay_accumulation hM hsized hq hda hacc hsm htmp hrecorded
  simp only [hproduct] at hexec
  have hmuldest : mul.dest = UInt32.ofNat tmp := by rw [hmul.frame]; rfl
  have hmulsrc : mul.src1 = UInt32.ofNat sm := by rw [hmul.frame]; rfl
  have hadddest : add.dest = UInt32.ofNat da := by rw [hadd.frame]; rfl
  have haddsrc : add.src1 = UInt32.ofNat acc := by rw [hadd.frame]; rfl
  have hnarrow : ∀ x y, x < 2 ^ 32 → y < 2 ^ 32 → UInt32.ofNat x = UInt32.ofNat y → x = y := by
    intro x y hx hy hxy
    rw [← UInt32.toNat_ofNat_of_lt' hx, ← UInt32.toNat_ofNat_of_lt' hy, hxy]
  constructor
  · rintro ⟨mul', add', hinsts', -, hscratch, -, hruns⟩
    obtain ⟨hm, ha⟩ := List.cons.inj (List.append_cancel_left (hinsts.symm.trans hinsts'))
    obtain rfl := hm
    obtain rfl := (List.cons.inj ha).1
    have hne : acc ≠ tmp := by
      rintro rfl
      exact hscratch (hmuldest.trans haddsrc.symm)
    refine ⟨hne, fun j hj => ?_⟩
    obtain ⟨impl', hrun, -, hvalue, -⟩ := hexec 0 0
    obtain ⟨impl'', hrun', -, da', a', sm', hda', ha', hsm', hvalue', -⟩ := hruns 0 0
    obtain rfl := (Prod.mk.inj (Option.some.inj (hrun.symm.trans hrun'))).1
    obtain rfl := Option.some.inj (hb.destination.symm.trans hda')
    obtain rfl := Option.some.inj (hb.accumulator.symm.trans ha')
    obtain rfl := Option.some.inj (hb.multiplicand.symm.trans hsm')
    have hboth := (hvalue j hj).symm.trans (hvalue' j hj)
    rw [Function.update_of_ne hne, Nat.add_mod_mod] at hboth
    exact Nat.ModEq.add_right_cancel' _ hboth
  · rintro ⟨hne, hcongr⟩
    refine ⟨mul, add, hinsts, ?_, ?_, ?_, fun i k => ?_⟩
    · intro heq
      rw [hmuldest, hadddest] at heq
      exact hb.unused dst (hnarrow _ _ htmp hda heq ▸ hb.destination)
    · intro heq
      rw [hmuldest, haddsrc] at heq
      exact hne (hnarrow _ _ htmp hacc heq).symm
    · intro heq
      rw [hmuldest, hmulsrc] at heq
      exact hb.unused src_mul (hnarrow _ _ htmp hsm heq ▸ hb.multiplicand)
    · obtain ⟨impl', hrun, herror, hvalue, hframe⟩ := hexec i k
      refine ⟨impl', hrun, herror, da, a, sm, hb.destination, hb.accumulator, hb.multiplicand,
        fun j hj => ?_, fun id addr hid hmapped => hframe addr ?_ ?_⟩
      · rw [hvalue j hj, Function.update_of_ne hne, Nat.add_mod_mod]
        exact (hcongr j hj).add_right _
      · rintro rfl
        exact hb.unused id hmapped
      · rintro rfl
        exact hid (hb.unshared id dst addr hmapped hb.destination)

/-- Into a clone, of the original. -/
theorem accumulation_iff_clone :
    (Runs.run Probes.step {} [.start, .copy 2 1]).Accumulates referenceMath 2 2 1 5 97 blankImpl := by
  have hcalls : Runs.Along Probes.step Probes.Unmoved {} [.start, .copy 2 1] := by
    refine ⟨⟨id, trivial⟩, ⟨id, ?_, ?_, trivial⟩, trivial⟩
    · exact .inr (.inr (show 1 + 1 < 2 ^ 64 by decide))
    · exact .inr (.inr (show 2 + 1 < 2 ^ 64 by decide))
  refine (accumulation_iff referenceMath_exact hcalls 2 2 1 5 97 (by decide) rfl rfl ?_ ?_ (fun _ => rfl)
    (by decide +kernel)).mpr fun _ addr parent _ hparent => ⟨?_, fun _ _ => rfl⟩
  · exact ⟨.inl rfl, .inl rfl, .inl rfl, .inr (show 3 + 1 < 2 ^ 64 by decide), trivial⟩
  · exact ⟨by decide +kernel, by decide +kernel⟩
  · -- nothing has been recycled
    exact fun hhead => absurd (show none = some parent from hhead) (by simp)

/-- The original is overwritten by an assignment, and its address recycled. -/
def cloneOutlivesOriginal : List ProbeCall := [.start, .id 1, .id 2, .copy 2 1, .reassign_id 1 3]

/-- A simulator of one coefficient, with 1 at every address. -/
def onesImpl : Impl := { blankImpl with memory := fun _ => some ⟨[1], 97, true⟩ }

/-- The product of the clone and 5 is put where the accumulator is read: what is recorded
adds it to itself, and 10 takes the place of 1 + 1 * 5. -/
theorem accumulator_borrowed_as_scratch :
    Runs.Along Probes.step Probes.Unmoved {} cloneOutlivesOriginal ∧
      ¬ (Runs.run Probes.step {} cloneOutlivesOriginal).Accumulates referenceMath 2 2 2 5 97 onesImpl ∧
      (execute_loop referenceMath [] ((Runs.run Probes.step {} cloneOutlivesOriginal).openfhe_cprobe_multacceq
        2 2 2 5 97).writer.instructions_ 0 onesImpl 0).map (fun r => r.1.coefficient 0 2) = some 10 := by
  refine ⟨⟨⟨id, trivial⟩, ⟨id, trivial, trivial⟩, ⟨id, trivial, trivial⟩, ⟨id, ?_, ?_, trivial⟩,
    ⟨id, trivial, trivial, trivial⟩, trivial⟩, ?_, by decide +kernel⟩
  · exact .inr (.inr (show 1 + 1 < 2 ^ 64 by decide))
  · exact .inr (.inr (show 2 + 1 < 2 ^ 64 by decide))
  · rintro ⟨mul, add, hinsts, -, hscratch, -⟩
    have hlist : ((Runs.run Probes.step {} cloneOutlivesOriginal).openfhe_cprobe_multacceq
        2 2 2 5 97).writer.instructions_ = (Runs.run Probes.step {} cloneOutlivesOriginal).writer.instructions_ ++
          [{ ir .FH_SR_MULPS 1 2 with immediate := some 5, modulus := some 1 },
            { ir .FH_SR_ADDP 2 1 with src2 := 1, modulus := some 1 }] := by decide +kernel
    have hboth := List.append_cancel_left (hlist.symm.trans hinsts)
    obtain ⟨rfl, hrest⟩ := List.cons.inj hboth
    obtain ⟨rfl, -⟩ := List.cons.inj hrest
    exact hscratch rfl

end Fhetch
