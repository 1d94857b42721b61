/-
Labels that spread along the edges of a graph until a pass changes nothing.

An open node without a label takes the label of a neighbour that has one. A visit of
an edge tries both directions, a pass visits every edge once, in some order, and
passes are made until one changes nothing. A node that has a label keeps it, so every
pass but the last labels an open node, and there are only so many passes.

Which nodes are labelled in the end does not depend on the order: those to which a
label flows, from a node that had one, through open nodes that had none. Which label
they get depends on the order exactly if two labels flow to one node.
-/
import Mathlib.Data.Finset.Card
import Mathlib.Data.List.Perm.Basic
import Mathlib.Logic.Function.Basic

set_option autoImplicit false

namespace Flooding

/-! ## Passes until nothing changes -/

section Passes

variable {σ τ : Type*}

/-- From pass `k` on, `n` passes lead from one state to another, and the last of them
is the first that changes nothing. A pass may have no outcome. -/
inductive Passes (pass : ℕ → σ → Option (σ × Bool)) : ℕ → σ → ℕ → σ → Prop
  | last {k : ℕ} {s s' : σ} (h : pass k s = some (s', false)) : Passes pass k s 1 s'
  | more {k n : ℕ} {s s₁ s' : σ} (h : pass k s = some (s₁, true)) (hrest : Passes pass (k + 1) s₁ n s') :
    Passes pass k s (n + 1) s'

/-- There is at most one outcome. -/
theorem Passes.unique {pass : ℕ → σ → Option (σ × Bool)} {k n n' : ℕ} {s s' s'' : σ}
    (h : Passes pass k s n s') (h' : Passes pass k s n' s'') : n = n' ∧ s' = s'' := by
  -- a pass gives one result, so both runs stop after it or both go on from it
  induction h generalizing n' with
  | last hpass =>
    cases h' with
    | last hpass' =>
      rw [hpass] at hpass'
      exact ⟨rfl, (Prod.mk.inj (Option.some.inj hpass')).1⟩
    | more hpass' _ =>
      rw [hpass] at hpass'
      exact absurd (Prod.mk.inj (Option.some.inj hpass')).2 (by decide)
  | more hpass _ ih =>
    cases h' with
    | last hpass' =>
      rw [hpass] at hpass'
      exact absurd (Prod.mk.inj (Option.some.inj hpass')).2 (by decide)
    | more hpass' hrest' =>
      rw [hpass] at hpass'
      obtain rfl := (Prod.mk.inj (Option.some.inj hpass')).1
      obtain ⟨rfl, rfl⟩ := ih hrest'
      exact ⟨rfl, rfl⟩

/-- What every pass keeps holds in the end. -/
theorem Passes.invariant {pass : ℕ → σ → Option (σ × Bool)} {Inv : σ → Prop}
    (hpass : ∀ k s s' changed, Inv s → pass k s = some (s', changed) → Inv s') {k n : ℕ} {s s' : σ}
    (h : Passes pass k s n s') (hs : Inv s) : Inv s' := by
  induction h with
  | last h => exact hpass _ _ _ _ hs h
  | more h _ ih => exact ih (hpass _ _ _ _ hs h)

/-- **A refinement** that each pass respects, under an invariant, is respected by the
passes. -/
theorem Passes.map {pass : ℕ → σ → Option (σ × Bool)} {pass' : ℕ → τ → Option (τ × Bool)}
    {embed : σ → τ} {Inv : σ → Prop}
    (hpass : ∀ k s s' changed, Inv s → pass k s = some (s', changed) →
      Inv s' ∧ pass' k (embed s) = some (embed s', changed)) {k n : ℕ} {s s' : σ}
    (h : Passes pass k s n s') (hs : Inv s) : Passes pass' k (embed s) n (embed s') := by
  induction h with
  | last h => exact .last (hpass _ _ _ _ hs h).2
  | more h _ ih =>
    obtain ⟨hs₁, h'⟩ := hpass _ _ _ _ hs h
    exact .more h' (ih hs₁)

end Passes

/-! ## Labels -/

variable {α β : Type*} [DecidableEq α] (opened : α → Prop) [DecidablePred opened]

abbrev Labels (α β : Type*) := α → Option β

/-- `dst` takes the label of `src`. The flag says whether anything has changed. -/
def take (st : Labels α β × Bool) (dst src : α) : Labels α β × Bool :=
  if opened dst ∧ (st.1 dst).isNone ∧ (st.1 src).isSome then
    (Function.update st.1 dst (st.1 src), true)
  else st

/-- The second node of an edge is tried first. -/
def visit (st : Labels α β × Bool) (e : α × α) : Labels α β × Bool :=
  take opened (take opened st e.1 e.2) e.2 e.1

def pass (f : Labels α β) (edges : List (α × α)) : Labels α β × Bool :=
  edges.foldl (visit opened) (f, false)

/-- The nodes that an edge joins. -/
def Joins (e : α × α) (a c : α) : Prop := e = (a, c) ∨ e = (c, a)

/-- A label flows to a node: it is the node's own, or comes over an edge and the node is
open and has none. -/
inductive Flows (f : Labels α β) (edges : List (α × α)) : α → β → Prop
  | source {a : α} {b : β} (h : f a = some b) : Flows f edges a b
  | along {a c : α} {b : β} {e : α × α} (ha : Flows f edges a b) (he : e ∈ edges)
    (hjoins : Joins e a c) (hopen : opened c) (hnone : f c = none) : Flows f edges c b

/-- At most one label flows to each node. -/
def Consistent (f : Labels α β) (edges : List (α × α)) : Prop :=
  ∀ a b b', Flows opened f edges a b → Flows opened f edges a b' → b = b'

/-- What labels become: those that are there stay, and new ones have flown there. -/
structure Grown (f : Labels α β) (edges : List (α × α)) (g : Labels α β) : Prop where
  kept : ∀ a b, f a = some b → g a = some b
  flows : ∀ a b, g a = some b → Flows opened f edges a b

/-! ### One step -/

theorem take_cases (st : Labels α β × Bool) (dst src : α) :
    (take opened st dst src = st ∧ (opened dst → st.1 dst = none → st.1 src = none)) ∨
      (opened dst ∧ st.1 dst = none ∧ ∃ b, st.1 src = some b ∧
        take opened st dst src = (Function.update st.1 dst (some b), true)) := by
  by_cases h : opened dst ∧ (st.1 dst).isNone ∧ (st.1 src).isSome
  · right
    obtain ⟨b, hb⟩ := Option.isSome_iff_exists.mp h.2.2
    refine ⟨h.1, Option.isNone_iff_eq_none.mp h.2.1, b, hb, ?_⟩
    rw [take, if_pos h, hb]
  · left
    refine ⟨if_neg h, fun hopen hnone => ?_⟩
    by_contra hsome
    exact h ⟨hopen, Option.isNone_iff_eq_none.mpr hnone, Option.isSome_iff_ne_none.mpr hsome⟩

variable {opened} {f g : Labels α β} {edges es : List (α × α)} {st : Labels α β × Bool}

theorem take_of_some {dst src : α} {b : β} (h : st.1 dst = some b) : take opened st dst src = st := by
  refine if_neg fun hcond => ?_
  rw [h] at hcond
  exact absurd hcond.2.1 (by simp)

omit [DecidableEq α] [DecidablePred opened] in
theorem Grown.refl : Grown opened f edges f := ⟨fun _ _ h => h, fun _ _ h => .source h⟩

theorem Grown.take (h : Grown opened f edges st.1) {e : α × α} (he : e ∈ edges) {dst src : α}
    (hjoins : Joins e src dst) : Grown opened f edges (take opened st dst src).1 := by
  rcases take_cases opened st dst src with ⟨hsame, -⟩ | ⟨hopen, hnone, b, hb, htake⟩
  · rwa [hsame]
  · rw [htake]
    -- labels are only added: what is open now was open at the start
    have hfree : f dst = none := by
      rcases hf : f dst with - | b'
      · rfl
      · exact absurd (hnone.symm.trans (h.kept dst b' hf)) (by simp)
    refine ⟨fun a b' ha => ?_, fun a b' ha => ?_⟩
    · have hne : a ≠ dst := by
        rintro rfl
        exact absurd (hfree.symm.trans ha) (by simp)
      exact (Function.update_of_ne hne _ _).trans (h.kept a b' ha)
    · dsimp only at ha
      by_cases heq : a = dst
      · subst heq
        rw [Function.update_self] at ha
        obtain rfl := Option.some.inj ha
        exact .along (h.flows src b hb) he hjoins hopen hfree
      · rw [Function.update_of_ne heq] at ha
        exact h.flows a b' ha

theorem Grown.visits : ∀ {st : Labels α β × Bool}, Grown opened f edges st.1 → (∀ e ∈ es, e ∈ edges) →
    Grown opened f edges (es.foldl (visit opened) st).1 := by
  induction es with
  | nil => exact fun h _ => h
  | cons e es ih =>
    intro st h hes
    have he := hes e List.mem_cons_self
    exact ih ((h.take he (.inr rfl)).take he (.inl rfl)) fun e' he' => hes e' (List.mem_cons_of_mem e he')

/-! ### Progress -/

/-- The open nodes without a label, among those of a finite set. -/
def pending (nodes : Finset α) (g : Labels α β) : ℕ := (nodes.filter fun a => (g a).isNone).card

/-- Either nothing has changed, or the flag is up and fewer open nodes are without a label. -/
def Progress (nodes : Finset α) (st st' : Labels α β × Bool) : Prop :=
  st' = st ∨ st'.2 = true ∧ pending nodes st'.1 < pending nodes st.1

omit [DecidableEq α] in
theorem Progress.trans {nodes : Finset α} {st st' st'' : Labels α β × Bool}
    (h : Progress nodes st st') (h' : Progress nodes st' st'') : Progress nodes st st'' := by
  rcases h with rfl | ⟨hflag, hlt⟩
  · exact h'
  · rcases h' with rfl | ⟨hflag', hlt'⟩
    · exact .inr ⟨hflag, hlt⟩
    · exact .inr ⟨hflag', hlt'.trans hlt⟩

variable {nodes : Finset α}

theorem progress_take (hnodes : ∀ a, opened a → a ∈ nodes) (dst src : α) :
    Progress nodes st (take opened st dst src) := by
  rcases take_cases opened st dst src with ⟨hsame, -⟩ | ⟨hopen, hnone, b, -, htake⟩
  · exact .inl hsame
  · right
    rw [htake]
    refine ⟨rfl, Finset.card_lt_card (Finset.ssubset_iff_of_subset ?_ |>.mpr ⟨dst, ?_, ?_⟩)⟩
    · intro a ha
      obtain ⟨hmem, hfree⟩ := Finset.mem_filter.mp ha
      refine Finset.mem_filter.mpr ⟨hmem, ?_⟩
      by_cases heq : a = dst
      · rw [heq, hnone]
        rfl
      · dsimp only at hfree
        rwa [Function.update_of_ne heq] at hfree
    · exact Finset.mem_filter.mpr ⟨hnodes dst hopen, by rw [hnone]; rfl⟩
    · simp

theorem progress_visits (hnodes : ∀ a, opened a → a ∈ nodes) :
    ∀ st : Labels α β × Bool, Progress nodes st (es.foldl (visit opened) st) := by
  induction es with
  | nil => exact fun _ => .inl rfl
  | cons e es ih =>
    intro st
    exact ((progress_take hnodes e.1 e.2).trans (progress_take hnodes e.2 e.1)).trans (ih _)

/-- Between its ends nothing can flow. -/
def Settled (opened : α → Prop) (g : Labels α β) (e : α × α) : Prop :=
  ∀ a c, Joins e a c → opened c → g c = none → g a = none

/-- A visit that leaves the flag down finds its edge settled. -/
theorem visit_flag {e : α × α} (h : (visit opened st e).2 = false) :
    visit opened st e = st ∧ Settled opened st.1 e := by
  -- a flag that is still down means that neither direction took a label
  rcases take_cases opened st e.1 e.2 with ⟨hsame, hforward⟩ | ⟨-, -, b, -, htake⟩
  · have hvisit : visit opened st e = take opened st e.2 e.1 := by rw [visit, hsame]
    rcases take_cases opened st e.2 e.1 with ⟨hsame', hreverse⟩ | ⟨-, -, b, -, htake⟩
    · refine ⟨hvisit.trans hsame', ?_⟩
      rintro a c (rfl | rfl)
      · exact hreverse
      · exact hforward
    · rw [hvisit, htake] at h
      exact absurd h (by simp)
  · exfalso
    rw [visit, htake] at h
    rcases take_cases opened (Function.update st.1 e.1 (some b), true) e.2 e.1 with
      ⟨hsame, -⟩ | ⟨-, -, b', -, htake'⟩
    · rw [hsame] at h
      exact absurd h (by simp)
    · rw [htake'] at h
      exact absurd h (by simp)

theorem visits_flag : ∀ {st : Labels α β × Bool}, (es.foldl (visit opened) st).2 = false →
    es.foldl (visit opened) st = st ∧ ∀ e ∈ es, Settled opened st.1 e := by
  induction es with
  | nil => exact fun _ => ⟨rfl, List.forall_mem_nil _⟩
  | cons e es ih =>
    intro st h
    obtain ⟨hrest, hsettled⟩ := ih h
    have hvisit : (visit opened st e).2 = false := by
      rw [← hrest]
      exact h
    obtain ⟨hsame, he⟩ := visit_flag hvisit
    rw [hsame] at hrest hsettled
    refine ⟨?_, List.forall_mem_cons.mpr ⟨he, hsettled⟩⟩
    rw [List.foldl_cons, hsame]
    exact hrest

/-! ## Where passes end -/

/-- The passes over the edges, each in an order of its own. -/
def passes (opened : α → Prop) [DecidablePred opened] (order : ℕ → List (α × α)) (k : ℕ)
    (g : Labels α β) : Option (Labels α β × Bool) := some (pass opened g (order k))

variable {order : ℕ → List (α × α)}

/-- **Passes come to an end**, after at most one more than there are open nodes without a
label. -/
theorem exists_passes (hnodes : ∀ a, opened a → a ∈ nodes) (order : ℕ → List (α × α)) :
    ∀ (k : ℕ) (g : Labels α β), ∃ n g', Passes (passes opened order) k g n g' ∧
      n ≤ pending nodes g + 1 := by
  intro k g
  induction hm : pending nodes g using Nat.strong_induction_on generalizing k g with
  | _ m ih =>
    subst hm
    rcases hpass : pass opened g (order k) with ⟨g₁, flag⟩
    have hprogress : Progress nodes (g, false) ((order k).foldl (visit opened) (g, false)) :=
      progress_visits hnodes (g, false)
    rw [show (order k).foldl (visit opened) (g, false) = (g₁, flag) from hpass] at hprogress
    -- a pass that raised its flag has left fewer nodes pending
    cases flag with
    | false => exact ⟨1, g₁, .last (by rw [passes, hpass]), by omega⟩
    | true =>
      rcases hprogress with hsame | ⟨-, hlt⟩
      · exact absurd (Prod.mk.inj hsame).2 (by decide)
      · obtain ⟨n, g', hrest, hn⟩ := ih (pending nodes g₁) hlt (k + 1) g₁ rfl
        have hn' : pending nodes g₁ < pending nodes g := hlt
        exact ⟨n + 1, g', .more (by rw [passes, hpass]) hrest, by omega⟩

/-- **What passes lead to**: labels have spread, and no edge can spread one further. -/
theorem spread {k n : ℕ} {g' : Labels α β} (hedges : ∀ k e, e ∈ order k ↔ e ∈ edges)
    (h : Passes (passes opened order) k g n g') (hg : Grown opened f edges g) :
    Grown opened f edges g' ∧ ∀ e ∈ edges, Settled opened g' e := by
  have hpass : ∀ k s s' changed, Grown opened f edges s → passes opened order k s = some (s', changed) →
      Grown opened f edges s' := by
    intro k s s' changed hs heq
    have hvisits : Grown opened f edges ((order k).foldl (visit opened) (s, false)).1 :=
      hs.visits fun e he => (hedges k e).mp he
    rwa [show (order k).foldl (visit opened) (s, false) = (s', changed) from Option.some.inj heq]
      at hvisits
  refine ⟨h.invariant hpass hg, ?_⟩
  induction h with
  | last heq =>
    have hfold := Option.some.inj heq
    obtain ⟨hsame, hsettled⟩ := visits_flag (congrArg Prod.snd hfold)
    obtain rfl := (Prod.mk.inj (hfold.symm.trans hsame)).1
    exact fun e he => hsettled e ((hedges _ e).mpr he)
  | more heq _ ih => exact ih (hpass _ _ _ _ hg heq)

omit [DecidableEq α] [DecidablePred opened] in
/-- A node to which a label flows has one when everything is settled. -/
theorem isSome_of_flows (hg : Grown opened f edges g) (hsettled : ∀ e ∈ edges, Settled opened g e)
    {a : α} {b : β} (h : Flows opened f edges a b) : (g a).isSome := by
  induction h with
  | source h => rw [hg.kept _ _ h]; rfl
  | along _ he hjoins hopen _ ih =>
    rw [Option.isSome_iff_ne_none] at ih ⊢
    exact fun hnone => ih (hsettled _ he _ _ hjoins hopen hnone)

omit [DecidableEq α] [DecidablePred opened] in
/-- **Where labels do not compete**, the labels in the end are the ones that flow. -/
theorem label_iff_flows (hconsistent : Consistent opened f edges) (hg : Grown opened f edges g)
    (hsettled : ∀ e ∈ edges, Settled opened g e) (a : α) (b : β) :
    g a = some b ↔ Flows opened f edges a b := by
  refine ⟨hg.flows a b, fun h => ?_⟩
  obtain ⟨b', hb'⟩ := Option.isSome_iff_exists.mp (isSome_of_flows hg hsettled h)
  rw [hb', hconsistent a b b' h (hg.flows a b' hb')]

/-! ## Competing labels -/

/-- A walk from a node, over edges of which none is used twice, through open nodes
without a label. -/
inductive Walk (opened : α → Prop) (f : Labels α β) (edges : List (α × α)) (v : α) :
    α → List (α × α) → Prop
  | nil : Walk opened f edges v v []
  | snoc {a c : α} {e : α × α} {es : List (α × α)} (h : Walk opened f edges v a es) (he : e ∈ edges)
    (hnew : e ∉ es) (hjoins : Joins e a c) (hopen : opened c) (hnone : f c = none) :
    Walk opened f edges v c (es ++ [e])

section Walks

omit [DecidableEq α] [DecidablePred opened]

theorem Walk.subset {v a : α} (h : Walk opened f edges v a es) : ∀ e ∈ es, e ∈ edges := by
  induction h with
  | nil => exact List.forall_mem_nil _
  | snoc _ he _ _ _ _ ih => exact List.forall_mem_append.mpr ⟨ih, List.forall_mem_singleton.mpr he⟩

theorem Walk.nodup {v a : α} (h : Walk opened f edges v a es) : es.Nodup := by
  induction h with
  | nil => exact List.nodup_nil
  | snoc _ _ hnew _ _ _ ih => exact List.nodup_append_comm.mp (List.nodup_cons.mpr ⟨hnew, ih⟩)

/-- A walk passes through the ends of its edges. -/
theorem Walk.ends {v a : α} (h : Walk opened f edges v a es) {e : α × α} (he : e ∈ es) :
    (∃ es', Walk opened f edges v e.1 es') ∧ ∃ es', Walk opened f edges v e.2 es' := by
  induction h with
  | nil => exact absurd he List.not_mem_nil
  | snoc h hedge hnew hjoins hopen hnone ih =>
    rcases List.mem_append.mp he with he | he
    · exact ih he
    · obtain rfl := List.mem_singleton.mp he
      have hlast := h.snoc hedge hnew hjoins hopen hnone
      rcases hjoins with rfl | rfl
      · exact ⟨⟨_, h⟩, _, hlast⟩
      · exact ⟨⟨_, hlast⟩, _, h⟩

/-- Every flow has a walk: an edge used before leads to where the walk has been. -/
theorem exists_walk {a : α} {b : β} (h : Flows opened f edges a b) :
    ∃ v es, f v = some b ∧ Walk opened f edges v a es := by
  induction h with
  | source h => exact ⟨_, [], h, .nil⟩
  | along _ he hjoins hopen hnone ih =>
    rename_i a c b e _
    obtain ⟨v, es, hv, hwalk⟩ := ih
    by_cases hused : e ∈ es
    · obtain ⟨⟨es₁, h₁⟩, es₂, h₂⟩ := hwalk.ends hused
      rcases hjoins with rfl | rfl
      · exact ⟨v, es₂, hv, h₂⟩
      · exact ⟨v, es₁, hv, h₁⟩
    · exact ⟨v, _, hv, hwalk.snoc he hused hjoins hopen hnone⟩

end Walks

/-- Over an edge from a node with a label, the other end gets it, unless it has one. -/
theorem visit_joins {e : α × α} {a c : α} {b : β} (hjoins : Joins e a c) (hopen : opened c)
    (ha : st.1 a = some b) (hc : st.1 c = none ∨ st.1 c = some b) :
    (visit opened st e).1 = Function.update st.1 c (some b) := by
  have htake : (take opened st c a).1 = Function.update st.1 c (some b) := by
    rcases take_cases opened st c a with ⟨hsame, hstays⟩ | ⟨-, -, b', hb', htake⟩
    · rcases hc with hc | hc
      · exact absurd (ha.symm.trans (hstays hopen hc)) (by simp)
      · rw [hsame, ← hc, Function.update_eq_self]
    · rw [htake, ← ha, hb']
  rcases hjoins with rfl | rfl
  · rw [visit, take_of_some ha, htake]
  · have ha' : (take opened st c a).1 a = some b := by
      rw [htake]
      by_cases heq : a = c
      · rw [heq, Function.update_self]
      · rw [Function.update_of_ne heq, ha]
    rw [visit, take_of_some ha', htake]

/-- **Along a walk a label goes all the way**, when its edges are visited in their order,
and goes nowhere else. -/
theorem Walk.visits {v a : α} {b : β} (h : Walk opened f edges v a es) (hv : f v = some b) :
    (es.foldl (visit opened) (f, false)).1 a = some b ∧
      ∀ x, (es.foldl (visit opened) (f, false)).1 x = f x ∨
        (es.foldl (visit opened) (f, false)).1 x = some b := by
  induction h with
  | nil => exact ⟨hv, fun _ => .inl rfl⟩
  | snoc _ _ _ hjoins hopen hnone ih =>
    rename_i a c e es _ _ _
    obtain ⟨ha, hothers⟩ := ih
    have hc := hothers c
    rw [hnone] at hc
    -- the label has come as far as `a`, and the last edge takes it on
    have hvisit := visit_joins hjoins hopen ha hc
    rw [List.foldl_append, List.foldl_cons, List.foldl_nil, hvisit]
    refine ⟨Function.update_self _ _ _, fun x => ?_⟩
    by_cases hx : x = c
    · subst hx
      exact .inr (Function.update_self _ _ _)
    · rw [Function.update_of_ne hx]
      exact hothers x

/-- A label that flows to a node is the one it gets, in some order of the edges. -/
theorem exists_order (hnodes : ∀ a, opened a → a ∈ nodes) (hedges : edges.Nodup) {a : α} {b : β}
    (h : Flows opened f edges a b) : ∃ es : List (α × α), es.Perm edges ∧
      ∃ n g, Passes (passes opened fun _ => es) 0 f n g ∧ g a = some b := by
  obtain ⟨v, walk, hv, hwalk⟩ := exists_walk h
  have hperm : (walk ++ edges.filter fun e => e ∉ walk).Perm edges := by
    refine (List.perm_ext_iff_of_nodup ?_ hedges).mpr fun e => ?_
    · refine List.nodup_append.mpr ⟨hwalk.nodup, hedges.filter _, fun e he e' he' heq => ?_⟩
      have hnot := (List.mem_filter.mp he').2
      simp [← heq, he] at hnot
    · have hsub := hwalk.subset e
      simp only [List.mem_append, List.mem_filter, decide_eq_true_iff]
      tauto
  obtain ⟨n, g, hpasses, -⟩ := exists_passes hnodes
    (fun _ => walk ++ edges.filter fun e => e ∉ walk) 0 f
  refine ⟨_, hperm, n, g, hpasses, ?_⟩
  -- the walk comes first, and a label that is there stays
  obtain ⟨ha, -⟩ := hwalk.visits hv
  have hkept : ∀ {k n g g'}, Passes (passes opened fun _ => walk ++ edges.filter fun e => e ∉ walk) k g n g' →
      g a = some b → g' a = some b := by
    intro k n g g' h hga
    exact (spread (fun _ e => hperm.mem_iff) h Grown.refl).1.kept a b hga
  have hpass : ∀ g₁ flag, passes opened (fun _ => walk ++ edges.filter fun e => e ∉ walk) 0 f =
      some (g₁, flag) → g₁ a = some b := by
    intro g₁ flag heq
    have hfold := Option.some.inj heq
    rw [pass, List.foldl_append] at hfold
    have hrest : Grown opened (walk.foldl (visit opened) (f, false)).1 edges g₁ := by
      have hvisits : Grown opened (walk.foldl (visit opened) (f, false)).1 edges
          ((edges.filter fun e => e ∉ walk).foldl (visit opened) (walk.foldl (visit opened) (f, false))).1 :=
        Grown.refl.visits fun e he => (List.mem_filter.mp he).1
      rwa [hfold] at hvisits
    exact hrest.kept a b ha
  cases hpasses with
  | last heq => exact hpass _ _ heq
  | more heq hrest => exact hkept hrest (hpass _ _ heq)

/-- **The order does not matter exactly where labels do not compete.** -/
theorem order_independent_iff (hnodes : ∀ a, opened a → a ∈ nodes) (hedges : edges.Nodup) :
    (∀ order order' : ℕ → List (α × α), (∀ k, (order k).Perm edges) → (∀ k, (order' k).Perm edges) →
      ∀ n n' g g', Passes (passes opened order) 0 f n g → Passes (passes opened order') 0 f n' g' →
        g = g') ↔ Consistent opened f edges := by
  constructor
  · intro h a b b' hb hb'
    obtain ⟨es, hperm, n, g, hpasses, hg⟩ := exists_order hnodes hedges hb
    obtain ⟨es', hperm', n', g', hpasses', hg'⟩ := exists_order hnodes hedges hb'
    have heq := h (fun _ => es) (fun _ => es') (fun _ => hperm) (fun _ => hperm') n n' g g' hpasses hpasses'
    rw [heq, hg'] at hg
    exact (Option.some.inj hg).symm
  · intro hconsistent order order' hperm hperm' n n' g g' h h'
    obtain ⟨hgrown, hsettled⟩ := spread (fun k e => (hperm k).mem_iff) h Grown.refl
    obtain ⟨hgrown', hsettled'⟩ := spread (fun k e => (hperm' k).mem_iff) h' Grown.refl
    funext a
    refine Option.ext fun b => ?_
    rw [label_iff_flows hconsistent hgrown hsettled, label_iff_flows hconsistent hgrown' hsettled']

end Flooding
