import MpactSim.Lib.Monad
import MpactSim.Lib.Paths

namespace MpactSim.Lib

/-!
# Orders by depth-first search

A search puts a node into a list after its successors, unless it is already there.  It ends
exactly if it reaches no cycle.

* `Topological`     — every element of a list comes after its successors;
* `postOrder`       — the search, with a bound for its depth;
* `Searched`        — what a search does;
* `reachRank`       — a bound for the depth where there are no cycles.
-/

variable {α : Type*} {succ : α → List α}

/-! ### Lists in which nodes come after their successors -/

/-- Every element comes after its successors. -/
def Topological (succ : α → List α) (l : List α) : Prop :=
  ∀ before a after, l = before ++ a :: after → ∀ b ∈ succ a, b ∈ before

theorem topological_nil : Topological succ [] := by
  intro before a after h
  exact absurd h.symm (List.append_ne_nil_of_right_ne_nil _ (List.cons_ne_nil a after))

variable {l nodes : List α} {a b : α}

theorem topological_concat_iff :
    Topological succ (l ++ [a]) ↔ Topological succ l ∧ ∀ b ∈ succ a, b ∈ l := by
  constructor
  · intro h
    refine ⟨fun before c after hl b hb => ?_, h l a [] rfl⟩
    exact h before c (after ++ [a]) (by rw [hl, List.append_assoc]; rfl) b hb
  · rintro ⟨h, ha⟩ before c after hl b hb
    rcases List.eq_nil_or_concat after with rfl | ⟨rest, d, rfl⟩
    · obtain ⟨rfl, hc⟩ := List.append_inj' hl rfl
      obtain rfl := (List.cons.inj hc).1
      exact ha b hb
    · rw [List.concat_eq_append, ← List.cons_append, ← List.append_assoc] at hl
      obtain ⟨rfl, -⟩ := List.append_inj' hl rfl
      exact h before c rest rfl b hb

theorem Topological.mem (h : Topological succ l) (ha : a ∈ l) (hb : b ∈ succ a) : b ∈ l := by
  obtain ⟨before, after, rfl⟩ := List.append_of_mem ha
  exact List.mem_append_left _ (h before a after rfl b hb)

theorem Topological.mem_of_reaches (h : Topological succ l) (ha : a ∈ l) (hb : Reaches succ a b) :
    b ∈ l :=
  of_reaches (fun _ ha _ hb => h.mem ha hb) ha hb

theorem Topological.not_cycle (h : Topological succ l) (ha : a ∈ l) :
    ¬ Relation.TransGen (Step succ) a a := by
  -- What is reached from an element stands before its first occurrence.
  obtain ⟨before, after, rfl, hfirst⟩ := List.eq_append_cons_of_mem ha
  have hbefore : ∀ c, Relation.TransGen (Step succ) a c → c ∈ before := by
    intro c hc
    induction hc with
    | single hstep => exact h before a after rfl _ hstep
    | tail _ hstep ih =>
      obtain ⟨front, back, rfl⟩ := List.append_of_mem ih
      have hfront := h front _ (back ++ a :: after) (by simp) _ hstep
      exact List.mem_append_left _ hfront
  exact fun hcycle => hfirst (hbefore a hcycle)

theorem Topological.congr {succ' : α → List α} (h : Topological succ l)
    (hsame : ∀ a ∈ l, succ' a = succ a) : Topological succ' l := by
  intro before a after hl b hb
  have ha : a ∈ l := hl ▸ List.mem_append_right _ List.mem_cons_self
  exact h before a after hl b (hsame a ha ▸ hb)

/-- Some nodes with all their successors, and ranks that grow from the successors. -/
structure RankedOn (succ : α → List α) (P : α → Prop) (rank : α → Nat) : Prop where
  closed : ∀ a, P a → ∀ b ∈ succ a, P b
  lt : ∀ a, P a → ∀ b ∈ succ a, rank b < rank a

/-! ### The search -/

section

variable [DecidableEq α]

/-- The list after a search from a node, with at most `depth` searches inside one another. -/
def postOrder (succ : α → List α) : Nat → α → List α → Option (List α)
  | 0, _, _ => none
  | depth + 1, a, order =>
    if a ∈ order then some order
    else do
      let order ← (succ a).foldlM (fun order b => postOrder succ depth b order) order
      return order ++ [a]

/-- What searches from some nodes do to a list. -/
structure Searched (succ : α → List α) (roots order order' : List α) : Prop where
  isPrefix : order <+: order'
  nodup : order'.Nodup
  topological : Topological succ order'
  mem : ∀ a ∈ roots, a ∈ order'
  reached : ∀ b ∈ order', b ∈ order ∨ ∃ a ∈ roots, Reaches succ a b

variable {roots order order' : List α} {a : α} {depth : Nat}

omit [DecidableEq α] in
theorem Searched.of_mem (hroots : ∀ a ∈ roots, a ∈ order) (hnodup : order.Nodup)
    (h : Topological succ order) : Searched succ roots order order :=
  ⟨List.prefix_rfl, hnodup, h, hroots, fun _ hb => .inl hb⟩

omit [DecidableEq α] in
theorem Searched.forall_mem {P : α → Prop} (h : Searched succ roots order order')
    (hclosed : ∀ a, P a → ∀ b ∈ succ a, P b) (horder : ∀ a ∈ order, P a) (hroots : ∀ a ∈ roots, P a) : ∀ a ∈ order', P a := by
  intro a ha
  rcases h.reached a ha with ha | ⟨root, hroot, hreaches⟩
  · exact horder a ha
  · exact of_reaches hclosed (hroots root hroot) hreaches

omit [DecidableEq α] in
theorem Searched.append {roots' order'' : List α} (h : Searched succ roots order order')
    (h' : Searched succ roots' order' order'') : Searched succ (roots ++ roots') order order'' := by
  refine ⟨h.isPrefix.trans h'.isPrefix, h'.nodup, h'.topological, fun a ha => ?_, fun b hb => ?_⟩
  · rcases List.mem_append.mp ha with ha | ha
    · exact h'.isPrefix.subset (h.mem a ha)
    · exact h'.mem a ha
  · rcases h'.reached b hb with hb | ⟨a, ha, hreaches⟩
    · rcases h.reached b hb with hb | ⟨a, ha, hreaches⟩
      · exact .inl hb
      · exact .inr ⟨a, List.mem_append_left _ ha, hreaches⟩
    · exact .inr ⟨a, List.mem_append_right _ ha, hreaches⟩

omit [DecidableEq α] in
theorem Searched.notMem (h : Searched succ (succ a) order order') (ha : a ∉ order) :
    a ∉ order' := by
  intro hmem
  obtain ⟨b, hb, hreaches⟩ := (h.reached a hmem).resolve_left ha
  exact h.topological.not_cycle hmem (.head' hb hreaches)

omit [DecidableEq α] in
theorem Searched.concat (h : Searched succ (succ a) order order') (ha : a ∉ order) :
    Searched succ [a] order (order' ++ [a]) := by
  refine ⟨h.isPrefix.trans (List.prefix_append _ _), ?_, ?_, ?_, fun b hb => ?_⟩
  · rw [← List.concat_eq_append]
    exact h.nodup.concat (h.notMem ha)
  · exact topological_concat_iff.mpr ⟨h.topological, h.mem⟩
  · rintro b hb
    exact List.mem_append_right _ hb
  · rcases List.mem_append.mp hb with hb | hb
    · refine (h.reached b hb).imp id ?_
      rintro ⟨c, hc, hreaches⟩
      exact ⟨a, List.mem_cons_self, .head hc hreaches⟩
    · exact .inr ⟨a, List.mem_cons_self, List.mem_singleton.mp hb ▸ .refl⟩

theorem searched_foldlM (hsearch : ∀ a order order', order.Nodup → Topological succ order →
      postOrder succ depth a order = some order' → Searched succ [a] order order')
    (hnodup : order.Nodup) (htopological : Topological succ order)
    (h : roots.foldlM (fun order b => postOrder succ depth b order) order = some order') :
    Searched succ roots order order' := by
  refine foldlM_done (fun done => Searched succ done order) ?_ h
    (.of_mem nofun hnodup htopological)
  intro done a _ middle middle' hdone hmiddle
  exact hdone.append (hsearch a middle middle' hdone.nodup hdone.topological hmiddle)

/-- **Searches.** A search that ends puts into the list what it reaches, every node after its
    successors. -/
theorem searched_postOrder (hnodup : order.Nodup) (htopological : Topological succ order)
    (h : postOrder succ depth a order = some order') : Searched succ [a] order order' := by
  induction depth generalizing a order order' with
  | zero => cases h
  | succ depth ih =>
    rw [postOrder] at h
    split at h
    · rename_i ha
      obtain rfl := Option.some.inj h
      exact .of_mem (List.forall_mem_singleton.mpr ha) hnodup htopological
    · rename_i ha
      obtain ⟨middle, hmiddle, hlast⟩ := Option.bind_eq_some_iff.mp h
      obtain rfl := Option.some.inj hlast
      exact (searched_foldlM (fun _ _ _ h h' => ih h h') hnodup htopological hmiddle).concat ha

/-- A search ends if its depth is not bounded by the rank of the node. -/
theorem exists_postOrder {P : α → Prop} {rank : α → Nat} (hrank : RankedOn succ P rank) (ha : P a)
    (hdepth : rank a < depth) (order : List α) :
    ∃ order', postOrder succ depth a order = some order' := by
  induction depth generalizing a order with
  | zero => exact absurd hdepth (Nat.not_lt_zero _)
  | succ depth ih =>
    rw [postOrder]
    split
    · exact ⟨order, rfl⟩
    · have hstep : ∀ (_ : List α), ∀ b ∈ succ a, ∀ order, True →
          ∃ order', postOrder succ depth b order = some order' ∧ True := by
        intro _ b hb order _
        have hlt := (hrank.lt a ha b hb).trans_le (Nat.le_of_lt_succ hdepth)
        obtain ⟨order', horder'⟩ := ih (hrank.closed a ha b hb) hlt order
        exact ⟨order', horder', trivial⟩
      obtain ⟨order', horder', -⟩ := foldlM_exists (fun _ _ => True) hstep (a := order) trivial
      exact ⟨order' ++ [a], by rw [horder']; rfl⟩

end

/-! ### Ranks -/

/-- The number of nodes that are reached in a step or more. -/
noncomputable def reachRank (succ : α → List α) (a : α) : Nat :=
  {b | Relation.TransGen (Step succ) a b}.ncard

theorem mem_of_transGen (h : ∀ a, ∀ b ∈ succ a, b ∈ nodes)
    (hreaches : Relation.TransGen (Step succ) a b) : b ∈ nodes := by
  obtain ⟨c, -, hstep⟩ := Relation.TransGen.tail'_iff.mp hreaches
  exact h c b hstep

theorem finite_transGen (h : ∀ a, ∀ b ∈ succ a, b ∈ nodes) (a : α) :
    {b | Relation.TransGen (Step succ) a b}.Finite :=
  (List.finite_toSet nodes).subset fun _ => mem_of_transGen h

theorem reachRank_lt (h : ∀ a, ∀ b ∈ succ a, b ∈ nodes) (hb : b ∈ succ a)
    (hcycle : ¬ Relation.TransGen (Step succ) b b) : reachRank succ b < reachRank succ a := by
  refine Set.ncard_lt_ncard ?_ (finite_transGen h a)
  refine (Set.ssubset_iff_of_subset fun c hc => .head hb hc).mpr ⟨b, .single hb, hcycle⟩

theorem reachRank_le (h : ∀ a, ∀ b ∈ succ a, b ∈ nodes) (a : α) :
    reachRank succ a ≤ {b | b ∈ nodes}.ncard :=
  Set.ncard_le_ncard (fun _ => mem_of_transGen h) (List.finite_toSet nodes)

theorem rankedOn_reachRank {P : α → Prop} (h : ∀ a, ∀ b ∈ succ a, b ∈ nodes)
    (hclosed : ∀ a, P a → ∀ b ∈ succ a, P b)
    (hcycle : ∀ a, P a → ¬ Relation.TransGen (Step succ) a a) : RankedOn succ P (reachRank succ) :=
  ⟨hclosed, fun a ha b hb => reachRank_lt h hb (hcycle b (hclosed a ha b hb))⟩

theorem not_cycle_of_acc (h : Acc (fun y x => y ∈ succ x) a) (hb : Reaches succ a b) :
    ¬ Relation.TransGen (Step succ) b b := by
  have hacc : ∀ {a}, Acc (fun y x => y ∈ succ x) a → ¬ Relation.TransGen (Step succ) a a := by
    intro a h
    induction h with
    | intro a _ ih =>
      intro hcycle
      obtain ⟨c, hstep, hreaches⟩ := Relation.TransGen.head'_iff.mp hcycle
      exact ih c hstep (.tail' hreaches hstep)
  induction hb using Relation.ReflTransGen.head_induction_on with
  | refl => exact hacc h
  | head hstep _ ih => exact ih (h.inv hstep)

end MpactSim.Lib
