import Mathlib.Data.Finset.Card
import Mathlib.Data.List.Pairwise

namespace MpactSim.Lib

/-!
# Least recently used entries

Keys are used one after the other, each use with a stamp.

* `Recent`     — a key is one of the `k` that were used last;
* `recency`    — the last use of each key, the latest one first;
* `recent_iff` — the `k` keys used last are the first `k` of these.

A store of `k` entries holds the first `k` of them: `perm_hit`, `perm_fill` and `perm_evict` say that
it still does if an entry is stamped anew, if one is added to a store that is not full, and if the
one with the least stamp is replaced.
-/

universe u v

variable {α : Type u} {τ : Type v} [DecidableEq α]

/-- A key is one of the `k` that were used last: since its last use, fewer than `k` others were. -/
def Recent (k : Nat) (history : List α) (a : α) : Prop :=
  ∃ before since, history = before ++ a :: since ∧ a ∉ since ∧ since.toFinset.card < k

/-- The use of a key moves it to the front. -/
def use (stack : List (α × τ)) (e : α × τ) : List (α × τ) := e :: stack.filter (·.1 ≠ e.1)

/-- The last use of each key, the latest one first. -/
def recency (uses : List (α × τ)) : List (α × τ) := uses.foldl use []

variable {uses front back : List (α × τ)} {e : α × τ} {a : α} {k : Nat}

@[simp]
theorem recency_nil : recency ([] : List (α × τ)) = [] := rfl

theorem recency_snoc (uses : List (α × τ)) (e : α × τ) :
    recency (uses ++ [e]) = e :: (recency uses).filter (·.1 ≠ e.1) := by
  rw [recency, List.foldl_append]
  rfl

theorem recency_subset : recency uses ⊆ uses := by
  induction uses using List.reverseRecOn with
  | nil => exact fun _ => id
  | append_singleton uses e ih =>
    rw [recency_snoc]
    intro e' he'
    rcases List.mem_cons.mp he' with rfl | he'
    · exact List.mem_append_right _ (List.mem_singleton_self _)
    · exact List.mem_append_left _ (ih (List.mem_of_mem_filter he'))

theorem nodup_keys_recency (uses : List (α × τ)) : ((recency uses).map Prod.fst).Nodup := by
  induction uses using List.reverseRecOn with
  | nil => exact List.nodup_nil
  | append_singleton uses e ih =>
    rw [recency_snoc, List.map_cons, List.nodup_cons]
    constructor
    · intro hmem
      obtain ⟨e', he', heq⟩ := List.mem_map.mp hmem
      exact of_decide_eq_true (List.mem_filter.mp he').2 heq
    · exact ih.sublist ((List.filter_sublist).map _)

/-- Every key that was used has a last use. -/
theorem mem_keys_recency : a ∈ (recency uses).map Prod.fst ↔ a ∈ uses.map Prod.fst := by
  induction uses using List.reverseRecOn with
  | nil => rfl
  | append_singleton uses e ih =>
    rw [recency_snoc, List.map_cons, List.map_append, List.mem_cons, List.mem_append, ← ih]
    by_cases hkey : a = e.1
    · simp [hkey]
    · have hfilter : a ∈ ((recency uses).filter (·.1 ≠ e.1)).map Prod.fst ↔
          a ∈ (recency uses).map Prod.fst := by
        constructor
        · exact fun h => ((List.filter_sublist).map _).subset h
        · intro h
          obtain ⟨e', he', rfl⟩ := List.mem_map.mp h
          exact List.mem_map_of_mem (List.mem_filter.mpr ⟨he', decide_eq_true hkey⟩)
      rw [hfilter]
      simp [hkey]

theorem pairwise_recency {r : τ → τ → Prop} (h : uses.Pairwise fun e e' => r e.2 e'.2) :
    (recency uses).Pairwise fun e e' => r e'.2 e.2 := by
  induction uses using List.reverseRecOn with
  | nil => exact List.Pairwise.nil
  | append_singleton uses e ih =>
    obtain ⟨hbefore, -, hlast⟩ := List.pairwise_append.mp h
    rw [recency_snoc, List.pairwise_cons]
    refine ⟨fun e' he' => ?_, (ih hbefore).filter _⟩
    exact hlast e' (recency_subset (List.mem_of_mem_filter he')) e (List.mem_singleton_self _)

/-- Where a use is the last one of its key: the keys in front of it are those used since. -/
theorem recency_split (h : recency uses = front ++ e :: back) :
    ∃ before since, uses = before ++ e :: since ∧ e.1 ∉ since.map Prod.fst ∧
      ∀ a, a ∈ front.map Prod.fst ↔ a ∈ since.map Prod.fst := by
  -- Induction on the end of the uses: the last one is at the front, or moves to it.
  induction uses using List.reverseRecOn generalizing front back with
  | nil => cases front <;> cases h
  | append_singleton uses e' ih =>
    rw [recency_snoc] at h
    cases front with
    | nil =>
      cases h
      exact ⟨uses, [], rfl, by simp, by simp⟩
    | cons first front =>
      rw [List.cons_append, List.cons.injEq] at h
      obtain ⟨rfl, hfilter⟩ := h
      obtain ⟨left, right, hsplit, hleft, hright⟩ := List.filter_eq_append_iff.mp hfilter
      obtain ⟨skipped, back', rfl, hskipped, hkey, -⟩ := List.filter_eq_cons_iff.mp hright
      rw [← List.append_assoc] at hsplit
      obtain ⟨before, since, rfl, hnotMem, hkeys⟩ := ih hsplit
      refine ⟨before, since ++ [e'], by simp, ?_, fun a => ?_⟩
      · rw [List.map_append, List.mem_append, not_or]
        exact ⟨hnotMem, by simpa using hkey⟩
      · have hfront : a ∈ front.map Prod.fst ↔ a ≠ e'.1 ∧ a ∈ (left ++ skipped).map Prod.fst := by
          have hskip : skipped.filter (·.1 ≠ e'.1) = [] :=
            List.filter_eq_nil_iff.mpr hskipped
          have hboth : front = (left ++ skipped).filter (·.1 ≠ e'.1) := by
            rw [List.filter_append, hleft, hskip, List.append_nil]
          rw [hboth]
          simp only [List.mem_map, List.mem_filter, decide_eq_true_eq]
          constructor
          · rintro ⟨x, ⟨hx, hne⟩, rfl⟩
            exact ⟨hne, x, hx, rfl⟩
          · rintro ⟨hne, x, hx, rfl⟩
            exact ⟨x, ⟨hx, hne⟩, rfl⟩
        rw [List.map_cons, List.mem_cons, hfront, hkeys, List.map_append, List.mem_append,
          List.map_singleton, List.mem_singleton]
        tauto

omit [DecidableEq α] in
theorem last_unique {before since before' since' : List α} (hsince : a ∉ since) (hsince' : a ∉ since')
    (h : before ++ a :: since = before' ++ a :: since') : since = since' := by
  obtain ⟨between, -, heq⟩ | ⟨between, -, heq⟩ := List.append_eq_append_iff.mp h
  · cases between with
    | nil => exact (List.cons.inj heq).2
    | cons b between =>
      obtain ⟨-, hmem⟩ := List.cons.inj heq
      exact absurd (hmem ▸ List.mem_append_right _ List.mem_cons_self) hsince
  · cases between with
    | nil => exact (List.cons.inj heq).2.symm
    | cons b between =>
      obtain ⟨-, hmem⟩ := List.cons.inj heq
      exact absurd (hmem ▸ List.mem_append_right _ List.mem_cons_self) hsince'

/-- **The keys used last** are the first ones. -/
theorem recent_iff :
    Recent k (uses.map Prod.fst) a ↔ a ∈ ((recency uses).take k).map Prod.fst := by
  -- Fewer than `k` keys are in front of one exactly if fewer were used since.
  have hcard : ∀ {front e back}, recency uses = front ++ e :: back → ∀ {since : List (α × τ)},
      (∀ a, a ∈ front.map Prod.fst ↔ a ∈ since.map Prod.fst) →
        (since.map Prod.fst).toFinset.card = front.length := by
    intro front e back h since hkeys
    have hnodup := nodup_keys_recency uses
    rw [h, List.map_append, List.nodup_append] at hnodup
    have hsame : (since.map Prod.fst).toFinset = (front.map Prod.fst).toFinset := by
      ext a
      rw [List.mem_toFinset, List.mem_toFinset, hkeys]
    rw [hsame, List.toFinset_card_of_nodup hnodup.1, List.length_map]
  constructor
  · rintro ⟨before, since, hsplit, hnotMem, hlt⟩
    have hmem : a ∈ (recency uses).map Prod.fst := by
      rw [mem_keys_recency, hsplit]
      exact List.mem_append_right _ List.mem_cons_self
    obtain ⟨e, he, rfl⟩ := List.mem_map.mp hmem
    obtain ⟨front, back, h⟩ := List.append_of_mem he
    obtain ⟨before', since', huses, hnotMem', hkeys⟩ := recency_split h
    rw [huses, List.map_append, List.map_cons] at hsplit
    rw [← last_unique hnotMem' hnotMem hsplit, hcard h hkeys] at hlt
    refine List.mem_map_of_mem ?_
    obtain ⟨n, hn⟩ := Nat.exists_eq_add_of_lt hlt
    have hrest : k - front.length = n + 1 := by omega
    rw [h, List.take_append, hrest, List.take_succ_cons]
    exact List.mem_append_right _ List.mem_cons_self
  · intro hmem
    obtain ⟨e, he, rfl⟩ := List.mem_map.mp hmem
    obtain ⟨front, back, h⟩ := List.append_of_mem he
    have hrecency : recency uses = front ++ e :: (back ++ (recency uses).drop k) := by
      rw [← List.cons_append, ← List.append_assoc, ← h, List.take_append_drop]
    obtain ⟨before, since, huses, hnotMem, hkeys⟩ := recency_split hrecency
    refine ⟨before.map Prod.fst, since.map Prod.fst, by rw [huses]; simp, hnotMem, ?_⟩
    rw [hcard hrecency hkeys]
    have hlen := congrArg List.length h
    rw [List.length_take, List.length_append, List.length_cons] at hlen
    omega

/-! ### A store of `k` entries -/

variable {left right : List (α × τ)} {t : τ}

theorem filter_of_notMem_keys {l : List (α × τ)} (h : a ∉ l.map Prod.fst) :
    l.filter (·.1 ≠ a) = l := by
  refine List.filter_eq_self.mpr fun e he => decide_eq_true fun heq => h ?_
  exact heq ▸ List.mem_map_of_mem he

theorem perm_filter_of_perm (hstore : (left ++ e :: right).Perm back)
    (hnodup : (back.map Prod.fst).Nodup) : (left ++ right).Perm (back.filter (·.1 ≠ e.1)) := by
  have hkeys := (hstore.map Prod.fst).nodup_iff.mpr hnodup
  rw [List.map_append, List.map_cons, List.nodup_middle, List.nodup_cons, List.mem_append,
    not_or] at hkeys
  obtain ⟨⟨hleft, hright⟩, -⟩ := hkeys
  have hfilter := hstore.filter (·.1 ≠ e.1)
  rwa [List.filter_append, List.filter_cons_of_neg (by simp), filter_of_notMem_keys hleft,
    filter_of_notMem_keys hright] at hfilter

theorem filter_take_recency (he : e ∈ (recency uses).take k) :
    ((recency uses).take k).filter (·.1 ≠ e.1) = ((recency uses).filter (·.1 ≠ e.1)).take (k - 1) := by
  obtain ⟨front, back, h⟩ := List.append_of_mem he
  have hsplit : recency uses = front ++ e :: (back ++ (recency uses).drop k) := by
    rw [← List.cons_append, ← List.append_assoc, ← h, List.take_append_drop]
  have hnodup := nodup_keys_recency uses
  rw [hsplit, List.map_append, List.map_cons, List.nodup_middle, List.nodup_cons, List.map_append,
    List.mem_append, List.mem_append, not_or, not_or] at hnodup
  obtain ⟨⟨hfront, hback, hrest⟩, -⟩ := hnodup
  have hlen := congrArg List.length h
  rw [List.length_take, List.length_append, List.length_cons] at hlen
  rw [h, hsplit]
  simp only [List.filter_append, List.filter_cons, ne_eq, not_true_eq_false, decide_false,
    Bool.false_eq_true, if_false]
  rw [filter_of_notMem_keys hfront, filter_of_notMem_keys hback, ← List.append_assoc,
    List.take_append, List.take_of_length_le (by rw [List.length_append]; omega)]
  -- Either the store is full, or there is nothing behind it.
  rcases Nat.lt_or_ge (recency uses).length k with hshort | hlong
  · rw [List.drop_of_length_le hshort.le, List.filter_nil, List.take_nil, List.append_nil]
  · have hnone : k - 1 - (front ++ back).length = 0 := by
      rw [List.length_append]
      omega
    rw [hnone, List.take_zero, List.append_nil]

/-- **Hit.** An entry of the store is stamped anew. -/
theorem perm_hit (hstore : (left ++ e :: right).Perm ((recency uses).take k)) :
    (left ++ (e.1, t) :: right).Perm ((recency (uses ++ [(e.1, t)])).take k) := by
  have he : e ∈ (recency uses).take k :=
    hstore.subset (List.mem_append_right _ List.mem_cons_self)
  have hrest := perm_filter_of_perm hstore
    ((nodup_keys_recency uses).sublist ((List.take_sublist _ _).map _))
  rw [filter_take_recency he] at hrest
  obtain ⟨m, rfl⟩ : ∃ m, k = m + 1 := by
    cases k with
    | zero => exact absurd he (by simp)
    | succ m => exact ⟨m, rfl⟩
  rw [recency_snoc, List.take_succ_cons]
  exact List.perm_middle.trans (hrest.cons _)

/-- **Fill.** An entry is added to a store that is not full. -/
theorem perm_fill (hstore : (left ++ right).Perm ((recency uses).take k))
    (hroom : (left ++ right).length < k) (hnew : a ∉ (left ++ right).map Prod.fst) :
    (left ++ (a, t) :: right).Perm ((recency (uses ++ [(a, t)])).take k) := by
  have hlen := hstore.length_eq
  rw [List.length_take] at hlen
  have hall : (recency uses).take k = recency uses := List.take_of_length_le (by omega)
  rw [hall] at hstore
  have hnotMem : a ∉ (recency uses).map Prod.fst := by
    rwa [← (hstore.map Prod.fst).mem_iff]
  obtain ⟨m, rfl⟩ : ∃ m, k = m + 1 := ⟨k - 1, by omega⟩
  rw [recency_snoc, List.take_succ_cons, filter_of_notMem_keys hnotMem,
    List.take_of_length_le (by omega)]
  exact List.perm_middle.trans (hstore.cons _)

/-- **Eviction.** The entry with the least stamp of a full store is replaced.  It is the one whose key
    was used the longest time ago. -/
theorem perm_evict [LinearOrder τ] (hstamps : uses.Pairwise fun e e' => e.2 < e'.2)
    (hstore : (left ++ e :: right).Perm ((recency uses).take k))
    (hfull : (left ++ e :: right).length = k) (hnew : a ∉ (left ++ e :: right).map Prod.fst)
    (hleast : ∀ e' ∈ left ++ right, e.2 ≤ e'.2) :
    (left ++ (a, t) :: right).Perm ((recency (uses ++ [(a, t)])).take k) ∧
      ∃ before since, uses.map Prod.fst = before ++ e.1 :: since ∧ e.1 ∉ since ∧
        ∀ e' ∈ left ++ right, e'.1 ∈ since := by
  have hlen := hstore.length_eq
  rw [List.length_take] at hlen
  obtain ⟨m, rfl⟩ : ∃ m, k = m + 1 := by
    rw [List.length_append, List.length_cons] at hfull
    exact ⟨k - 1, by omega⟩
  have hm : m < (recency uses).length := by omega
  -- The entry with the least stamp is the last one of the store.
  rw [← List.take_append_getElem hm] at hstore
  have hlast : e = (recency uses)[m] := by
    by_contra hne
    have hmem : e ∈ (recency uses).take m := by
      rcases List.mem_append.mp (hstore.subset (List.mem_append_right _ List.mem_cons_self))
        with h | h
      · exact h
      · exact absurd (List.mem_singleton.mp h) hne
    have hother : (recency uses)[m] ∈ left ++ right := by
      have h := hstore.symm.subset (List.mem_append_right _ (List.mem_singleton_self _))
      rw [List.perm_middle.mem_iff] at h
      exact (List.mem_cons.mp h).resolve_left fun heq => hne heq.symm
    have hsorted := pairwise_recency (r := (· < ·)) hstamps
    rw [← List.take_append_drop m (recency uses), List.drop_eq_getElem_cons hm,
      List.pairwise_append] at hsorted
    exact absurd (hsorted.2.2 e hmem _ List.mem_cons_self) (not_lt.mpr (hleast _ hother))
  rw [← hlast] at hstore
  have hrest : (left ++ right).Perm ((recency uses).take m) :=
    (List.perm_middle.symm.trans (hstore.trans (List.perm_append_singleton _ _))).cons_inv
  have hsplit : recency uses = (recency uses).take m ++ e :: (recency uses).drop (m + 1) := by
    rw [hlast, ← List.drop_eq_getElem_cons hm, List.take_append_drop]
  refine ⟨?_, ?_⟩
  · rw [recency_snoc, List.take_succ_cons]
    have hnotMem : a ∉ ((recency uses).take m).map Prod.fst := by
      rw [(hstore.map Prod.fst).mem_iff, List.map_append, List.mem_append, not_or] at hnew
      exact hnew.1
    have hkeep : ((recency uses).filter (·.1 ≠ a)).take m = (recency uses).take m := by
      conv_lhs => rw [← List.take_append_drop m (recency uses)]
      rw [List.filter_append, filter_of_notMem_keys hnotMem, List.take_append_of_le_length,
        List.take_take, min_self]
      rw [List.length_take]
      omega
    rw [hkeep]
    exact List.perm_middle.trans (hrest.cons _)
  · obtain ⟨before, since, huses, hnotMem, hkeys⟩ := recency_split hsplit
    refine ⟨before.map Prod.fst, since.map Prod.fst, by rw [huses]; simp, hnotMem, ?_⟩
    intro e' he'
    exact (hkeys _).mp (List.mem_map_of_mem (hrest.subset he'))

end MpactSim.Lib
