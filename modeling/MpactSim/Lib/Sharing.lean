import Mathlib.Data.List.Nodup

namespace MpactSim.Lib

/-!
# Sharing by a key

Something is made for every element of a list, but only once for elements with the same key.
`enterAll` is the run: the elements for which it is made, and the entry of every element.

* `entered_enterAll`     — an entry was made for an element with the same key;
* `forall_entered_iff`   — what was made for another element fits exactly if the key separates
  the elements that do not fit.
-/

variable {α κ : Type*} [DecidableEq κ] (key : α → κ)

/-- The entry of an element: that of its key, or a new one. -/
def enter (made : List α) (a : α) : List α × Nat :=
  match made.findIdx? (key · = key a) with
  | some k => (made, k)
  | none => (made ++ [a], made.length)

/-- The entries of all elements of a list. -/
def enterAll (made : List α) : List α → List α × List Nat
  | [] => (made, [])
  | a :: rest =>
    let (made, k) := enter key made a
    let (made, ks) := enterAll made rest
    (made, k :: ks)

/-- The run from `made` over `l` ends with `made'` and the entries `ks`. -/
structure Entered (made l made' : List α) (ks : List Nat) : Prop where
  isPrefix : made <+: made'
  length : ks.length = l.length
  nodup : (made'.map key).Nodup
  mem : ∀ m ∈ made', m ∈ made ∨ m ∈ l
  entry : ∀ (i : Nat) a k, l[i]? = some a → ks[i]? = some k →
    ∃ m, made'[k]? = some m ∧ key m = key a

variable {key}

theorem entered_enter {made : List α} (hnodup : (made.map key).Nodup) (a : α) :
    Entered key made [a] (enter key made a).1 [(enter key made a).2] := by
  unfold enter
  split
  · rename_i k hfind
    obtain ⟨hk, hkey, -⟩ := List.findIdx?_eq_some_iff_getElem.mp hfind
    refine ⟨List.prefix_rfl, rfl, hnodup, fun m hm => .inl hm, fun i b k' hb hk' => ?_⟩
    obtain ⟨rfl, rfl⟩ : a = b ∧ k = k' := by
      cases i with
      | zero => exact ⟨Option.some.inj hb, Option.some.inj hk'⟩
      | succ i => cases hb
    exact ⟨made[k], List.getElem?_eq_getElem hk, of_decide_eq_true hkey⟩
  · rename_i hfind
    rw [List.findIdx?_eq_none_iff] at hfind
    have hnew : key a ∉ made.map key := by
      intro hmem
      obtain ⟨m, hm, hkey⟩ := List.mem_map.mp hmem
      exact of_decide_eq_false (hfind m hm) hkey
    refine ⟨List.prefix_append _ _, rfl, ?_, fun m hm => ?_, fun i b k' hb hk' => ?_⟩
    · rw [List.map_append, List.map_singleton, ← List.concat_eq_append]
      exact hnodup.concat hnew
    · exact List.mem_append.mp hm
    · obtain ⟨rfl, rfl⟩ : a = b ∧ made.length = k' := by
        cases i with
        | zero => exact ⟨Option.some.inj hb, Option.some.inj hk'⟩
        | succ i => cases hb
      exact ⟨a, List.getElem?_concat_length, rfl⟩

/-- **Runs.** The entry of every element was made for an element with the same key. -/
theorem entered_enterAll {made : List α} (hnodup : (made.map key).Nodup) (l : List α) :
    Entered key made l (enterAll key made l).1 (enterAll key made l).2 := by
  induction l generalizing made with
  | nil => exact ⟨List.prefix_rfl, rfl, hnodup, fun m hm => .inl hm, nofun⟩
  | cons a rest ih =>
    have hstep := entered_enter hnodup a
    have hrest := ih hstep.nodup
    rw [enterAll]
    refine ⟨hstep.isPrefix.trans hrest.isPrefix, by simp [hrest.length], hrest.nodup, fun m hm => ?_,
      fun i b k hb hk => ?_⟩
    · rcases hrest.mem m hm with hm | hm
      · rcases hstep.mem m hm with hm | hm
        · exact .inl hm
        · exact .inr (List.mem_cons.mpr (.inl (List.mem_singleton.mp hm)))
      · exact .inr (List.mem_cons_of_mem _ hm)
    · cases i with
      | zero =>
        obtain ⟨m, hm, hkey⟩ := hstep.entry 0 b k hb hk
        refine ⟨m, ?_, hkey⟩
        obtain ⟨t, ht⟩ := hrest.isPrefix
        rw [← ht, List.getElem?_append_left (List.getElem?_eq_some_iff.mp hm).1, hm]
      | succ i => exact hrest.entry i b k hb hk

omit [DecidableEq κ] in
theorem Entered.exists_entry {made l made' : List α} {ks : List Nat}
    (h : Entered key made l made' ks) {i : Nat} {a : α} (hi : l[i]? = some a) :
    ∃ k m, ks[i]? = some k ∧ made'[k]? = some m ∧ key m = key a := by
  have hlt : i < ks.length := by
    rw [h.length]
    exact (List.getElem?_eq_some_iff.mp hi).1
  obtain ⟨m, hm, hkey⟩ := h.entry i a ks[i] hi (List.getElem?_eq_getElem hlt)
  exact ⟨ks[i], m, List.getElem?_eq_getElem hlt, hm, hkey⟩

/-- What is made for an element fits all elements of its entry exactly if elements with the
    same key fit each other. -/
theorem forall_entered_iff {R : α → α → Prop} (hsymm : ∀ a b, R a b → R b a)
    (htrans : ∀ a b c, R a b → R b c → R a c) (l : List α) :
    (∀ (i j : Nat) a b k m, l[i]? = some a → l[j]? = some b →
        (enterAll key [] l).2[i]? = some k → (enterAll key [] l).2[j]? = some k →
        (enterAll key [] l).1[k]? = some m → R m a ∧ R m b) ↔
      ∀ a ∈ l, ∀ b ∈ l, key a = key b → R a b := by
  have hrun := @entered_enterAll _ _ _ key [] List.nodup_nil l
  constructor
  · intro h a ha b hb hkey
    obtain ⟨i, hi⟩ := List.mem_iff_getElem?.mp ha
    obtain ⟨j, hj⟩ := List.mem_iff_getElem?.mp hb
    obtain ⟨k, m, hk, hm, hma⟩ := hrun.exists_entry hi
    obtain ⟨k', m', hk', hm', hmb⟩ := hrun.exists_entry hj
    -- Keys are distinct, so the two elements have the same entry.
    have hsame : ((enterAll key [] l).1.map key)[k]? = ((enterAll key [] l).1.map key)[k']? := by
      rw [List.getElem?_map, List.getElem?_map, hm, hm', Option.map_some, Option.map_some, hma, hmb,
        hkey]
    have hlt : k < ((enterAll key [] l).1.map key).length := by
      rw [List.length_map]
      exact (List.getElem?_eq_some_iff.mp hm).1
    obtain rfl := (List.getElem?_inj hlt hrun.nodup).mp hsame
    obtain ⟨hRa, hRb⟩ := h i j a b k m hi hj hk hk' hm
    exact htrans a m b (hsymm m a hRa) hRb
  · intro h i j a b k m ha hb hi hj hm
    have hml : m ∈ l := (hrun.mem m (List.mem_of_getElem? hm)).resolve_left List.not_mem_nil
    obtain ⟨m', hm', hka⟩ := hrun.entry i a k ha hi
    obtain ⟨m'', hm'', hkb⟩ := hrun.entry j b k hb hj
    obtain rfl : m = m' := Option.some.inj (hm.symm.trans hm')
    obtain rfl : m = m'' := Option.some.inj (hm.symm.trans hm'')
    exact ⟨h m hml a (List.mem_of_getElem? ha) hka, h m hml b (List.mem_of_getElem? hb) hkb⟩

end MpactSim.Lib
