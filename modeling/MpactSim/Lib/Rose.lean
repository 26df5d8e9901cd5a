import Mathlib.Data.List.Forall2

namespace MpactSim.Lib

/-!
# Trees of candidates

Every node of a tree may have a candidate of its own.  Candidates move up towards the root as long
as they have the same key; where two of them differ, none moves on.

* `Rose`            — trees with any number of children;
* `Rose.counting`   — the candidates that meet at a node;
* `summary`, `join` — what a node remembers of them, and how a child's memory is merged into it;
* `Rose.Below`      — the nodes for which no node on the way up stands in.
-/

/-- A value and a list of children. -/
inductive Rose (α : Type) where
  | node (value : α) (children : List (Rose α))

namespace Rose

variable {α β κ : Type}

/-- The value at the root. -/
def value : Rose α → α
  | node a _ => a

def children : Rose α → List (Rose α)
  | node _ ts => ts

theorem node_eta (t : Rose α) : node t.value t.children = t := by cases t; rfl

variable {P : Rose α → Prop} {s t : Rose α}

@[elab_as_elim]
theorem induct (node : ∀ a ts, (∀ t ∈ ts, P t) → P (node a ts)) (t : Rose α) : P t :=
  @Rose.rec α P (fun ts => ∀ t ∈ ts, P t) (fun a ts ih => node a ts ih)
    (fun _ ht => nomatch ht) (fun _ _ ih ihs => List.forall_mem_cons.mpr ⟨ih, ihs⟩) t

mutual

/-- A function at every node. -/
def map (f : α → β) : Rose α → Rose β
  | node a ts => node (f a) (mapAll f ts)

def mapAll (f : α → β) : List (Rose α) → List (Rose β)
  | [] => []
  | t :: ts => map f t :: mapAll f ts

end

@[simp] theorem mapAll_eq (f : α → β) (ts : List (Rose α)) : mapAll f ts = ts.map (map f) := by
  induction ts with
  | nil => rfl
  | cons t ts ih => rw [mapAll, ih, List.map_cons]

@[simp] theorem map_node (f : α → β) (a : α) (ts : List (Rose α)) :
    map f (node a ts) = node (f a) (ts.map (map f)) := by
  rw [map, mapAll_eq]

@[simp] theorem value_map (f : α → β) (t : Rose α) : (t.map f).value = f t.value := by
  cases t
  rfl

@[simp] theorem children_map (f : α → β) (t : Rose α) :
    (t.map f).children = t.children.map (map f) := by
  cases t
  rw [map_node]
  rfl

mutual

/-- The tree and the subtrees of all its descendants. -/
def subtrees : Rose α → List (Rose α)
  | node a ts => node a ts :: subtreesAll ts

def subtreesAll : List (Rose α) → List (Rose α)
  | [] => []
  | t :: ts => subtrees t ++ subtreesAll ts

end

@[simp] theorem mem_subtreesAll {ts : List (Rose α)} :
    s ∈ subtreesAll ts ↔ ∃ t ∈ ts, s ∈ t.subtrees := by
  induction ts with
  | nil => simp [subtreesAll]
  | cons t ts ih => simp [subtreesAll, ih]

theorem mem_subtrees : s ∈ t.subtrees ↔ s = t ∨ ∃ c ∈ t.children, s ∈ c.subtrees := by
  cases t with
  | node a ts => rw [subtrees, List.mem_cons, mem_subtreesAll]; rfl

theorem self_mem_subtrees (t : Rose α) : t ∈ t.subtrees := mem_subtrees.mpr (.inl rfl)

theorem mem_subtrees_map (f : α → β) {s : Rose β} :
    s ∈ (t.map f).subtrees ↔ ∃ s' ∈ t.subtrees, s'.map f = s := by
  induction t using induct with
  | node a ts ih =>
    rw [mem_subtrees, children_map, children]
    constructor
    · rintro (rfl | ⟨c, hc, hs⟩)
      · exact ⟨node a ts, mem_subtrees.mpr (.inl rfl), rfl⟩
      · obtain ⟨t, ht, rfl⟩ := List.mem_map.mp hc
        obtain ⟨s', hs', rfl⟩ := (ih t ht).mp hs
        exact ⟨s', mem_subtrees.mpr (.inr ⟨t, ht, hs'⟩), rfl⟩
    · rintro ⟨s', hs', rfl⟩
      rcases mem_subtrees.mp hs' with rfl | ⟨t, ht, hs'⟩
      · exact .inl rfl
      · exact .inr ⟨t.map f, List.mem_map_of_mem ht, (ih t ht).mpr ⟨s', hs', rfl⟩⟩

/-- A subtree lies strictly below the root, and `P` holds neither of it nor of one on the way. -/
inductive Below (P : Rose α → Prop) : Rose α → Rose α → Prop where
  | child {t s : Rose α} (mem : s ∈ t.children) (fails : ¬ P s) : Below P t s
  | step {t c s : Rose α} (mem : c ∈ t.children) (fails : ¬ P c) (below : Below P c s) :
    Below P t s

/-- What lies below the root of a tree whose values have been replaced. -/
theorem below_map {f : α → β} {P : Rose β → Prop} {s : Rose β} :
    Below P (t.map f) s ↔ ∃ s', Below (fun t => P (t.map f)) t s' ∧ s'.map f = s := by
  induction t using induct generalizing s with
  | node a ts ih =>
    constructor
    · intro h
      cases h with
      | child mem fails =>
        rw [children_map] at mem
        obtain ⟨s', hs', rfl⟩ := List.mem_map.mp mem
        exact ⟨s', .child hs' fails, rfl⟩
      | step mem fails below =>
        rw [children_map] at mem
        obtain ⟨c', hc', rfl⟩ := List.mem_map.mp mem
        obtain ⟨s', hs', rfl⟩ := (ih c' hc').mp below
        exact ⟨s', .step hc' fails hs', rfl⟩
    · rintro ⟨s', h, rfl⟩
      cases h with
      | child mem fails =>
        exact .child (by rw [children_map]; exact List.mem_map_of_mem mem) fails
      | @step _ c _ mem fails below =>
        exact .step (by rw [children_map]; exact List.mem_map_of_mem mem) fails
          ((ih c mem).mpr ⟨s', below, rfl⟩)

theorem Below.congr {Q : Rose α → Prop} (h : ∀ s ∈ t.subtrees, Q s → P s) (hb : Below P t s) :
    Below Q t s := by
  induction t using induct with
  | node a ts ih =>
    have hmem : ∀ c ∈ ts, ∀ s ∈ c.subtrees, s ∈ (node a ts).subtrees := fun c hc s hs =>
      mem_subtrees.mpr (.inr ⟨c, hc, hs⟩)
    cases hb with
    | child mem fails =>
      exact .child mem fun hq => fails (h _ (hmem _ mem _ (self_mem_subtrees _)) hq)
    | @step _ c _ mem fails below =>
      refine .step mem (fun hq => fails (h _ (hmem _ mem _ (self_mem_subtrees _)) hq)) ?_
      exact ih c mem (fun s hs => h s (hmem c mem s hs)) below

theorem below_congr {Q : Rose α → Prop} (h : ∀ s ∈ t.subtrees, P s ↔ Q s) :
    Below P t s ↔ Below Q t s :=
  ⟨Below.congr fun s hs => (h s hs).mpr, Below.congr fun s hs => (h s hs).mp⟩

end Rose

/-! ### Keys -/

section Keys

variable {α β κ : Type} [DecidableEq κ] {key : β → Option κ}

/-- All candidates have one key. -/
def Alike (key : β → Option κ) (l : List β) : Prop := ∀ a ∈ l, ∀ b ∈ l, key a = key b

instance (l : List β) : Decidable (Alike key l) :=
  inferInstanceAs (Decidable (∀ a ∈ l, ∀ b ∈ l, key a = key b))

/-- The candidates of a child that still count for its parent. -/
def agreed (key : β → Option κ) (l : List β) : List β := if Alike key l then l else []

/-- What is remembered: nothing, the first candidate, or that some of them differ. -/
def summary (key : β → Option κ) : List β → Option (Option β)
  | [] => none
  | b :: rest => if Alike key (b :: rest) then some (some b) else some none

/-- Whether two candidates differ; undefined if one of them has no key. -/
def keysDiffer (key : β → Option κ) (a b : β) : Option Bool := do
  return decide ((← key a) ≠ (← key b))

/-- What a child remembers is merged into what its parent remembers. -/
def join (differs : β → β → Option Bool) (child base : Option (Option β)) :
    Option (Option (Option β)) :=
  match child with
  | some (some e) =>
    match base with
    | none => some (some (some e))
    | some none => some (some none)
    | some (some b) => (differs e b).map fun d => if d then some none else some (some b)
  | _ => some base

variable {b : β} {l : List β}

theorem eq_of_keysDiffer {a : β} {d : Bool} (h : keysDiffer key a b = some d) :
    d = decide (key a ≠ key b) := by
  obtain ⟨ka, hka, h⟩ := Option.bind_eq_some_iff.mp h
  obtain ⟨kb, hkb, h⟩ := Option.bind_eq_some_iff.mp h
  cases h
  simp [hka, hkb]

theorem summary_of_alike {rest : List β} (h : Alike key (b :: rest)) :
    summary key (b :: rest) = some (some b) := if_pos h

theorem summary_of_not_alike (h : ¬ Alike key l) : summary key l = some none := by
  cases l with
  | nil => exact absurd (fun a ha => nomatch ha) h
  | cons b rest => exact if_neg h

theorem summary_cases (key : β → Option κ) (l : List β) :
    l = [] ∧ summary key l = none ∨
      (∃ b, Alike key l ∧ l ≠ [] ∧ l.head? = some b ∧ summary key l = some (some b)) ∨
      ¬ Alike key l ∧ l ≠ [] ∧ summary key l = some none := by
  cases l with
  | nil => exact .inl ⟨rfl, rfl⟩
  | cons b rest =>
    by_cases h : Alike key (b :: rest)
    · exact .inr (.inl ⟨b, h, List.cons_ne_nil _ _, rfl, if_pos h⟩)
    · exact .inr (.inr ⟨h, List.cons_ne_nil _ _, if_neg h⟩)

omit [DecidableEq κ] in
theorem alike_append {c : β} {m : List β} (hl : Alike key (b :: l)) (hm : Alike key (c :: m)) :
    Alike key (b :: l ++ c :: m) ↔ key c = key b := by
  constructor
  · intro h
    exact h c (by simp) b (by simp)
  · intro h
    have hall : ∀ a ∈ b :: l ++ c :: m, key a = key b := by
      intro a ha
      rcases List.mem_append.mp ha with ha | ha
      · exact hl a ha b List.mem_cons_self
      · exact (hm a ha c List.mem_cons_self).trans h
    exact fun a ha a' ha' => (hall a ha).trans (hall a' ha').symm

/-- **Merging.**  What is remembered after a merge is what would be remembered of all candidates
    that count. -/
theorem summary_join {differs : β → β → Option Bool}
    (hdiffers : ∀ a b, differs a b = keysDiffer key a b) {m : List β} {s : Option (Option β)}
    (h : join differs (summary key m) (summary key l) = some s) :
    s = summary key (l ++ agreed key m) := by
  by_cases hm : Alike key m
  · rw [agreed, if_pos hm]
    cases m with
    | nil =>
      cases h
      rw [List.append_nil]
    | cons c m =>
      rw [summary_of_alike hm] at h
      cases l with
      | nil =>
        cases h
        exact (summary_of_alike hm).symm
      | cons b l =>
        by_cases hl : Alike key (b :: l)
        · rw [summary_of_alike hl] at h
          obtain ⟨d, hd, rfl⟩ := Option.map_eq_some_iff.mp h
          rw [hdiffers] at hd
          rw [eq_of_keysDiffer hd]
          by_cases hkey : key c = key b
          · rw [decide_eq_false (not_not.mpr hkey)]
            exact (summary_of_alike ((alike_append hl hm).mpr hkey)).symm
          · rw [decide_eq_true hkey,
              summary_of_not_alike (mt (alike_append hl hm).mp hkey)]
            rfl
        · rw [summary_of_not_alike hl] at h
          cases h
          refine (summary_of_not_alike fun h => hl fun a ha a' ha' => ?_).symm
          exact h a (List.mem_append_left _ ha) a' (List.mem_append_left _ ha')
  · rw [agreed, if_neg hm, List.append_nil]
    rw [summary_of_not_alike hm] at h
    exact (Option.some.inj h).symm

namespace Rose

mutual

/-- The candidates that meet at the root: its own, and those of each child where they do not
    differ among themselves. -/
def counting (own : α → Option β) (key : β → Option κ) : Rose α → List β
  | node a ts => (own a).toList ++ countingAll own key ts

def countingAll (own : α → Option β) (key : β → Option κ) : List (Rose α) → List β
  | [] => []
  | t :: ts => agreed key (counting own key t) ++ countingAll own key ts

end

end Rose

end Keys

end MpactSim.Lib
