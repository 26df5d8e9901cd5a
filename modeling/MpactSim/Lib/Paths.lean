import Mathlib.Data.List.Basic
import Mathlib.Order.Nat

namespace MpactSim.Lib

/-!
# Paths in a graph

A graph is given by the list of the successors of each node, in which a node can stand more than
once.  A path is the list of the positions of its steps, so that different lists are different
paths.

* `walk`      — the end of a path;
* `Reaches`   — there is a path;
* `TreeLike`  — no node is the end of two paths.

`treeLike_iff` reduces that a node is tree-like to its successors.
-/

variable {α : Type*}

/-- The end of a path. -/
def walk (succ : α → List α) : α → List Nat → Option α
  | a, [] => some a
  | a, i :: path => (succ a)[i]?.bind fun b => walk succ b path

/-- A step of a path. -/
def Step (succ : α → List α) (a b : α) : Prop := b ∈ succ a

/-- A node is reached from another, or is the same. -/
abbrev Reaches (succ : α → List α) : α → α → Prop := Relation.ReflTransGen (Step succ)

/-- No node is the end of two paths from `a`. -/
def TreeLike (succ : α → List α) (a : α) : Prop :=
  ∀ path path' c, walk succ a path = some c → walk succ a path' = some c → path = path'

/-- No node is reached from both. -/
def Apart (succ : α → List α) (a b : α) : Prop := ∀ c, Reaches succ a c → ¬ Reaches succ b c

/-- The successors of a node have smaller ranks, so there are no cycles. -/
def Ranked (succ : α → List α) (rank : α → Nat) : Prop := ∀ a, ∀ b ∈ succ a, rank b < rank a

variable {succ succ' : α → List α} {a b c : α}

theorem walk_cons_eq_some_iff {i : Nat} {path : List Nat} :
    walk succ a (i :: path) = some c ↔ ∃ b, (succ a)[i]? = some b ∧ walk succ b path = some c :=
  Option.bind_eq_some_iff

theorem reaches_iff_walk : Reaches succ a c ↔ ∃ path, walk succ a path = some c := by
  constructor
  · intro h
    induction h using Relation.ReflTransGen.head_induction_on with
    | refl => exact ⟨[], rfl⟩
    | head hstep _ ih =>
      obtain ⟨i, hi⟩ := List.mem_iff_getElem?.mp hstep
      obtain ⟨path, hpath⟩ := ih
      exact ⟨i :: path, walk_cons_eq_some_iff.mpr ⟨_, hi, hpath⟩⟩
  · rintro ⟨path, hpath⟩
    induction path generalizing a with
    | nil =>
      obtain rfl := Option.some.inj hpath
      exact .refl
    | cons i path ih =>
      obtain ⟨b, hi, hpath⟩ := walk_cons_eq_some_iff.mp hpath
      exact .head (List.mem_of_getElem? hi) (ih hpath)

theorem of_reaches {P : α → Prop} (hclosed : ∀ a, P a → ∀ b ∈ succ a, P b) (ha : P a)
    (h : Reaches succ a b) : P b := by
  induction h with
  | refl => exact ha
  | tail _ hstep ih => exact hclosed _ ih _ hstep

theorem Ranked.le_of_reaches {rank : α → Nat} (h : Ranked succ rank) (hreaches : Reaches succ a b) :
    rank b ≤ rank a := by
  induction hreaches with
  | refl => exact le_rfl
  | tail _ hstep ih => exact (h _ _ hstep).le.trans ih

theorem Ranked.not_reaches {rank : α → Nat} (h : Ranked succ rank) (hb : b ∈ succ a) :
    ¬ Reaches succ b a :=
  fun hreaches => (h a b hb).not_ge (h.le_of_reaches hreaches)

/-- **Trees.** A node is tree-like exactly if its successors are, and no two of them reach the
    same node. -/
theorem treeLike_iff (hacyclic : ∀ b ∈ succ a, ¬ Reaches succ b a) :
    TreeLike succ a ↔ (∀ b ∈ succ a, TreeLike succ b) ∧ (succ a).Pairwise (Apart succ) := by
  have hpath : ∀ {i : Nat} {b c : α} {path : List Nat}, (succ a)[i]? = some b →
      walk succ b path = some c → walk succ a (i :: path) = some c :=
    fun hi hwalk => walk_cons_eq_some_iff.mpr ⟨_, hi, hwalk⟩
  constructor
  · intro htree
    refine ⟨fun b hb path path' c hwalk hwalk' => ?_, ?_⟩
    · obtain ⟨i, hi⟩ := List.mem_iff_getElem?.mp hb
      exact (List.cons.inj (htree _ _ c (hpath hi hwalk) (hpath hi hwalk'))).2
    · rw [List.pairwise_iff_getElem]
      intro i j hi hj hij c hreaches hreaches'
      obtain ⟨path, hwalk⟩ := reaches_iff_walk.mp hreaches
      obtain ⟨path', hwalk'⟩ := reaches_iff_walk.mp hreaches'
      have heq := htree _ _ c (hpath (List.getElem?_eq_getElem hi) hwalk)
        (hpath (List.getElem?_eq_getElem hj) hwalk')
      exact hij.ne (List.cons.inj heq).1
  · rintro ⟨htrees, hapart⟩ path path' c hwalk hwalk'
    have hapart : ∀ {i j : Nat} {b b' : α}, (succ a)[i]? = some b → (succ a)[j]? = some b' →
        i < j → Reaches succ b c → ¬ Reaches succ b' c := by
      intro i j b b' hi hj hij
      obtain ⟨hltI, rfl⟩ := List.getElem?_eq_some_iff.mp hi
      obtain ⟨hltJ, rfl⟩ := List.getElem?_eq_some_iff.mp hj
      exact List.pairwise_iff_getElem.mp hapart i j hltI hltJ hij c
    cases path with
    | nil =>
      obtain rfl := Option.some.inj hwalk
      cases path' with
      | nil => rfl
      | cons j path' =>
        obtain ⟨b, hj, hb⟩ := walk_cons_eq_some_iff.mp hwalk'
        exact absurd (reaches_iff_walk.mpr ⟨path', hb⟩)
          (hacyclic b (List.mem_of_getElem? hj))
    | cons i path =>
      obtain ⟨b, hi, hb⟩ := walk_cons_eq_some_iff.mp hwalk
      cases path' with
      | nil =>
        obtain rfl := Option.some.inj hwalk'
        exact absurd (reaches_iff_walk.mpr ⟨path, hb⟩) (hacyclic b (List.mem_of_getElem? hi))
      | cons j path' =>
        obtain ⟨b', hj, hb'⟩ := walk_cons_eq_some_iff.mp hwalk'
        have hreaches := reaches_iff_walk.mpr ⟨path, hb⟩
        have hreaches' := reaches_iff_walk.mpr ⟨path', hb'⟩
        obtain hij | rfl | hij := lt_trichotomy i j
        · exact absurd hreaches' (hapart hi hj hij hreaches)
        · obtain rfl := Option.some.inj (hi.symm.trans hj)
          rw [htrees b (List.mem_of_getElem? hi) path path' c hb hb']
        · exact absurd hreaches (hapart hj hi hij hreaches')

/-! ### Graphs that agree -/

theorem walk_congr (h : ∀ x, Reaches succ a x → succ' x = succ x) (path : List Nat) :
    walk succ' a path = walk succ a path := by
  induction path generalizing a with
  | nil => rfl
  | cons i path ih =>
    rw [walk, walk, h a .refl]
    refine Option.bind_congr fun b hi => ?_
    exact ih fun x hx => h x (.head (List.mem_of_getElem? hi) hx)

theorem reaches_congr (h : ∀ x, Reaches succ a x → succ' x = succ x) :
    Reaches succ' a c ↔ Reaches succ a c := by
  rw [reaches_iff_walk, reaches_iff_walk]
  simp only [walk_congr h]

theorem treeLike_congr (h : ∀ x, Reaches succ a x → succ' x = succ x) :
    TreeLike succ' a ↔ TreeLike succ a := by
  unfold TreeLike
  simp only [walk_congr h]

/-- **Another successor.** A node that is tree-like stays so with another successor that does not
    reach it exactly if that is tree-like and reaches nothing that the node reaches. -/
theorem treeLike_update_iff [DecidableEq α] {rank : α → Nat} (hrank : Ranked succ rank)
    (htree : TreeLike succ a) (hb : ¬ Reaches succ b a) :
    TreeLike (Function.update succ a (succ a ++ [b])) a ↔
      TreeLike succ b ∧ ∀ d ∈ succ a, Apart succ d b := by
  -- Nothing that does not reach `a` sees the new successor.
  have hsame : ∀ d, ¬ Reaches succ d a → ∀ x, Reaches succ d x →
      Function.update succ a (succ a ++ [b]) x = succ x := by
    rintro d hd x hx
    refine Function.update_of_ne ?_ _ _
    rintro rfl
    exact hd hx
  have hsucc : ∀ d ∈ succ a ++ [b], ¬ Reaches succ d a := by
    intro d hd
    rcases List.mem_append.mp hd with hd | hd
    · exact hrank.not_reaches hd
    · exact List.mem_singleton.mp hd ▸ hb
  have hvalue : Function.update succ a (succ a ++ [b]) a = succ a ++ [b] :=
    Function.update_self ..
  rw [treeLike_iff]
  · rw [hvalue]
    have htrees : (∀ d ∈ succ a ++ [b],
          TreeLike (Function.update succ a (succ a ++ [b])) d) ↔
        ∀ d ∈ succ a ++ [b], TreeLike succ d :=
      forall₂_congr fun d hd => treeLike_congr (hsame d (hsucc d hd))
    have hapart : (succ a ++ [b]).Pairwise (Apart (Function.update succ a (succ a ++ [b]))) ↔
        (succ a ++ [b]).Pairwise (Apart succ) := by
      refine List.Pairwise.iff_of_mem fun {d e} hd he => ?_
      refine forall_congr' fun c => imp_congr (reaches_congr (hsame d (hsucc d hd))) ?_
      exact not_congr (reaches_congr (hsame e (hsucc e he)))
    obtain ⟨htreesA, hapartA⟩ := (treeLike_iff fun d hd => hrank.not_reaches hd).mp htree
    rw [htrees, hapart, List.forall_mem_append, List.pairwise_append]
    constructor
    · rintro ⟨⟨-, htreeB⟩, -, -, hnew⟩
      exact ⟨htreeB b List.mem_cons_self, fun d hd => hnew d hd b List.mem_cons_self⟩
    · rintro ⟨htreeB, hnew⟩
      refine ⟨⟨htreesA, ?_⟩, hapartA, List.pairwise_singleton .., ?_⟩
      · rintro d hd
        exact List.mem_singleton.mp hd ▸ htreeB
      · rintro d hd e he
        exact List.mem_singleton.mp he ▸ hnew d hd
  · rw [hvalue]
    intro d hd
    rw [reaches_congr (hsame d (hsucc d hd))]
    exact hsucc d hd

end MpactSim.Lib
