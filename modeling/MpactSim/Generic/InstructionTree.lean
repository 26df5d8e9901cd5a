import MpactSim.Generic.Instruction
import Mathlib.Tactic

namespace MpactSim.Generic.InstructionTree

/-!
# Deletion of instructions

While a release is under way, some instructions are being deleted, and each of these has given up
some of its links, which it still has as members.

* `Consistent`  — the counts are those of the links that are not given up, and of the user;
* `Doomed`      — what a release deletes, and that it takes the later children along;
* `Released`    — what a release leaves as it is;
* `decRef_spec` — a release ends, and keeps all this.
-/

/-! ### Links -/

/-- The links of an instruction. -/
inductive Side where
  | next
  | child
  deriving DecidableEq

/-- The member that has a link. -/
def Heap.side (h : Heap) : Side → Ref → Option Ref
  | .next => h.next
  | .child => h.child

/-- A link of an instruction that is not deleted. -/
def Heap.Link (h : Heap) (side : Side) (y z : Ref) : Prop :=
  h.live y = true ∧ h.side side y = some z

/-- An instruction on the list of children, which is given by the maps of the links. -/
inductive ChildOf (child next : Ref → Option Ref) (p : Ref) : Ref → Prop where
  | first {z : Ref} (h : child p = some z) : ChildOf child next p z
  | later {y z : Ref} (hy : ChildOf child next p y) (h : next y = some z) : ChildOf child next p z

/-- There is a link to the instruction that is not given up. -/
def Pointed (h : Heap) (released : Set (Side × Ref)) (z : Ref) : Prop :=
  ∃ side y, (side, y) ∉ released ∧ h.Link side y z

open Classical in
/-- How many such links there are. -/
noncomputable def links (h : Heap) (released : Set (Side × Ref)) (z : Ref) : Nat :=
  if Pointed h released z then 1 else 0

/-- One more reference, if there is one. -/
def plus (held : Ref → Nat) (inst : Option Ref) (z : Ref) : Nat :=
  held z + if inst = some z then 1 else 0

/-- Each instruction that was created is there, or has been deleted once. -/
structure Registered (live : Ref → Bool) (created : Nat) (destroyed : List Ref) : Prop where
  live_iff : ∀ z, live z = true ↔ z < created ∧ z ∉ destroyed
  destroyed_lt : ∀ z ∈ destroyed, z < created
  nodup : destroyed.Nodup

/-- The instructions, with the references that are held and some that are being deleted, which have
    given up some links. -/
structure Consistent (held : Ref → Nat) (dying : Set Ref) (released : Set (Side × Ref)) (h : Heap) :
    Prop where
  registered : Registered h.live h.created h.destroyed
  held_live : ∀ z, held z ≠ 0 → h.live z = true
  released_dying : ∀ side y, (side, y) ∈ released → y ∈ dying
  unique : ∀ side side' y y' z, h.Link side y z → h.Link side' y' z → side = side' ∧ y = y'
  target_live : ∀ z, Pointed h released z → h.live z = true
  count_eq : ∀ z, h.live z = true → h.refCount z = held z + links h released z
  dying_iff : ∀ z, z ∈ dying ↔ h.live z = true ∧ h.refCount z = 0
  parent : ∀ z p, h.live z = true → h.parent z = some p →
    h.live p = true ∧ ((.child, p) ∉ released → ChildOf h.child h.next p z)

/-- A set of instructions that a release deletes: each loses its last reference by it, and their
    later children are in it. -/
structure Doomed (held : Ref → Nat) (released : Set (Side × Ref)) (doomed : Ref → Prop) (h : Heap) :
    Prop where
  held_eq : ∀ z, doomed z → held z = 0
  closed : ∀ side y z, doomed y → h.Link side y z → held z = 0 → doomed z
  back : ∀ side y z, doomed z → h.Link side y z → doomed y
  behind : ∀ p z, doomed p → h.live z = true → h.parent z = some p →
    (h.child p = some z ∧ (.child, p) ∉ released) ∨ doomed z

/-- What a release leaves; links that are given up may be cleared. -/
structure Released (released : Set (Side × Ref)) (h h' : Heap) : Prop where
  created_eq : h'.created = h.created
  live_of : ∀ z, h'.live z = true → h.live z = true
  side_of : ∀ side y z, h'.side side y = some z → h.side side y = some z
  parent_of : ∀ z p, h'.parent z = some p → h.parent z = some p
  side_eq : ∀ side y, h'.live y = true → (side, y) ∉ released → h'.side side y = h.side side y

section

variable {held : Ref → Nat} {dying : Set Ref} {released released' : Set (Side × Ref)}
  {doomed : Ref → Prop} {h h' h'' : Heap} {side : Side} {x y z p : Ref}

theorem Released.refl (released : Set (Side × Ref)) (h : Heap) : Released released h h :=
  ⟨rfl, fun _ => id, fun _ _ _ => id, fun _ _ => id, fun _ _ _ _ => rfl⟩

theorem Released.trans (h₁ : Released released h h') (h₂ : Released released h' h'') :
    Released released h h'' where
  created_eq := h₂.created_eq.trans h₁.created_eq
  live_of z hz := h₁.live_of z (h₂.live_of z hz)
  side_of side y z hz := h₁.side_of side y z (h₂.side_of side y z hz)
  parent_of z p hp := h₁.parent_of z p (h₂.parent_of z p hp)
  side_eq side y hy hnot :=
    (h₂.side_eq side y hy hnot).trans (h₁.side_eq side y (h₂.live_of y hy) hnot)

theorem Released.of_subset (hr : Released released' h h') (hx : h'.live x = false)
    (hsub : ∀ side y, (side, y) ∈ released' → (side, y) ∈ released ∨ y = x) :
    Released released h h' where
  created_eq := hr.created_eq
  live_of := hr.live_of
  side_of := hr.side_of
  parent_of := hr.parent_of
  side_eq side y hy hnot := by
    apply hr.side_eq side y hy
    intro hmem
    rcases hsub side y hmem with hmem | rfl
    · exact hnot hmem
    · simp [hx] at hy

theorem Released.mono (hr : Released released h h') (hsub : released ⊆ released') :
    Released released' h h' :=
  ⟨hr.created_eq, hr.live_of, hr.side_of, hr.parent_of,
    fun side y hy hnot => hr.side_eq side y hy fun hmem => hnot (hsub hmem)⟩

theorem Released.link_of (hr : Released released h h') (hlink : h'.Link side y z) :
    h.Link side y z :=
  ⟨hr.live_of y hlink.1, hr.side_of side y z hlink.2⟩

/-! ### Counts -/

theorem links_of_pointed (hz : Pointed h released z) : links h released z = 1 := if_pos hz

theorem links_of_not (hz : ¬ Pointed h released z) : links h released z = 0 := if_neg hz

open Classical in
theorem links_congr (hz : Pointed h released z ↔ Pointed h' released' z) :
    links h released z = links h' released' z := if_congr hz rfl rfl

theorem Consistent.of_dying (hc : Consistent held dying released h) (hx : x ∈ dying) :
    h.live x = true ∧ held x = 0 ∧ ¬ Pointed h released x := by
  obtain ⟨hlive, hzero⟩ := (hc.dying_iff x).mp hx
  rw [hc.count_eq x hlive] at hzero
  refine ⟨hlive, by omega, fun hp => ?_⟩
  rw [links_of_pointed hp] at hzero
  omega

theorem Consistent.pointed_of_not_dying (hc : Consistent held dying released h)
    (hlive : h.live z = true) (hheld : held z = 0) (hz : z ∉ dying) : Pointed h released z := by
  by_contra hnot
  apply hz
  rw [hc.dying_iff, hc.count_eq z hlive, links_of_not hnot, hheld]
  exact ⟨hlive, rfl⟩

theorem Consistent.childOf (hc : Consistent held dying released h) (hp : h.live p = true)
    (hlink : (.child, p) ∉ released) (hz : ChildOf h.child h.next p z) :
    Pointed h released z ∧ z ∉ dying := by
  have hpointed : Pointed h released z := by
    induction hz with
    | first hfirst => exact ⟨.child, p, hlink, hp, hfirst⟩
    | @later y z hy hnext ih =>
      refine ⟨.next, y, fun hmem => ?_, hc.target_live y ih, hnext⟩
      exact (hc.of_dying (hc.released_dying _ _ hmem)).2.2 ih
  exact ⟨hpointed, fun hdying => (hc.of_dying hdying).2.2 hpointed⟩

variable {child next : Ref → Option Ref} {fuel : Nat} {decRef : Heap → Ref → Option Heap}

theorem ChildOf.imp {child' next' : Ref → Option Ref} (hz : ChildOf child next p z)
    (hchild : ∀ w, child p = some w → child' p = some w)
    (hnext : ∀ y w, ChildOf child next p y → next y = some w → next' y = some w) :
    ChildOf child' next' p z := by
  induction hz with
  | first hfirst => exact .first (hchild _ hfirst)
  | later hy hlast ih => exact .later ih (hnext _ _ hy hlast)

/-! ### Steps of a release -/

theorem Consistent.clear (hc : Consistent held dying released h)
    (hof : ∀ side y z, ({ h with child, next } : Heap).side side y = some z →
      h.side side y = some z) (hkept : ∀ side y, (side, y) ∉ released →
      ({ h with child, next } : Heap).side side y = h.side side y) :
    Consistent held dying released { h with child, next } ∧
      Released released h { h with child, next } := by
  have hpointed : ∀ z, Pointed { h with child, next } released z ↔ Pointed h released z := by
    intro z
    constructor
    · intro ⟨side, y, hnot, hy, hz⟩
      exact ⟨side, y, hnot, hy, hof side y z hz⟩
    · intro ⟨side, y, hnot, hy, hz⟩
      exact ⟨side, y, hnot, hy, (hkept side y hnot).trans hz⟩
  refine ⟨⟨hc.registered, hc.held_live, hc.released_dying, ?_, ?_, ?_, hc.dying_iff, ?_⟩,
    ⟨rfl, fun _ => id, hof, fun _ _ => id, fun side y _ hnot => hkept side y hnot⟩⟩
  · intro side side' y y' z hz hz'
    exact hc.unique side side' y y' z ⟨hz.1, hof _ _ _ hz.2⟩ ⟨hz'.1, hof _ _ _ hz'.2⟩
  · exact fun z hz => hc.target_live z ((hpointed z).mp hz)
  · intro z hz
    rw [links_congr (hpointed z)]
    exact hc.count_eq z hz
  · intro z p hz hp
    obtain ⟨hplive, hchildren⟩ := hc.parent z p hz hp
    refine ⟨hplive, fun hnot => (hchildren hnot).imp (fun w hw => ?_) fun y w hy hw => ?_⟩
    · exact (hkept .child p hnot).trans hw
    · -- The children are not being deleted, so they have not given up their links.
      refine (hkept .next y fun hmem => ?_).trans hw
      exact (hc.childOf hplive hnot hy).2 (hc.released_dying _ _ hmem)

theorem Consistent.clearNext (hc : Consistent held dying released h)
    (hmem : (.next, x) ∈ released) :
    Consistent held dying released { h with next := Function.update h.next x none } ∧
      Released released h { h with next := Function.update h.next x none } := by
  apply hc.clear <;> intro side y
  · cases side <;> simp +contextual [Heap.side, Function.update_apply]
  · cases side with
    | child => exact fun _ => rfl
    | next => exact fun hnot => Function.update_of_ne (fun heq : y = x => hnot (heq ▸ hmem)) ..

theorem Consistent.clearChild (hc : Consistent held dying released h)
    (hmem : (.child, x) ∈ released) :
    Consistent held dying released { h with child := Function.update h.child x none } ∧
      Released released h { h with child := Function.update h.child x none } := by
  apply hc.clear <;> intro side y
  · cases side <;> simp +contextual [Heap.side, Function.update_apply]
  · cases side with
    | next => exact fun _ => rfl
    | child => exact fun hnot => Function.update_of_ne (fun heq : y = x => hnot (heq ▸ hmem)) ..

/-- A link of an instruction that is being deleted is given up: the reference is held instead. -/
theorem Consistent.giveUp (hc : Consistent held dying released h) (hx : x ∈ dying)
    (hnot : (side, x) ∉ released) :
    Consistent (plus held (h.side side x)) dying (insert (side, x) released) h := by
  have hxlive := (hc.of_dying hx).1
  have hpointed : ∀ z, Pointed h (insert (side, x) released) z ↔
      Pointed h released z ∧ h.side side x ≠ some z := by
    intro z
    constructor
    · intro ⟨side', y, hmem, hz⟩
      rw [Set.mem_insert_iff, not_or] at hmem
      refine ⟨⟨side', y, hmem.2, hz⟩, fun hside => hmem.1 ?_⟩
      obtain ⟨hs, hy⟩ := hc.unique side' side y x z hz ⟨hxlive, hside⟩
      rw [hs, hy]
    · intro ⟨⟨side', y, hmem, hz⟩, hside⟩
      refine ⟨side', y, fun hmem' => ?_, hz⟩
      rcases hmem' with heq | hmem'
      · obtain ⟨rfl, rfl⟩ := Prod.mk.inj heq
        exact hside hz.2
      · exact hmem hmem'
  have hwas : ∀ z, h.side side x = some z → Pointed h released z :=
    fun z hz => ⟨side, x, hnot, hxlive, hz⟩
  refine ⟨hc.registered, fun z hz => ?_, fun side' y hmem => ?_, hc.unique,
    fun z hz => hc.target_live z ((hpointed z).mp hz).1, fun z hz => ?_, hc.dying_iff,
    fun z p hz hp => ?_⟩
  · by_cases hside : h.side side x = some z
    · exact hc.target_live z (hwas z hside)
    · simp only [plus, hside, if_false, add_zero] at hz
      exact hc.held_live z hz
  · rcases hmem with heq | hmem
    · rwa [(Prod.mk.inj heq).2]
    · exact hc.released_dying side' y hmem
  · rw [hc.count_eq z hz, plus]
    by_cases hside : h.side side x = some z
    · rw [links_of_pointed (hwas z hside), if_pos hside,
        links_of_not fun hp => ((hpointed z).mp hp).2 hside]
    · rw [if_neg hside, links_congr ((hpointed z).trans (and_iff_left hside)), add_zero]
  · obtain ⟨hplive, hchildren⟩ := hc.parent z p hz hp
    exact ⟨hplive, fun hmem => hchildren fun hmem' => hmem (Set.mem_insert_of_mem _ hmem')⟩

/-- A heap in which a count of decrements has gone up. -/
def Heap.dec (h : Heap) (x : Ref) : Heap :=
  { h with decCount := Function.update h.decCount x (h.decCount x + 1) }

theorem Heap.refCount_dec (hx : h.refCount x ≠ 0) (z : Ref) :
    (h.dec x).refCount z = if z = x then h.refCount x - 1 else h.refCount z := by
  unfold Heap.refCount Heap.dec at *
  dsimp only
  split
  · rename_i heq
    rw [heq, Function.update_self]
    generalize h.incCount x = a at *
    generalize h.decCount x = b at *
    bv_omega
  · rename_i hne
    rw [Function.update_of_ne hne]

theorem Consistent.of_plus (hc : Consistent (plus held (some x)) dying released h) :
    h.live x = true ∧ h.refCount x = held x + 1 + links h released x := by
  have hlive := hc.held_live x (by simp [plus])
  exact ⟨hlive, by rw [hc.count_eq x hlive, plus, if_pos rfl]⟩

theorem Consistent.dec (hc : Consistent (plus held (some x)) dying released h) {dying' : Set Ref}
    (hdying : ∀ z, z ∈ dying' ↔ z ∈ dying ∨ (z = x ∧ h.refCount x = 1)) :
    Consistent held dying' released (h.dec x) := by
  obtain ⟨hxlive, hx⟩ := hc.of_plus
  have hcount := Heap.refCount_dec (h := h) (x := x) (by omega)
  refine ⟨hc.registered, fun z hz => hc.held_live z (by rw [plus]; omega), fun side y hmem =>
    (hdying y).mpr (.inl (hc.released_dying side y hmem)), hc.unique, hc.target_live,
    fun z hz => ?_, fun z => ?_, hc.parent⟩
  · have hbefore := hc.count_eq z hz
    rw [plus] at hbefore
    show _ = held z + links h released z
    rw [hcount]
    by_cases hzx : z = x
    · subst hzx
      rw [if_pos rfl] at hbefore ⊢
      omega
    · rw [if_neg fun heq => hzx (Option.some.inj heq).symm] at hbefore
      rw [if_neg hzx]
      exact hbefore
  · show _ ↔ h.live z = true ∧ _
    rw [hdying, hc.dying_iff, hcount]
    by_cases hzx : z = x
    · subst hzx
      simp only [hxlive, true_and, if_true]
      omega
    · rw [if_neg hzx, or_iff_left fun hboth => hzx hboth.1]

theorem Consistent.setParent (hc : Consistent held dying released h) (c : Ref) :
    Consistent held dying released { h with parent := Function.update h.parent c none } ∧
      Released released h { h with parent := Function.update h.parent c none } := by
  have hparent : ∀ z p, Function.update h.parent c none z = some p → h.parent z = some p := by
    intro z p
    by_cases hzc : z = c <;> simp [hzc]
  exact ⟨⟨hc.registered, hc.held_live, hc.released_dying, hc.unique, hc.target_live, hc.count_eq,
    hc.dying_iff, fun z p hz hp => hc.parent z p hz (hparent z p hp)⟩,
    ⟨rfl, fun z => id, fun side y z => id, hparent, fun _ _ _ _ => rfl⟩⟩

theorem Heap.live_free : (h.free x).live z = true ↔ h.live z = true ∧ z ≠ x := by
  show Function.update h.live x false z = true ↔ _
  by_cases hz : z = x <;> simp [hz]

/-- An instruction that has given up its links, and that no other has as its parent, is deleted. -/
theorem Consistent.free (hc : Consistent held (insert x dying) released' h) (hx : x ∉ dying)
    (hreleased : ∀ side y, (side, y) ∈ released' ↔ (side, y) ∈ released ∨ y = x)
    (hdying : ∀ side y, (side, y) ∈ released → y ∈ dying)
    (hparent : ∀ z, h.live z = true → h.parent z ≠ some x) :
    Consistent held dying released (h.free x) ∧ Released released' h (h.free x) := by
  obtain ⟨hxlive, hheld, hnot⟩ := hc.of_dying (Set.mem_insert x dying)
  have hx' := (hc.registered.live_iff x).mp hxlive
  have hlink : ∀ side y z, (h.free x).Link side y z ↔ h.Link side y z ∧ y ≠ x := by
    intro side y z
    show (h.free x).live y = true ∧ h.side side y = some z ↔ (h.live y = true ∧ _) ∧ _
    rw [Heap.live_free]
    tauto
  have hpointed : ∀ z, Pointed (h.free x) released z ↔ Pointed h released' z := by
    intro z
    unfold Pointed
    simp only [hlink, hreleased, not_or]
    tauto
  have hfree : Registered (h.free x).live h.created (h.destroyed ++ [x]) := by
    refine ⟨fun z => ?_, fun z hz => ?_, ?_⟩
    · rw [Heap.live_free, hc.registered.live_iff]
      simp [and_assoc]
    · rcases List.mem_append.mp hz with hz | hz
      · exact hc.registered.destroyed_lt z hz
      · rw [List.mem_singleton.mp hz]
        exact hx'.1
    · show (h.destroyed ++ [x]).Nodup
      rw [List.nodup_append_comm]
      exact List.nodup_cons.mpr ⟨hx'.2, hc.registered.nodup⟩
  refine ⟨⟨hfree, fun z hz => ?_, hdying, fun side side' y y' z hz hz' => ?_, fun z hz => ?_,
    fun z hz => ?_, fun z => ?_, fun z p hz hp => ?_⟩,
    ⟨rfl, fun z hz => (Heap.live_free.mp hz).1, fun _ _ _ => id, fun _ _ => id,
      fun _ _ _ _ => rfl⟩⟩
  · exact Heap.live_free.mpr ⟨hc.held_live z hz, fun heq => hz (heq ▸ hheld)⟩
  · exact hc.unique side side' y y' z ((hlink _ _ _).mp hz).1 ((hlink _ _ _).mp hz').1
  · rw [hpointed] at hz
    exact Heap.live_free.mpr ⟨hc.target_live z hz, fun heq => hnot (heq ▸ hz)⟩
  · rw [links_congr (hpointed z)]
    exact hc.count_eq z (Heap.live_free.mp hz).1
  · have hbefore := hc.dying_iff z
    rw [Set.mem_insert_iff] at hbefore
    rw [Heap.live_free]
    show _ ↔ (h.live z = true ∧ z ≠ x) ∧ h.refCount z = 0
    by_cases hzx : z = x
    · simp [hzx, hx]
    · rw [or_iff_right hzx] at hbefore
      simp [hbefore, hzx]
  · obtain ⟨hz, -⟩ := Heap.live_free.mp hz
    obtain ⟨hplive, hchildren⟩ := hc.parent z p hz hp
    have hpx : p ≠ x := fun heq => hparent z hz (heq ▸ hp)
    refine ⟨Heap.live_free.mpr ⟨hplive, hpx⟩, fun hmem => hchildren ?_⟩
    rw [hreleased, not_or]
    exact ⟨hmem, hpx⟩

/-! ### The instructions that are deleted -/

theorem Doomed.of_released (hd : Doomed held released doomed h) (hr : Released released h h')
    {held' : Ref → Nat} (hc : Consistent held' dying released h') :
    Doomed held released doomed h' where
  held_eq := hd.held_eq
  closed side y z hy hz := hd.closed side y z hy (hr.link_of hz)
  back side y z hz hlink := hd.back side y z hz (hr.link_of hlink)
  behind p z hp hz hparent := by
    have hplive := (hc.parent z p hz hparent).1
    apply (hd.behind p z hp (hr.live_of z hz) (hr.parent_of z p hparent)).imp_left
    intro ⟨hchild, hmem⟩
    exact ⟨(hr.side_eq .child p hplive hmem).trans hchild, hmem⟩

theorem Doomed.giveUp (hd : Doomed held released doomed h)
    (hfirst : side = .child → ∀ z, h.parent z = some x → h.child x ≠ some z) :
    Doomed held (insert (side, x) released) doomed h where
  held_eq := hd.held_eq
  closed := hd.closed
  back := hd.back
  behind p z hp hz hparent := by
    apply (hd.behind p z hp hz hparent).imp_left
    intro ⟨hchild, hmem⟩
    refine ⟨hchild, fun hmem' => ?_⟩
    rcases hmem' with heq | hmem'
    · obtain ⟨rfl, rfl⟩ := Prod.mk.inj heq
      exact hfirst rfl z hparent hchild
    · exact hmem hmem'

/-- The children of an instruction that has given up its link to them are deleted, if a release
    deletes them: none of them has another reference. -/
theorem dead_of_childOf {h₁ : Heap} (hc : Consistent held dying released h)
    (hd : Doomed held released doomed h) (hx : h.live x = true) (hmem : (.child, x) ∉ released)
    (hr : ∀ side y z, h₁.Link side y z → h.Link side y z)
    (hc₁ : Consistent held dying released' h₁) (hmem' : (.child, x) ∈ released')
    (hz : ChildOf h.child h.next x z) (hdoomed : doomed z) : h₁.live z = false := by
  -- What is left has an only link, which is the one from the previous instruction.
  have hlinked : ∀ z, ChildOf h.child h.next x z → doomed z → h₁.live z = true →
      ∃ side y, (side, y) ∉ released' ∧ h₁.Link side y z := fun z hz hdoomed hlive =>
    hc₁.pointed_of_not_dying hlive (hd.held_eq z hdoomed) (hc.childOf hx hmem hz).2
  induction hz with
  | @first z hfirst =>
    by_contra hlive
    rw [Bool.not_eq_false] at hlive
    obtain ⟨side, y, hnot, hlink⟩ := hlinked z (.first hfirst) hdoomed hlive
    obtain ⟨rfl, rfl⟩ := hc.unique side .child y x z (hr side y z hlink) ⟨hx, hfirst⟩
    exact hnot hmem'
  | @later y z hy hnext ih =>
    have hylink : h.Link .next y z := ⟨hc.target_live y (hc.childOf hx hmem hy).1, hnext⟩
    have hdead := ih (hd.back .next y z hdoomed hylink)
    by_contra hlive
    rw [Bool.not_eq_false] at hlive
    obtain ⟨side, y', -, hlink⟩ := hlinked z (.later hy hnext) hdoomed hlive
    obtain ⟨-, rfl⟩ := hc.unique side .next y' y z (hr side y' z hlink) hylink
    rw [hlink.1] at hdead
    cases hdead

theorem not_childOf_of_none (h : child p = none) : ¬ ChildOf child next p z := by
  intro hz
  induction hz with
  | first hfirst => simp [h] at hfirst
  | later _ _ ih => exact ih

/-! ### Releases -/

/-- The instructions that may still have to be deleted. -/
def candidates (h : Heap) (dying : Set Ref) : Set Ref :=
  { z | z < h.created ∧ h.live z = true ∧ z ∉ dying }

/-- How many there are. -/
noncomputable def remaining (h : Heap) (dying : Set Ref) : Nat := (candidates h dying).ncard

theorem finite_candidates (h : Heap) (dying : Set Ref) : (candidates h dying).Finite :=
  (Set.finite_Iio h.created).subset fun _ hz => hz.1

theorem remaining_le (hr : Released released h h') : remaining h' dying ≤ remaining h dying := by
  apply Set.ncard_le_ncard _ (finite_candidates h dying)
  intro z ⟨hlt, hlive, hz⟩
  exact ⟨hr.created_eq ▸ hlt, hr.live_of z hlive, hz⟩

theorem Consistent.remaining_insert_lt (hc : Consistent (plus held (some x)) dying released h) :
    x ∉ dying ∧ remaining h (insert x dying) < remaining h dying := by
  obtain ⟨hlive, hcount⟩ := hc.of_plus
  have hx : x ∉ dying := fun hmem => by
    have hzero := ((hc.dying_iff x).mp hmem).2
    omega
  refine ⟨hx, Set.ncard_lt_ncard ⟨?_, fun hsub => ?_⟩ (finite_candidates h dying)⟩
  · intro z ⟨hz, hzlive, hnot⟩
    exact ⟨hz, hzlive, fun hmem => hnot (Set.mem_insert_of_mem x hmem)⟩
  · have hmem : x ∈ candidates h (insert x dying) :=
      hsub ⟨((hc.registered.live_iff x).mp hlive).1, hlive, hx⟩
    exact hmem.2.2 (Set.mem_insert x dying)

/-- A release of a reference ends, with what is known of the instructions. -/
def Releases (held : Ref → Nat) (doomed : Ref → Prop) (fuel : Nat)
    (decRef : Heap → Ref → Option Heap) : Prop :=
  ∀ (h : Heap) (dying : Set Ref) (released : Set (Side × Ref)) (x : Ref),
    Consistent (plus held (some x)) dying released h → Doomed held released doomed h →
      (h.refCount x = 1 → doomed x) → remaining h dying ≤ fuel →
        ∃ h', decRef h x = some h' ∧ Consistent held dying released h' ∧ Released released h h'

theorem leaveParent_spec (hc : Consistent held dying released h) (hx : x ∈ dying) :
    ∃ h', h.leaveParent x = some h' ∧ Consistent held dying released h' ∧
      Released released h h' := by
  unfold Heap.leaveParent
  cases hparent : h.parent x with
  | none => exact ⟨h, rfl, hc, .refl released h⟩
  | some p =>
    obtain ⟨hplive, hchildren⟩ := hc.parent x p (hc.of_dying hx).1 hparent
    have hmem : (.child, p) ∈ released := by
      by_contra hnot
      exact (hc.childOf hplive hnot (hchildren hnot)).2 hx
    exact ⟨_, if_pos hplive, hc.clearChild hmem⟩

theorem Doomed.of_giveUp (hd : Doomed held released doomed h) {n : Ref} (hx : h.Link side x n)
    (hdoomed : doomed x) (hc : Consistent (plus held (some n)) dying released' h)
    (hone : h.refCount n = 1) : doomed n :=
  hd.closed side x n hdoomed hx (by have := hc.of_plus.2; omega)

theorem releaseNext_spec (hdec : Releases held doomed fuel decRef)
    (hc : Consistent held dying released h) (hd : Doomed held released doomed h) (hx : x ∈ dying)
    (hdoomed : doomed x) (hnot : (.next, x) ∉ released) (hfuel : remaining h dying ≤ fuel) :
    ∃ h', h.releaseNext decRef x = some h' ∧
      Consistent held dying (insert (.next, x) released) h' ∧
        Released (insert (.next, x) released) h h' := by
  have hgive := hc.giveUp hx hnot
  have hd' : Doomed held (insert (.next, x) released) doomed h := hd.giveUp (by simp)
  unfold Heap.releaseNext
  cases hnext : h.next x with
  | none =>
    rw [show h.side .next x = none from hnext] at hgive
    exact ⟨h, rfl, hgive, .refl _ h⟩
  | some n =>
    rw [show h.side .next x = some n from hnext] at hgive
    have hlink : h.Link .next x n := ⟨(hc.of_dying hx).1, hnext⟩
    obtain ⟨h₁, hrun, hc₁, hr₁⟩ :=
      hdec h dying _ n hgive hd' (hd.of_giveUp hlink hdoomed hgive) hfuel
    have hclear := hc₁.clearNext (Set.mem_insert (Side.next, x) released)
    refine ⟨_, ?_, hclear.1, hr₁.trans hclear.2⟩
    show (decRef h n).bind (fun heap => heap.setNext x none) = _
    rw [hrun]
    exact if_pos (hc₁.of_dying hx).1

/-- The reference to the first child is released, and the other children are deleted with it. -/
theorem releaseChild_spec (hdec : Releases held doomed fuel decRef)
    (hc : Consistent held dying released h) (hd : Doomed held released doomed h) (hx : x ∈ dying)
    (hdoomed : doomed x) (hnot : (.child, x) ∉ released) (hfuel : remaining h dying ≤ fuel) :
    ∃ h', h.releaseChild decRef x = some h' ∧
      Consistent held dying (insert (.child, x) released) h' ∧
        Released (insert (.child, x) released) h h' ∧
          ∀ z, h'.live z = true → h'.parent z ≠ some x := by
  have hxlive := (hc.of_dying hx).1
  unfold Heap.releaseChild
  cases hchild : h.child x with
  | none =>
    have hgive := hc.giveUp hx hnot
    rw [show h.side .child x = none from hchild] at hgive
    refine ⟨h, rfl, hgive, .refl _ h, fun z hz hparent => ?_⟩
    exact not_childOf_of_none hchild ((hc.parent z x hz hparent).2 hnot)
  | some c =>
    -- The first child has no parent any more.
    obtain ⟨hc₁, hr₁⟩ := hc.setParent c
    generalize hh₁ : { h with parent := Function.update h.parent c none } = h₁ at hc₁ hr₁
    have hchild₁ : h₁.child x = some c := by rw [← hh₁]; exact hchild
    have hother : ∀ z, h₁.parent z = some x → h.child x ≠ some z ∧ h.parent z = some x := by
      intro z hz
      refine ⟨fun heq => ?_, hr₁.parent_of z x hz⟩
      rw [hchild] at heq
      simp [← hh₁, Option.some.inj heq] at hz
    have hd₁ : Doomed held (insert (.child, x) released) doomed h₁ := by
      refine (hd.of_released hr₁ hc₁).giveUp fun _ z hz => ?_
      rw [hchild₁, ← hchild]
      exact (hother z hz).1
    have hgive := hc₁.giveUp hx hnot
    rw [show h₁.side .child x = some c from hchild₁] at hgive
    have hlink : h₁.Link .child x c := ⟨(hc₁.of_dying hx).1, hchild₁⟩
    obtain ⟨h₂, hrun, hc₂, hr₂⟩ := hdec h₁ dying _ c hgive hd₁
      (hd₁.of_giveUp hlink hdoomed hgive) ((remaining_le hr₁).trans hfuel)
    obtain ⟨hc₃, hr₃⟩ := hc₂.clearChild (Set.mem_insert (Side.child, x) released)
    have hr := ((hr₁.mono (Set.subset_insert _ _)).trans hr₂).trans hr₃
    refine ⟨_, ?_, hc₃, hr, fun z hz hparent => ?_⟩
    · show (h.setParent c none).bind (fun heap => (decRef heap c).bind
        fun heap => heap.setChild x none) = _
      have hclive : h.live c = true := hr₁.live_of c hgive.of_plus.1
      rw [show h.setParent c none = some h₁ from (if_pos hclive).trans (congrArg some hh₁),
        Option.bind_some, hrun]
      exact if_pos (hc₂.of_dying hx).1
    · -- A later child is deleted, as it is on the list.
      obtain ⟨hlater, hparent₀⟩ := hother z ((hr₂.trans hr₃).parent_of z x hparent)
      have hz₀ := hr.live_of z hz
      have hz_doomed : doomed z :=
        (hd.behind x z hdoomed hz₀ hparent₀).resolve_left fun hboth => hlater hboth.1
      have hon := (hc.parent z x hz₀ hparent₀).2 hnot
      have hdead := dead_of_childOf hc hd hxlive hnot (fun _ _ _ => hr.link_of) hc₃
        (Set.mem_insert _ _) hon hz_doomed
      rw [hdead] at hz
      cases hz

theorem destroy_spec (hdec : Releases held doomed fuel decRef)
    (hc : Consistent held (insert x dying) released h) (hd : Doomed held released doomed h)
    (hx : x ∉ dying) (hreleased : ∀ side y, (side, y) ∈ released → y ∈ dying) (hdoomed : doomed x)
    (hfuel : remaining h (insert x dying) ≤ fuel) :
    ∃ h', h.destroy decRef x = some h' ∧ Consistent held dying released h' ∧
      Released released h h' := by
  have hmem : x ∈ insert x dying := Set.mem_insert x dying
  have hfresh : ∀ side, (side, x) ∉ released := fun side hside => hx (hreleased side x hside)
  obtain ⟨h₁, hrun₁, hc₁, hr₁⟩ := leaveParent_spec hc hmem
  have hd₁ := hd.of_released hr₁ hc₁
  have hfuel₁ := (remaining_le hr₁).trans hfuel
  obtain ⟨h₂, hrun₂, hc₂, hr₂⟩ := releaseNext_spec hdec hc₁ hd₁ hmem hdoomed (hfresh .next) hfuel₁
  have hd₂ : Doomed held (insert (.next, x) released) doomed h₂ :=
    (hd₁.giveUp (by simp) : Doomed held (insert (.next, x) released) doomed h₁).of_released hr₂ hc₂
  obtain ⟨h₃, hrun₃, hc₃, hr₃, hparent⟩ := releaseChild_spec hdec hc₂ hd₂ hmem hdoomed
    (by simp [hfresh]) ((remaining_le hr₂).trans hfuel₁)
  have hgiven : ∀ side y, (side, y) ∈ insert (Side.child, x) (insert (Side.next, x) released) ↔
      (side, y) ∈ released ∨ y = x := by
    intro side y
    simp only [Set.mem_insert_iff, Prod.mk.injEq]
    cases side <;> simp <;> tauto
  obtain ⟨hc₄, hr₄⟩ := hc₃.free hx hgiven hreleased hparent
  refine ⟨h₃.free x, ?_, hc₄, ?_⟩
  · simp only [Heap.destroy, hrun₁, hrun₂, hrun₃, Option.bind_eq_bind, Option.bind_some]
  · have hsub : released ⊆ insert (Side.child, x) (insert (Side.next, x) released) :=
      fun pair hpair => (hgiven pair.1 pair.2).mpr (.inl hpair)
    have hall := (((hr₁.mono hsub).trans (hr₂.mono (Set.subset_insert _ _))).trans hr₃).trans hr₄
    exact hall.of_subset (Function.update_self ..) fun side y => (hgiven side y).mp

/-- **A release of a reference ends, and leaves the instructions consistent, if it takes along the
    later children of what it deletes.** -/
theorem decRef_spec (fuel : Nat) : Releases held doomed fuel (Heap.decRef fuel) := by
  induction fuel with
  | zero =>
    intro h dying released x hc hd hone hfuel
    have hlt := hc.remaining_insert_lt.2
    omega
  | succ fuel ih =>
    intro h dying released x hc hd hone hfuel
    obtain ⟨hlive, hcount⟩ := hc.of_plus
    obtain ⟨hnot, hlt⟩ := hc.remaining_insert_lt
    have hne : h.refCount x ≠ 0 := by omega
    have hassert : h.incCount x - h.decCount x ≠ 0 := fun heq => hne (by simp [Heap.refCount, heq])
    have hcheck : (h.dec x).incCount x = (h.dec x).decCount x ↔ h.refCount x = 1 := by
      have hdec := Heap.refCount_dec hne x
      rw [if_pos rfl] at hdec
      have hzero : (h.dec x).incCount x = (h.dec x).decCount x ↔ (h.dec x).refCount x = 0 := by
        unfold Heap.refCount
        generalize (h.dec x).incCount x = a
        generalize (h.dec x).decCount x = b
        bv_omega
      rw [hzero, hdec]
      omega
    unfold Heap.decRef
    rw [if_pos hlive, if_neg hassert]
    change ∃ h', (if (h.dec x).incCount x = (h.dec x).decCount x then
      (h.dec x).destroy (Heap.decRef fuel) x else some (h.dec x)) = some h' ∧ _
    have hsame : Released released h (h.dec x) :=
      ⟨rfl, fun _ => id, fun _ _ _ => id, fun _ _ => id, fun _ _ _ _ => rfl⟩
    by_cases hlast : h.refCount x = 1
    · have hdying : ∀ z, z ∈ insert x dying ↔ z ∈ dying ∨ (z = x ∧ h.refCount x = 1) := by
        simp [hlast, or_comm]
      have hc' := hc.dec hdying
      have hle := (remaining_le hsame).trans_lt hlt
      rw [if_pos (hcheck.mpr hlast)]
      obtain ⟨h', hrun, hc'', hr⟩ := destroy_spec ih hc' (hd.of_released hsame hc') hnot
        hc.released_dying (hone hlast) (by omega)
      exact ⟨h', hrun, hc'', hsame.trans hr⟩
    · rw [if_neg fun heq => hlast (hcheck.mp heq)]
      exact ⟨h.dec x, rfl, hc.dec (by simp [hlast]), hsame⟩

end

end MpactSim.Generic.InstructionTree
