import MpactSim.Generic.InstructionTree

namespace MpactSim.Generic.InstructionTree

open Lib

/-!
# Runs of instructions

Users create instructions, append them to lists and count references to them.  Each instruction is
appended at most once, and a user releases only the references that it has.

* `TreeSound`  — what should hold after each call;
* `Allowed`, `Safe` — what a user keeps to, and when the code does what it should;
* `Tidy.step`  — a call;
* `treeSound_of_run` — a run.

The later children of an instruction keep their pointer to it when it is deleted.  Those that are
not deleted along with it are the case that `Safe` leaves out of the releases.
-/

/-! ### What is expected -/

/-- The instruction that a call appends. -/
def Op.appended : Op → Option Ref
  | .appendChild _ inst => inst
  | .append _ inst => inst
  | _ => none

/-- The instruction that a call appends to the children of another one, or to its own list. -/
def Op.onto (side : Side) (y : Ref) : Op → Option Ref
  | .appendChild this inst => if side = .child ∧ this = y then inst else none
  | .append this inst => if side = .next ∧ this = y then inst else none
  | _ => none

/-- After some calls, the pointers of the instructions are those to instructions, each instruction
    has been deleted once if there is no reference to it any more, and not if there is, and the
    instructions on a list are in the order in which they have been appended. -/
structure TreeSound (ops : List Op) (s : System) : Prop where
  parent_live : ∀ z p, s.heap.live z = true → s.heap.parent z = some p → s.heap.live p = true
  target_live : ∀ side y z, s.heap.Link side y z → s.heap.live z = true
  live_iff : ∀ z, s.heap.live z = true ↔ z < s.heap.created ∧ z ∉ s.heap.destroyed
  destroyed_once : s.heap.destroyed.Nodup
  destroyed_iff : ∀ z, z ∈ s.heap.destroyed ↔
    z < s.heap.created ∧ s.held z = 0 ∧ ∀ side y, ¬ s.heap.Link side y z
  ordered : ∀ side y, s.heap.live y = true → ∃ l, l.Nodup ∧
    Starts s.heap.next (s.heap.side side y) l ∧ (ops.filterMap (Op.onto side y)).Sublist l

/-- A user calls instructions that are not deleted, and releases references that it has. -/
def Allowed (s : System) : Op → Prop
  | .create => True
  | .appendChild this inst => s.heap.live this = true ∧ ∀ i ∈ inst, s.heap.live i = true
  | .append this inst => s.heap.live this = true ∧ ∀ i ∈ inst, s.heap.live i = true
  | .incRef this => s.heap.live this = true
  | .decRef this => 0 < s.held this

/-- What the release of a reference deletes. -/
inductive Dies (h : Heap) (this : Ref) : Ref → Prop where
  | self (hone : h.refCount this = 1) : Dies h this this
  | link {side : Side} {y z : Ref} (hy : Dies h this y) (hlink : h.Link side y z)
      (hone : h.refCount z = 1) : Dies h this z

theorem Dies.refCount_eq {h : Heap} {this z : Ref} (hz : Dies h this z) : h.refCount this = 1 := by
  induction hz with
  | self hone => exact hone
  | link _ _ _ ih => exact ih

/-- Lists end, counts do not wrap, and a release that deletes an instruction also deletes its later
    children. -/
def Safe (s : System) : Op → Prop
  | .create => True
  | .appendChild _ none => True
  | .appendChild this (some inst) =>
    (∃ l, Whole s.heap.next (s.heap.child this) l) ∧ s.heap.refCount inst + 1 < 2 ^ 64
  | .append _ none => True
  | .append this (some inst) =>
    (∃ l, Whole s.heap.next (s.heap.next this) l) ∧ s.heap.refCount inst + 1 < 2 ^ 64
  | .incRef this => s.heap.refCount this + 1 < 2 ^ 64
  | .decRef this => ∀ p c, Dies s.heap this p → s.heap.live c = true → s.heap.parent c = some p →
      s.heap.child p ≠ some c → Dies s.heap this c

/-- The user follows the rules, and appends no instruction twice. -/
def Proper (ops : List Op) : Prop :=
  System.Throughout Allowed .start ops ∧ (ops.filterMap Op.appended).Nodup

/-! ### Counts and links -/

section

variable {held : Ref → Nat} {h h' : Heap} {side side' : Side} {last inst x y z : Ref}

/-- Between the calls nothing is being deleted. -/
abbrev Steady (held : Ref → Nat) (h : Heap) : Prop := Consistent held ∅ ∅ h

theorem pointed_empty : Pointed h ∅ z ↔ ∃ side y, h.Link side y z := by
  simp [Pointed]

theorem Consistent.live_of_link (hc : Steady held h) (hlink : h.Link side y z) :
    h.live z = true :=
  hc.target_live z (pointed_empty.mpr ⟨side, y, hlink⟩)

theorem Consistent.refCount_ne_zero (hc : Steady held h) (hz : h.live z = true) :
    h.refCount z ≠ 0 :=
  fun hzero => Set.notMem_empty z ((hc.dying_iff z).mpr ⟨hz, hzero⟩)

theorem Heap.refCount_inc (hx : h.refCount x + 1 < 2 ^ 64) (z : Ref) :
    ({ h with incCount := Function.update h.incCount x (h.incCount x + 1) } : Heap).refCount z =
      if z = x then h.refCount x + 1 else h.refCount z := by
  unfold Heap.refCount at *
  dsimp only
  split
  · rename_i heq
    rw [heq, Function.update_self]
    generalize h.incCount x = a at *
    generalize h.decCount x = b at *
    bv_omega
  · rename_i hne
    rw [Function.update_of_ne hne]

/-- An instruction is linked behind another one. -/
structure Linked (h h' : Heap) (side : Side) (last inst : Ref) : Prop where
  live_eq : h'.live = h.live
  created_eq : h'.created = h.created
  destroyed_eq : h'.destroyed = h.destroyed
  count_eq : ∀ z, h'.refCount z = if z = inst then h.refCount inst + 1 else h.refCount z
  last_live : h.live last = true
  last_none : h.side side last = none
  side_last : h'.side side last = some inst
  side_eq : ∀ side' y, (side', y) ≠ (side, last) → h'.side side' y = h.side side' y

theorem Linked.side_of (hl : Linked h h' side last inst) (side' : Side) (hw : h.side side' y = some z) :
    h'.side side' y = some z := by
  refine (hl.side_eq side' y fun heq => ?_).trans hw
  obtain ⟨rfl, rfl⟩ := Prod.mk.inj heq
  simp [hl.last_none] at hw

theorem Linked.link_iff (hl : Linked h h' side last inst) : h'.Link side' y z ↔
    h.Link side' y z ∨ (side' = side ∧ y = last ∧ z = inst) := by
  unfold Heap.Link
  rw [hl.live_eq]
  constructor
  · intro ⟨hy, hz⟩
    by_cases heq : (side', y) = (side, last)
    · obtain ⟨rfl, rfl⟩ := Prod.mk.inj heq
      rw [hl.side_last] at hz
      exact .inr ⟨rfl, rfl, (Option.some.inj hz).symm⟩
    · exact .inl ⟨hy, (hl.side_eq side' y heq).symm.trans hz⟩
  · rintro (⟨hy, hz⟩ | ⟨rfl, rfl, rfl⟩)
    · exact ⟨hy, hl.side_of _ hz⟩
    · exact ⟨hl.last_live, hl.side_last⟩

/-- The new instruction had no link to it; it may get a parent. -/
theorem Consistent.link (hc : Steady held h) (hl : Linked h h' side last inst)
    (hinst : h.live inst = true) (hnot : ∀ side y, ¬ h.Link side y inst)
    (hparent : ∀ z p, h'.parent z = some p → h.parent z = some p ∨
      (h.live p = true ∧ ChildOf h'.child h'.next p z)) : Steady held h' := by
  have hlive := hl.live_eq
  have hpointed : ∀ z, Pointed h' ∅ z ↔ Pointed h ∅ z ∨ z = inst := by
    intro z
    simp only [pointed_empty, hl.link_iff, exists_or]
    simp
  have hnotpointed : ¬ Pointed h ∅ inst := fun hp => by
    obtain ⟨side', y, hz⟩ := pointed_empty.mp hp
    exact hnot side' y hz
  refine ⟨by rw [hlive, hl.created_eq, hl.destroyed_eq]; exact hc.registered,
    by rw [hlive]; exact hc.held_live, fun side' y hmem => hmem.elim,
    fun side₁ side₂ y₁ y₂ z hz₁ hz₂ => ?_, fun z hz => ?_, fun z hz => ?_, fun z => ?_,
    fun z p hz hp => ?_⟩
  · -- The new link is the only one to the instruction.
    rcases hl.link_iff.mp hz₁ with hz₁ | ⟨rfl, rfl, rfl⟩ <;>
      rcases hl.link_iff.mp hz₂ with hz₂ | ⟨rfl, rfl, heq⟩
    · exact hc.unique side₁ side₂ y₁ y₂ z hz₁ hz₂
    · exact absurd (heq ▸ hz₁) (hnot side₁ y₁)
    · exact absurd hz₂ (hnot side₂ y₂)
    · exact ⟨rfl, rfl⟩
  · rw [hlive]
    rcases (hpointed z).mp hz with hz | rfl
    · exact hc.target_live z hz
    · exact hinst
  · rw [hlive] at hz
    rw [hl.count_eq]
    by_cases hzi : z = inst
    · rw [if_pos hzi, hzi, hc.count_eq inst hinst, links_of_not hnotpointed,
        links_of_pointed ((hpointed inst).mpr (.inr rfl))]
    · rw [if_neg hzi, links_congr ((hpointed z).trans (or_iff_left hzi))]
      exact hc.count_eq z hz
  · rw [hlive, hl.count_eq]
    refine ⟨fun hz => hz.elim, fun ⟨hz, hzero⟩ => absurd hzero ?_⟩
    split
    · exact Nat.succ_ne_zero _
    · exact hc.refCount_ne_zero hz
  · rw [hlive] at hz ⊢
    rcases hparent z p hp with hp | ⟨hplive, hchild⟩
    · obtain ⟨hplive, hchildren⟩ := hc.parent z p hz hp
      exact ⟨hplive, fun _ => (hchildren (Set.notMem_empty _)).imp
        (fun w hw => hl.side_of .child hw)
        fun y w _ hw => hl.side_of .next hw⟩
    · exact ⟨hplive, fun _ => hchild⟩

theorem Heap.live_create : h.create.live z = true ↔ h.live z = true ∨ z = h.created := by
  show Function.update h.live h.created true z = true ↔ _
  by_cases hz : z = h.created <;> simp [hz]

theorem Heap.side_create (side : Side) (y : Ref) :
    h.create.side side y = if y = h.created then none else h.side side y := by
  cases side <;> exact Function.update_apply ..

theorem Heap.refCount_create (z : Ref) :
    h.create.refCount z = if z = h.created then 1 else h.refCount z := by
  unfold Heap.refCount Heap.create
  by_cases hz : z = h.created <;> simp [hz]

theorem Consistent.not_live_created (hc : Steady held h) : ¬ h.live h.created = true :=
  fun hlive => absurd ((hc.registered.live_iff h.created).mp hlive).1 (lt_irrefl _)

theorem Consistent.link_create (hc : Steady held h) (side : Side) (y z : Ref) :
    h.create.Link side y z ↔ h.Link side y z := by
  unfold Heap.Link
  rw [Heap.live_create, Heap.side_create]
  by_cases hy : y = h.created
  · simp [hy, hc.not_live_created]
  · rw [if_neg hy, or_iff_left hy]

theorem Consistent.create (hc : Steady held h) :
    Steady (Function.update held h.created 1) h.create := by
  have hlink := hc.link_create
  have hpointed : ∀ z, Pointed h.create ∅ z ↔ Pointed h ∅ z := by
    simp [pointed_empty, hlink]
  have hold : ∀ z, h.create.live z = true → z ≠ h.created → h.live z = true :=
    fun z hz hne => (Heap.live_create.mp hz).resolve_right hne
  have hregistered : Registered h.create.live (h.created + 1) h.destroyed := by
    refine ⟨fun z => ?_, fun z hz => Nat.lt_succ_of_lt (hc.registered.destroyed_lt z hz),
      hc.registered.nodup⟩
    rw [Heap.live_create, hc.registered.live_iff, Nat.lt_succ_iff_lt_or_eq, or_and_right]
    refine or_congr_right ⟨fun hz => ⟨hz, fun hmem => ?_⟩, And.left⟩
    exact absurd (hc.registered.destroyed_lt z hmem) (hz ▸ lt_irrefl _)
  refine ⟨hregistered, fun z hz => ?_, fun side y hmem => hmem.elim,
    fun side side' y y' z hz hz' => ?_, fun z hz => ?_, fun z hz => ?_, fun z => ?_,
    fun z p hz hp => ?_⟩
  · rw [Heap.live_create]
    by_cases heq : z = h.created
    · exact .inr heq
    · rw [Function.update_of_ne heq] at hz
      exact .inl (hc.held_live z hz)
  · exact hc.unique side side' y y' z ((hlink _ _ _).mp hz) ((hlink _ _ _).mp hz')
  · exact Heap.live_create.mpr (.inl (hc.target_live z ((hpointed z).mp hz)))
  · rw [Heap.refCount_create, links_congr (hpointed z)]
    by_cases heq : z = h.created
    · have hnot : ¬ Pointed h ∅ h.created := fun hp =>
        hc.not_live_created (hc.target_live _ hp)
      rw [if_pos heq, heq, Function.update_self, links_of_not hnot]
    · rw [if_neg heq, Function.update_of_ne heq]
      exact hc.count_eq z (hold z hz heq)
  · refine ⟨fun hz => hz.elim, fun ⟨hz, hzero⟩ => absurd hzero ?_⟩
    rw [Heap.refCount_create]
    split
    · exact Nat.one_ne_zero
    · rename_i hne
      exact hc.refCount_ne_zero (hold z hz hne)
  · change Function.update h.parent h.created none z = some p at hp
    have hzne : z ≠ h.created := fun heq => by simp [heq] at hp
    rw [Function.update_of_ne hzne] at hp
    obtain ⟨hplive, hchildren⟩ := hc.parent z p (hold z hz hzne) hp
    refine ⟨Heap.live_create.mpr (.inl hplive), fun hmem => ?_⟩
    -- The lists of children are those of instructions that were there before.
    exact (hchildren hmem).imp (fun w hw => ((hlink .child p w).mpr ⟨hplive, hw⟩).2)
      fun y w hy hw =>
        ((hlink .next y w).mpr ⟨hc.target_live y (hc.childOf hplive hmem hy).1, hw⟩).2

theorem Consistent.incRef (hc : Steady held h) (hx : h.live x = true)
    (hroom : h.refCount x + 1 < 2 ^ 64) :
    Steady (Function.update held x (held x + 1))
      { h with incCount := Function.update h.incCount x (h.incCount x + 1) } := by
  have hcount := Heap.refCount_inc hroom
  refine ⟨hc.registered, fun z hz => ?_, hc.released_dying, hc.unique, hc.target_live,
    fun z hz => ?_, fun z => ?_, hc.parent⟩
  · by_cases hzx : z = x
    · exact hzx ▸ hx
    · rw [Function.update_of_ne hzx] at hz
      exact hc.held_live z hz
  · have hbefore := hc.count_eq z hz
    show _ = _ + links h ∅ z
    rw [hcount]
    by_cases hzx : z = x
    · subst hzx
      rw [if_pos rfl, Function.update_self]
      omega
    · rw [if_neg hzx, Function.update_of_ne hzx]
      exact hbefore
  · refine ⟨fun hz => hz.elim, fun ⟨hz, hzero⟩ => absurd hzero ?_⟩
    rw [hcount]
    split
    · exact Nat.succ_ne_zero _
    · exact hc.refCount_ne_zero hz

theorem plus_of_held (hx : 0 < held x) :
    plus (Function.update held x (held x - 1)) (some x) = held := by
  funext z
  unfold plus
  by_cases hzx : z = x
  · subst hzx
    rw [Function.update_self, if_pos rfl]
    omega
  · simp [hzx, Ne.symm hzx]

theorem Consistent.doomed (hc : Steady held h) (hx : 0 < held x)
    (hbehind : ∀ p c, Dies h x p → h.live c = true → h.parent c = some p →
      h.child p ≠ some c → Dies h x c) :
    Doomed (Function.update held x (held x - 1)) ∅ (Dies h x) h := by
  have hxlive := hc.held_live x (by omega)
  -- The user has the only reference to the instruction.
  have hnot : ∀ {z}, Dies h x z → ¬ Pointed h ∅ x := by
    intro z hz hp
    have hone := hz.refCount_eq
    rw [hc.count_eq x hxlive, links_of_pointed hp] at hone
    omega
  have hother : ∀ {side y z}, Dies h x y → h.Link side y z →
      z ≠ x ∧ h.refCount z = held z + 1 := by
    intro side y z hy hlink
    have hp := pointed_empty.mpr ⟨side, y, hlink⟩
    refine ⟨fun heq => hnot hy (heq ▸ hp), ?_⟩
    rw [hc.count_eq z (hc.target_live z hp), links_of_pointed hp]
  refine ⟨fun z hz => ?_, fun side y z hy hlink hheld => ?_, fun side y z hz hlink => ?_,
    fun p z hp hz hparent => ?_⟩
  · cases hz with
    | self hone =>
      rw [hc.count_eq x hxlive] at hone
      rw [Function.update_self]
      omega
    | @link side y z hy hlink hone =>
      obtain ⟨hzx, hcount⟩ := hother hy hlink
      rw [Function.update_of_ne hzx]
      omega
  · obtain ⟨hzx, hcount⟩ := hother hy hlink
    rw [Function.update_of_ne hzx] at hheld
    exact .link hy hlink (by omega)
  · cases hz with
    | self hone => exact absurd (pointed_empty.mpr ⟨side, y, hlink⟩) (hnot (.self hone))
    | @link side' y' z hy' hlink' _ =>
      rw [(hc.unique side side' y y' z hlink hlink').2]
      exact hy'
  · by_cases hchild : h.child p = some z
    · exact .inl ⟨hchild, Set.notMem_empty _⟩
    · exact .inr (hbehind p z hp hz hparent hchild)

/-! ### Lists -/

/-- The heap after an instruction has been linked, with a reference more. -/
def Heap.linkTo (h : Heap) (side : Side) (last inst : Ref) : Heap :=
  let h := { h with incCount := Function.update h.incCount inst (h.incCount inst + 1) }
  match side with
  | .next => { h with next := Function.update h.next last (some inst) }
  | .child => { h with child := Function.update h.child last (some inst) }

theorem linked_linkTo (parent : Ref → Option Ref) (hroom : h.refCount inst + 1 < 2 ^ 64)
    (hlast : h.live last = true) (hnone : h.side side last = none) :
    Linked h (({ h with parent } : Heap).linkTo side last inst) side last inst := by
  have hupdate : ∀ f : Ref → Option Ref, ∀ y, y ≠ last →
      Function.update f last (some inst) y = f y := fun f y hy => Function.update_of_ne hy ..
  cases side <;>
    refine ⟨rfl, rfl, rfl, Heap.refCount_inc hroom, hlast, hnone, Function.update_self .., ?_⟩ <;>
      intro side' y hne <;> cases side' <;>
        first | rfl | exact hupdate _ y fun heq => hne (heq ▸ rfl)

variable {l : List Ref}

theorem Heap.append_eq {fuel : Nat} {this : Ref} (hends : Whole h.next (h.next this) l)
    (hlive : ∀ z ∈ this :: l, h.live z = true) (hinst : h.live inst = true)
    (hfuel : l.length < fuel) : h.append fuel this inst =
      some (h.linkTo .next ((this :: l).getLast (List.cons_ne_nil this l)) inst) := by
  have hthis := hlive this List.mem_cons_self
  induction l generalizing this fuel with
  | nil =>
    obtain ⟨fuel, rfl⟩ := Nat.exists_eq_succ_of_ne_zero (Nat.ne_of_gt hfuel)
    rw [Heap.append, if_pos hthis, show h.next this = none from hends]
    show (h.incRef inst).bind (fun heap => heap.setNext this (some inst)) = _
    rw [Heap.incRef, if_pos hinst, Option.bind_some, Heap.setNext, if_pos hthis]
    rfl
  | cons y l ih =>
    obtain ⟨fuel, rfl⟩ := Nat.exists_eq_succ_of_ne_zero (Nat.ne_of_gt (Nat.zero_lt_of_lt hfuel))
    rw [Heap.append, if_pos hthis, hends.1]
    have hlive' : ∀ z ∈ y :: l, h.live z = true := fun z hz =>
      hlive z (List.mem_cons_of_mem this hz)
    exact ih hends.2 hlive' (Nat.lt_of_succ_lt_succ hfuel) (hlive' y List.mem_cons_self)

theorem Consistent.length_le (hc : Steady held h) (hnodup : l.Nodup)
    (hlive : ∀ z ∈ l, h.live z = true) : l.length ≤ h.created := by
  have hsub : l ⊆ List.range h.created := fun z hz =>
    List.mem_range.mpr ((hc.registered.live_iff z).mp (hlive z hz)).1
  have hlength := (List.subperm_of_subset hnodup hsub).length_le
  rwa [List.length_range] at hlength

theorem childOf_of_starts {child next : Ref → Option Ref} {p : Ref} (hl : Starts next (child p) l) :
    ∀ z ∈ l, ChildOf child next p z :=
  hl.forall_mem (fun _ hz => .first hz) fun _ hy _ hz => .later hy hz

end

/-! ### Calls -/

/-- What is known after some calls. -/
structure Tidy (ops : List Op) (s : System) : Prop where
  steady : Steady s.held s.heap
  appended : ∀ side y z, s.heap.Link side y z → z ∈ ops.filterMap Op.appended
  unborn : ∀ side y, s.heap.created ≤ y → ops.filterMap (Op.onto side y) = []
  lists : ∀ side y, s.heap.live y = true → ∃ l, l.Nodup ∧
    Starts s.heap.next (s.heap.side side y) l ∧ (ops.filterMap (Op.onto side y)).Sublist l

section

variable {ops : List Op} {s s' : System} {op : Op} {side : Side} {this inst y z : Ref}

theorem Tidy.treeSound (h : Tidy ops s) : TreeSound ops s where
  parent_live z p hz hp := (h.steady.parent z p hz hp).1
  target_live side y z hlink := h.steady.live_of_link hlink
  live_iff := h.steady.registered.live_iff
  destroyed_once := h.steady.registered.nodup
  destroyed_iff z := by
    have hc := h.steady
    constructor
    · intro hz
      have hdead : ¬ s.heap.live z = true := fun hlive =>
        ((hc.registered.live_iff z).mp hlive).2 hz
      exact ⟨hc.registered.destroyed_lt z hz, by_contra fun hheld => hdead (hc.held_live z hheld),
        fun side y hlink => hdead (hc.live_of_link hlink)⟩
    · intro ⟨hz, hheld, hlinks⟩
      by_contra hmem
      have hlive := (hc.registered.live_iff z).mpr ⟨hz, hmem⟩
      obtain ⟨side, y, -, hlink⟩ := hc.pointed_of_not_dying hlive hheld (Set.notMem_empty z)
      exact hlinks side y hlink
  ordered := h.lists

theorem filterMap_concat_none {f : Op → Option Ref} (h : f op = none) :
    (ops ++ [op]).filterMap f = ops.filterMap f := by
  rw [List.filterMap_append, List.filterMap_cons_none h, List.filterMap_nil, List.append_nil]

theorem filterMap_concat_some {f : Op → Option Ref} (h : f op = some z) :
    (ops ++ [op]).filterMap f = ops.filterMap f ++ [z] := by
  rw [List.filterMap_append, List.filterMap_cons_some h, List.filterMap_nil]

theorem Tidy.of_released (h : Tidy ops s) (happended : op.appended = none)
    (honto : ∀ side y, op.onto side y = none) (hc : Steady s'.held s'.heap)
    (hr : Released ∅ s.heap s'.heap) : Tidy (ops ++ [op]) s' := by
  have hside : ∀ (side : Side) y, s'.heap.live y = true →
      s'.heap.side side y = s.heap.side side y ∧
        ∀ z ∈ s.heap.side side y, s'.heap.live z = true := by
    intro side y hy
    have heq := hr.side_eq side y hy (Set.notMem_empty _)
    exact ⟨heq, fun z hz => hc.live_of_link ⟨hy, heq.trans hz⟩⟩
  refine ⟨hc, fun side y z hlink => ?_, fun side y hy => ?_, fun side y hy => ?_⟩
  · rw [filterMap_concat_none happended]
    exact h.appended side y z (hr.link_of hlink)
  · rw [filterMap_concat_none (honto side y)]
    exact h.unborn side y (hr.created_eq ▸ hy)
  · obtain ⟨l, hnodup, hl, hsub⟩ := h.lists side y (hr.live_of y hy)
    rw [filterMap_concat_none (honto side y), (hside side y hy).1]
    exact ⟨l, hnodup, hl.congr (hside side y hy).2 fun x hx => hside .next x hx, hsub⟩

theorem Tidy.create (h : Tidy ops s) :
    Tidy (ops ++ [.create]) ⟨s.heap.create, Function.update s.held s.heap.created 1⟩ := by
  have hc := h.steady
  have hside : ∀ (side : Side) y, s.heap.live y = true →
      s.heap.create.side side y = s.heap.side side y ∧
        ∀ z ∈ s.heap.side side y, s.heap.live z = true := by
    intro side y hy
    have hne : y ≠ s.heap.created := fun heq => hc.not_live_created (heq ▸ hy)
    rw [Heap.side_create, if_neg hne]
    exact ⟨rfl, fun z hz => hc.live_of_link ⟨hy, hz⟩⟩
  refine ⟨hc.create, fun side y z hlink => ?_, fun side y hy => ?_, fun side y hy => ?_⟩
  · rw [filterMap_concat_none rfl]
    exact h.appended side y z ((hc.link_create side y z).mp hlink)
  · rw [filterMap_concat_none rfl]
    exact h.unborn side y (le_of_lt hy)
  · rw [filterMap_concat_none rfl]
    rcases Heap.live_create.mp hy with hy | hy
    · obtain ⟨l, hnodup, hl, hsub⟩ := h.lists side y hy
      show ∃ l, l.Nodup ∧ Starts s.heap.create.next (s.heap.create.side side y) l ∧ _
      rw [(hside side y hy).1]
      exact ⟨l, hnodup, hl.congr (hside side y hy).2 fun x hx => hside .next x hx, hsub⟩
    · rw [h.unborn side y (le_of_eq hy.symm)]
      exact ⟨[], List.nodup_nil, trivial, List.nil_sublist []⟩

theorem Tidy.incRef (h : Tidy ops s) (hlive : s.heap.live this = true)
    (hroom : s.heap.refCount this + 1 < 2 ^ 64) :
    ∃ s', s.step (.incRef this) = some s' ∧ Tidy (ops ++ [.incRef this]) s' := by
  have hstep : s.step (.incRef this) = some ⟨{ s.heap with
      incCount := Function.update s.heap.incCount this (s.heap.incCount this + 1) },
      Function.update s.held this (s.held this + 1)⟩ := by
    show (s.heap.incRef this).bind _ = _
    rw [Heap.incRef, if_pos hlive]
    rfl
  exact ⟨_, hstep, h.of_released rfl (fun _ _ => rfl) (h.steady.incRef hlive hroom)
    ⟨rfl, fun _ => id, fun _ _ _ => id, fun _ _ => id, fun _ _ _ _ => rfl⟩⟩

theorem Tidy.decRef (h : Tidy ops s) (hheld : 0 < s.held this) (hsafe : Safe s (.decRef this)) :
    ∃ s', s.step (.decRef this) = some s' ∧ Tidy (ops ++ [.decRef this]) s' := by
  have hc := h.steady
  have hcandidates : remaining s.heap ∅ ≤ s.heap.created := by
    have hsub : candidates s.heap ∅ ⊆ Set.Iio s.heap.created := fun z hz => hz.1
    have hle := Set.ncard_le_ncard hsub (Set.finite_Iio _)
    rwa [Set.ncard_eq_toFinset_card' (Set.Iio s.heap.created), Set.toFinset_Iio,
      Nat.card_Iio] at hle
  obtain ⟨h', hrun, hc', hr⟩ := decRef_spec s.heap.created s.heap ∅ ∅ this
    (by rw [plus_of_held hheld]; exact hc) (hc.doomed hheld hsafe) .self hcandidates
  refine ⟨⟨h', _⟩, ?_, h.of_released rfl (fun _ _ => rfl) hc' hr⟩
  show (s.heap.decRef s.heap.created this).bind _ = _
  rw [hrun]
  rfl

variable {l : List Ref} {h : Heap} {side' : Side} {last : Ref}

theorem Tidy.mem_appended (h : Tidy ops s) (side : Side) (hy : s.heap.live y = true)
    (hl : Starts s.heap.next (s.heap.side side y) l) :
    ∀ z ∈ l, s.heap.live z = true ∧ z ∈ ops.filterMap Op.appended := by
  have hboth : ∀ (side : Side) y, s.heap.live y = true → ∀ z ∈ s.heap.side side y,
      s.heap.live z = true ∧ z ∈ ops.filterMap Op.appended := fun side y hy z hz =>
    ⟨h.steady.live_of_link ⟨hy, hz⟩, h.appended side y z ⟨hy, hz⟩⟩
  exact hl.forall_mem (hboth side y hy) fun x hx => hboth .next x hx.1

/-- Where the link for an instruction is that comes last on a list. -/
def IsLast (this : Ref) (side : Side) (l : List Ref) (side' : Side) (last : Ref) : Prop :=
  (l = [] ∧ side' = side ∧ last = this) ∨ ∃ hne, side' = .next ∧ last = l.getLast hne

theorem IsLast.spec (hlast : IsLast this side l side' last)
    (hends : Whole h.next (h.side side this) l) (hthis : h.live this = true)
    (hlive : ∀ z ∈ l, h.live z = true) : h.live last = true ∧ h.side side' last = none := by
  rcases hlast with ⟨rfl, rfl, rfl⟩ | ⟨hne, rfl, rfl⟩
  · exact ⟨hthis, hends⟩
  · exact ⟨hlive _ (List.getLast_mem hne), hends.next_getLast hne⟩

theorem Linked.starts {h' : Heap} (hl : Linked h h' side' last inst)
    (hstarts : Starts h.next (h.side side y) l) : Starts h'.next (h'.side side y) l := by
  have hmono := hstarts.mono fun _ _ hw => hl.side_of .next hw
  cases l with
  | nil => trivial
  | cons x l =>
    rw [hl.side_of _ hstarts.1, ← hstarts.1]
    exact hmono

theorem Linked.concat {h' : Heap} (hl : Linked h h' side' last inst)
    (hlast : IsLast this side l side' last) (hends : Whole h.next (h.side side this) l) :
    Starts h'.next (h'.side side this) (l ++ [inst]) := by
  rcases hlast with ⟨rfl, rfl, rfl⟩ | ⟨hne, rfl, rfl⟩
  · exact ⟨hl.side_last, trivial⟩
  · have hconcat := hends.concat hne (fun _ _ hw => hl.side_of .next hw) hl.side_last
    cases l with
    | nil => exact absurd rfl hne
    | cons x l => rwa [hl.side_of _ hends.1, ← hends.1]

theorem Tidy.of_linked (h : Tidy ops s) (side : Side) {heap : Heap}
    (hends : Whole s.heap.next (s.heap.side side this) l) (hlast : IsLast this side l side' last)
    (hl : Linked s.heap heap side' last inst) (hthis : s.heap.live this = true)
    (hinst : s.heap.live inst = true) (hnew : inst ∉ ops.filterMap Op.appended)
    (happended : op.appended = some inst)
    (honto : ∀ side₁ y, op.onto side₁ y = if side₁ = side ∧ this = y then some inst else none)
    (hparent : ∀ z p, heap.parent z = some p → s.heap.parent z = some p ∨
      (z = inst ∧ p = this ∧ side = .child)) : Tidy (ops ++ [op]) { s with heap } := by
  have hconcat := hl.concat hlast hends
  refine ⟨h.steady.link hl hinst (fun side y hlink => hnew (h.appended side y inst hlink)) ?_,
    fun side₁ y z hlink => ?_, fun side₁ y hy => ?_, fun side₁ y hy => ?_⟩
  · intro z p hp
    refine (hparent z p hp).imp_right fun ⟨hz, hpthis, hside⟩ => ?_
    subst hz hpthis hside
    exact ⟨hthis, childOf_of_starts hconcat _ (by simp)⟩
  · rw [filterMap_concat_some happended, List.mem_append, List.mem_singleton]
    exact (hl.link_iff.mp hlink).imp (h.appended side₁ y z) fun hz => hz.2.2
  · have hy : s.heap.created ≤ y := hl.created_eq ▸ hy
    have hne : this ≠ y := fun heq =>
      absurd ((h.steady.registered.live_iff y).mp (heq ▸ hthis)).1 (not_lt.mpr hy)
    rw [filterMap_concat_none (by simp [honto, hne])]
    exact h.unborn side₁ y hy
  · have hy : s.heap.live y = true := hl.live_eq ▸ hy
    obtain ⟨l', hnodup, hl', hsub⟩ := h.lists side₁ y hy
    by_cases hon : side₁ = side ∧ this = y
    · -- The list to its end, and then the new instruction.
      rw [filterMap_concat_some (by rw [honto, if_pos hon])]
      obtain ⟨rfl, rfl⟩ := hon
      refine ⟨l ++ [inst], ?_, hconcat,
        (hsub.trans (starts_prefix_of_whole hl' hends).sublist).append_right [inst]⟩
      rw [List.nodup_append_comm]
      exact List.nodup_cons.mpr
        ⟨fun hmem => hnew (h.mem_appended _ hthis hends.starts inst hmem).2, hends.nodup⟩
    · rw [filterMap_concat_none (by rw [honto, if_neg hon])]
      exact ⟨l', hnodup, hl.starts hl', hsub⟩

theorem Tidy.append (h : Tidy ops s) (hallowed : Allowed s (.append this (some inst)))
    (hsafe : Safe s (.append this (some inst))) (hnew : inst ∉ ops.filterMap Op.appended) :
    ∃ s', s.step (.append this (some inst)) = some s' ∧
      Tidy (ops ++ [.append this (some inst)]) s' := by
  obtain ⟨hthis, hinst⟩ := hallowed
  obtain ⟨⟨l, hends⟩, hroom⟩ := hsafe
  have hinst := hinst inst rfl
  have hmem := fun z hz => (h.mem_appended .next hthis hends.starts z hz).1
  have hlive : ∀ z ∈ this :: l, s.heap.live z = true := List.forall_mem_cons.mpr ⟨hthis, hmem⟩
  have hall : Whole s.heap.next (some this) (this :: l) := ⟨rfl, hends⟩
  have hrun := Heap.append_eq hends hlive hinst (h.steady.length_le hall.nodup hlive)
  have hlast : IsLast this .next l .next ((this :: l).getLast (List.cons_ne_nil this l)) := by
    cases l with
    | nil => exact .inl ⟨rfl, rfl, rfl⟩
    | cons y l => exact .inr ⟨List.cons_ne_nil y l, rfl, List.getLast_cons _⟩
  obtain ⟨hlastlive, hnone⟩ := hlast.spec hends hthis hmem
  refine ⟨_, ?_, h.of_linked .next hends hlast
    (linked_linkTo s.heap.parent hroom hlastlive hnone) hthis hinst hnew rfl (fun side₁ y => rfl)
    fun z p => .inl⟩
  show (s.heap.append s.heap.created this inst).bind _ = _
  rw [hrun]
  rfl

theorem Tidy.appendChild (h : Tidy ops s) (hallowed : Allowed s (.appendChild this (some inst)))
    (hsafe : Safe s (.appendChild this (some inst))) (hnew : inst ∉ ops.filterMap Op.appended) :
    ∃ s', s.step (.appendChild this (some inst)) = some s' ∧
      Tidy (ops ++ [.appendChild this (some inst)]) s' := by
  obtain ⟨hthis, hinst⟩ := hallowed
  obtain ⟨⟨l, hends⟩, hroom⟩ := hsafe
  have hinst := hinst inst rfl
  have hmem := fun z hz => (h.mem_appended .child hthis hends.starts z hz).1
  generalize hadopted : ({ s.heap with
    parent := Function.update s.heap.parent inst (some this) } : Heap) = adopted
  have hparent : s.heap.setParent inst (some this) = some adopted :=
    (if_pos hinst).trans (congrArg some hadopted)
  -- The instruction has the parent in any case.
  have htidy : ∀ side' last, IsLast this .child l side' last →
      Tidy (ops ++ [.appendChild this (some inst)])
        { s with heap := adopted.linkTo side' last inst } := by
    intro side' last hlast
    obtain ⟨hlastlive, hnone⟩ := hlast.spec hends hthis hmem
    rw [← hadopted]
    refine h.of_linked .child hends hlast (linked_linkTo _ hroom hlastlive hnone) hthis
      hinst hnew rfl (fun side₁ y => rfl) fun z p hp => ?_
    have hp : Function.update s.heap.parent inst (some this) z = some p := by
      cases side' <;> exact hp
    by_cases hz : z = inst
    · rw [hz, Function.update_self] at hp
      exact .inr ⟨hz, (Option.some.inj hp).symm, rfl⟩
    · rw [Function.update_of_ne hz] at hp
      exact .inl hp
  have hstep : s.step (.appendChild this (some inst)) =
      (s.heap.appendChild this inst).bind fun heap => some { s with heap } := rfl
  have hthis' : adopted.live this = true := hadopted ▸ hthis
  have hinst' : adopted.live inst = true := hadopted ▸ hinst
  rw [hstep, Heap.appendChild, hparent, Option.bind_eq_bind, Option.bind_some]
  rw [if_pos hthis']
  cases l with
  | nil =>
    have hchild : adopted.child this = none := hadopted ▸ hends
    refine ⟨_, ?_, htidy .child this (.inl ⟨rfl, rfl, rfl⟩)⟩
    rw [hchild]
    simp only [Heap.incRef, hinst', Heap.setChild, hthis', if_true, Option.bind_some]
    rfl
  | cons c l =>
    have hne := List.cons_ne_nil c l
    have hchild : adopted.child this = some c := hadopted ▸ hends.1
    have hlive : ∀ z ∈ c :: l, adopted.live z = true := hadopted ▸ hmem
    have hwhole : Whole adopted.next (adopted.next c) l := hadopted ▸ hends.2
    have hfuel : l.length < adopted.created :=
      hadopted ▸ h.steady.length_le hends.nodup hmem
    refine ⟨_, ?_, htidy .next _ (.inr ⟨hne, rfl, rfl⟩)⟩
    rw [hchild]
    dsimp only
    rw [Heap.append_eq hwhole hlive hinst' hfuel]
    rfl

end

/-! ### Runs -/

theorem tidy_start : Tidy [] .start := by
  have hdead : ∀ z, ¬ System.start.heap.live z = true := fun z hz => by cases hz
  have hc : Steady System.start.held System.start.heap := by
    refine ⟨⟨fun z => ⟨fun hz => absurd hz (hdead z), fun hz => absurd hz.1 (Nat.not_lt_zero z)⟩,
      fun z hz => absurd hz List.not_mem_nil, List.nodup_nil⟩, fun z hz => absurd rfl hz,
      fun side y hmem => hmem.elim, fun side side' y y' z hlink _ => absurd hlink.1 (hdead y),
      fun z ⟨_, y, _, hlink⟩ => absurd hlink.1 (hdead y), fun z hz => absurd hz (hdead z),
      fun z => ⟨fun hmem => hmem.elim, fun hz => absurd hz.1 (hdead z)⟩,
      fun z p hz => absurd hz (hdead z)⟩
  exact ⟨hc, fun side y z hlink => absurd hlink.1 (hdead y), fun _ _ _ => rfl,
    fun side y hy => absurd hy (hdead y)⟩

theorem Tidy.step {ops : List Op} {s : System} (h : Tidy ops s) {op : Op} (hallowed : Allowed s op)
    (hsafe : Safe s op) (hnew : ∀ inst ∈ op.appended, inst ∉ ops.filterMap Op.appended) :
    ∃ s', s.step op = some s' ∧ Tidy (ops ++ [op]) s' := by
  have hnull : op.appended = none → (∀ side y, op.onto side y = none) → Tidy (ops ++ [op]) s :=
    fun h₁ h₂ => h.of_released h₁ h₂ h.steady (.refl ∅ s.heap)
  cases op with
  | create => exact ⟨_, rfl, h.create⟩
  | incRef this => exact h.incRef hallowed hsafe
  | decRef this => exact h.decRef hallowed hsafe
  | appendChild this inst =>
    cases inst with
    | none => exact ⟨s, rfl, hnull rfl fun _ _ => ite_self none⟩
    | some inst => exact h.appendChild hallowed hsafe (hnew inst rfl)
  | append this inst =>
    cases inst with
    | none => exact ⟨s, rfl, hnull rfl fun _ _ => ite_self none⟩
    | some inst => exact h.append hallowed hsafe (hnew inst rfl)

theorem Tidy.run {done : List Op} {s : System} (h : Tidy done s) {ops : List Op}
    (hallowed : System.Throughout Allowed s ops) (hsafe : System.Throughout Safe s ops)
    (hnodup : ((done ++ ops).filterMap Op.appended).Nodup) :
    ∃ s', ops.foldlM System.step s = some s' ∧ Tidy (done ++ ops) s' := by
  induction ops generalizing done s with
  | nil =>
    rw [List.append_nil]
    exact ⟨s, rfl, h⟩
  | cons op rest ih =>
    have hnew : ∀ inst ∈ op.appended, inst ∉ done.filterMap Op.appended := by
      intro inst hinst hmem
      rw [List.filterMap_append, List.filterMap_cons_some hinst, List.nodup_append] at hnodup
      exact hnodup.2.2 inst hmem inst List.mem_cons_self rfl
    obtain ⟨s₁, hstep, h₁⟩ := h.step hallowed.1 hsafe.1 hnew
    rw [List.append_cons] at hnodup
    obtain ⟨s', hrun, h'⟩ := ih h₁ (hallowed.2 s₁ hstep) (hsafe.2 s₁ hstep) hnodup
    rw [← List.append_cons] at h'
    refine ⟨s', ?_, h'⟩
    rw [List.foldlM_cons, hstep]
    exact hrun

theorem System.Throughout.cons {P : System → Op → Prop} {s s' : System} {op : Op}
    {rest : List Op} (hP : P s op) (hstep : s.step op = some s')
    (h : System.Throughout P s' rest) : System.Throughout P s (op :: rest) := by
  refine ⟨hP, fun s'' hs'' => ?_⟩
  rw [hstep] at hs''
  rwa [← Option.some.inj hs'']

theorem throughout_of_append {P : System → Op → Prop} {s : System} {before after : List Op}
    (h : System.Throughout P s (before ++ after)) : System.Throughout P s before := by
  induction before generalizing s with
  | nil => trivial
  | cons op before ih => exact ⟨h.1, fun s' hs' => ih (h.2 s' hs')⟩

/-- **Where no release deletes an instruction without its later children, every call returns, and
    in every state the pointers are those to instructions, each instruction is deleted with its
    last reference, and the lists are in the order in which they have been appended.** -/
theorem treeSound_of_run (ops : List Op) (hproper : Proper ops)
    (hsafe : System.Throughout Safe .start ops) (before after : List Op)
    (hsplit : ops = before ++ after) :
    ∃ s, before.foldlM System.step .start = some s ∧ TreeSound before s := by
  obtain ⟨hallowed, hnodup⟩ := hproper
  rw [hsplit] at hallowed hsafe hnodup
  have hfirst : (before.filterMap Op.appended).Nodup := by
    rw [List.filterMap_append] at hnodup
    exact (List.nodup_append.mp hnodup).1
  obtain ⟨s, hrun, htidy⟩ := tidy_start.run (throughout_of_append hallowed)
    (throughout_of_append hsafe) hfirst
  exact ⟨s, hrun, htidy.treeSound⟩

/-- An instruction with two children, which the user releases before the parent. -/
def family : List Op :=
  [.create, .create, .create, .appendChild 0 (some 1), .appendChild 0 (some 2), .decRef 1,
    .decRef 2, .decRef 0]

theorem treeSound_of_run_family :
    ∃ s, family.foldlM System.step .start = some s ∧ TreeSound family s := by
  refine treeSound_of_run family ⟨?_, by decide⟩ ?_ family [] rfl
  · refine .cons trivial rfl (.cons trivial rfl (.cons trivial rfl (.cons ⟨rfl, ?_⟩ rfl
      (.cons ⟨rfl, ?_⟩ rfl (.cons ?_ rfl (.cons ?_ rfl (.cons ?_ rfl trivial)))))))
    · exact fun i hi => Option.some.inj hi ▸ rfl
    · exact fun i hi => Option.some.inj hi ▸ rfl
    · exact Nat.zero_lt_one
    · exact Nat.zero_lt_one
    · exact Nat.zero_lt_one
  · refine .cons trivial rfl (.cons trivial rfl (.cons trivial rfl
      (.cons ⟨⟨[], rfl⟩, by decide⟩ rfl (.cons ⟨⟨[1], rfl, rfl⟩, by decide⟩ rfl
        (.cons ?_ rfl (.cons ?_ rfl (.cons ?_ rfl trivial)))))))
    · exact fun p c hp => absurd hp.refCount_eq (by decide)
    · exact fun p c hp => absurd hp.refCount_eq (by decide)
    · -- The last release deletes all three.
      intro p c hp hc hparent hchild
      have hzero := Dies.self hp.refCount_eq
      have hone := @Dies.link _ _ .child _ 1 hzero ⟨rfl, rfl⟩ rfl
      have htwo := @Dies.link _ _ .next _ 2 hone ⟨rfl, rfl⟩ rfl
      by_cases h0 : c = 0
      · rw [h0]
        exact hzero
      · by_cases h1 : c = 1
        · rw [h1]
          exact hone
        · by_cases h2 : c = 2
          · rw [h2]
            exact htwo
          · simp [h0, h1, h2, Heap.create, System.start, Heap.empty] at hc

/-- The same, but the user keeps the second child. -/
def heldChild : List Op :=
  [.create, .create, .create, .appendChild 0 (some 1), .appendChild 0 (some 2), .decRef 1,
    .decRef 0]

/-- The child that is left has a pointer to the parent that is deleted. -/
theorem not_treeSound_heldChild : Proper heldChild ∧
    ∀ s, heldChild.foldlM System.step .start = some s → ¬ TreeSound heldChild s := by
  refine ⟨⟨?_, by decide⟩, fun s hs hsound => ?_⟩
  · refine .cons trivial rfl (.cons trivial rfl (.cons trivial rfl (.cons ⟨rfl, ?_⟩ rfl
      (.cons ⟨rfl, ?_⟩ rfl (.cons ?_ rfl (.cons ?_ rfl trivial))))))
    · exact fun i hi => Option.some.inj hi ▸ rfl
    · exact fun i hi => Option.some.inj hi ▸ rfl
    · exact Nat.zero_lt_one
    · exact Nat.zero_lt_one
  · have hresult : (heldChild.foldlM System.step .start).map
        (fun s => (s.heap.live 2, s.heap.parent 2, s.heap.live 0)) =
          some (true, some 0, false) := by
      decide
    rw [hs, Option.map_some] at hresult
    obtain ⟨hlive, hrest⟩ := Prod.mk.inj (Option.some.inj hresult)
    obtain ⟨hparent, hdead⟩ := Prod.mk.inj hrest
    have hplive := hsound.parent_live 2 0 hlive hparent
    rw [hdead] at hplive
    cases hplive

end MpactSim.Generic.InstructionTree
