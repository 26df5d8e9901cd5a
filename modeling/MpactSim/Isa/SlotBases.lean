import MpactSim.Isa.DerivedInstruction
import MpactSim.Lib.Paths

namespace MpactSim.Isa

open Decoder (Name)
open Lib

/-!
# Base slots

A slot is given its base slots one after another, before other slots derive from it.  A base is
rejected if the slot already inherits from it, or from a slot that it inherits from.

* `checkPredecessors`, `addBase` — the source;
* `Built`                        — the slots after successful calls;
* `addBase_iff_treeLike`         — a base is accepted exactly if inheritance stays a tree.
-/

/-! ### The source -/

/-- The members of `Slot` for its base slots; slots are pointers.  The predecessors are a hash
    set. -/
structure SlotBases (σ : Type) where
  name : Name
  predecessorSet : List σ
  baseSlots : List (σ × Option (List TemplateExpression))

section

variable {σ : Type} [DecidableEq σ]

/-- `CheckPredecessors`, with at most `depth` calls inside one another.  `order` is the order in
    which a hash set is visited. -/
def checkPredecessors (order : List σ → List σ) (slots : σ → SlotBases σ) :
    Nat → σ → σ → StatusOr Unit
  | 0, _, _ => ExceptT.mk none
  | depth + 1, slot, base =>
    if base ∈ (slots slot).predecessorSet then
      throw ("'" ++ String.ofList (slots base).name ++ "' is already in the predecessor set of '" ++
        String.ofList (slots slot).name ++ "'")
    else do
      (order (slots slot).predecessorSet).forM fun pred =>
        checkPredecessors order slots depth pred base
      (order (slots base).predecessorSet).forM fun basePred =>
        checkPredecessors order slots depth slot basePred

/-- The slots with another base of one of them. -/
def withBase (slots : σ → SlotBases σ) (slot base : σ)
    (arguments : Option (List TemplateExpression)) : σ → SlotBases σ :=
  Function.update slots slot
    { slots slot with
      predecessorSet := (slots slot).predecessorSet.insert base
      baseSlots := (slots slot).baseSlots ++ [(base, arguments)] }

/-- `AddBase`, with or without arguments: the status, and the slots after it. -/
def addBase (order : List σ → List σ) (slots : σ → SlotBases σ) (depth : Nat) (slot base : σ)
    (arguments : Option (List TemplateExpression)) :
    Option (Except String Unit × (σ → SlotBases σ)) :=
  match (checkPredecessors order slots depth slot base).run with
  | none => none
  | some (.error message) => some (.error message, slots)
  | some (.ok ()) => some (.ok (), withBase slots slot base arguments)

/-! ### The specification -/

/-- The base slots of a slot, as often as it has them. -/
def bases (slots : σ → SlotBases σ) (slot : σ) : List σ := (slots slot).baseSlots.map Prod.fst

/-- Slots after successful calls, where no slot derives from another that is still given bases. -/
inductive Built : (σ → SlotBases σ) → Prop
  | declared {slots : σ → SlotBases σ}
      (hnone : ∀ slot, (slots slot).predecessorSet = [] ∧ (slots slot).baseSlots = []) :
      Built slots
  | addBase {slots slots' : σ → SlotBases σ} {order : List σ → List σ} {depth : Nat}
      {slot base : σ} {arguments : Option (List TemplateExpression)} (h : Built slots)
      (horder : ∀ l, (order l).Perm l) (hslot : ∀ other, slot ∉ bases slots other)
      (hne : base ≠ slot)
      (hok : addBase order slots depth slot base arguments = some (.ok (), slots')) :
      Built slots'

/-! ### The search -/

/-- A check ends. -/
def Ends (check : StatusOr Unit) : Prop := ∃ status, check.run = some status

/-- A check that ends returns an error exactly if `P` holds. -/
def Reports (check : StatusOr Unit) (P : Prop) : Prop :=
  ∀ status, check.run = some status → (status = .ok () ↔ ¬P)

theorem ends_bind {check check' : StatusOr Unit} (h : Ends check) (h' : Ends check') :
    Ends (check >>= fun _ => check') := by
  obtain ⟨status, hrun⟩ := h
  obtain ⟨status', hrun'⟩ := h'
  unfold Ends
  rw [ExceptT.run_bind, hrun]
  cases status with
  | error message => exact ⟨.error message, rfl⟩
  | ok u => exact ⟨status', hrun'⟩

theorem reports_bind {check check' : StatusOr Unit} {P Q : Prop} (h : Reports check P)
    (h' : Reports check' Q) : Reports (check >>= fun _ => check') (P ∨ Q) := by
  intro status hstatus
  rw [ExceptT.run_bind] at hstatus
  cases hrun : check.run with
  | none =>
    rw [hrun] at hstatus
    cases hstatus
  | some first =>
    rw [hrun] at hstatus
    have hfirst := h first hrun
    cases first with
    | error message =>
      obtain rfl : Except.error message = status := Option.some.inj hstatus
      have hP : P := by simpa using hfirst
      simp [hP]
    | ok u =>
      have hP : ¬P := hfirst.mp rfl
      simpa [hP] using h' status hstatus

theorem ends_forM {α : Type} {check : α → StatusOr Unit} {l : List α}
    (h : ∀ x ∈ l, Ends (check x)) : Ends (l.forM check) := by
  induction l with
  | nil => exact ⟨.ok (), rfl⟩
  | cons x rest ih =>
    obtain ⟨hx, hrest⟩ := List.forall_mem_cons.mp h
    exact ends_bind hx (ih hrest)

theorem reports_forM {α : Type} {check : α → StatusOr Unit} {P : α → Prop} {l : List α}
    (h : ∀ x ∈ l, Reports (check x) (P x)) : Reports (l.forM check) (∃ x ∈ l, P x) := by
  induction l with
  | nil =>
    intro status hstatus
    obtain rfl : Except.ok () = status := Option.some.inj hstatus
    simp
  | cons x rest ih =>
    obtain ⟨hx, hrest⟩ := List.forall_mem_cons.mp h
    rw [List.exists_mem_cons_iff]
    exact reports_bind hx (ih hrest)

/-- The base reaches a slot from which the slot derives. -/
def Shared (slots : σ → SlotBases σ) (slot base : σ) : Prop :=
  ∃ other, Relation.TransGen (Step (bases slots)) slot other ∧ Reaches (bases slots) base other

variable {slot base : σ} {order : List σ → List σ} {depth : Nat}

omit [DecidableEq σ] in
theorem shared_iff {slots : σ → SlotBases σ} :
    Shared slots slot base ↔ base ∈ bases slots slot ∨
      (∃ pred ∈ bases slots slot, Shared slots pred base) ∨
      ∃ basePred ∈ bases slots base, Shared slots slot basePred := by
  constructor
  · rintro ⟨other, hslot, hbase⟩
    rcases hbase.cases_head with rfl | ⟨basePred, hstep, hrest⟩
    · rcases Relation.TransGen.head'_iff.mp hslot with ⟨pred, hpred, hreaches⟩
      rcases Relation.reflTransGen_iff_eq_or_transGen.mp hreaches with rfl | htrans
      · exact .inl hpred
      · exact .inr (.inl ⟨pred, hpred, base, htrans, .refl⟩)
    · exact .inr (.inr ⟨basePred, hstep, other, hslot, hrest⟩)
  · rintro (hmem | ⟨pred, hpred, other, htrans, hbase⟩ | ⟨basePred, hstep, other, hslot, hrest⟩)
    · exact ⟨base, .single hmem, .refl⟩
    · exact ⟨other, .head hpred htrans, hbase⟩
    · exact ⟨other, hslot, .head hstep hrest⟩

/-- The invariant of the slots. -/
structure Inheritance (slots : σ → SlotBases σ) (rank : σ → Nat) : Prop where
  predecessors : ∀ slot base, base ∈ (slots slot).predecessorSet ↔ base ∈ bases slots slot
  ranked : Ranked (bases slots) rank
  treeLike : ∀ slot, TreeLike (bases slots) slot

variable {slots : σ → SlotBases σ} {rank : σ → Nat}

/-- **The search.** It reports exactly a shared slot. -/
theorem reports_checkPredecessors (hpred : ∀ slot base, base ∈ (slots slot).predecessorSet ↔
      base ∈ bases slots slot) (horder : ∀ l, (order l).Perm l) (depth : Nat) (slot base : σ) :
    Reports (checkPredecessors order slots depth slot base) (Shared slots slot base) := by
  induction depth generalizing slot base with
  | zero => exact nofun
  | succ depth ih =>
    rw [checkPredecessors, shared_iff, ← hpred]
    split
    · rename_i hmem
      intro status hstatus
      obtain rfl := Option.some.inj hstatus
      simp [hmem]
    · rename_i hmem
      rw [eq_false hmem, false_or]
      have hvisited : ∀ slot pred, pred ∈ order (slots slot).predecessorSet ↔
          pred ∈ bases slots slot := fun slot pred => (horder _).mem_iff.trans (hpred slot pred)
      simp only [← hvisited]
      exact reports_bind (reports_forM fun pred _ => ih pred base)
        (reports_forM fun basePred _ => ih slot basePred)

theorem ends_checkPredecessors (hpred : ∀ slot base, base ∈ (slots slot).predecessorSet ↔
      base ∈ bases slots slot) (hranked : Ranked (bases slots) rank)
    (horder : ∀ l, (order l).Perm l) (hdepth : rank slot + rank base < depth) :
    Ends (checkPredecessors order slots depth slot base) := by
  induction depth generalizing slot base with
  | zero => exact absurd hdepth (Nat.not_lt_zero _)
  | succ depth ih =>
    rw [checkPredecessors]
    split
    · exact ⟨_, rfl⟩
    · have hrank : ∀ slot, ∀ pred ∈ order (slots slot).predecessorSet, rank pred < rank slot :=
        fun slot pred hmem => hranked slot pred
          ((hpred slot pred).mp ((horder _).mem_iff.mp hmem))
      refine ends_bind (ends_forM fun pred hpred => ?_)
        (ends_forM fun basePred hbasePred => ?_)
      · have hlt := hrank slot pred hpred
        exact ih (by omega)
      · have hlt := hrank base basePred hbasePred
        exact ih (by omega)

/-! ### Trees -/

theorem bases_withBase (slot base : σ) (arguments : Option (List TemplateExpression)) :
    bases (withBase slots slot base arguments) =
      Function.update (bases slots) slot (bases slots slot ++ [base]) := by
  funext other
  unfold bases withBase
  by_cases hother : other = slot
  · subst hother
    rw [Function.update_self, Function.update_self, List.map_append]
    rfl
  · rw [Function.update_of_ne hother, Function.update_of_ne hother]

theorem predecessors_withBase
    (h : ∀ slot base, base ∈ (slots slot).predecessorSet ↔ base ∈ bases slots slot)
    (slot base : σ) (arguments : Option (List TemplateExpression)) (other pred : σ) :
    pred ∈ (withBase slots slot base arguments other).predecessorSet ↔
      pred ∈ bases (withBase slots slot base arguments) other := by
  rw [bases_withBase]
  unfold withBase
  by_cases hother : other = slot
  · subst hother
    rw [Function.update_self, Function.update_self, List.mem_insert_iff, h, List.mem_append,
      List.mem_singleton, or_comm]
  · rw [Function.update_of_ne hother, Function.update_of_ne hother, h]

omit [DecidableEq σ] in
theorem shared_iff_exists :
    Shared slots slot base ↔ ∃ pred ∈ bases slots slot, ¬ Apart (bases slots) pred base := by
  unfold Shared Apart
  simp only [not_forall, not_not, exists_prop]
  constructor
  · rintro ⟨other, hslot, hbase⟩
    obtain ⟨pred, hpred, hreaches⟩ := Relation.TransGen.head'_iff.mp hslot
    exact ⟨pred, hpred, other, hreaches, hbase⟩
  · rintro ⟨pred, hpred, other, hreaches, hbase⟩
    exact ⟨other, Relation.TransGen.head'_iff.mpr ⟨pred, hpred, hreaches⟩, hbase⟩

theorem treeLike_withBase_iff (h : Inheritance slots rank)
    (hbase : ¬ Reaches (bases slots) base slot) (arguments : Option (List TemplateExpression)) :
    TreeLike (bases (withBase slots slot base arguments)) slot ↔ ¬ Shared slots slot base := by
  rw [bases_withBase, treeLike_update_iff h.ranked (h.treeLike slot) hbase, shared_iff_exists]
  simp only [not_exists, not_and, not_not]
  exact and_iff_right (h.treeLike base)

omit [DecidableEq σ] in
theorem eq_of_reaches {other : σ} (hslot : ∀ other, slot ∉ bases slots other)
    (h : Reaches (bases slots) other slot) : other = slot := by
  rcases h.cases_tail with heq | ⟨last, -, hstep⟩
  · exact heq.symm
  · exact absurd hstep (hslot last)

/-- The invariant is kept by another base of a slot from which none derives. -/
theorem Inheritance.withBase (h : Inheritance slots rank)
    (hslot : ∀ other, slot ∉ bases slots other) (hne : base ≠ slot)
    (hshared : ¬ Shared slots slot base) (arguments : Option (List TemplateExpression)) :
    Inheritance (withBase slots slot base arguments)
      (Function.update rank slot (max (rank slot) (rank base + 1))) := by
  have hbase : ¬ Reaches (bases slots) base slot := fun hreaches =>
    hne (eq_of_reaches hslot hreaches)
  refine ⟨predecessors_withBase h.predecessors slot base arguments,
    fun other pred hpred => ?_, fun other => ?_⟩
  · rw [bases_withBase] at hpred
    by_cases hother : other = slot
    · subst hother
      rw [Function.update_self] at hpred ⊢
      rcases List.mem_append.mp hpred with hpred | hpred
      · have hother : pred ≠ other := by
          rintro rfl
          exact hslot pred hpred
        rw [Function.update_of_ne hother]
        exact lt_max_of_lt_left (h.ranked other pred hpred)
      · obtain rfl := List.mem_singleton.mp hpred
        rw [Function.update_of_ne hne]
        exact lt_max_of_lt_right (Nat.lt_succ_self _)
    · rw [Function.update_of_ne hother] at hpred ⊢
      have hpredNe : pred ≠ slot := by
        rintro rfl
        exact hslot other hpred
      rw [Function.update_of_ne hpredNe]
      exact h.ranked other pred hpred
  · by_cases hother : other = slot
    · subst hother
      exact (treeLike_withBase_iff h hbase arguments).mpr hshared
    · have hsame : ∀ x, Reaches (bases slots) other x →
          Function.update (bases slots) slot (bases slots slot ++ [base]) x = bases slots x := by
        intro x hx
        refine Function.update_of_ne ?_ _ _
        rintro rfl
        exact hother (eq_of_reaches hslot hx)
      rw [bases_withBase]
      exact (treeLike_congr hsame).mpr (h.treeLike other)

theorem addBase_eq_some (h : Inheritance slots rank) (horder : ∀ l, (order l).Perm l)
    {arguments : Option (List TemplateExpression)} {status : Except String Unit}
    {slots' : σ → SlotBases σ}
    (hadd : addBase order slots depth slot base arguments = some (status, slots')) :
    (status = .ok () ↔ ¬ Shared slots slot base) ∧
      slots' = if status = .ok () then withBase slots slot base arguments else slots := by
  have hreports := reports_checkPredecessors h.predecessors horder depth slot base
  unfold addBase at hadd
  split at hadd
  · cases hadd
  · rename_i message hrun
    cases hadd
    exact ⟨hreports _ hrun, rfl⟩
  · rename_i hrun
    cases hadd
    exact ⟨hreports _ hrun, rfl⟩

theorem exists_addBase (hpred : ∀ slot base, base ∈ (slots slot).predecessorSet ↔
      base ∈ bases slots slot) (hranked : Ranked (bases slots) rank)
    (horder : ∀ l, (order l).Perm l) (hdepth : rank slot + rank base < depth)
    (arguments : Option (List TemplateExpression)) :
    ∃ status slots', addBase order slots depth slot base arguments = some (status, slots') := by
  obtain ⟨status, hrun⟩ := ends_checkPredecessors hpred hranked horder hdepth
  unfold addBase
  rw [hrun]
  cases status with
  | error message => exact ⟨_, _, rfl⟩
  | ok u => exact ⟨_, _, rfl⟩

/-- **Runs.** The slots keep the invariant. -/
theorem Built.inheritance (h : Built slots) : ∃ rank, Inheritance slots rank := by
  induction h with
  | @declared slots hnone =>
    have hbases : ∀ slot, bases slots slot = [] := by
      intro slot
      unfold bases
      rw [(hnone slot).2, List.map_nil]
    refine ⟨fun _ => 0, fun slot base => ?_, fun slot pred hpred => ?_, fun slot => ?_⟩
    · rw [(hnone slot).1, hbases]
    · rw [hbases] at hpred
      cases hpred
    · rw [treeLike_iff (by rw [hbases]; exact nofun), hbases]
      exact ⟨nofun, List.Pairwise.nil⟩
  | addBase _ horder hslot hne hok ih =>
    obtain ⟨rank, h⟩ := ih
    obtain ⟨hiff, rfl⟩ := addBase_eq_some h horder hok
    exact ⟨_, h.withBase hslot hne (hiff.mp rfl) _⟩

/-- **Bases.** A slot is given a base, from which it is not itself derived, exactly if then no
    slot is inherited along two paths; otherwise nothing is changed.  The call always ends. -/
theorem addBase_iff_treeLike (h : Built slots) {order : List σ → List σ}
    (horder : ∀ l, (order l).Perm l) {slot base : σ} (hbase : ¬ Reaches (bases slots) base slot)
    (arguments : Option (List TemplateExpression)) :
    (∃ enough, ∀ depth ≥ enough, ∃ result,
        addBase order slots depth slot base arguments = some result) ∧
      ∀ depth status slots',
        addBase order slots depth slot base arguments = some (status, slots') →
        (status = .ok () ↔ TreeLike (bases (withBase slots slot base arguments)) slot) ∧
          (status = .ok () → slots' = withBase slots slot base arguments) ∧
          (status ≠ .ok () → slots' = slots) := by
  obtain ⟨rank, h⟩ := h.inheritance
  refine ⟨⟨rank slot + rank base + 1, fun depth hdepth => ?_⟩, fun depth status slots' hadd => ?_⟩
  · obtain ⟨status, slots', hadd⟩ := exists_addBase h.predecessors h.ranked horder
      (Nat.lt_of_succ_le hdepth) arguments
    exact ⟨(status, slots'), hadd⟩
  · obtain ⟨hiff, hslots⟩ := addBase_eq_some h horder hadd
    rw [treeLike_withBase_iff h hbase]
    refine ⟨hiff, fun hok => ?_, fun hne => ?_⟩
    · rw [hslots, if_pos hok]
    · rw [hslots, if_neg hne]

end

/-- Slots without bases. -/
def noBases (_ : Nat) : SlotBases Nat := ⟨"slot".toList, [], []⟩

/-- The slot 1 derives from the slot 0, and the slot 2 from the slot 1. -/
def twoLevels : Nat → SlotBases Nat := withBase (withBase noBases 1 0 none) 2 1 none

theorem built_twoLevels : Built twoLevels := by
  have hderived : ∀ other, 2 ∉ bases (withBase noBases 1 0 none) other := by
    intro other
    rw [bases_withBase]
    by_cases hother : other = 1
    · subst hother
      decide
    · rw [Function.update_of_ne hother]
      exact List.not_mem_nil
  refine .addBase (.addBase (.declared fun _ => ⟨rfl, rfl⟩) List.Perm.refl ?_ ?_
    (rfl : addBase id noBases 1 1 0 none = _)) List.Perm.refl hderived ?_
    (rfl : addBase id _ 2 2 1 none = _)
  · exact fun other => List.not_mem_nil
  · decide
  · decide

/-- The slot 2 already inherits from the slot 0. -/
theorem addBase_twoLevels : ¬ TreeLike (bases (withBase twoLevels 2 0 none)) 2 := by
  have hbase : ¬ Reaches (bases twoLevels) 0 2 := by
    intro h
    rcases h.cases_head with heq | ⟨base, hstep, -⟩
    · cases heq
    · exact absurd hstep List.not_mem_nil
  intro htree
  have hiff := ((addBase_iff_treeLike built_twoLevels List.Perm.refl hbase none).2 4
    (.error "'slot' is already in the predecessor set of 'slot'") twoLevels rfl).1
  cases hiff.mpr htree

end MpactSim.Isa
