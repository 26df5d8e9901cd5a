import MpactSim.Lib.Run

namespace MpactSim.Lib

/-!
# Forward references

Names may be referred to before they are defined.  A table keeps the names that have been defined,
and those that were referred to before and wait for a definition.  There are definitions that do
not settle this: the name is in the table then, and waits all the same.

* `Names.step` — what a reference or a definition does to the table;
* `mem_waiting_iff` — a name that is not defined waits if it has been referred to;
* `waits_defined_iff` — a name that is defined waits only if its first definition did not settle a
  reference before it.
-/

universe u

variable {ν : Type u} [BEq ν] [LawfulBEq ν]

/-- A reference or a definition. -/
inductive Mention (ν : Type u) where
  | refers (name : ν)
  | defines (name : ν) (settles : Bool)
  deriving DecidableEq

/-- The names that are defined, and those that wait for a definition. -/
structure Names (ν : Type u) where
  defined : List ν
  waiting : List ν

/-- A name is defined once, and waits once. -/
def Names.step (t : Names ν) : Mention ν → Names ν
  | .refers name =>
    if name ∈ t.defined ∨ name ∈ t.waiting then t
    else { t with waiting := t.waiting ++ [name] }
  | .defines name settles =>
    if name ∈ t.defined then t
    else ⟨t.defined ++ [name], if settles then t.waiting.erase name else t.waiting⟩

/-- A reference to a name before its first definition, which does not settle it. -/
def Unsettled (mentions : List (Mention ν)) (name : ν) : Prop :=
  ∃ before between after,
    mentions = before ++ .refers name :: between ++ .defines name false :: after ∧
      ∀ settles, Mention.defines name settles ∉ before ++ between

variable {defined : List ν} {mentions : List (Mention ν)} {name : ν}

theorem mem_defined_step {t : Names ν} {mention : Mention ν} :
    name ∈ (t.step mention).defined ↔
      name ∈ t.defined ∨ ∃ settles, mention = .defines name settles := by
  cases mention with
  | refers other =>
    rw [Names.step]
    split
    · simp
    · simp
  | defines other settles =>
    rw [Names.step]
    split
    · rename_i hother
      simp only [Mention.defines.injEq]
      constructor
      · exact .inl
      · rintro (hname | ⟨_, rfl, -⟩)
        · exact hname
        · exact hother
    · simp [eq_comm]

theorem mem_defined_run :
    name ∈ (run Names.step ⟨defined, []⟩ mentions).defined ↔
      name ∈ defined ∨ ∃ settles, .defines name settles ∈ mentions := by
  induction mentions using List.reverseRecOn with
  | nil => simp
  | append_singleton mentions mention ih =>
    rw [run_snoc, mem_defined_step, ih]
    simp only [List.mem_append, List.mem_singleton, exists_or, or_assoc]
    simp only [eq_comm]

theorem nodup_waiting_run : (run Names.step ⟨defined, []⟩ mentions).waiting.Nodup := by
  induction mentions using List.reverseRecOn with
  | nil => exact List.nodup_nil
  | append_singleton mentions mention ih =>
    rw [run_snoc]
    generalize run Names.step ⟨defined, []⟩ mentions = t at ih
    cases mention with
    | refers other =>
      rw [Names.step]
      split
      · exact ih
      · rename_i hnew
        rw [List.nodup_append]
        refine ⟨ih, List.nodup_singleton _, ?_⟩
        rintro a ha b hb rfl
        exact hnew (.inr (List.mem_singleton.mp hb ▸ ha))
    | defines other settles =>
      rw [Names.step]
      split
      · exact ih
      · show List.Nodup (if settles then _ else _)
        split
        · exact ih.erase other
        · exact ih

theorem mem_waiting_iff (h : name ∉ (run Names.step ⟨defined, []⟩ mentions).defined) :
    name ∈ (run Names.step ⟨defined, []⟩ mentions).waiting ↔ .refers name ∈ mentions := by
  induction mentions using List.reverseRecOn with
  | nil => simp
  | append_singleton mentions mention ih =>
    rw [run_snoc] at h ⊢
    rw [mem_defined_step, not_or] at h
    have ih := ih h.1
    rw [List.mem_append, List.mem_singleton, ← ih]
    generalize run Names.step ⟨defined, []⟩ mentions = t at h
    cases mention with
    | refers other =>
      rw [Names.step]
      split
      · rename_i hold
        constructor
        · exact .inl
        · rintro (hname | hname)
          · exact hname
          · obtain rfl := Mention.refers.inj hname
            exact hold.resolve_left h.1
      · simp
    | defines other settles =>
      have hne : name ≠ other := by
        rintro rfl
        exact h.2 ⟨settles, rfl⟩
      rw [Names.step]
      split
      · simp
      · show name ∈ (if settles then _ else _) ↔ _
        split
        · simp [List.mem_erase_of_ne hne]
        · simp

theorem not_mem_waiting (hname : name ∈ defined) :
    name ∉ (run Names.step ⟨defined, []⟩ mentions).waiting := by
  induction mentions using List.reverseRecOn with
  | nil => exact List.not_mem_nil
  | append_singleton mentions mention ih =>
    have hold : name ∈ (run Names.step ⟨defined, []⟩ mentions).defined :=
      mem_defined_run.mpr (.inl hname)
    rw [run_snoc]
    generalize run Names.step ⟨defined, []⟩ mentions = t at ih hold
    cases mention with
    | refers other =>
      rw [Names.step]
      split
      · exact ih
      · rename_i hnew
        have hne : name ≠ other := by
          rintro rfl
          exact hnew (.inl hold)
        simp [ih, hne]
    | defines other settles =>
      rw [Names.step]
      split
      · exact ih
      · show name ∉ (if settles then _ else _)
        split
        · exact mt List.mem_of_mem_erase ih
        · exact ih

omit [BEq ν] [LawfulBEq ν] in
/-- A reference before a definition that does not settle it, by the last mention. -/
theorem unsettled_snoc {mention : Mention ν} :
    Unsettled (mentions ++ [mention]) name ↔ Unsettled mentions name ∨
      mention = .defines name false ∧ .refers name ∈ mentions ∧
        ∀ settles, Mention.defines name settles ∉ mentions := by
  constructor
  · rintro ⟨before, between, after, hsplit, hfirst⟩
    rcases List.eq_nil_or_concat' after with rfl | ⟨after, last, rfl⟩
    · obtain ⟨rfl, hlast⟩ := List.append_inj' hsplit rfl
      refine .inr ⟨(List.cons.inj hlast).1, by simp, fun settles hmem => hfirst settles ?_⟩
      simpa using hmem
    · rw [← List.cons_append, ← List.append_assoc] at hsplit
      obtain ⟨rfl, -⟩ := List.append_inj' hsplit rfl
      exact .inl ⟨before, between, after, rfl, hfirst⟩
  · rintro (⟨before, between, after, rfl, hfirst⟩ | ⟨rfl, hrefers, hfirst⟩)
    · exact ⟨before, between, after ++ [mention], by simp, hfirst⟩
    · obtain ⟨before, between, rfl⟩ := List.append_of_mem hrefers
      refine ⟨before, between, [], by simp, fun settles hmem => hfirst settles ?_⟩
      rcases List.mem_append.mp hmem with hmem | hmem
      · exact List.mem_append_left _ hmem
      · exact List.mem_append_right _ (List.mem_cons_of_mem _ hmem)

/-- **Forward references.** A name that is defined waits exactly if its first definition does not
    settle a reference before it. -/
theorem waits_defined_iff (hname : name ∉ defined) :
    (name ∈ (run Names.step ⟨defined, []⟩ mentions).waiting ∧
      name ∈ (run Names.step ⟨defined, []⟩ mentions).defined) ↔ Unsettled mentions name := by
  -- Induction on the end of the mentions: only a definition of the name itself makes a difference.
  induction mentions using List.reverseRecOn with
  | nil =>
    apply iff_of_false
    · rintro ⟨⟨⟩, -⟩
    · rintro ⟨before, between, after, hsplit, -⟩
      exact absurd hsplit.symm (by simp)
  | append_singleton mentions mention ih =>
    have hdefined : name ∈ (run Names.step ⟨defined, []⟩ mentions).defined ↔ _ := mem_defined_run
    have hwaiting : name ∉ (run Names.step ⟨defined, []⟩ mentions).defined → _ := mem_waiting_iff
    have hnodup : (run Names.step ⟨defined, []⟩ mentions).waiting.Nodup := nodup_waiting_run
    rw [run_snoc, unsettled_snoc, ← ih]
    generalize run Names.step ⟨defined, []⟩ mentions = t at *
    cases mention with
    | refers other =>
      rw [Names.step]
      split
      · simp
      · rename_i hnew
        have hother : name ∈ t.defined → name ≠ other := by
          rintro hmem rfl
          exact hnew (.inl hmem)
        simp only [List.mem_append, List.mem_singleton, reduceCtorEq, false_and, or_false]
        constructor
        · rintro ⟨hmem | rfl, hd⟩
          · exact ⟨hmem, hd⟩
          · exact absurd rfl (hother hd)
        · rintro ⟨hmem, hd⟩
          exact ⟨.inl hmem, hd⟩
    | defines other settles =>
      rw [Names.step]
      have hfirst (hnot : name ∉ t.defined) (b : Bool) : .defines name b ∉ mentions :=
        fun hmem => hnot (hdefined.mpr (.inr ⟨b, hmem⟩))
      by_cases heq : name = other
      · subst heq
        by_cases hold : name ∈ t.defined
        · rw [if_pos hold]
          apply Iff.symm (or_iff_left _)
          rintro ⟨-, -, hnone⟩
          obtain ⟨b, hb⟩ := (hdefined.mp hold).resolve_left hname
          exact hnone b hb
        · rw [if_neg hold]
          cases settles with
          | true => simp [hold, hnodup.not_mem_erase]
          | false => simp [hold, hwaiting hold, hfirst hold]
      · have hne : Mention.defines other settles ≠ .defines name false := by
          intro hmention
          exact heq (Mention.defines.inj hmention).1.symm
        rw [or_iff_left fun h => hne h.1]
        split
        · rfl
        · show name ∈ (if settles then _ else _) ∧ name ∈ t.defined ++ [other] ↔ _
          split
          · simp [List.mem_erase_of_ne heq, heq]
          · simp [heq]

end MpactSim.Lib
