import Mathlib.Tactic

namespace MpactSim.Lib

/-!
# Inversion of fallible computations

A successful run of a sequence of fallible steps is taken apart into its steps.
-/

universe u v

variable {ε : Type u} {α β : Type v}

theorem bind_eq_ok {x : Except ε α} {f : α → Except ε β} {b : β} :
    (x >>= f) = .ok b ↔ ∃ a, x = .ok a ∧ f a = .ok b := by
  cases x with
  | error e =>
    constructor
    · intro h
      cases h
    · rintro ⟨a, h, -⟩
      cases h
  | ok a =>
    constructor
    · intro h
      exact ⟨a, rfl, h⟩
    · rintro ⟨a', h, hf⟩
      cases h
      exact hf

theorem bind_eq_error {x : Except ε α} {f : α → Except ε β} {e : ε} :
    (x >>= f) = .error e ↔ x = .error e ∨ ∃ a, x = .ok a ∧ f a = .error e := by
  cases x with
  | error e' =>
    constructor
    · intro h
      cases h
      exact .inl rfl
    · rintro (h | ⟨a, h, -⟩)
      · cases h
        rfl
      · cases h
  | ok a =>
    constructor
    · intro h
      exact .inr ⟨a, rfl, h⟩
    · rintro (h | ⟨a', h, hf⟩)
      · cases h
      · cases h
        exact hf

theorem foldlM_eq_error_iff {γ : Type*} {f : α → γ → Except ε α} {l : List γ} {a : α} {e : ε} :
    l.foldlM f a = .error e ↔ ∃ before c after b, l = before ++ c :: after ∧
      before.foldlM f a = .ok b ∧ f b c = .error e := by
  induction l generalizing a with
  | nil =>
    apply iff_of_false
    · rintro ⟨⟩
    · rintro ⟨before, c, after, b, hsplit, -⟩
      exact absurd hsplit.symm (by simp)
  | cons d rest ih =>
    rw [List.foldlM_cons, bind_eq_error]
    constructor
    · rintro (hfirst | ⟨mid, hfirst, hrest⟩)
      · exact ⟨[], d, rest, a, rfl, rfl, hfirst⟩
      · obtain ⟨before, c, after, b, rfl, hbefore, hc⟩ := ih.mp hrest
        exact ⟨d :: before, c, after, b, rfl, bind_eq_ok.mpr ⟨mid, hfirst, hbefore⟩, hc⟩
    · rintro ⟨before, c, after, b, hsplit, hbefore, hc⟩
      cases before with
      | nil =>
        obtain ⟨rfl, rfl⟩ := List.cons.inj hsplit
        cases hbefore
        exact .inl hc
      | cons d' before =>
        obtain ⟨rfl, rfl⟩ := List.cons.inj hsplit
        obtain ⟨mid, hfirst, hbefore⟩ := bind_eq_ok.mp hbefore
        exact .inr ⟨mid, hfirst, ih.mpr ⟨before, c, after, b, rfl, hbefore, hc⟩⟩

theorem exists_error_iff {x : Except ε α} : (∃ e, x = .error e) ↔ ¬∃ a, x = .ok a := by
  cases x with
  | error e => simp
  | ok a => simp

theorem ite_error_eq_ok {c : Prop} [Decidable c] {e : ε} {x : Except ε α} {a : α} :
    (if c then .error e else x) = .ok a ↔ ¬c ∧ x = .ok a := by
  by_cases h : c
  · simp [h]
  · simp [h]

theorem eq_ok_getD {x : Except ε α} (h : x.isOk = true) (d : α) :
    x = .ok (x.toOption.getD d) := by
  cases x with
  | error e => cases h
  | ok a => rfl

theorem of_toOption_map {β : Type*} {x : Except ε α} {a : α} {b : β} (h : x = .ok a) (f : α → β)
    (hf : x.toOption.map f = some b) : f a = b := by
  rw [h] at hf
  exact Option.some.inj hf

/-- If `f` succeeds on every element of a list, `mapM` does, with a result for each element. -/
theorem exists_mapM_eq_some {γ : Type*} {f : γ → Option α} {P : γ → α → Prop} {l : List γ}
    (h : ∀ c ∈ l, ∃ a, f c = some a ∧ P c a) :
    ∃ results, l.mapM f = some results ∧ (∀ c ∈ l, ∃ a ∈ results, P c a) ∧
      ∀ a ∈ results, ∃ c ∈ l, P c a := by
  induction l with
  | nil => exact ⟨[], rfl, by simp, by simp⟩
  | cons c rest ih =>
    obtain ⟨a, ha, hP⟩ := h c List.mem_cons_self
    obtain ⟨results, hrest, hevery, hsource⟩ := ih fun c' hc' => h c' (List.mem_cons_of_mem c hc')
    refine ⟨a :: results, by rw [List.mapM_cons, ha, hrest]; rfl, ?_, ?_⟩
    · rintro c' hc'
      rcases List.mem_cons.mp hc' with rfl | hc'
      · exact ⟨a, List.mem_cons_self, hP⟩
      · obtain ⟨a', ha', hP'⟩ := hevery c' hc'
        exact ⟨a', List.mem_cons_of_mem a ha', hP'⟩
    · rintro a' ha'
      rcases List.mem_cons.mp ha' with rfl | ha'
      · exact ⟨c, List.mem_cons_self, hP⟩
      · obtain ⟨c', hc', hP'⟩ := hsource a' ha'
        exact ⟨c', List.mem_cons_of_mem c hc', hP'⟩

theorem isSome_mapM_iff {γ : Type*} {f : γ → Option α} {l : List γ} :
    (l.mapM f).isSome ↔ ∀ c ∈ l, (f c).isSome := by
  induction l with
  | nil => simp
  | cons c rest ih =>
    rw [List.mapM_cons, List.forall_mem_cons, ← ih]
    cases f c with
    | none => simp
    | some a => cases rest.mapM f <;> simp

theorem isSome_foldlM_iff {γ : Type*} {f : α → γ → Option α} {p : γ → Prop}
    (h : ∀ a c, (f a c).isSome ↔ p c) {l : List γ} (a : α) :
    (l.foldlM f a).isSome ↔ ∀ c ∈ l, p c := by
  induction l generalizing a with
  | nil => simp
  | cons c rest ih =>
    rw [List.foldlM_cons, List.forall_mem_cons, ← h a c]
    cases f a c with
    | none => simp
    | some b => simpa using ih b

theorem mapM_eq_some_map {γ : Type*} {f : γ → Option α} {g : γ → α} {l : List γ}
    (h : ∀ c ∈ l, f c = some (g c)) : l.mapM f = some (l.map g) := by
  induction l with
  | nil => rfl
  | cons c rest ih =>
    rw [List.mapM_cons, h c List.mem_cons_self, ih fun c' hc' => h c' (List.mem_cons_of_mem c hc')]
    rfl

theorem exists_of_mapM_eq_some {γ : Type*} {f : γ → Option α} {l : List γ} {results : List α}
    (h : l.mapM f = some results) {a : α} (ha : a ∈ results) : ∃ c ∈ l, f c = some a := by
  induction l generalizing results with
  | nil =>
    rw [List.mapM_nil] at h
    cases h
    exact absurd ha List.not_mem_nil
  | cons c rest ih =>
    rw [List.mapM_cons] at h
    obtain ⟨first, hfirst, h⟩ := Option.bind_eq_some_iff.mp h
    obtain ⟨tail, htail, h⟩ := Option.bind_eq_some_iff.mp h
    cases h
    rcases List.mem_cons.mp ha with rfl | ha
    · exact ⟨c, List.mem_cons_self .., hfirst⟩
    · obtain ⟨c', hc', hf⟩ := ih htail ha
      exact ⟨c', List.mem_cons_of_mem _ hc', hf⟩

/-- The results of a map that succeeds stand at the places of what they come from. -/
theorem getElem?_of_mapM_eq_ok {γ : Type v} {f : γ → Except ε α} {l : List γ} {results : List α}
    (h : l.mapM f = .ok results) (i : Nat) :
    match l[i]? with
    | none => results[i]? = none
    | some c => ∃ a, results[i]? = some a ∧ f c = .ok a := by
  induction l generalizing results i with
  | nil =>
    rw [List.mapM_nil] at h
    cases h
    rfl
  | cons c rest ih =>
    rw [List.mapM_cons] at h
    obtain ⟨first, hfirst, h⟩ := bind_eq_ok.mp h
    obtain ⟨tail, htail, h⟩ := bind_eq_ok.mp h
    cases h
    cases i with
    | zero => exact ⟨first, rfl, hfirst⟩
    | succ i => exact ih htail i

theorem mapM_eq_error_iff {γ : Type v} {f : γ → Except ε α} {l : List γ} :
    (∃ e, l.mapM f = .error e) ↔ ∃ c ∈ l, ∃ e, f c = .error e := by
  induction l with
  | nil =>
    apply iff_of_false
    · rintro ⟨e, ⟨⟩⟩
    · rintro ⟨c, hc, -⟩
      cases hc
  | cons c rest ih =>
    rw [List.mapM_cons, List.exists_mem_cons_iff, ← ih]
    cases f c with
    | error e => exact iff_of_true ⟨e, rfl⟩ (.inl ⟨e, rfl⟩)
    | ok a =>
      cases rest.mapM f with
      | error e => exact iff_of_true ⟨e, rfl⟩ (.inr ⟨e, rfl⟩)
      | ok results =>
        apply iff_of_false
        · rintro ⟨e, ⟨⟩⟩
        · rintro (⟨e, ⟨⟩⟩ | ⟨e, ⟨⟩⟩)

theorem forall₂_of_mapM_eq_ok {γ : Type v} {f : γ → Except ε α} {l : List γ} {results : List α}
    (h : l.mapM f = .ok results) : List.Forall₂ (fun c a => f c = .ok a) l results := by
  induction l generalizing results with
  | nil =>
    cases h
    exact .nil
  | cons c rest ih =>
    rw [List.mapM_cons] at h
    obtain ⟨first, hfirst, h⟩ := bind_eq_ok.mp h
    obtain ⟨tail, htail, h⟩ := bind_eq_ok.mp h
    cases h
    exact .cons hfirst (ih htail)

theorem forall₂_of_mapM_eq_some {γ : Type*} {f : γ → Option α} {l : List γ} {results : List α}
    (h : l.mapM f = some results) : List.Forall₂ (fun c a => f c = some a) l results := by
  induction l generalizing results with
  | nil =>
    cases h
    exact .nil
  | cons c l ih =>
    rw [List.mapM_cons] at h
    obtain ⟨a, ha, h⟩ := Option.bind_eq_some_iff.mp h
    obtain ⟨rest, hrest, h⟩ := Option.bind_eq_some_iff.mp h
    cases h
    exact .cons ha (ih hrest)

/-- **Invariant rule.** What every successful step keeps, a successful fold keeps. -/
theorem foldlM_invariant {γ : Type*} {f : α → γ → Option α} (P : α → Prop) {l : List γ}
    (hstep : ∀ a, ∀ c ∈ l, ∀ b, P a → f a c = some b → P b) {a b : α}
    (h : l.foldlM f a = some b) (ha : P a) : P b := by
  induction l generalizing a with
  | nil =>
    cases h
    exact ha
  | cons c rest ih =>
    rw [List.foldlM_cons, Option.bind_eq_bind, Option.bind_eq_some_iff] at h
    obtain ⟨mid, hmid, hrest⟩ := h
    exact ih (fun a c hc => hstep a c (List.mem_cons_of_mem _ hc)) hrest
      (hstep a c (List.mem_cons_self ..) mid ha hmid)

/-- The invariant rule with what has been done: what a successful step with one more keeps, a
    successful fold establishes. -/
theorem foldlM_done {γ : Type*} {f : α → γ → Option α} (P : List γ → α → Prop) {l : List γ}
    (hstep : ∀ done, ∀ c ∈ l, ∀ a b, P done a → f a c = some b → P (done ++ [c]) b) {a b : α}
    (h : l.foldlM f a = some b) (ha : P [] a) : P l b := by
  suffices hrest : ∀ rest done a, (∀ c ∈ rest, c ∈ l) → P done a → rest.foldlM f a = some b →
      P (done ++ rest) b from hrest l [] a (fun _ => id) ha h
  intro rest
  induction rest with
  | nil =>
    intro done a _ ha h
    cases h
    rwa [List.append_nil]
  | cons c rest ih =>
    intro done a hmem ha h
    rw [List.foldlM_cons, Option.bind_eq_bind, Option.bind_eq_some_iff] at h
    obtain ⟨mid, hmid, h⟩ := h
    have hP := ih (done ++ [c]) mid (fun d hd => hmem d (List.mem_cons_of_mem _ hd))
      (hstep done c (hmem c (List.mem_cons_self ..)) a mid ha hmid) h
    rwa [List.append_assoc, List.singleton_append] at hP

/-- **Loop rule.** If every step succeeds and takes the invariant of what has been done to
    the invariant with one more, the whole fold succeeds. -/
theorem foldlM_exists {γ : Type*} {f : α → γ → Option α} (P : List γ → α → Prop) {l : List γ}
    (hstep : ∀ done, ∀ c ∈ l, ∀ a, P done a → ∃ b, f a c = some b ∧ P (done ++ [c]) b) {a : α}
    (ha : P [] a) : ∃ b, l.foldlM f a = some b ∧ P l b := by
  -- Induction on the steps that are left, with those that are done as a prefix.
  suffices h : ∀ rest done a, (∀ c ∈ rest, c ∈ l) → P done a →
      ∃ b, rest.foldlM f a = some b ∧ P (done ++ rest) b from h l [] a (fun _ => id) ha
  intro rest
  induction rest with
  | nil =>
    intro done a _ ha
    exact ⟨a, rfl, by rwa [List.append_nil]⟩
  | cons c rest ih =>
    intro done a hmem ha
    obtain ⟨mid, hmid, hP⟩ := hstep done c (hmem c (List.mem_cons_self ..)) a ha
    obtain ⟨b, hb, hPb⟩ := ih (done ++ [c]) mid (fun d hd => hmem d (List.mem_cons_of_mem _ hd)) hP
    refine ⟨b, ?_, ?_⟩
    · rw [List.foldlM_cons, hmid]
      exact hb
    · rwa [List.append_assoc, List.singleton_append] at hPb

/-! ### Lists related one by one -/

theorem foldlM_flatMap_of_foldlM {γ δ : Type*} {f : α → γ → Option α} {g : α → δ → Option α}
    {items : γ → List δ} (P : α → Prop)
    (hstep : ∀ x a b, P a → f a x = some b → (items x).foldlM g a = some b ∧ P b)
    {l : List γ} {a b : α} (ha : P a) (h : l.foldlM f a = some b) :
    (l.flatMap items).foldlM g a = some b := by
  induction l generalizing a with
  | nil => exact h
  | cons x rest ih =>
    rw [List.foldlM_cons] at h
    obtain ⟨mid, hmid, hrest⟩ := Option.bind_eq_some_iff.mp h
    obtain ⟨hitems, hP⟩ := hstep x a mid ha hmid
    rw [List.flatMap_cons, List.foldlM_append, hitems]
    exact ih hP hrest

/-- The converse: a loop over all the rounds of the inner loops is the outer one. -/
theorem foldlM_of_foldlM_flatMap {γ δ : Type*} {f : α → γ → Option α} {g : α → δ → Option α}
    {items : γ → List δ} (P : α → Prop) {l : List γ}
    (hstep : ∀ x ∈ l, ∀ a b, P a → (items x).foldlM g a = some b → f a x = some b ∧ P b)
    {a b : α} (ha : P a) (h : (l.flatMap items).foldlM g a = some b) : l.foldlM f a = some b := by
  induction l generalizing a with
  | nil => exact h
  | cons x rest ih =>
    rw [List.flatMap_cons, List.foldlM_append] at h
    obtain ⟨mid, hmid, hrest⟩ := Option.bind_eq_some_iff.mp h
    obtain ⟨hstep', hP⟩ := hstep x List.mem_cons_self a mid ha hmid
    rw [List.foldlM_cons, hstep']
    exact ih (fun y hy => hstep y (List.mem_cons_of_mem _ hy)) hP hrest

/-- **Refinement of loops.** A loop each of whose rounds has a result that is related to that of the
    other loop has one itself. -/
theorem foldlM_refines {β γ : Type*} {f : α → γ → Option α} {g : β → γ → β} (R : α → β → Prop)
    {l : List γ} (hstep : ∀ x ∈ l, ∀ a b, R a b → ∃ a', f a x = some a' ∧ R a' (g b x)) {a : α}
    {b : β} (h : R a b) : ∃ a', l.foldlM f a = some a' ∧ R a' (l.foldl g b) := by
  induction l generalizing a b with
  | nil => exact ⟨a, rfl, h⟩
  | cons x rest ih =>
    obtain ⟨mid, hmid, hR⟩ := hstep x List.mem_cons_self a b h
    obtain ⟨a', hrest, hR'⟩ := ih (fun y hy => hstep y (List.mem_cons_of_mem _ hy)) hR
    refine ⟨a', ?_, hR'⟩
    rw [List.foldlM_cons, hmid]
    exact hrest

theorem exists_of_forall₂ {α β : Type*} {R : α → β → Prop} {l : List α} {l' : List β}
    (h : List.Forall₂ R l l') {b : β} (hb : b ∈ l') : ∃ a ∈ l, R a b := by
  induction h with
  | nil => cases hb
  | cons hab _ ih =>
    rcases List.mem_cons.mp hb with rfl | hb
    · exact ⟨_, List.mem_cons_self, hab⟩
    · obtain ⟨a, ha, hR⟩ := ih hb
      exact ⟨a, List.mem_cons_of_mem _ ha, hR⟩

theorem forall₂_imp_of_mem {α β : Type*} {R S : α → β → Prop} {l : List α} {l' : List β}
    (h : List.Forall₂ R l l') (himp : ∀ a ∈ l, ∀ b, R a b → S a b) : List.Forall₂ S l l' := by
  induction h with
  | nil => exact .nil
  | @cons a b l l' hab _ ih =>
    exact .cons (himp a List.mem_cons_self b hab)
      (ih fun a ha => himp a (List.mem_cons_of_mem _ ha))

theorem map_eq_of_forall₂ {α β : Type*} {R : α → β → Prop} {f : β → α} {l : List α} {l' : List β}
    (h : List.Forall₂ R l l') (hf : ∀ a ∈ l, ∀ b, R a b → f b = a) : l'.map f = l := by
  induction h with
  | nil => rfl
  | @cons a b l l' hab _ ih =>
    rw [List.map_cons, hf a List.mem_cons_self b hab,
      ih fun a ha => hf a (List.mem_cons_of_mem _ ha)]

end MpactSim.Lib
