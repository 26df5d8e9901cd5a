import MpactSim.Decoder.Generators
import MpactSim.Lib.Scans
import MpactSim.Lib.Separators
import Mathlib.Tactic

namespace MpactSim.Decoder

open Lib

/-!
# Expansions of generators

The visitors replace the references to one variable after the other in the text that they have so
far.  A text stands for its characters and references (`references`), and as long as no `$` of a
value comes before a `(`, a substitution in the text is one in these.

* `Settled`     — no reference begins at a character;
* `put`         — the substitution for one variable;
* `generate_eq` — what is expanded for a checked generator and plain values.
-/

variable {name : BindingName} {names : List BindingName} {parts : List (Char ⊕ BindingName)}
  {value text : List Char}

/-! ### Texts and references -/

variable {c : Char} {name' : BindingName} {binding : Binding} {assign : RangeAssignment}
  {assigns : List RangeAssignment}

theorem BindingName.notMem (name : BindingName) (hc : isIdentChar c = false) : c ∉ name.text := by
  intro hmem
  rw [name.isIdentChar_of_mem c hmem] at hc
  cases hc

theorem BindingName.text_inj (h : name.text = name'.text) : name = name' := by
  obtain ⟨text, _, _⟩ := name
  obtain ⟨text', _, _⟩ := name'
  obtain rfl : text = text' := h
  rfl

theorem reference_eq (name : BindingName) :
    reference name = '$' :: '(' :: (name.text ++ [')']) := rfl

theorem reference_ne_nil (name : BindingName) : reference name ≠ [] := List.cons_ne_nil _ _

theorem reference_prefix_iff : reference name <+: reference name' ++ text ↔ name = name' := by
  constructor
  · rintro ⟨rest, h⟩
    simp only [reference_eq, List.cons_append, List.append_assoc, List.cons.injEq, true_and,
      List.nil_append] at h
    exact BindingName.text_inj (cut_inj (name.notMem (by decide)) (name'.notMem (by decide)) h).1
  · rintro rfl
    exact List.prefix_append _ _

theorem findReference_eq_none (h : ∀ name, ¬reference name <+: text) :
    findReference names text = none := by
  rw [findReference, Option.map_eq_none_iff, List.find?_eq_none]
  intro name _ hpre
  exact h name (of_decide_eq_true hpre)

theorem findReference_reference (h : name ∈ names) :
    findReference names (reference name ++ text) = some (name, (reference name).length) := by
  have hfind : (names.find? fun name' => reference name' <+: reference name ++ text) = some name := by
    cases hfound : names.find? fun name' => reference name' <+: reference name ++ text with
    | none =>
      rw [List.find?_eq_none] at hfound
      exact absurd (decide_eq_true (List.prefix_append _ _)) (hfound name h)
    | some name' =>
      have hpre : reference name' <+: reference name ++ text := by
        simpa using List.find?_some hfound
      rw [reference_prefix_iff.mp hpre]
  rw [findReference, hfind, Option.map_some]

theorem findReference_some {length : ℕ} (h : findReference names text = some (name, length)) :
    name ∈ names ∧ reference name <+: text ∧ (reference name).length = length := by
  obtain ⟨name', hfound, heq⟩ := Option.map_eq_some_iff.mp h
  obtain ⟨rfl, rfl⟩ := Prod.mk.inj heq
  exact ⟨List.mem_of_find?_eq_some hfound, by simpa using List.find?_some hfound, rfl⟩

theorem fill_references (names : List BindingName) (text : List Char) :
    fill reference (references names text) = text :=
  fill_readFrom (fun _ _ _ h => (findReference_some h).2) reference_ne_nil 0 text

theorem mem_mentioned : name ∈ mentioned parts ↔ .inr name ∈ parts := by
  rw [mentioned, List.mem_filterMap]
  constructor
  · rintro ⟨part, hpart, hname⟩
    cases part with
    | inl c => cases hname
    | inr name' =>
      obtain rfl := Option.some.inj hname
      exact hpart
  · exact fun h => ⟨_, h, rfl⟩

/-! ### Substitutions -/

/-- What is behind a `$` does not make a reference of it: a character other than `(`, or nothing
    with a `)`. -/
def Closed (parts : List (Char ⊕ BindingName)) : Prop :=
  (∃ d rest, parts = .inl d :: rest ∧ d ≠ '(') ∨ ∀ part ∈ parts, ∃ d, part = .inl d ∧ d ≠ ')'

/-- No reference begins at a character. -/
def Settled : List (Char ⊕ BindingName) → Prop
  | [] => True
  | .inr _ :: parts => Settled parts
  | .inl c :: parts => (c = '$' → Closed parts) ∧ Settled parts

/-- The value of a variable in place of its references. -/
def put (name : BindingName) (value : List Char) (parts : List (Char ⊕ BindingName)) :
    List (Char ⊕ BindingName) :=
  parts.flatMap (Sum.elim (fun c => [.inl c])
    fun name' => if name' = name then value.map .inl else [.inr name'])

@[simp] theorem put_nil : put name value [] = [] := rfl

@[simp] theorem put_inl (c : Char) :
    put name value (.inl c :: parts) = .inl c :: put name value parts := rfl

theorem put_inr_self : put name value (.inr name :: parts) = value.map .inl ++ put name value parts := by
  simp [put]

theorem put_inr_of_ne (h : name' ≠ name) :
    put name value (.inr name' :: parts) = .inr name' :: put name value parts := by
  simp [put, h]

theorem mentioned_put :
    mentioned (put name value parts) = (mentioned parts).filter (· ≠ name) := by
  induction parts with
  | nil => rfl
  | cons part parts ih =>
    cases part with
    | inl c => exact ih
    | inr name' =>
      by_cases h : name' = name
      · subst h
        rw [put_inr_self, mentioned, List.filterMap_append]
        show _ ++ mentioned (put name' value parts) = _
        rw [ih]
        simp [mentioned, List.filterMap_map]
      · rw [put_inr_of_ne h]
        show name' :: mentioned (put name value parts) = (name' :: mentioned parts).filter _
        rw [ih, List.filter_cons_of_pos (by simpa using h)]

theorem put_of_notMem (h : name ∉ mentioned parts) : put name value parts = parts := by
  induction parts with
  | nil => rfl
  | cons part parts ih =>
    cases part with
    | inl c => rw [put_inl, ih h]
    | inr name' =>
      obtain ⟨hne, hrest⟩ := not_or.mp (mt List.mem_cons.mpr h)
      rw [put_inr_of_ne (Ne.symm hne), ih hrest]

theorem not_reference_prefix (h : Closed parts) :
    ¬reference name <+: '$' :: fill reference parts := by
  rintro ⟨rest, hrest⟩
  rw [reference_eq, List.cons_append, List.cons.injEq] at hrest
  rcases h with ⟨d, rest', rfl, hd⟩ | hall
  · rw [fill_inl, List.cons_append, List.cons.injEq] at hrest
    exact hd hrest.2.1.symm
  · have hmem : ')' ∈ fill reference parts := by
      rw [← hrest.2]
      simp
    obtain ⟨part, hpart, hc⟩ := List.mem_flatMap.mp hmem
    obtain ⟨d, rfl, hd⟩ := hall part hpart
    exact hd (List.mem_singleton.mp hc).symm

/-- The regular expression finds the references. -/
theorem replaceAll_fill (h : Settled parts) :
    replaceAll (reference name) value (fill reference parts) =
      (fill reference (put name value parts), (mentioned parts).count name) := by
  induction parts with
  | nil => rfl
  | cons part parts ih =>
    cases part with
    | inl c =>
      have hno : ¬reference name <+: c :: fill reference parts := by
        by_cases hc : c = '$'
        · subst hc
          exact not_reference_prefix (h.1 rfl)
        · intro hpre
          exact hc (List.cons_prefix_cons.mp hpre).1.symm
      rw [fill_inl, replaceAll_char hno, ih h.2, put_inl, fill_inl]
      rfl
    | inr name' =>
      rw [fill_inr]
      by_cases heq : name' = name
      · subst heq
        rw [replaceAll_match (reference_ne_nil name'), ih h, put_inr_self, fill_append,
          fill_map_inl]
        simp [mentioned]
      · -- The other reference is passed over: first the `$`, then what is without one.
        have hno : ¬reference name <+: reference name' ++ fill reference parts :=
          mt reference_prefix_iff.mp (Ne.symm heq)
        have hrest : '$' ∉ '(' :: (name'.text ++ [')']) := by
          have := name'.notMem (by decide : isIdentChar '$' = false)
          simp [this]
        rw [put_inr_of_ne heq, fill_inr]
        rw [reference_eq name', List.cons_append] at hno ⊢
        rw [replaceAll_char hno, reference_eq name, replaceAll_append hrest, ← reference_eq, ih h]
        simp [mentioned, List.count_cons_of_ne heq]

theorem Plain.of_cons (h : Plain (c :: value)) : Plain value :=
  ⟨fun hmem => h.no_backslash (List.mem_cons_of_mem c hmem),
    fun hwithin => h.no_open (hwithin.trans (List.suffix_cons c value).isInfix),
    fun hsuffix => h.no_end (hsuffix.trans (List.suffix_cons c value))⟩

theorem settled_append_value (hvalue : Plain value) (h : Settled parts) :
    Settled (value.map .inl ++ parts) := by
  induction value with
  | nil => exact h
  | cons c value ih =>
    refine ⟨?_, ih hvalue.of_cons⟩
    rintro rfl
    cases value with
    | nil => exact absurd (List.suffix_refl _) hvalue.no_end
    | cons d value =>
      refine .inl ⟨d, _, rfl, ?_⟩
      rintro rfl
      exact hvalue.no_open ⟨[], value, rfl⟩

theorem Closed.put (h : Closed parts) : Closed (put name value parts) := by
  rcases h with ⟨d, rest, rfl, hd⟩ | hall
  · exact .inl ⟨d, _, rfl, hd⟩
  · have hno : name ∉ mentioned parts := by
      intro hmem
      obtain ⟨d, hd, -⟩ := hall _ (mem_mentioned.mp hmem)
      cases hd
    rw [put_of_notMem hno]
    exact .inr hall

theorem Settled.put (hvalue : Plain value) (h : Settled parts) :
    Settled (put name value parts) := by
  induction parts with
  | nil => trivial
  | cons part parts ih =>
    cases part with
    | inl c => exact ⟨fun hc => (h.1 hc).put, ih h.2⟩
    | inr name' =>
      by_cases heq : name' = name
      · subst heq
        rw [put_inr_self]
        exact settled_append_value hvalue (ih h)
      · rw [put_inr_of_ne heq]
        exact ih h

/-! ### One set of values -/

/-- The substitutions for several variables, one after the other. -/
def putAll (binding : Binding) (parts : List (Char ⊕ BindingName)) : List (Char ⊕ BindingName) :=
  binding.foldl (fun parts p => put p.1 p.2 parts) parts

theorem putAll_append (binding binding' : Binding) :
    putAll (binding ++ binding') parts = putAll binding' (putAll binding parts) :=
  List.foldl_append

theorem mentioned_putAll :
    mentioned (putAll binding parts) =
      (mentioned parts).filter fun name => name ∉ binding.map Prod.fst := by
  induction binding generalizing parts with
  | nil => simp [putAll]
  | cons p binding ih =>
    show mentioned (putAll binding (put p.1 p.2 parts)) = _
    rw [ih, mentioned_put, List.filter_filter]
    apply List.filter_congr
    intro name _
    have hmem : name ∈ (p :: binding).map Prod.fst ↔ name = p.1 ∨ name ∈ binding.map Prod.fst :=
      List.mem_cons
    simp only [hmem]
    simp [Bool.and_comm]

theorem Settled.putAll (h : Settled parts) (hplain : ∀ p ∈ binding, Plain p.2) :
    Settled (putAll binding parts) := by
  induction binding generalizing parts with
  | nil => exact h
  | cons p binding ih =>
    exact ih (h.put (hplain p List.mem_cons_self))
      fun q hq => hplain q (List.mem_cons_of_mem p hq)

theorem fill_put (textOf : BindingName → List Char) :
    fill textOf (put name value parts) = fill (Function.update textOf name value) parts := by
  induction parts with
  | nil => rfl
  | cons part parts ih =>
    cases part with
    | inl c => rw [put_inl, fill_inl, fill_inl, ih]
    | inr name' =>
      by_cases heq : name' = name
      · subst heq
        rw [put_inr_self, fill_append, fill_map_inl, ih, fill_inr, Function.update_self]
      · rw [put_inr_of_ne heq, fill_inr, ih, fill_inr, Function.update_of_ne heq]

theorem Binding.value_cons (p : BindingName × List Char) (binding : Binding) :
    Binding.value (p :: binding) = Function.update (Binding.value binding) p.1 p.2 := by
  funext name
  rw [Function.update_apply, value, List.lookup_cons]
  split
  · rename_i heq
    rw [if_pos (by simpa using heq), Option.getD_some]
  · rename_i heq
    rw [if_neg (by simpa using heq), value]

theorem fill_putAll (h : ∀ name ∈ mentioned parts, name ∈ binding.map Prod.fst) :
    fill reference (putAll binding parts) = fill binding.value parts := by
  induction binding generalizing parts with
  | nil =>
    have hnone (part : Char ⊕ BindingName) (hpart : part ∈ parts) : ∃ c, part = .inl c := by
      cases part with
      | inl c => exact ⟨c, rfl⟩
      | inr name => exact absurd (h name (mem_mentioned.mpr hpart)) List.not_mem_nil
    apply List.flatMap_congr
    intro part hpart
    obtain ⟨c, rfl⟩ := hnone part hpart
    rfl
  | cons p binding ih =>
    show fill reference (putAll binding (put p.1 p.2 parts)) = _
    rw [ih, fill_put, Binding.value_cons]
    intro name hname
    rw [mentioned_put, List.mem_filter] at hname
    have hne : name ≠ p.1 := by simpa using hname.2
    exact (List.mem_cons.mp (h name hname.1)).resolve_left hne

/-! ### The ranges as the visitors keep them -/

/-- How the visitors keep a range. -/
def RangeAssignment.info : RangeAssignment → RangeAssignmentInfo
  | single ident genValues => ⟨[ident], [genValues.map GenValue.text], [bindingRegex ident]⟩
  | tuples ident idents valueLists =>
    ⟨ident :: idents, pushTuples ((ident :: idents).map fun _ => []) valueLists,
      (ident :: idents).map bindingRegex⟩

/-- Every tuple has as many values as there are identifiers. -/
def RangeAssignment.Complete : RangeAssignment → Prop
  | single _ _ => True
  | tuples ident idents valueLists => ∀ values ∈ valueLists, values.length = (ident :: idents).length

theorem pushTuples_eq {valueLists : List (List GenValue)}
    (h : ∀ values ∈ valueLists, values.length = names.length) :
    pushTuples (names.map fun _ => []) valueLists = (List.range names.length).map fun j =>
      valueLists.map fun values => (values.map GenValue.text).getD j [] := by
  induction valueLists using List.reverseRecOn with
  | nil =>
    apply List.ext_getElem
    · simp [pushTuples]
    · simp [pushTuples]
  | append_singleton before values ih =>
    have hvalues := h values (List.mem_concat_self ..)
    have hbefore := ih fun vs hvs => h vs (List.mem_append_left _ hvs)
    rw [pushTuples] at hbefore ⊢
    rw [List.foldl_append, hbefore, List.foldl_cons, List.foldl_nil]
    apply List.ext_getElem
    · simp [hvalues]
    · intro j hj hj'
      simp at hj hj' ⊢
      rw [List.getElem?_eq_getElem hj.2]
      rfl

theorem RangeAssignment.length_rangeValues (h : assign.Complete) :
    (assign.info.rangeValues.headD []).length = assign.bindings.length := by
  cases assign with
  | single ident genValues => simp [info, bindings]
  | tuples ident idents valueLists =>
    have hcolumns := pushTuples_eq h
    rw [info, bindings, hcolumns, List.length_cons, List.range_succ_eq_map]
    simp

theorem RangeAssignment.zip_rangeValues (h : assign.Complete) {i : ℕ}
    (hi : i < assign.bindings.length) :
    assign.idents.zip (assign.info.rangeValues.map (·.getD i [])) = assign.bindings[i] := by
  cases assign with
  | single ident genValues =>
    rw [bindings, List.length_map] at hi
    simp [info, bindings, idents, hi]
  | tuples ident idents valueLists =>
    rw [bindings, List.length_map] at hi
    have hcolumns := pushTuples_eq h
    have hlen := h _ (List.getElem_mem hi)
    simp only [info, bindings, RangeAssignment.idents, hcolumns, List.getElem_map]
    congr 1
    apply List.ext_getElem
    · simp [hlen]
    · intro j hj hj'
      simp at hj hj' ⊢
      simp [hi, hj']

theorem RangeAssignment.map_fst (h : assign.Complete) (hbinding : binding ∈ assign.bindings) :
    binding.map Prod.fst = assign.idents := by
  cases assign with
  | single ident genValues =>
    obtain ⟨value, _, rfl⟩ := List.mem_map.mp hbinding
    rfl
  | tuples ident idents valueLists =>
    obtain ⟨values, hvalues, rfl⟩ := List.mem_map.mp hbinding
    apply List.map_fst_zip
    rw [List.length_map, h values hvalues]

/-! ### The expansion -/

section Expansion

variable {globalReplace : List Char → List Char → List Char → List Char × ℕ}
  (hreplaces : ReplacesReferences globalReplace)

/-- The substitutions for one set of values in a text. -/
def substituteBinding (globalReplace : List Char → List Char → List Char → List Char × ℕ)
    (binding : Binding) (start : List Char × ℕ) : List Char × ℕ :=
  binding.foldl (fun (template, replaceCount) (name, value) =>
    let (template', count) := globalReplace template (bindingRegex name) value
    (template', replaceCount + count)) start

theorem substituteValues_eq (h : assign.Complete) {i : ℕ} (hi : i < assign.bindings.length)
    (template : List Char) :
    substituteValues globalReplace i template assign.info =
      substituteBinding globalReplace assign.bindings[i] (template, 0) := by
  have hregexes : assign.info.rangeRegexes = assign.idents.map bindingRegex := by
    cases assign <;> rfl
  rw [← assign.zip_rangeValues h hi, substituteValues, substituteBinding, hregexes,
    List.zip_map_left, List.zip_map_right, List.foldl_map, List.foldl_map]
  rfl

include hreplaces

/-- A set of plain values is put into the text, and the references are counted. -/
theorem substituteBinding_fill (h : Settled parts) (hplain : ∀ p ∈ binding, Plain p.2)
    (hnodup : (binding.map Prod.fst).Nodup) (count : ℕ) :
    substituteBinding globalReplace binding (fill reference parts, count) =
      (fill reference (putAll binding parts),
        count + (binding.map fun p => (mentioned parts).count p.1).sum) := by
  induction binding generalizing parts count with
  | nil => rfl
  | cons p binding ih =>
    have hp := hplain p List.mem_cons_self
    obtain ⟨hnew, hnodup'⟩ := List.nodup_cons.mp hnodup
    show substituteBinding globalReplace binding
      ((globalReplace (fill reference parts) (bindingRegex p.1) p.2).1,
        count + (globalReplace (fill reference parts) (bindingRegex p.1) p.2).2) = _
    rw [hreplaces _ _ _ hp.no_backslash, replaceAll_fill h,
      ih (h.put hp) (fun q hq => hplain q (List.mem_cons_of_mem p hq)) hnodup']
    -- The references to the other variables are still there.
    have hcounts : (binding.map fun q => (mentioned (put p.1 p.2 parts)).count q.1) =
        binding.map fun q => (mentioned parts).count q.1 := by
      apply List.map_congr_left
      intro q hq
      have hne : q.1 ≠ p.1 := fun heq => hnew (heq ▸ List.mem_map_of_mem hq)
      rw [mentioned_put, List.count_filter (by simpa using hne)]
    rw [hcounts, List.map_cons, List.sum_cons, Nat.add_assoc]
    rfl

omit hreplaces in
theorem generateRange_of_pos {next : List Char → List Char} {info : RangeAssignmentInfo}
    {template : List Char} {rounds : List ℕ}
    (h : ∀ i ∈ rounds, (substituteValues globalReplace i template info).2 ≠ 0) :
    generateRange globalReplace next info template rounds =
      rounds.flatMap fun i => next (substituteValues globalReplace i template info).1 := by
  induction rounds with
  | nil => rfl
  | cons i rounds ih =>
    rw [generateRange]
    show (if (substituteValues globalReplace i template info).2 = 0 then _ else _) = _
    rw [if_neg (h i List.mem_cons_self), ih fun j hj => h j (List.mem_cons_of_mem i hj)]
    rfl

omit hreplaces in
theorem generateRange_of_zero {next : List Char → List Char} {info : RangeAssignmentInfo}
    {template : List Char} {i : ℕ} {rounds : List ℕ}
    (h : (substituteValues globalReplace i template info).2 = 0) :
    generateRange globalReplace next info template (i :: rounds) =
      next (substituteValues globalReplace i template info).1 := by
  rw [generateRange]
  exact if_pos h

/-- The loop over the values: all of them, or the first one if none is put in. -/
theorem generateRange_eq (next : List Char → List Char) (hcomplete : assign.Complete)
    (h : Settled parts) (hplain : ∀ binding ∈ assign.bindings, ∀ p ∈ binding, Plain p.2)
    (hnodup : assign.idents.Nodup) :
    generateRange globalReplace next assign.info (fill reference parts)
        (List.range (assign.info.rangeValues.headD []).length) =
      (if ∃ name ∈ assign.idents, name ∈ mentioned parts then assign.bindings
        else assign.bindings.take 1).flatMap
          fun binding => next (fill reference (putAll binding parts)) := by
  rw [assign.length_rangeValues hcomplete]
  have hround (i : ℕ) (hi : i < assign.bindings.length) :
      substituteValues globalReplace i (fill reference parts) assign.info =
        (fill reference (putAll assign.bindings[i] parts),
          (assign.idents.map (mentioned parts).count).sum) := by
    have hmem := List.getElem_mem hi
    have hnames := assign.map_fst hcomplete hmem
    rw [substituteValues_eq hcomplete hi, substituteBinding_fill hreplaces h (hplain _ hmem)
      (hnames ▸ hnodup), Nat.zero_add, ← hnames, List.map_map]
    rfl
  have hsum : (assign.idents.map (mentioned parts).count).sum ≠ 0 ↔
      ∃ name ∈ assign.idents, name ∈ mentioned parts := by
    simp [List.sum_eq_zero_iff, List.count_eq_zero]
  split
  · rename_i hmentioned
    rw [generateRange_of_pos]
    · have hall : assign.bindings =
          (List.range assign.bindings.length).map fun i => assign.bindings.getD i [] := by
        apply List.ext_getElem
        · simp
        · intro i hi _
          simp [hi]
      conv_rhs => rw [hall, List.flatMap_map]
      apply List.flatMap_congr
      intro i hi
      rw [List.mem_range] at hi
      rw [hround i hi, List.getD_eq_getElem?_getD, List.getElem?_eq_getElem hi, Option.getD_some]
    · intro i hi
      rw [hround i (List.mem_range.mp hi)]
      exact hsum.mpr hmentioned
  · rename_i hmentioned
    have hzero := not_not.mp (mt hsum.mp hmentioned)
    cases hbindings : assign.bindings with
    | nil => rfl
    | cons binding rest =>
      have hfirst := hround 0 (by rw [hbindings]; exact Nat.succ_pos _)
      rw [List.length_cons, List.range_succ_eq_map, generateRange_of_zero (by rw [hfirst, hzero]),
        hfirst]
      simp [hbindings]

omit hreplaces in
theorem combinations_congr {parts' : List (Char ⊕ BindingName)}
    (h : ∀ name ∈ assigns.flatMap RangeAssignment.idents,
      (name ∈ mentioned parts ↔ name ∈ mentioned parts')) :
    combinations parts assigns = combinations parts' assigns := by
  induction assigns with
  | nil => rfl
  | cons assign rest ih =>
    rw [List.flatMap_cons] at h
    have hassign : (∃ name ∈ assign.idents, name ∈ mentioned parts) ↔
        ∃ name ∈ assign.idents, name ∈ mentioned parts' :=
      exists_congr fun name => and_congr_right fun hname => h name (List.mem_append_left _ hname)
    rw [combinations, combinations, ih fun name hname => h name (List.mem_append_right _ hname)]
    simp only [hassign]

theorem generate_fill (h : Settled parts) (hcomplete : ∀ assign ∈ assigns, assign.Complete)
    (hplain : ∀ assign ∈ assigns, ∀ binding ∈ assign.bindings, ∀ p ∈ binding, Plain p.2)
    (hnodup : (assigns.flatMap RangeAssignment.idents).Nodup) :
    generate globalReplace (assigns.map RangeAssignment.info) (fill reference parts) =
      (combinations parts assigns).flatMap fun binding => fill reference (putAll binding parts) := by
  induction assigns generalizing parts with
  | nil =>
    show fill reference parts = fill reference parts ++ []
    rw [List.append_nil]
  | cons assign rest ih =>
    rw [List.flatMap_cons, List.nodup_append] at hnodup
    obtain ⟨hidents, hrest, hdisjoint⟩ := hnodup
    have hassign := hcomplete assign List.mem_cons_self
    have hvalues := hplain assign List.mem_cons_self
    rw [List.map_cons, generate, generateRange_eq hreplaces _ hassign h hvalues hidents,
      combinations, List.flatMap_assoc]
    apply List.flatMap_congr
    intro binding hbinding
    have hmem : binding ∈ assign.bindings := by
      split at hbinding
      · exact hbinding
      · exact List.mem_of_mem_take hbinding
    rw [ih (h.putAll (hvalues binding hmem))
      (fun a ha => hcomplete a (List.mem_cons_of_mem _ ha))
      (fun a ha => hplain a (List.mem_cons_of_mem _ ha)) hrest, List.flatMap_map]
    have hsame : combinations (putAll binding parts) rest = combinations parts rest := by
      apply combinations_congr
      intro name hname
      rw [mentioned_putAll, List.mem_filter, assign.map_fst hassign hmem]
      have hother : name ∉ assign.idents := fun hmem => hdisjoint name hmem name hname rfl
      simp [hother]
    simp only [hsame, putAll_append]

end Expansion

/-! ### The checks -/

theorem bindIdents_ok {known idents : List BindingName} (h : (bindIdents known idents).2 = [])
    (hnodup : known.Nodup) : (bindIdents known idents).1 = idents ∧ (known ++ idents).Nodup := by
  induction idents generalizing known with
  | nil => exact ⟨rfl, by rwa [List.append_nil]⟩
  | cons ident idents ih =>
    rw [bindIdents] at h ⊢
    split at h
    · cases h
    · rename_i hnew
      have hknown : (known ++ [ident]).Nodup := by
        rw [List.nodup_append]
        refine ⟨hnodup, List.nodup_singleton _, ?_⟩
        rintro a ha b hb rfl
        exact hnew (List.mem_singleton.mp hb ▸ ha)
      obtain ⟨hnames, hall⟩ := ih h hknown
      rw [if_neg hnew]
      refine ⟨congrArg (ident :: ·) hnames, ?_⟩
      rwa [List.append_assoc] at hall

/-- A generator without errors has different variables, and a value for each in every tuple. -/
theorem prepareRanges_ok {known known' : List BindingName} {infos : List RangeAssignmentInfo}
    (h : prepareRanges known assigns = some ([], infos, known')) (hnodup : known.Nodup) :
    known' = known ++ assigns.flatMap RangeAssignment.idents ∧ known'.Nodup ∧
      (∀ assign ∈ assigns, assign.Complete) ∧ infos = assigns.map RangeAssignment.info := by
  induction assigns generalizing known infos with
  | nil =>
    cases h
    exact ⟨by simp, hnodup, by simp, rfl⟩
  | cons assign rest ih =>
    -- What the ranges behind have, once this one has no errors.
    have hnext (rangeValues : List (List (List Char)))
        (hcomplete : (bindIdents known assign.idents).1 = assign.idents → assign.Complete ∧
          assign.info = ⟨assign.idents, rangeValues, assign.idents.map bindingRegex⟩)
        (hmap : (prepareRanges (known ++ (bindIdents known assign.idents).1) rest).map
          (fun r => ((bindIdents known assign.idents).2 ++ r.1,
            (⟨(bindIdents known assign.idents).1, rangeValues,
              (bindIdents known assign.idents).1.map bindingRegex⟩ : RangeAssignmentInfo) :: r.2.1,
            r.2.2)) = some ([], infos, known')) :
        known' = known ++ (assign :: rest).flatMap RangeAssignment.idents ∧ known'.Nodup ∧
          (∀ a ∈ assign :: rest, a.Complete) ∧
            infos = (assign :: rest).map RangeAssignment.info := by
      obtain ⟨⟨errors', infos', known''⟩, hrest, heq⟩ := Option.map_eq_some_iff.mp hmap
      simp only [Prod.mk.injEq, List.append_eq_nil_iff] at heq
      obtain ⟨⟨herrors, rfl⟩, rfl, rfl⟩ := heq
      obtain ⟨hnames, hall⟩ := bindIdents_ok herrors hnodup
      obtain ⟨hassign, hinfo⟩ := hcomplete hnames
      rw [hnames] at hrest ⊢
      obtain ⟨rfl, hnodup', hcompletes, rfl⟩ := ih hrest hall
      refine ⟨by simp, hnodup', List.forall_mem_cons.mpr ⟨hassign, hcompletes⟩, ?_⟩
      rw [List.map_cons, hinfo]
    rw [prepareRanges] at h
    cases assign with
    | single ident genValues =>
      simp only at h
      split at h
      · cases h
      · exact hnext _ (fun _ => ⟨trivial, rfl⟩) h
    | tuples ident idents valueLists =>
      simp only at h
      split at h
      · rename_i hall
        refine hnext _ (fun hnames => ⟨?_, ?_⟩) h
        · intro values hvalues
          have hlen := of_decide_eq_true (List.all_eq_true.mp hall values hvalues)
          rw [hnames] at hlen
          exact hlen
        · rw [hnames]
          rfl
      · simp at h

/-! ### The references of a checked text -/

theorem undefinedReferences_eq_drop (known : List BindingName) (skip : ℕ) (text : List Char) :
    undefinedReferences known skip text = undefinedReferences known 0 (text.drop skip) := by
  induction skip generalizing text with
  | zero => rfl
  | succ skip ih =>
    cases text with
    | nil => rfl
    | cons c text => exact ih text

theorem settled_map_inl {cs : List Char} (h : '$' ∉ cs) :
    Settled (cs.map .inl ++ parts) ↔ Settled parts := by
  induction cs with
  | nil => rfl
  | cons c cs ih =>
    obtain ⟨hc, hcs⟩ := not_or.mp (mt List.mem_cons.mpr h)
    show (c = '$' → _) ∧ Settled (cs.map .inl ++ parts) ↔ _
    rw [ih hcs]
    exact ⟨And.right, fun hparts => ⟨fun heq => absurd heq.symm hc, hparts⟩⟩

theorem references_char (h : c ≠ '$' ∨ text.head? ≠ some '(') :
    references names (c :: text) = .inl c :: references names text := by
  apply readFrom_char
  apply findReference_eq_none
  rintro name ⟨rest, hrest⟩
  rw [reference_eq, List.cons_append, List.cons.injEq] at hrest
  rcases h with h | h
  · exact h hrest.1.symm
  · rw [← hrest.2] at h
    exact h rfl  

theorem references_append {cs : List Char} (h : '$' ∉ cs) :
    references names (cs ++ text) = cs.map .inl ++ references names text := by
  apply readFrom_append
  intro c hc rest
  apply findReference_eq_none
  rintro name ⟨rest', hrest⟩
  rw [reference_eq, List.cons_append, List.cons.injEq] at hrest
  exact h (hrest.1 ▸ hc)

theorem undefinedReferences_char (h : c ≠ '$') :
    undefinedReferences names 0 (c :: text) = undefinedReferences names 0 text := by
  rw [undefinedReferences.eq_def]
  exact if_neg h

/-- Behind a `$` of a checked text there is a character, and the name of a variable up to the next
    `)`. -/
theorem undefinedReferences_dollar (h : undefinedReferences names 0 ('$' :: text) = some []) :
    ∃ d rest, text = d :: rest ∧
      (d = ')' ∧ undefinedReferences names 0 text = some [] ∨
        d ≠ ')' ∧ ∃ name ∈ names, ∃ behind, rest = name.text ++ behind ∧
          (behind = [] ∨ behind.head? = some ')') ∧
          undefinedReferences names 0 behind = some []) := by
  rw [undefinedReferences.eq_def] at h
  cases text with
  | nil => cases h
  | cons d rest =>
    refine ⟨d, rest, rfl, ?_⟩
    by_cases hd : d = ')'
    · simp only [if_true, if_pos hd] at h
      obtain ⟨errors, hrest, heq⟩ := Option.map_eq_some_iff.mp h
      split at heq
      · subst heq
        exact .inl ⟨hd, hrest⟩
      · cases heq
    · simp only [if_true, if_neg hd] at h
      obtain ⟨errors, hrest, heq⟩ := Option.map_eq_some_iff.mp h
      split at heq
      · rename_i hany
        subst heq
        obtain ⟨name, hname, htext⟩ := List.any_eq_true.mp hany
        have hsplit : rest = name.text ++ rest.dropWhile (· ≠ ')') := by
          rw [of_decide_eq_true htext, List.takeWhile_append_dropWhile]
        refine .inr ⟨hd, name, hname, rest.dropWhile (· ≠ ')'), hsplit, ?_, ?_⟩
        · cases hbehind : rest.dropWhile (· ≠ ')') with
          | nil => exact .inl rfl
          | cons e behind =>
            have he := stops_dropWhile (· ≠ ')') rest e (by rw [hbehind]; rfl)
            exact .inr (congrArg some (not_not.mp (of_decide_eq_false he)))
        · rw [undefinedReferences_eq_drop, List.drop_succ_cons, ← of_decide_eq_true htext] at hrest
          rwa [hsplit, List.drop_left] at hrest
      · cases heq

theorem references_of_notMem (h : ')' ∉ text) : references names text = text.map .inl := by
  induction text with
  | nil => rfl
  | cons c text ih =>
    rw [List.map_cons, ← ih (mt (List.mem_cons_of_mem c) h)]
    apply readFrom_char
    apply findReference_eq_none
    rintro name ⟨rest, hrest⟩
    apply h
    rw [← hrest]
    simp [reference]

theorem settled_references (h : undefinedReferences names 0 text = some []) :
    Settled (references names text) := by
  induction hn : text.length using Nat.strong_induction_on generalizing text with
  | _ n ih =>
    subst hn
    cases text with
    | nil => trivial
    | cons c text =>
      by_cases hc : c = '$'
      · subst hc
        obtain ⟨d, rest, rfl, ⟨rfl, hrest⟩ | ⟨hd, name, hname, behind, rfl, hend, hbehind⟩⟩ :=
          undefinedReferences_dollar h
        · rw [references_char (.inr (by simp))]
          refine ⟨fun _ => .inl ⟨')', _, references_char (.inl (by decide)), by decide⟩, ?_⟩
          exact ih _ (Nat.lt_succ_self _) hrest rfl
        · have hsettled := ih behind.length (by simp; omega) hbehind rfl
          have hdollar := name.notMem (by decide : isIdentChar '$' = false)
          by_cases hopen : d = '('
          · subst hopen
            cases behind with
            | nil =>
              -- A reference that is not closed, at the end of the text.
              have hno : ')' ∉ name.text := name.notMem (by decide)
              rw [List.append_nil, references_of_notMem (by simp [hno])]
              refine ⟨fun _ => .inr ?_, fun heq => absurd heq (by decide), ?_⟩
              · rintro part (_ | ⟨_, hpart⟩)
                · exact ⟨'(', rfl, by decide⟩
                · obtain ⟨e, he, rfl⟩ := List.mem_map.mp hpart
                  exact ⟨e, rfl, fun heq => hno (heq ▸ he)⟩
              · have hchars : Settled (name.text.map .inl ++ []) :=
                  (settled_map_inl hdollar).mpr trivial
                rwa [List.append_nil] at hchars
            | cons e behind =>
              obtain rfl : e = ')' := by simpa using hend
              rw [references_char (.inl (by decide))] at hsettled
              have htext : '$' :: '(' :: (name.text ++ ')' :: behind) = reference name ++ behind := by
                simp [reference]
              rw [htext, references, readFrom_match (reference_ne_nil name)
                (findReference_reference hname)]
              exact hsettled.2
          · obtain ⟨e, text, htext⟩ := List.exists_cons_of_ne_nil name.ne_nil
            have he : e ≠ '(' := by
              rintro rfl
              exact name.notMem (by decide : isIdentChar '(' = false) (htext ▸ List.mem_cons_self)
            rw [references_char (.inr (by simpa using hopen)),
              references_char (.inr (by simpa [htext] using he)), references_append hdollar]
            refine ⟨fun _ => .inl ⟨d, _, rfl, hopen⟩,
              fun _ => .inl ⟨e, text.map .inl ++ references names behind, ?_, he⟩,
              (settled_map_inl hdollar).mpr hsettled⟩
            rw [htext]
            rfl
      · rw [references_char (.inl hc)]
        rw [undefinedReferences_char hc] at h
        exact ⟨fun heq => absurd heq hc, ih _ (Nat.lt_succ_self _) h rfl⟩

/-! ### Generators -/

theorem mem_names_of_mem_mentioned (h : name ∈ mentioned (references names text)) :
    name ∈ names := by
  obtain ⟨_, _, hfind⟩ := exists_find_of_mem (mem_mentioned.mp h)
  exact (findReference_some hfind).1

theorem combinations_names (h : ∀ assign ∈ assigns, assign.Complete)
    (hbinding : binding ∈ combinations parts assigns) :
    binding.map Prod.fst = assigns.flatMap RangeAssignment.idents := by
  induction assigns generalizing binding with
  | nil =>
    obtain rfl := List.mem_singleton.mp hbinding
    rfl
  | cons assign rest ih =>
    obtain ⟨first, hfirst, hmap⟩ := List.mem_flatMap.mp hbinding
    obtain ⟨others, hothers, rfl⟩ := List.mem_map.mp hmap
    have hmem : first ∈ assign.bindings := by
      split at hfirst
      · exact hfirst
      · exact List.mem_of_mem_take hfirst
    rw [List.map_append, assign.map_fst (h assign List.mem_cons_self) hmem,
      ih (fun a ha => h a (List.mem_cons_of_mem _ ha)) hothers, List.flatMap_cons]

theorem prepareGenerator_ok {infos : List RangeAssignmentInfo}
    (h : prepareGenerator assigns text = some ([], infos)) :
    (assigns.flatMap RangeAssignment.idents).Nodup ∧ (∀ assign ∈ assigns, assign.Complete) ∧
      infos = assigns.map RangeAssignment.info ∧
      undefinedReferences (assigns.flatMap RangeAssignment.idents) 0 text = some [] := by
  obtain ⟨⟨errors, infos', known⟩, hranges, h⟩ := Option.bind_eq_some_iff.mp h
  simp only at h
  split at h
  · rename_i hcount
    obtain ⟨rfl, -⟩ := Prod.mk.inj (Option.some.inj h)
    cases hcount
  · obtain ⟨undefineds, hundefined, h⟩ := Option.bind_eq_some_iff.mp h
    obtain ⟨herrors, rfl⟩ := Prod.mk.inj (Option.some.inj h)
    obtain ⟨rfl, rfl⟩ := List.append_eq_nil_iff.mp herrors
    obtain ⟨rfl, hnodup, hcomplete, rfl⟩ := prepareRanges_ok hranges List.nodup_nil
    exact ⟨hnodup, hcomplete, rfl, hundefined⟩

/-- **Generators.** A checked generator with plain values is expanded by both visitors to its text
    with the references replaced at once, for every combination of the values. -/
theorem generate_eq {globalReplace : List Char → List Char → List Char → List Char × ℕ}
    (hreplaces : ReplacesReferences globalReplace) {assigns : List RangeAssignment}
    {inputText : List Char} {infos : List RangeAssignmentInfo}
    (hprepare : prepareGenerator assigns inputText = some ([], infos))
    (hplain : ∀ assign ∈ assigns, ∀ binding ∈ assign.bindings, ∀ p ∈ binding, Plain p.2) :
    generateInstructionDefList globalReplace infos 0 inputText = expansion assigns inputText ∧
      generateOpcodeSpec globalReplace infos 0 inputText = expansion assigns inputText := by
  obtain ⟨hnodup, hcomplete, rfl, hundefined⟩ := prepareGenerator_ok hprepare
  have hgenerate : generate globalReplace (assigns.map RangeAssignment.info) inputText =
      expansion assigns inputText := by
    have hfill := generate_fill hreplaces (settled_references hundefined) hcomplete hplain hnodup
    rw [fill_references] at hfill
    rw [hfill, expansion]
    apply List.flatMap_congr
    intro binding hbinding
    apply fill_putAll
    intro name hname
    rw [combinations_names hcomplete hbinding]
    exact mem_names_of_mem_mentioned hname
  exact ⟨hgenerate, hgenerate⟩

/-- A replacement that reads an escaped regular expression literally. -/
def literalReplace (text re rewrite : List Char) : List Char × ℕ :=
  replaceAll (re.filter (· ≠ '\\')) rewrite text

theorem replacesReferences_literalReplace : ReplacesReferences literalReplace := by
  intro text name rewrite _
  have hname : name.text.filter (· ≠ '\\') = name.text := by
    apply List.filter_eq_self.mpr
    intro c hc
    apply decide_eq_true
    rintro rfl
    exact name.notMem (by decide) hc
  have hregex : (bindingRegex name).filter (· ≠ '\\') = reference name := by
    rw [bindingRegex, List.filter_append, List.filter_append, hname]
    rfl
  rw [literalReplace, hregex]

section Examples

def nameA : BindingName := ⟨['a'], by decide, List.all_eq_true.mp (by decide)⟩

def nameB : BindingName := ⟨['b'], by decide, List.all_eq_true.mp (by decide)⟩

def nameC : BindingName := ⟨['c'], by decide, List.all_eq_true.mp (by decide)⟩

/-- One variable with two values, and one that the text does not refer to. -/
theorem generate_two_values :
    let assigns := [.single nameA [.simple ['1'], .string ['"', '2', '"']],
      .single nameB [.simple ['3'], .simple ['4']]]
    let inputText := ['x', '$', '(', 'a', ')', ';']
    let infos := assigns.map RangeAssignment.info
    generateInstructionDefList literalReplace infos 0 inputText = expansion assigns inputText ∧
      generateOpcodeSpec literalReplace infos 0 inputText = expansion assigns inputText :=
  generate_eq replacesReferences_literalReplace (by decide) (by decide)

/-- `[a, c] = [{"$(", ")"}], b = [X]`. -/
def splitReference : List RangeAssignment :=
  [.tuples nameA [nameC] [[.string ['"', '$', '(', '"'], .string ['"', ')', '"']]],
    .single nameB [.simple ['X']]]

/-- `$(a)b$(c):f:x==1;`. -/
def splitReferenceText : List Char :=
  ['$', '(', 'a', ')', 'b', '$', '(', 'c', ')', ':', 'f', ':', 'x', '=', '=', '1', ';']

/-- Two values without a reference make one with the text between them, and the next range puts its
    value there. -/
theorem generate_ne_expansion : ∃ infos,
    prepareGenerator splitReference splitReferenceText = some ([], infos) ∧
      (∀ assign ∈ splitReference, ∀ binding ∈ assign.bindings, ∀ p ∈ binding,
        '\\' ∉ p.2 ∧ ∀ name, ¬reference name <:+: p.2) ∧
      ReplacesReferences literalReplace ∧
      generateInstructionDefList literalReplace infos 0 splitReferenceText ≠
        expansion splitReference splitReferenceText := by
  refine ⟨splitReference.map RangeAssignment.info, by decide, ?_,
    replacesReferences_literalReplace, by decide⟩
  have hshort : ∀ assign ∈ splitReference, ∀ binding ∈ assign.bindings, ∀ p ∈ binding,
      '\\' ∉ p.2 ∧ p.2.length ≤ 2 := by decide
  intro assign hassign binding hbinding p hp
  obtain ⟨hbackslash, hlen⟩ := hshort assign hassign binding hbinding p hp
  refine ⟨hbackslash, fun name hwithin => ?_⟩
  have hle := hwithin.length_le
  simp [reference] at hle
  omega

end Examples

end MpactSim.Decoder
