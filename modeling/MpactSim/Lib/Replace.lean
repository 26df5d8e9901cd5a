import Mathlib.Data.List.Infix
import MpactSim.Lib.Templates

namespace MpactSim.Lib

/-!
# Matches in a text

A text is read from left to right, and each match is taken as a whole, so that matches do not
overlap.

* `readFrom`   — the characters and the matches of a text;
* `replaceAll` — the text with another one in place of each match of a literal pattern, and the
  number of matches.
-/

variable {χ ν : Type*} {find : List χ → Option (ν × ℕ)}

/-- The characters and the matches of a text, behind `skip` characters of a match.  `find` says
    what a text begins with, and how long that is. -/
def readFrom (find : List χ → Option (ν × ℕ)) : ℕ → List χ → List (χ ⊕ ν)
  | _, [] => []
  | skip + 1, _ :: text => readFrom find skip text
  | 0, c :: text =>
    match find (c :: text) with
    | some (x, length) => .inr x :: readFrom find (length - 1) text
    | none => .inl c :: readFrom find 0 text

@[simp]
theorem readFrom_nil (skip : ℕ) : readFrom find skip [] = [] := by
  cases skip <;> rfl

theorem readFrom_eq_drop (skip : ℕ) (text : List χ) :
    readFrom find skip text = readFrom find 0 (text.drop skip) := by
  induction skip generalizing text with
  | zero => rfl
  | succ skip ih =>
    cases text with
    | nil => rfl
    | cons c text => exact ih text

variable {text : List χ}

theorem readFrom_char {c : χ} (h : find (c :: text) = none) :
    readFrom find 0 (c :: text) = .inl c :: readFrom find 0 text := by
  rw [readFrom, h]

theorem readFrom_match {x : ν} {word : List χ} (hne : word ≠ [])
    (h : find (word ++ text) = some (x, word.length)) :
    readFrom find 0 (word ++ text) = .inr x :: readFrom find 0 text := by
  cases word with
  | nil => exact absurd rfl hne
  | cons c word =>
    rw [List.cons_append] at h ⊢
    rw [readFrom, h]
    show _ :: readFrom find word.length (word ++ text) = _
    rw [readFrom_eq_drop, List.drop_left]

theorem readFrom_append {cs : List χ} (h : ∀ c ∈ cs, ∀ rest, find (c :: rest) = none) :
    readFrom find 0 (cs ++ text) = cs.map .inl ++ readFrom find 0 text := by
  induction cs with
  | nil => rfl
  | cons c cs ih =>
    rw [List.cons_append, readFrom_char (h c List.mem_cons_self _),
      ih fun d hd => h d (List.mem_cons_of_mem c hd)]
    rfl

theorem exists_find_of_mem {x : ν} {skip : ℕ} (h : .inr x ∈ readFrom find skip text) :
    ∃ text' length, find text' = some (x, length) := by
  induction text generalizing skip with
  | nil =>
    rw [readFrom_nil] at h
    exact absurd h List.not_mem_nil
  | cons c text ih =>
    cases skip with
    | succ skip => exact ih h
    | zero =>
      rw [readFrom] at h
      split at h
      · rename_i y length hfind
        rcases List.mem_cons.mp h with heq | hrest
        · obtain rfl := Sum.inr.inj heq
          exact ⟨_, _, hfind⟩
        · exact ih hrest
      · rcases List.mem_cons.mp h with heq | hrest
        · cases heq
        · exact ih hrest

theorem fill_readFrom {render : ν → List χ}
    (h : ∀ text x length, find text = some (x, length) →
      render x <+: text ∧ (render x).length = length) (hne : ∀ x, render x ≠ [])
    (skip : ℕ) (text : List χ) : fill render (readFrom find skip text) = text.drop skip := by
  induction text generalizing skip with
  | nil => rw [readFrom_nil, List.drop_nil, fill_nil]
  | cons c text ih =>
    cases skip with
    | succ skip => exact ih skip
    | zero =>
      cases hfind : find (c :: text) with
      | none => rw [readFrom_char hfind, fill_inl, ih, List.drop_zero, List.drop_zero]
      | some found =>
        obtain ⟨x, length⟩ := found
        obtain ⟨⟨rest, hrest⟩, rfl⟩ := h _ _ _ hfind
        rw [← hrest] at hfind ⊢
        rw [readFrom_match (hne x) hfind, fill_inr, List.drop_zero]
        congr 1
        -- What is behind the match is behind the first character.
        obtain ⟨d, word, hword⟩ := List.exists_cons_of_ne_nil (hne x)
        rw [hword, List.cons_append, List.cons.injEq] at hrest
        have hbehind := ih word.length
        rw [readFrom_eq_drop, ← hrest.2, List.drop_left] at hbehind
        exact hbehind

/-! ### Literal patterns -/

variable [DecidableEq χ] {pattern rewrite : List χ}

/-- The text begins with the pattern. -/
def findLiteral (pattern text : List χ) : Option (Unit × ℕ) :=
  if pattern <+: text then some ((), pattern.length) else none

/-- The text with a rewrite for every match of a pattern, and the number of matches. -/
def replaceAll (pattern rewrite text : List χ) : List χ × ℕ :=
  let parts := readFrom (findLiteral pattern) 0 text
  (fill (fun _ => rewrite) parts, parts.countP Sum.isRight)

theorem replaceAll_char {c : χ} (h : ¬pattern <+: c :: text) :
    replaceAll pattern rewrite (c :: text) =
      (c :: (replaceAll pattern rewrite text).1, (replaceAll pattern rewrite text).2) := by
  rw [replaceAll, readFrom_char (if_neg h)]
  simp [replaceAll]

theorem replaceAll_match (hne : pattern ≠ []) :
    replaceAll pattern rewrite (pattern ++ text) =
      (rewrite ++ (replaceAll pattern rewrite text).1, (replaceAll pattern rewrite text).2 + 1) := by
  rw [replaceAll, readFrom_match hne (if_pos (List.prefix_append _ _))]
  simp [replaceAll, List.countP_cons]

theorem replaceAll_append {a : χ} {cs : List χ} (h : a ∉ cs) :
    replaceAll (a :: pattern) rewrite (cs ++ text) =
      (cs ++ (replaceAll (a :: pattern) rewrite text).1,
        (replaceAll (a :: pattern) rewrite text).2) := by
  have hnone (c : χ) (hc : c ∈ cs) (rest : List χ) : findLiteral (a :: pattern) (c :: rest) = none := by
    apply if_neg
    intro hpre
    exact h ((List.cons_prefix_cons.mp hpre).1 ▸ hc)
  rw [replaceAll, readFrom_append hnone]
  simp [replaceAll, fill_append, fill_map_inl]

end MpactSim.Lib
