import Mathlib.Tactic

namespace MpactSim.Lib

/-!
# Regular expressions with lazy words

The expressions are sequences of literal characters, `\s*`, `\s+` and `(\S*?)`, with
optional groups `(?:…)?` of these.  A match is leftmost-first: `\s*`, `\s+` and groups
try the longest way first, `(\S*?)` the shortest one, and the first way on which
everything that follows matches wins.

An expression is run with a continuation (`Matcher`) for what follows.

* `Accepts k need text caps` — `k` is white space of which `need` characters are
  required, followed by what matches `text`;
* `Ready k text caps surplus` — `k` matches `text` if the surplus of white space at its
  start is not negative;
* `word_run` — a word is taken as a whole if nothing that follows matches earlier.
-/

instance lawfulBEqText : LawfulBEq (List Char) := List.instLawfulBEq

/-- The class `\s`. -/
def isSpace (c : Char) : Bool := c = ' ' ∨ c = '\t' ∨ c = '\n' ∨ c = '\r' ∨ c = '\x0c'

/-- A single character, `\s*`, `\s+` or `(\S*?)`. -/
inductive Atom where
  | literal (c : Char)
  | spaces
  | someSpaces
  | word
  deriving DecidableEq, Repr

/-- What follows in an expression: the captures of the preferred match of a text. -/
abbrev Matcher := List Char → Option (List (List Char))

/-- `\s*` -/
def skipSpaces (k : Matcher) : Matcher
  | [] => k []
  | c :: rest => if isSpace c then (skipSpaces k rest).or (k (c :: rest)) else k (c :: rest)

/-- `(\S*?)`, of which `taken` has been taken. -/
def takeWord (k : Matcher) (taken : List Char) : Matcher
  | [] => (k []).map (taken :: ·)
  | c :: rest =>
    ((k (c :: rest)).map (taken :: ·)).or
      (if isSpace c then none else takeWord k (taken ++ [c]) rest)

/-- An atom and what follows it. -/
def Atom.run : Atom → Matcher → Matcher
  | .literal c, k => fun
    | [] => none
    | d :: rest => if d = c then k rest else none
  | .spaces, k => skipSpaces k
  | .someSpaces, k => fun
    | [] => none
    | c :: rest => if isSpace c then skipSpaces k rest else none
  | .word, k => takeWord k []

/-- A sequence of atoms and what follows it. -/
def runAtoms (atoms : List Atom) (k : Matcher) : Matcher := atoms.foldr Atom.run k

/-- A part of an expression. -/
inductive Item where
  | one (atom : Atom)
  | optional (atoms : List Atom)
  deriving DecidableEq, Repr

/-- The atoms of an item. -/
def Item.atoms : Item → List Atom
  | .one atom => [atom]
  | .optional atoms => atoms

/-- An item and what follows it.  The words of a group that is left out are empty. -/
def Item.run : Item → Matcher → Matcher
  | .one atom, k => atom.run k
  | .optional atoms, k => fun text =>
    (runAtoms atoms k text).or
      ((k text).map ((atoms.filter (· = .word)).map (fun _ => []) ++ ·))

/-- The items of an expression, and what follows them. -/
def runItems (items : List Item) (k : Matcher) : Matcher := items.foldr Item.run k

/-- Nothing follows. -/
def atEnd : Matcher := fun text => if text = [] then some [] else none

/-- The captures of a match of the whole text. -/
def fullMatch (items : List Item) : Matcher := runItems items atEnd

/-- The number of captures. -/
def groups (items : List Item) : Nat := ((items.flatMap Item.atoms).filter (· = .word)).length

variable {k : Matcher} {text : List Char} {caps : List (List Char)}

/-! ### White space -/

/-- A text that does not start with white space. -/
def Solid (text : List Char) : Prop := ∀ c ∈ text.head?, isSpace c = false

/-- A text of white space. -/
def Blank (w : List Char) : Prop := ∀ c ∈ w, isSpace c = true

variable {w : List Char} {need : Nat}

theorem Blank.append {w' : List Char} (h : Blank w) (h' : Blank w') : Blank (w ++ w') := by
  intro c hc
  rcases List.mem_append.mp hc with hc | hc
  · exact h c hc
  · exact h' c hc

theorem skipSpaces_solid (h : Solid text) : skipSpaces k text = k text := by
  cases text with
  | nil => rfl
  | cons c rest =>
    have hc := h c rfl
    rw [skipSpaces, hc]
    rfl

/-- White space, of which `need` characters are required, and then the rest of a text. -/
structure Accepts (k : Matcher) (need : Nat) (text : List Char) (caps : List (List Char)) :
    Prop where
  solid : Solid text
  enough : ∀ w, Blank w → need ≤ w.length → k (w ++ text) = some caps
  tooFew : ∀ w, Blank w → w.length < need → k (w ++ text) = none

theorem accepts_spaces (hsolid : Solid text) (h : k text = some caps) :
    Accepts (Atom.run .spaces k) 0 text caps := by
  refine ⟨hsolid, ?_, fun w _ hlt => absurd hlt (Nat.not_lt_zero _)⟩
  intro w hw _
  change skipSpaces k (w ++ text) = some caps
  induction w with
  | nil => rw [List.nil_append, skipSpaces_solid hsolid, h]
  | cons c rest ih =>
    rw [List.cons_append, skipSpaces, hw c (List.mem_cons_self ..),
      ih (fun d hd => hw d (List.mem_cons_of_mem _ hd)) (Nat.zero_le _)]
    rfl

theorem accepts_someSpaces (hsolid : Solid text) (h : k text = some caps) :
    Accepts (Atom.run .someSpaces k) 1 text caps := by
  refine ⟨hsolid, ?_, ?_⟩
  · intro w hw hlen
    cases w with
    | nil => cases hlen
    | cons c rest =>
      have hrest := (accepts_spaces hsolid h).enough rest
        (fun d hd => hw d (List.mem_cons_of_mem _ hd)) (Nat.zero_le _)
      change (if isSpace c then skipSpaces k (rest ++ text) else none) = some caps
      rw [if_pos (hw c (List.mem_cons_self ..))]
      exact hrest
  · intro w hw hlen
    obtain rfl := List.eq_nil_of_length_eq_zero (Nat.lt_one_iff.mp hlen)
    cases text with
    | nil => rfl
    | cons c rest =>
      change (if isSpace c then skipSpaces k rest else none) = none
      rw [hsolid c rfl]
      rfl

/-- More white space in front of white space: `\s*` leaves what is required behind it. -/
theorem Accepts.skipSpaces_eq (h : Accepts k need text caps) (hw : Blank w) :
    skipSpaces k (w ++ text) = if need ≤ w.length then some caps else none := by
  induction w with
  | nil =>
    rw [List.nil_append, skipSpaces_solid h.solid]
    by_cases hneed : need = 0
    · rw [if_pos (by rw [hneed]; exact Nat.zero_le _)]
      exact h.enough [] hw (by rw [hneed]; exact Nat.zero_le _)
    · rw [if_neg (by simpa using hneed)]
      exact h.tooFew [] hw (Nat.pos_of_ne_zero hneed)
  | cons c rest ih =>
    have hrest : Blank rest := fun d hd => hw d (List.mem_cons_of_mem _ hd)
    rw [List.cons_append, skipSpaces, if_pos (hw c (List.mem_cons_self ..)), ih hrest]
    by_cases hneed : need ≤ rest.length
    · have hall : need ≤ (c :: rest).length := Nat.le_succ_of_le hneed
      rw [if_pos hneed, if_pos hall]
      rfl
    · rw [if_neg hneed, Option.none_or, ← List.cons_append]
      by_cases hall : need ≤ (c :: rest).length
      · rw [if_pos hall, h.enough (c :: rest) hw hall]
      · rw [if_neg hall, h.tooFew (c :: rest) hw (Nat.lt_of_not_le hall)]

theorem Accepts.spaces (h : Accepts k need text caps) :
    Accepts (Atom.run .spaces k) need text caps := by
  refine ⟨h.solid, ?_, ?_⟩
  · intro w hw hlen
    exact (h.skipSpaces_eq hw).trans (if_pos hlen)
  · intro w hw hlen
    exact (h.skipSpaces_eq hw).trans (if_neg (Nat.not_le_of_lt hlen))

theorem Accepts.someSpaces (h : Accepts k need text caps) :
    Accepts (Atom.run .someSpaces k) (need + 1) text caps := by
  have hcons : ∀ c rest, Blank (c :: rest) → Atom.run .someSpaces k (c :: rest ++ text) =
      if need ≤ rest.length then some caps else none := by
    intro c rest hw
    rw [← h.skipSpaces_eq (fun d hd => hw d (List.mem_cons_of_mem _ hd))]
    exact if_pos (hw c (List.mem_cons_self ..))
  refine ⟨h.solid, ?_, ?_⟩
  · intro w hw hlen
    cases w with
    | nil => cases hlen
    | cons c rest => exact (hcons c rest hw).trans (if_pos (Nat.le_of_succ_le_succ hlen))
  · intro w hw hlen
    cases w with
    | nil =>
      cases text with
      | nil => rfl
      | cons c rest => exact if_neg (by rw [h.solid c rfl]; exact Bool.false_ne_true)
    | cons c rest =>
      exact (hcons c rest hw).trans (if_neg (Nat.not_le_of_lt (Nat.lt_of_succ_lt_succ hlen)))

/-- The text starts with white space, `surplus` more of it than `k` requires. -/
def Gap (k : Matcher) (text : List Char) (caps : List (List Char)) (surplus : ℤ) : Prop :=
  ∃ need w tail, text = w ++ tail ∧ Blank w ∧ Accepts k need tail caps ∧
    surplus = (w.length : ℤ) - need

/-- The text matches, or it starts with white space of which there is a surplus. -/
def Ready (k : Matcher) (text : List Char) (caps : List (List Char)) (surplus : ℤ) : Prop :=
  (Solid text ∧ k text = some caps ∧ surplus = 0) ∨ Gap k text caps surplus

variable {surplus : ℤ}

theorem Gap.blank (h : Gap k text caps surplus) (hw : Blank w) :
    Gap k (w ++ text) caps (surplus + w.length) := by
  obtain ⟨need, w', tail, rfl, hw', haccepts, rfl⟩ := h
  refine ⟨need, w ++ w', tail, (List.append_assoc ..).symm, hw.append hw', haccepts, ?_⟩
  rw [List.length_append]
  push_cast
  ring

theorem Ready.run (h : Ready k text caps surplus) (hsurplus : 0 ≤ surplus) :
    k text = some caps := by
  rcases h with ⟨-, hrun, -⟩ | ⟨need, w, tail, rfl, hw, haccepts, rfl⟩
  · exact hrun
  · exact haccepts.enough w hw (by omega)

theorem Ready.spaces (h : Ready k text caps surplus) :
    Gap (Atom.run .spaces k) text caps surplus := by
  rcases h with ⟨hsolid, hrun, rfl⟩ | ⟨need, w, tail, rfl, hw, haccepts, rfl⟩
  · exact ⟨0, [], text, rfl, by simp [Blank], accepts_spaces hsolid hrun, rfl⟩
  · exact ⟨need, w, tail, rfl, hw, haccepts.spaces, rfl⟩

theorem Ready.someSpaces (h : Ready k text caps surplus) :
    Gap (Atom.run .someSpaces k) text caps (surplus - 1) := by
  rcases h with ⟨hsolid, hrun, rfl⟩ | ⟨need, w, tail, rfl, hw, haccepts, rfl⟩
  · exact ⟨1, [], text, rfl, by simp [Blank], accepts_someSpaces hsolid hrun, rfl⟩
  · refine ⟨need + 1, w, tail, rfl, hw, haccepts.someSpaces, ?_⟩
    push_cast
    ring

/-- `\s*` does not help if nothing behind the white space matches. -/
theorem skipSpaces_eq_none (h : ∀ w tail, text = w ++ tail → Blank w → k tail = none) :
    skipSpaces k text = none := by
  induction text with
  | nil => exact h [] [] rfl (by simp [Blank])
  | cons c rest ih =>
    have hhere : k (c :: rest) = none := h [] (c :: rest) rfl (by simp [Blank])
    rw [skipSpaces]
    split
    · rename_i hc
      rw [hhere, Option.or_none]
      apply ih
      intro w tail heq hw
      refine h (c :: w) tail (by rw [heq, List.cons_append]) ?_
      intro d hd
      rcases List.mem_cons.mp hd with rfl | hd
      · exact hc
      · exact hw d hd
    · exact hhere

/-! ### Literals and words -/

theorem Ready.literal {c : Char} (h : Ready k text caps surplus) (hsurplus : 0 ≤ surplus)
    (hc : isSpace c = false) : Ready (Atom.run (.literal c) k) (c :: text) caps 0 := by
  refine .inl ⟨?_, ?_, rfl⟩
  · intro d hd
    cases hd
    exact hc
  · show (if c = c then k text else none) = some caps
    rw [if_pos rfl, h.run hsurplus]

theorem literal_run (c : Char) : Atom.run (.literal c) k (c :: text) = k text := if_pos rfl

theorem literal_run_of_ne {c d : Char} (h : d ≠ c) :
    Atom.run (.literal c) k (d :: text) = none := if_neg h

theorem someSpaces_run_solid (h : Solid text) : Atom.run .someSpaces k text = none := by
  cases text with
  | nil => rfl
  | cons c rest => exact if_neg (by rw [h c rfl]; exact Bool.false_ne_true)

/-- A word is taken as a whole if what follows matches behind it and nowhere within. -/
theorem takeWord_eq {taken : List Char} (hw : ∀ c ∈ w, isSpace c = false)
    (hblock : ∀ u v, w = u ++ v → v ≠ [] → k (v ++ text) = none) (h : k text = some caps) :
    takeWord k taken (w ++ text) = some ((taken ++ w) :: caps) := by
  induction w generalizing taken with
  | nil =>
    rw [List.nil_append, List.append_nil]
    cases text with
    | nil =>
      rw [takeWord, h]
      rfl
    | cons c rest =>
      rw [takeWord, h]
      rfl
  | cons c rest ih =>
    have hnone := hblock [] (c :: rest) rfl (List.cons_ne_nil _ _)
    rw [List.cons_append] at hnone ⊢
    rw [takeWord, hnone, hw c (List.mem_cons_self ..), Option.map_none, Option.none_or,
      if_neg Bool.false_ne_true, ih (fun d hd => hw d (List.mem_cons_of_mem _ hd))]
    · rw [List.append_assoc, List.singleton_append]
    · intro u v huv hv
      exact hblock (c :: u) v (by rw [huv, List.cons_append]) hv

theorem optional_run {atoms : List Atom} (h : runAtoms atoms k text = some caps) :
    Item.run (.optional atoms) k text = some caps := by
  show (runAtoms atoms k text).or _ = some caps
  rw [h, Option.some_or]

theorem runAtoms_cons (atom : Atom) (atoms : List Atom) :
    runAtoms (atom :: atoms) k = atom.run (runAtoms atoms k) := rfl

theorem runItems_cons (item : Item) (items : List Item) :
    runItems (item :: items) k = item.run (runItems items k) := rfl

theorem runAtoms_append (atoms atoms' : List Atom) :
    runAtoms (atoms ++ atoms') k = runAtoms atoms (runAtoms atoms' k) := by
  rw [runAtoms, runAtoms, runAtoms, List.foldr_append]

theorem runItems_append (items items' : List Item) :
    runItems (items ++ items') k = runItems items (runItems items' k) := by
  rw [runItems, runItems, runItems, List.foldr_append]

theorem runItems_map_one (atoms : List Atom) :
    runItems (atoms.map .one) k = runAtoms atoms k := by
  rw [runItems, runAtoms, List.foldr_map]
  rfl

theorem word_run (hw : ∀ c ∈ w, isSpace c = false)
    (hblock : ∀ u v, w = u ++ v → v ≠ [] → k (v ++ text) = none) (h : k text = some caps) :
    Atom.run .word k (w ++ text) = some (w :: caps) :=
  takeWord_eq hw hblock h

end MpactSim.Lib
