import MpactSim.Decoder.Slots

namespace MpactSim.Decoder

open Lib

/-!
# Disassembly and the assembler's expression

The string that the setter of an instruction prints is matched by the instruction's
regular expression, with the operands as its captures, if three things are in order:

* `Instruction.Readable` — the operands are known, and the text is what the literal says;
* `DisasmFormat.Separated` — no operand can be taken to end before it does;
* `Spaced` — where formats meet, there is white space for every `\s+`.

The proof goes through the text from the end.  `Ready` says what is left of the white
space in front of a position; `run_escapeFrom_eq_none` says that a fragment does not match
within the operand before it.
-/

/-! ### The specification -/

/-- Letters, digits and underscores: the characters of an operand. -/
def isWordChar (c : Char) : Bool := isAlnum c || c = '_'

/-- A printed operand: a string of letters, digits and underscores. -/
def IsWord (w : Name) : Prop := w ≠ [] ∧ ∀ c ∈ w, isWordChar c = true

/-- What the setter prints is matched, and the captures are the operands in order. -/
def Reassembles (inst : Instruction) (print : FormatInfo → Name) : Prop :=
  ∃ text items, disassemble inst print = some text ∧
    emitRegEx inst = some (items, inst.operandNames) ∧
    fullMatch items text = some (inst.formats.flatMap fun format => format.infos.map print)

/-- There is a setter and an expression, and all white space is in `\s`. -/
structure Instruction.Readable (inst : Instruction) : Prop where
  known : inst.Known
  compiles : inst.setterCompiles = true
  noVerticalTab : ∀ format ∈ inst.formats, ∀ fragment ∈ format.fragments, '\x0b' ∉ fragment

/-- A fragment has a character that cannot be matched within an operand: neither a letter,
    a digit or an underscore, nor white space that is optional because it is behind an
    underscore.  `p` is the last character before it that is not white space. -/
def hardFrom (p : Char) : Name → Bool
  | [] => false
  | c :: rest =>
    if cIsSpace c then p ≠ '_' || hardFrom p rest
    else if isWordChar c then hardFrom c rest
    else true

/-- The last character that is not white space. -/
def lastSolid (p : Char) : Name → Char
  | [] => p
  | c :: rest => if cIsSpace c then lastSolid p rest else lastSolid c rest

/-- The end of a format, behind its last operand.  `last` is set for the last format. -/
def closes (last : Bool) (fragment : Name) : Bool :=
  hardFrom '\x00' fragment || last || lastSolid '\x00' fragment ≠ '_' ||
    fragment.all isWordChar

/-- Behind every operand comes a fragment that ends it, or the end of the format. -/
def separated (last : Bool) : List Name → List FormatInfo → Bool
  | _ :: fragments, _ :: infos =>
    (match fragments, infos with
      | [], _ => true
      | next :: _, [] => closes last next
      | next :: _, _ :: _ => hardFrom '\x00' next) &&
    separated last fragments infos
  | _, _ => true

/-- All formats of an instruction are separated. -/
def Separated : List DisasmFormat → Prop
  | [] => True
  | format :: rest =>
    separated rest.isEmpty format.fragments format.infos = true ∧ Separated rest

/-- The surplus of white space in front of a fragment, over what its expression needs, if
    there is a surplus `s` behind it: a run of white space counts with its length, less
    one if it is matched by `\s+`. -/
def gapBefore (inSpace : Bool) (p : Char) : Name → ℤ → ℤ
  | [], s => s
  | c :: rest, s =>
    if cIsSpace c then
      gapBefore true p rest s + 1 - (if inSpace || isPunct p then 0 else 1)
    else 0

/-- Behind every character of a fragment there is enough white space. -/
def Fits : Name → ℤ → Prop
  | [], _ => True
  | c :: rest, s => (cIsSpace c = false → 0 ≤ gapBefore false c rest s) ∧ Fits rest s

/-- The surplus in front of a format. -/
def lead : List Name → List FormatInfo → ℤ → ℤ
  | [], _, s => s
  | fragment :: _, [], s => gapBefore false '\x00' fragment s
  | fragment :: _, _ :: _, _ => gapBefore false '\x00' fragment 0

/-- There is enough white space behind the end of a format. -/
def FitsEnd : List Name → List FormatInfo → ℤ → Prop
  | _ :: fragments, _ :: infos, s =>
    (infos = [] → 0 ≤ lead fragments [] s) ∧ FitsEnd fragments infos s
  | fragment :: fragments, [], s => Fits fragment s ∧ FitsEnd fragments [] s
  | [], _, _ => True

/-- The surplus of white space where a format begins that is not the first: the separator
    takes one, and the columns may give some. -/
def surplusOf (print : FormatInfo → Name) : List DisasmFormat → ℤ
  | [] => 0
  | format :: rest =>
    let text := formatText print format.fragments format.infos
    lead format.fragments format.infos (surplusOf print rest + (rightPad format.width text).length) +
      (leftPad format.width text).length - 1

/-- Where formats meet, there is enough white space. -/
def Spaced (print : FormatInfo → Name) : List DisasmFormat → Prop
  | [] => True
  | format :: rest =>
    let text := formatText print format.fragments format.infos
    FitsEnd format.fragments format.infos
      (surplusOf print rest + (rightPad format.width text).length) ∧ Spaced print rest

instance decidableSeparated : ∀ formats, Decidable (Separated formats)
  | [] => inferInstanceAs (Decidable True)
  | _ :: rest =>
    have := decidableSeparated rest
    inferInstanceAs (Decidable (_ ∧ _))

instance decidableFits : ∀ fragment s, Decidable (Fits fragment s)
  | [], _ => inferInstanceAs (Decidable True)
  | _ :: rest, s =>
    have := decidableFits rest s
    inferInstanceAs (Decidable (_ ∧ _))

instance decidableFitsEnd : ∀ fragments infos s, Decidable (FitsEnd fragments infos s)
  | _ :: fragments, _ :: infos, s =>
    have := decidableFitsEnd fragments infos s
    inferInstanceAs (Decidable (_ ∧ _))
  | _ :: fragments, [], s =>
    have := decidableFitsEnd fragments [] s
    inferInstanceAs (Decidable (_ ∧ _))
  | [], _, _ => inferInstanceAs (Decidable True)

instance decidableSpaced (print : FormatInfo → Name) :
    ∀ formats, Decidable (Spaced print formats)
  | [] => inferInstanceAs (Decidable True)
  | _ :: rest =>
    have := decidableSpaced print rest
    inferInstanceAs (Decidable (_ ∧ _))

/-! ### Characters -/

variable {c p : Char} {s : ℤ} {w v : Name}

theorem isSpace_eq_false_of_isWordChar (h : isWordChar c = true) : isSpace c = false := by
  by_contra hspace
  have hc : c = ' ' ∨ c = '\t' ∨ c = '\n' ∨ c = '\r' ∨ c = '\x0c' := by
    simpa only [isSpace, Bool.not_eq_false, decide_eq_true_eq] using hspace
  rcases hc with rfl | rfl | rfl | rfl | rfl
  all_goals exact absurd h (by decide)

theorem cIsSpace_eq_false_of_isWordChar (h : isWordChar c = true) : cIsSpace c = false := by
  have hspace := isSpace_eq_false_of_isWordChar h
  have hv : c ≠ '\x0b' := by
    rintro rfl
    exact absurd h (by decide)
  simp [cIsSpace, hspace, hv]

theorem cIsSpace_eq (h : c ≠ '\x0b') : cIsSpace c = isSpace c := by
  simp [cIsSpace, h]

theorem eq_underscore_of_isPunct (h : isWordChar c = true) (hp : isPunct c = true) : c = '_' := by
  have halnum : isAlnum c = false := by
    have h' : (('!' ≤ c ∧ c ≤ '~') ∧ isAlnum c = false) := by simpa [isPunct] using hp
    exact h'.2
  simpa [isWordChar, halnum] using h

/-! ### White space in the text -/

theorem gapBefore_nonneg (inSpace : Bool) (p : Char) (fragment : Name) (hs : 0 ≤ s) :
    0 ≤ gapBefore inSpace p fragment s := by
  induction fragment generalizing inSpace p with
  | nil => exact hs
  | cons c rest ih =>
    have hrest := ih true p
    unfold gapBefore
    split
    · split
      · omega
      · omega
    · exact le_refl 0

theorem fits_of_nonneg (fragment : Name) (hs : 0 ≤ s) : Fits fragment s := by
  induction fragment with
  | nil => trivial
  | cons c rest ih => exact ⟨fun _ => gapBefore_nonneg false c rest hs, ih⟩

theorem escapeRegexCharacters_eq (fragment : Name) :
    escapeRegexCharacters fragment = escapeFrom false '\x00' fragment := by
  have hspaces : ∀ rest : Name, rest.all (· = ' ') = true → escapeFrom true '\x00' rest = [] := by
    intro rest hrest
    induction rest with
    | nil => rfl
    | cons c rest ih =>
      rw [List.all_cons, Bool.and_eq_true, decide_eq_true_eq] at hrest
      obtain ⟨rfl, hrest⟩ := hrest
      exact ih hrest
  unfold escapeRegexCharacters
  split
  · rename_i hnil
    rw [hnil]
    rfl
  · rename_i hne
    split
    · rename_i hall
      cases fragment with
      | nil => exact absurd rfl hne
      | cons c rest =>
        rw [List.all_cons, Bool.and_eq_true, decide_eq_true_eq] at hall
        obtain ⟨rfl, hall⟩ := hall
        show [Atom.someSpaces] = .someSpaces :: escapeFrom true '\x00' rest
        rw [hspaces rest hall]
    · rfl

section Fragment

variable {k : Matcher} {text : List Char} {caps : List (List Char)} {s : ℤ}

/-- **Fragments.** A fragment in front of what is ready is ready.  Within a run of white
    space, of which the token stands further left, the same is said of the token. -/
theorem ready_escapeFrom (hk : Ready k text caps s) {fragment : Name}
    (hv : '\x0b' ∉ fragment) (hfits : Fits fragment s) (p : Char) :
    Ready (runAtoms (escapeFrom false p fragment) k) (fragment ++ text) caps
        (gapBefore false p fragment s) ∧
      Gap (Atom.run .spaces (runAtoms (escapeFrom true p fragment) k)) (fragment ++ text) caps
        (gapBefore true p fragment s) ∧
      Gap (Atom.run .someSpaces (runAtoms (escapeFrom true p fragment) k)) (fragment ++ text)
        caps (gapBefore true p fragment s - 1) := by
  induction fragment generalizing p with
  | nil => exact ⟨hk, hk.spaces, hk.someSpaces⟩
  | cons c rest ih =>
    have hc : c ≠ '\x0b' := fun h => hv (h ▸ List.mem_cons_self ..)
    have hrest : '\x0b' ∉ rest := fun h => hv (List.mem_cons_of_mem _ h)
    unfold escapeFrom gapBefore
    by_cases hspace : cIsSpace c = true
    · obtain ⟨-, hspaces, hsome⟩ := ih hrest hfits.2 p
      have hblank : Blank [c] := by
        intro d hd
        rw [List.mem_singleton.mp hd, ← cIsSpace_eq hc]
        exact hspace
      have hspaces' := hspaces.blank hblank
      have hsome' := hsome.blank hblank
      refine ⟨.inr ?_, ?_, ?_⟩
      · by_cases hp : isPunct p = true
        · simpa [hspace, hp, runAtoms_cons] using hspaces'
        · simpa [hspace, hp, runAtoms_cons, sub_add_eq_add_sub] using hsome'
      · simpa [hspace] using hspaces'
      · simpa [hspace, sub_add_eq_add_sub] using hsome'
    · have hsolid : isSpace c = false := by
        rw [← cIsSpace_eq hc]
        simpa using hspace
      obtain ⟨hready, -, -⟩ := ih hrest hfits.2 c
      have hliteral := hready.literal (hfits.1 (by simpa using hspace)) hsolid
      simp only [if_neg hspace, runAtoms_cons]
      exact ⟨hliteral, hliteral.spaces, hliteral.someSpaces⟩

end Fragment

/-! ### Within an operand -/

/-- A text that the expression of a fragment may match character by character although it
    starts within an operand: letters, digits, underscores, and white space behind
    underscores. -/
def softFrom (p : Char) : Name → Bool
  | [] => true
  | c :: rest => if cIsSpace c then p = '_' && softFrom p rest else isWordChar c && softFrom c rest

theorem softFrom_of_word (hw : ∀ c ∈ w, isWordChar c = true) (p : Char) : softFrom p w = true := by
  induction w generalizing p with
  | nil => rfl
  | cons c rest ih =>
    have hc := hw c (List.mem_cons_self ..)
    rw [softFrom, cIsSpace_eq_false_of_isWordChar hc, if_neg Bool.false_ne_true, hc,
      ih (fun d hd => hw d (List.mem_cons_of_mem _ hd))]
    rfl

theorem softFrom_snoc_word (hc : isWordChar c = true) (hw : softFrom p w = true) :
    softFrom p (w ++ [c]) = true := by
  induction w generalizing p with
  | nil => exact softFrom_of_word (by simpa using hc) p
  | cons d rest ih =>
    unfold softFrom at hw
    rw [List.cons_append, softFrom]
    split
    · rename_i hd
      rw [if_pos hd, Bool.and_eq_true] at hw
      rw [hw.1, ih hw.2]
      rfl
    · rename_i hd
      rw [if_neg hd, Bool.and_eq_true] at hw
      rw [hw.1, ih hw.2]
      rfl

theorem softFrom_snoc_space (hc : cIsSpace c = true) (hw : softFrom p w = true)
    (hlast : lastSolid p w = '_') : softFrom p (w ++ [c]) = true := by
  induction w generalizing p with
  | nil =>
    have hp : p = '_' := hlast
    simp [softFrom, hc, hp]
  | cons d rest ih =>
    unfold softFrom at hw
    unfold lastSolid at hlast
    rw [List.cons_append, softFrom]
    split
    · rename_i hd
      rw [if_pos hd, Bool.and_eq_true] at hw
      rw [if_pos hd] at hlast
      rw [hw.1, ih hw.2 hlast]
      rfl
    · rename_i hd
      rw [if_neg hd, Bool.and_eq_true] at hw
      rw [if_neg hd] at hlast
      rw [hw.1, ih hw.2 hlast]
      rfl

theorem lastSolid_snoc (p : Char) (w : Name) (c : Char) :
    lastSolid p (w ++ [c]) = if cIsSpace c then lastSolid p w else c := by
  induction w generalizing p with
  | nil => rfl
  | cons d rest ih =>
    rw [List.cons_append, lastSolid, lastSolid, ih, ih]
    split
    · rfl
    · split
      · rfl
      · rfl

/-- The text that is left of an operand and of the part of the fragment that has been
    matched in it.  `p` is the character that was matched last. -/
structure Within (p : Char) (w : Name) : Prop where
  soft : softFrom p w = true
  solid : ∃ c ∈ w, cIsSpace c = false
  underscore : p = '_' → lastSolid p w = '_'
  punct : isPunct p = true → p = '_'
  noTab : '\x0b' ∉ w

theorem within_of_isWord (hv : IsWord v) : Within '\x00' v := by
  obtain ⟨c, rest, rfl⟩ := List.exists_cons_of_ne_nil hv.1
  refine ⟨softFrom_of_word hv.2 _, ⟨c, List.mem_cons_self .., ?_⟩, ?_, ?_, ?_⟩
  · exact cIsSpace_eq_false_of_isWordChar (hv.2 c (List.mem_cons_self ..))
  · intro h
    exact absurd h (by decide)
  · intro h
    exact absurd h (by decide)
  · intro h
    exact absurd (hv.2 _ h) (by decide)

theorem Within.head_solid (h : Within p w) (hp : p ≠ '_') :
    ∃ c rest, w = c :: rest ∧ isWordChar c = true := by
  obtain ⟨c₀, hc₀, -⟩ := h.solid
  obtain ⟨c, rest, rfl⟩ := List.exists_cons_of_ne_nil (List.ne_nil_of_mem hc₀)
  refine ⟨c, rest, rfl, ?_⟩
  have hsoft := h.soft
  unfold softFrom at hsoft
  split at hsoft
  · simp [hp] at hsoft
  · exact (Bool.and_eq_true .. ▸ hsoft).1

theorem Within.snoc_space (h : Within '_' w) (hc : cIsSpace c = true) (htab : c ≠ '\x0b') :
    Within '_' (w ++ [c]) := by
  obtain ⟨d, hd, hsolid⟩ := h.solid
  have hlast := h.underscore rfl
  refine ⟨softFrom_snoc_space hc h.soft hlast, ⟨d, List.mem_append_left _ hd, hsolid⟩, ?_,
    h.punct, ?_⟩
  · intro _
    rw [lastSolid_snoc, if_pos hc, hlast]
  · intro hmem
    rcases List.mem_append.mp hmem with hmem | hmem
    · exact h.noTab hmem
    · exact htab (List.mem_singleton.mp hmem).symm

theorem Within.drop_blank (h : Within '_' (w ++ v)) (hw : Blank w) : Within '_' v := by
  induction w with
  | nil => exact h
  | cons c rest ih =>
    have hc : cIsSpace c = true := by simp [cIsSpace, hw c (List.mem_cons_self ..)]
    refine ih ⟨?_, ?_, ?_, h.punct, fun hmem => h.noTab (List.mem_cons_of_mem _ hmem)⟩
      (fun d hd => hw d (List.mem_cons_of_mem _ hd))
    · have hsoft := h.soft
      rw [List.cons_append, softFrom, if_pos hc] at hsoft
      exact (Bool.and_eq_true .. ▸ hsoft).2
    · obtain ⟨d, hd, hsolid⟩ := h.solid
      rw [List.cons_append] at hd
      rcases List.mem_cons.mp hd with rfl | hd
      · rw [hc] at hsolid
        cases hsolid
      · exact ⟨d, hd, hsolid⟩
    · intro _
      have hlast := h.underscore rfl
      rw [List.cons_append, lastSolid, if_pos hc] at hlast
      exact hlast

theorem Within.pop (h : Within p (c :: w)) (hc : isWordChar c = true) : Within c (w ++ [c]) := by
  have hspace := cIsSpace_eq_false_of_isWordChar hc
  have hsoft := h.soft
  rw [softFrom, hspace, if_neg Bool.false_ne_true, Bool.and_eq_true] at hsoft
  refine ⟨softFrom_snoc_word hc hsoft.2, ⟨c, by simp, hspace⟩, ?_,
    eq_underscore_of_isPunct hc, ?_⟩
  · intro hunder
    rw [lastSolid_snoc, hspace, if_neg Bool.false_ne_true, hunder]
  · intro hmem
    apply h.noTab
    rcases List.mem_append.mp hmem with hmem | hmem
    · exact List.mem_cons_of_mem _ hmem
    · exact List.mem_cons.mpr (.inl (List.mem_singleton.mp hmem))

theorem exists_of_append_eq_blank {t tail : Name} (hv : ∃ c ∈ v, cIsSpace c = false) (hw : Blank w)
    (h : v ++ t = w ++ tail) : ∃ v', v = w ++ v' ∧ tail = v' ++ t := by
  rcases List.append_eq_append_iff.mp h with ⟨a, rfl, -⟩ | ⟨v', rfl, rfl⟩
  · obtain ⟨c, hc, hsolid⟩ := hv
    have hblank := hw c (List.mem_append_left _ hc)
    simp [cIsSpace, hblank] at hsolid
  · exact ⟨v', rfl, rfl⟩

/-- **Blocking.** The expression of a fragment does not match from within the operand
    before it, if what follows does not match within the operand or the fragment.  The
    induction is on the fragment: a character that matches moves from it to the end of the
    text `w` that is left. -/
theorem run_escapeFrom_eq_none {k : Matcher} {t : Name} {fragment : Name} {inSpace : Bool}
    (hw : Within p w) (hin : inSpace = true → p = '_') (htab : '\x0b' ∉ fragment)
    (hend : hardFrom p fragment = false → ∀ v, Within (lastSolid p fragment) v →
      ((∀ c ∈ w ++ fragment, isWordChar c = true) → ∀ c ∈ v, isWordChar c = true) →
      k (v ++ t) = none) :
    runAtoms (escapeFrom inSpace p fragment) k (w ++ (fragment ++ t)) = none := by
  induction fragment generalizing inSpace p w with
  | nil => exact hend rfl w hw (fun h => by simpa using h)
  | cons c rest ih =>
    have hc : c ≠ '\x0b' := fun h => htab (h ▸ List.mem_cons_self ..)
    have hrest : '\x0b' ∉ rest := fun h => htab (List.mem_cons_of_mem _ h)
    unfold escapeFrom
    by_cases hspace : cIsSpace c = true
    · rw [if_pos hspace]
      have hnotWord : isWordChar c ≠ true := by
        intro hword
        rw [cIsSpace_eq_false_of_isWordChar hword] at hspace
        cases hspace
      by_cases hp : p = '_'
      · subst hp
        -- Optional white space: nothing of the text is taken but white space before it.
        have hstep : ∀ v, Within '_' v →
            runAtoms (escapeFrom true '_' rest) k (v ++ (c :: rest ++ t)) = none := by
          intro v hv
          have hsplit : v ++ (c :: rest ++ t) = (v ++ [c]) ++ (rest ++ t) := by simp
          rw [hsplit]
          refine ih (hv.snoc_space hspace hc) (fun _ => rfl) hrest ?_
          intro hhard v' hv' _
          have hhard' : hardFrom '_' (c :: rest) = false := by simp [hardFrom, hspace, hhard]
          have hlast : lastSolid '_' (c :: rest) = lastSolid '_' rest := by
            rw [lastSolid, if_pos hspace]
          refine hend hhard' v' (by rw [hlast]; exact hv') ?_
          intro hall
          exact absurd (hall c (by simp)) hnotWord
        split
        · exact hstep w hw
        · rw [if_pos (by decide), runAtoms_cons]
          apply skipSpaces_eq_none
          intro blank tail heq hblank
          obtain ⟨v, rfl, rfl⟩ := exists_of_append_eq_blank hw.solid hblank heq
          exact hstep v (hw.drop_blank hblank)
      · have hin' : ¬ inSpace = true := fun h => hp (hin h)
        have hpunct : ¬ isPunct p = true := fun h => hp (hw.punct h)
        obtain ⟨d, w', rfl, hd⟩ := hw.head_solid hp
        rw [if_neg hin', if_neg hpunct, runAtoms_cons]
        apply someSpaces_run_solid
        intro e he
        cases he
        exact isSpace_eq_false_of_isWordChar hd
    · rw [if_neg hspace, runAtoms_cons]
      obtain ⟨c₀, hc₀, -⟩ := hw.solid
      obtain ⟨d, w', rfl⟩ := List.exists_cons_of_ne_nil (List.ne_nil_of_mem hc₀)
      by_cases hd : d = c
      · subst hd
        have hword : isWordChar d = true := by
          have hsoft := hw.soft
          rw [softFrom, if_neg hspace, Bool.and_eq_true] at hsoft
          exact hsoft.1
        have hsplit : w' ++ (d :: rest ++ t) = (w' ++ [d]) ++ (rest ++ t) := by simp
        show Atom.run (.literal d) _ (d :: (w' ++ (d :: rest ++ t))) = none
        rw [literal_run, hsplit]
        refine ih (hw.pop hword) (fun h => by cases h) hrest ?_
        intro hhard v hv hall
        have hhard' : hardFrom p (d :: rest) = false := by
          rw [hardFrom, if_neg hspace, if_pos hword, hhard]
        have hlast : lastSolid p (d :: rest) = lastSolid d rest := by
          rw [lastSolid, if_neg hspace]
        refine hend hhard' v (by rw [hlast]; exact hv) ?_
        intro hall'
        apply hall
        intro e he
        apply hall'
        simp only [List.mem_append, List.mem_cons] at he ⊢
        tauto
      · exact literal_run_of_ne hd

/-! ### Operands -/

theorem IsWord.solid (hv : IsWord v) (t : Name) : Solid (v ++ t) := by
  obtain ⟨c, rest, rfl⟩ := List.exists_cons_of_ne_nil hv.1
  intro d hd
  cases hd
  exact isSpace_eq_false_of_isWordChar (hv.2 c (List.mem_cons_self ..))

theorem IsWord.suffix {u : Name} (hw : IsWord w) (h : w = u ++ v) (hv : v ≠ []) : IsWord v :=
  ⟨hv, fun c hc => hw.2 c (by rw [h]; exact List.mem_append_right _ hc)⟩

theorem IsWord.isSpace_eq_false (hw : IsWord w) : ∀ c ∈ w, isSpace c = false :=
  fun c hc => isSpace_eq_false_of_isWordChar (hw.2 c hc)

/-- The part of the expression behind a fragment. -/
def restItems (optional : Bool) (fragment : Name) (fragments : List Name) :
    List FormatInfo → List Item
  | [] => tailItems none fragments []
  | info :: infos =>
    spaceItems optional (escapeRegexCharacters fragment) ++
      if info.isOptional then tailItems (some (operandAtoms fragments)) fragments infos
      else (operandAtoms fragments).map .one ++ tailItems none fragments infos

/-- The text behind a fragment. -/
def restText (print : FormatInfo → Name) (fragments : List Name) : List FormatInfo → Name
  | [] => formatText print fragments []
  | info :: infos => print info ++ formatText print fragments infos

theorem tailItems_cons (pending : Option (List Atom)) (fragment : Name) (fragments : List Name)
    (infos : List FormatInfo) :
    tailItems pending (fragment :: fragments) infos =
      addFragment [] pending (escapeRegexCharacters fragment) ++
        restItems pending.isSome fragment fragments infos := by
  cases infos with
  | nil => rfl
  | cons info infos => rfl

theorem formatText_cons (print : FormatInfo → Name) (fragment : Name) (fragments : List Name)
    (infos : List FormatInfo) :
    formatText print (fragment :: fragments) infos =
      fragment ++ restText print fragments infos := by
  cases infos with
  | nil => rfl
  | cons info infos => rfl

section Operand

variable {k : Matcher} {text : Name} {caps : List Name} {s : ℤ}

/-- An operand and the fragment behind it. -/
theorem operand_run {w fragment : Name} (fragments : List Name) (hw : IsWord w)
    (hk : Ready k text caps s) (htab : '\x0b' ∉ fragment) (hfits : Fits fragment s)
    (hlead : 0 ≤ gapBefore false '\x00' fragment s)
    (hblock : ∀ v, IsWord v →
      runAtoms (escapeFrom false '\x00' fragment) k (v ++ (fragment ++ text)) = none) :
    runAtoms (operandAtoms (fragment :: fragments) ++ escapeRegexCharacters fragment) k
      (w ++ (fragment ++ text)) = some (w :: caps) := by
  have hready := (ready_escapeFrom hk htab hfits '\x00').1
  rw [escapeRegexCharacters_eq]
  cases fragment with
  | nil =>
    show Atom.run .word (runAtoms _ k) _ = _
    refine word_run hw.isSpace_eq_false ?_ (hready.run hlead)
    intro u v huv hv
    exact hblock v (hw.suffix huv hv)
  | cons c rest =>
    show Atom.run .word (Atom.run .spaces (runAtoms _ k)) _ = _
    refine word_run hw.isSpace_eq_false ?_ (Ready.run (.inr hready.spaces) hlead)
    intro u v huv hv
    have hword := hw.suffix huv hv
    show skipSpaces _ _ = none
    rw [skipSpaces_solid (hword.solid _)]
    exact hblock v hword

theorem ready_spaceItems (optional : Bool) (escaped : List Atom) (hsolid : Solid text)
    (hrun : k text = some caps) : Ready (runItems (spaceItems optional escaped) k) text caps 0 := by
  have hready : Ready k text caps 0 := .inl ⟨hsolid, hrun, rfl⟩
  unfold spaceItems
  split
  · exact hready
  · split
    · exact .inr hready.spaces
    · exact hready

end Operand

section Format

variable {k : Matcher} {text : Name} {caps : List Name} {s : ℤ} {last : Bool}

/-- What follows a format: it is ready, and it does not match within a text that ends in
    front of it. -/
structure Follows (k : Matcher) (text : Name) (caps : List Name) (s : ℤ) (last : Bool) :
    Prop where
  gap : Gap k text caps s
  solid : ∀ t, t ≠ [] → Solid t → k t = none
  last : last = true → ∀ t, (∃ c ∈ t, isSpace c = false) → k t = none

theorem Follows.blank (h : Follows k text caps s last) {w : Name} (hw : Blank w) :
    Follows k (w ++ text) caps (s + w.length) last :=
  ⟨h.gap.blank hw, h.solid, h.last⟩

variable {v fragment : Name}

theorem Follows.isWord (h : Follows k text caps s last) (hv : IsWord v) : k (v ++ text) = none :=
  h.solid (v ++ text) (List.append_ne_nil_of_left_ne_nil hv.1 text) (hv.solid text)

/-- The fragment at the end of a format does not match within the operand before it. -/
theorem Follows.closes (h : Follows k text caps s last) (hcloses : closes last fragment = true)
    (htab : '\x0b' ∉ fragment) (hv : IsWord v) :
    runAtoms (escapeFrom false '\x00' fragment) k (v ++ (fragment ++ text)) = none := by
  refine run_escapeFrom_eq_none (within_of_isWord hv) (fun h => by cases h) htab ?_
  intro hhard w hw hall
  have hcases : last = true ∨ lastSolid '\x00' fragment ≠ '_' ∨
      fragment.all isWordChar = true := by
    simpa [Decoder.closes, hhard, or_assoc] using hcloses
  rcases hcases with hlast | hlast | hword
  · obtain ⟨c, hc, hsolid⟩ := hw.solid
    refine h.last hlast (w ++ text) ⟨c, List.mem_append_left _ hc, ?_⟩
    simp [cIsSpace] at hsolid
    exact hsolid.1
  · obtain ⟨c, rest, rfl, hc⟩ := hw.head_solid hlast
    refine h.solid _ (List.cons_ne_nil _ _) ?_
    intro d hd
    cases hd
    exact isSpace_eq_false_of_isWordChar hc
  · apply h.isWord
    obtain ⟨c, hc, -⟩ := hw.solid
    refine ⟨List.ne_nil_of_mem hc, hall ?_⟩
    intro d hd
    rcases List.mem_append.mp hd with hd | hd
    · exact hv.2 d hd
    · exact List.all_eq_true.mp hword d hd

theorem hard_blocks (hhard : hardFrom '\x00' fragment = true) (htab : '\x0b' ∉ fragment)
    (hv : IsWord v) (text : Name) :
    runAtoms (escapeFrom false '\x00' fragment) k (v ++ (fragment ++ text)) = none := by
  refine run_escapeFrom_eq_none (within_of_isWord hv) (fun h => by cases h) htab ?_
  intro hsoft
  rw [hhard] at hsoft
  cases hsoft

/-- **Formats.** What follows a fragment of a format is ready, by induction on the
    fragments. -/
theorem ready_restItems (print : FormatInfo → Name) (hk : Follows k text caps s last)
    {fragments : List Name} {infos : List FormatInfo} (optional : Bool)
    (hle : infos.length ≤ fragments.length + 1) (hge : fragments.length ≤ infos.length)
    (hsep : separated last (fragment :: fragments) infos = true)
    (hfits : FitsEnd (fragment :: fragments) infos s) (htab : ∀ f ∈ fragments, '\x0b' ∉ f)
    (hprint : ∀ info ∈ infos, IsWord (print info)) :
    Ready (runItems (restItems optional fragment fragments infos) k)
      (restText print fragments infos ++ text) (infos.map print ++ caps)
      (if infos = [] then s else 0) := by
  induction fragments generalizing infos fragment optional with
  | nil =>
    cases infos with
    | nil => exact .inr hk.gap
    | cons info infos =>
      obtain rfl := List.eq_nil_of_length_eq_zero (Nat.le_zero.mp (Nat.le_of_succ_le_succ hle))
      have hword := hprint info (List.mem_cons_self ..)
      have hrun : Atom.run .word k (print info ++ text) = some (print info :: caps) := by
        refine word_run hword.isSpace_eq_false ?_ (Ready.run (.inr hk.gap) (hfits.1 rfl))
        intro u v huv hv
        exact hk.isWord (hword.suffix huv hv)
      rw [restItems, runItems_append, restText, formatText, List.append_nil]
      apply ready_spaceItems optional _ (hword.solid text)
      split
      · exact optional_run hrun
      · exact hrun
  | cons next fragments ih =>
    cases infos with
    | nil => exact absurd hge (by simp)
    | cons info infos =>
      have hword := hprint info (List.mem_cons_self ..)
      have htab' : '\x0b' ∉ next := htab next (List.mem_cons_self ..)
      have hsep' : separated last (next :: fragments) infos = true := by
        unfold separated at hsep
        exact (Bool.and_eq_true .. ▸ hsep).2
      have hrest := fun optional => ih optional (Nat.le_of_succ_le_succ hle)
        (Nat.le_of_succ_le_succ hge) hsep' hfits.2
        (fun f hf => htab f (List.mem_cons_of_mem _ hf))
        (fun i hi => hprint i (List.mem_cons_of_mem _ hi))
      have hoperand : ∀ optional, runAtoms
          (operandAtoms (next :: fragments) ++ escapeRegexCharacters next)
          (runItems (restItems optional next fragments infos) k)
          (print info ++ (next ++ (restText print fragments infos ++ text))) =
            some (print info :: (infos.map print ++ caps)) := by
        intro optional
        cases infos with
        | nil =>
          obtain rfl := List.eq_nil_of_length_eq_zero
            (Nat.le_zero.mp (Nat.le_of_succ_le_succ hge))
          have hcloses : closes last next = true := by
            unfold separated at hsep
            exact (Bool.and_eq_true .. ▸ hsep).1
          refine operand_run [] hword (hrest optional) htab' hfits.2.1 (hfits.1 rfl) ?_
          intro v hv
          exact hk.closes hcloses htab' hv
        | cons info' infos =>
          have hhard : hardFrom '\x00' next = true := by
            unfold separated at hsep
            exact (Bool.and_eq_true .. ▸ hsep).1
          refine operand_run fragments hword (hrest optional) htab'
            (fits_of_nonneg next (le_refl 0)) (gapBefore_nonneg false '\x00' next (le_refl 0)) ?_
          intro v hv
          exact hard_blocks hhard htab' hv _
      rw [restItems, runItems_append, restText, formatText_cons, List.append_assoc,
        List.append_assoc]
      apply ready_spaceItems optional _ (hword.solid _)
      split
      · rw [tailItems_cons, runItems_append]
        exact optional_run (hoperand true)
      · rw [tailItems_cons, addFragment, List.nil_append, runItems_append, runItems_append,
          runItems_map_one, runItems_map_one, ← runAtoms_append]
        exact hoperand false

theorem ready_tailItems (print : FormatInfo → Name) (hk : Follows k text caps s last)
    {fragments : List Name} {infos : List FormatInfo} (hle : infos.length ≤ fragments.length)
    (hge : fragments.length ≤ infos.length + 1)
    (hsep : separated last fragments infos = true) (hfits : FitsEnd fragments infos s)
    (htab : ∀ f ∈ fragments, '\x0b' ∉ f) (hprint : ∀ info ∈ infos, IsWord (print info)) :
    Ready (runItems (tailItems none fragments infos) k) (formatText print fragments infos ++ text)
      (infos.map print ++ caps) (lead fragments infos s) := by
  cases fragments with
  | nil =>
    obtain rfl := List.eq_nil_of_length_eq_zero (Nat.le_zero.mp hle)
    exact .inr hk.gap
  | cons fragment fragments =>
    have hrest := ready_restItems print hk false hle (Nat.le_of_succ_le_succ hge)
      hsep hfits (fun f hf => htab f (List.mem_cons_of_mem _ hf)) hprint
    have htab' := htab fragment (List.mem_cons_self ..)
    rw [tailItems_cons, addFragment, List.nil_append, runItems_append, runItems_map_one,
      formatText_cons, List.append_assoc, escapeRegexCharacters_eq]
    cases infos with
    | nil => exact (ready_escapeFrom hrest htab' hfits.1 '\x00').1
    | cons info infos =>
      exact (ready_escapeFrom hrest htab' (fits_of_nonneg fragment (le_refl 0)) '\x00').1

end Format

/-! ### The whole string -/

theorem blank_replicate (n : Nat) : Blank (List.replicate n ' ') := by
  intro c hc
  rw [List.eq_of_mem_replicate hc]
  rfl

theorem blank_leftPad (width : Int) (text : Name) : Blank (leftPad width text) := by
  unfold leftPad
  split
  · exact blank_replicate _
  · simp [Blank]

theorem blank_rightPad (width : Int) (text : Name) : Blank (rightPad width text) := by
  unfold rightPad
  split
  · exact blank_replicate _
  · simp [Blank]

theorem follows_end : Follows (Atom.run .spaces atEnd) [] [] 0 true := by
  have hne : ∀ t : Name, t ≠ [] → atEnd t = none := fun t ht => if_neg ht
  have hready : Ready atEnd [] [] 0 := .inl ⟨by simp [Solid], rfl, rfl⟩
  refine ⟨hready.spaces, ?_, ?_⟩
  · intro t ht hsolid
    show skipSpaces atEnd t = none
    rw [skipSpaces_solid hsolid, hne t ht]
  · rintro - t ⟨c, hc, hsolid⟩
    apply skipSpaces_eq_none
    rintro w tail rfl hw
    apply hne
    rintro rfl
    rw [List.append_nil] at hc
    rw [hw c hc] at hsolid
    cases hsolid

theorem ready_format (print : FormatInfo → Name) {format : DisasmFormat} {k : Matcher} {text : Name}
    {caps : List Name} {last : Bool} (hk : Follows k text caps s last)
    (htab : ∀ f ∈ format.fragments, '\x0b' ∉ f)
    (hprint : ∀ info ∈ format.infos, IsWord (print info))
    (hsep : separated last format.fragments format.infos = true)
    (hfits : FitsEnd format.fragments format.infos (s +
      (rightPad format.width (formatText print format.fragments format.infos)).length)) :
    Ready (runItems (tailItems none format.fragments format.infos) k)
      (formatText print format.fragments format.infos ++
        (rightPad format.width (formatText print format.fragments format.infos) ++ text))
      (format.infos.map print ++ caps) (lead format.fragments format.infos (s +
        (rightPad format.width (formatText print format.fragments format.infos)).length)) :=
  ready_tailItems print (hk.blank (blank_rightPad _ _)) format.infos_le format.le_infos hsep hfits
    htab hprint

theorem flatMap_text_cons (print : FormatInfo → Name) (format : DisasmFormat)
    (formats : List DisasmFormat) :
    ((format :: formats).flatMap fun format => format.text print) =
      leftPad format.width (formatText print format.fragments format.infos) ++
        (formatText print format.fragments format.infos ++
          (rightPad format.width (formatText print format.fragments format.infos) ++
            formats.flatMap fun format => format.text print)) := by
  rw [List.flatMap_cons, DisasmFormat.text, padText, List.append_assoc, List.append_assoc]

/-- The formats behind the first one, by induction from the last one. -/
theorem follows_formats (print : FormatInfo → Name) {formats : List DisasmFormat}
    (htab : ∀ format ∈ formats, ∀ f ∈ format.fragments, '\x0b' ∉ f)
    (hprint : ∀ format ∈ formats, ∀ info ∈ format.infos, IsWord (print info))
    (hsep : Separated formats) (hspaced : Spaced print formats) :
    Follows (runItems (formatsItems .someSpaces formats) (Atom.run .spaces atEnd))
      (formats.flatMap fun format => format.text print)
      (formats.flatMap fun format => format.infos.map print) (surplusOf print formats)
      formats.isEmpty := by
  induction formats with
  | nil => exact follows_end
  | cons format formats ih =>
    have hrest := ih (fun f hf => htab f (List.mem_cons_of_mem _ hf))
      (fun f hf => hprint f (List.mem_cons_of_mem _ hf)) hsep.2 hspaced.2
    have hready := ready_format print hrest (htab format (List.mem_cons_self ..))
      (hprint format (List.mem_cons_self ..)) hsep.1 hspaced.1
    have hgap := hready.someSpaces.blank
      (blank_leftPad format.width (formatText print format.fragments format.infos))
    rw [flatMap_text_cons, List.flatMap_cons, formatsItems, runItems_cons, runItems_append]
    refine ⟨?_, ?_, fun h => by cases h⟩
    · rw [surplusOf, add_sub_right_comm]
      exact hgap
    · intro t _ hsolid
      exact someSpaces_run_solid hsolid

theorem fullMatch_formats (print : FormatInfo → Name) {formats : List DisasmFormat}
    (htab : ∀ format ∈ formats, ∀ f ∈ format.fragments, '\x0b' ∉ f)
    (hprint : ∀ format ∈ formats, ∀ info ∈ format.infos, IsWord (print info))
    (hsep : Separated formats) (hspaced : Spaced print formats)
    (hstart : 0 ≤ surplusOf print formats + 1) :
    fullMatch (formatsItems .spaces formats ++ [.one .spaces])
        (formats.flatMap fun format => format.text print) =
      some (formats.flatMap fun format => format.infos.map print) := by
  rw [fullMatch, runItems_append]
  cases formats with
  | nil => rfl
  | cons format formats =>
    have hrest := follows_formats print (fun f hf => htab f (List.mem_cons_of_mem _ hf))
      (fun f hf => hprint f (List.mem_cons_of_mem _ hf)) hsep.2 hspaced.2
    have hready := ready_format print hrest (htab format (List.mem_cons_self ..))
      (hprint format (List.mem_cons_self ..)) hsep.1 hspaced.1
    have hgap := hready.spaces.blank
      (blank_leftPad format.width (formatText print format.fragments format.infos))
    rw [surplusOf, sub_add_cancel] at hstart
    rw [flatMap_text_cons, List.flatMap_cons, formatsItems, runItems_cons, runItems_append]
    exact Ready.run (.inr hgap) hstart

theorem endsRawString_eq_false {fragment : Name} (h : '"' ∉ fragment) :
    endsRawString fragment = false := by
  induction fragment with
  | nil => rfl
  | cons c rest ih =>
    have hrest := ih (fun hmem => h (List.mem_cons_of_mem _ hmem))
    unfold endsRawString
    split
    · rename_i heq
      cases heq
      simp at h
    · rename_i heq
      cases heq
      exact hrest
    · rfl

theorem Instruction.Readable.emitRegEx_eq {inst : Instruction} (h : inst.Readable) :
    emitRegEx inst =
      some (formatsItems .spaces inst.formats ++ [.one .spaces], inst.operandNames) := by
  have hquote : ∀ format ∈ inst.formats, ∀ fragment ∈ format.fragments, '"' ∉ fragment := by
    intro format hformat fragment hfragment hmem
    have hcompiles := h.compiles
    simp only [setterCompiles, Bool.decide_and, Bool.and_eq_true, decide_eq_true_eq,
      List.all_eq_true] at hcompiles
    have hliteral := (hcompiles.1 format hformat).1 fragment hfragment
    simp only [isLiteralText, List.all_eq_true, decide_eq_true_eq] at hliteral
    exact (hliteral _ hmem).1 rfl
  unfold emitRegEx
  rw [if_neg, generateRegEx_eq h.known]
  intro hends
  obtain ⟨format, hformat, hends⟩ := List.any_eq_true.mp hends
  obtain ⟨fragment, hfragment, hends⟩ := List.any_eq_true.mp hends
  rw [endsRawString_eq_false (hquote format hformat fragment hfragment)] at hends
  cases hends

/-- The conditions under which an instruction reassembles. -/
structure Reassemblable (inst : Instruction) (print : FormatInfo → Name) : Prop where
  readable : inst.Readable
  separated : Separated inst.formats
  spaced : Spaced print inst.formats
  start : 0 ≤ surplusOf print inst.formats + 1

/-- The operands of `add` are printed as `x1` and `x_2`. -/
def printOperand (info : FormatInfo) : Name :=
  if info.opName = "rd".toList then "x1".toList else "x_2".toList

theorem isWord_printOperand (info : FormatInfo) : IsWord (printOperand info) := by
  unfold printOperand
  split
  · exact ⟨List.cons_ne_nil _ _, List.all_eq_true.mp rfl⟩
  · exact ⟨List.cons_ne_nil _ _, List.all_eq_true.mp rfl⟩

/-- `add` without a column for the mnemonic. -/
def narrowAdd : Instruction :=
  { addInstruction with formats := addInstruction.formats.map fun f => { f with width := 0 } }

end MpactSim.Decoder
