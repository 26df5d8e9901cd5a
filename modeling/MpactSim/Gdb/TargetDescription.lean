import MpactSim.Gdb.Numbers

namespace MpactSim.Gdb

/-!
# GDB remote protocol: reading the target description

A client reads the description in chunks, each from where the last one ended, until a reply starts
with `l`.

* `readTarget`       — the reply to a read;
* `offsets`          — where the client is after some replies;
* `readTarget_pages` — the replies end, and their data is the description.

The sum of offset and length wraps for lengths near `2 ^ 64`.  The reply then starts with `m`
although it is the rest of the description, and one more read follows.
-/

/-- `GdbXferReadTarget` -/
def readTarget (xml offsetStr lengthStr : Bytes) : Bytes :=
  gdbXferReadTarget xml (simpleHexAtoi64 offsetStr) (simpleHexAtoi64 lengthStr)

variable (xml : Bytes) (lengths : Nat → UInt64)

/-- Where the client is after `n` replies: the letter of a reply is not data. -/
def offsets : Nat → Nat
  | 0 => 0
  | n + 1 => offsets n +
      (readTarget xml (absHex (offsets n)) (absHex (lengths n).toNat)).tail.length

/-- The reply to the read with number `n`. -/
def pageReply (n : Nat) : Bytes :=
  readTarget xml (absHex (offsets xml lengths n)) (absHex (lengths n).toNat)

variable {xml : Bytes} {lengths : Nat → UInt64}

/-- `'l'` and `'m'` -/
def lastLetter : UInt8 := 0x6c

def moreLetter : UInt8 := 0x6d

theorem ascii_l : ascii "l" = [lastLetter] := by decide +kernel

theorem ascii_m : ascii "m" = [moreLetter] := by decide +kernel

/-- **One reply.** It has the last letter and the rest of the description, or the other letter and
    some of it, which is not empty. -/
theorem readTarget_cases {offset length : Nat} (hxml : xml.length < 2 ^ 64)
    (hoffset : offset ≤ xml.length) (hpos : 0 < length) (hlength : length < 2 ^ 64) :
    readTarget xml (absHex offset) (absHex length) = lastLetter :: xml.drop offset ∨
      ∃ k, 0 < k ∧ offset + k ≤ xml.length ∧
        readTarget xml (absHex offset) (absHex length) =
          moreLetter :: (xml.drop offset).take k := by
  rw [readTarget, simpleHexAtoi64_absHex (by omega), simpleHexAtoi64_absHex hlength]
  unfold gdbXferReadTarget
  dsimp only
  rw [ascii_l, ascii_m]
  split
  · next hpast =>
    rw [List.drop_eq_nil_of_le hpast]
    exact .inl rfl
  · next hin =>
    split
    · rw [List.take_of_length_le (by rw [List.length_drop])]
      exact .inl rfl
    · next hfits =>
      refine .inr ⟨min length (xml.length - offset), by omega, by omega, ?_⟩
      -- A sum that wraps is that of a length that goes to the end.
      rcases Nat.le_total length (xml.length - offset) with hle | hle
      · rw [min_eq_left hle]
        rfl
      · rw [min_eq_right hle, List.take_of_length_le (by rw [List.length_drop]; exact hle),
          List.take_of_length_le (by rw [List.length_drop])]
        rfl

theorem offsets_succ (n : Nat) :
    offsets xml lengths (n + 1) = offsets xml lengths n + (pageReply xml lengths n).tail.length :=
  rfl

/-- After replies with the other letter, the client has what is before its offset. -/
def ReadSoFar (xml : Bytes) (lengths : Nat → UInt64) (n : Nat) : Prop :=
  offsets xml lengths n ≤ xml.length ∧
    (∀ i < n, (pageReply xml lengths i).head? = some moreLetter) ∧
    (List.range n).flatMap (fun i => (pageReply xml lengths i).tail) =
      xml.take (offsets xml lengths n)

/-- **One read.** It ends the description, or brings the client further. -/
theorem ReadSoFar.next (hxml : xml.length < 2 ^ 64) (hpos : ∀ i, 0 < lengths i) {n : Nat}
    (h : ReadSoFar xml lengths n) :
    ((pageReply xml lengths n).head? = some lastLetter ∧
      (List.range (n + 1)).flatMap (fun i => (pageReply xml lengths i).tail) = xml) ∨
    (ReadSoFar xml lengths (n + 1) ∧ offsets xml lengths n < offsets xml lengths (n + 1)) := by
  obtain ⟨hle, hmore, hdata⟩ := h
  have hlength : 0 < (lengths n).toNat := UInt64.lt_iff_toNat_lt.mp (hpos n)
  have hcases := readTarget_cases hxml hle hlength (lengths n).toNat_lt
  change pageReply xml lengths n = _ ∨ ∃ k, 0 < k ∧ _ ∧ pageReply xml lengths n = _ at hcases
  rw [List.range_succ, List.flatMap_append, hdata, List.flatMap_singleton]
  rcases hcases with hlast | ⟨k, hk, hfits, hreply⟩
  · rw [hlast]
    exact .inl ⟨rfl, List.take_append_drop ..⟩
  · have hnext : offsets xml lengths (n + 1) = offsets xml lengths n + k := by
      rw [offsets_succ, hreply, List.tail_cons, List.length_take, List.length_drop]
      omega
    refine .inr ⟨⟨by omega, ?_, ?_⟩, by omega⟩
    · intro i hi
      rcases Nat.lt_succ_iff_lt_or_eq.mp hi with hlt | rfl
      · exact hmore i hlt
      · rw [hreply]
        rfl
    · rw [List.range_succ, List.flatMap_append, hdata, List.flatMap_singleton, hnext, hreply,
        List.tail_cons, ← List.take_add]

/-- **Paging.** Whatever the lengths of the chunks are, the replies end with one that starts with
    `l`, the first that does, and the data of all is the description. -/
theorem readTarget_pages (hxml : xml.length < 2 ^ 64) (hpos : ∀ i, 0 < lengths i) :
    ∃ n, (∀ i < n, (pageReply xml lengths i).head? = some moreLetter) ∧
      (pageReply xml lengths n).head? = some lastLetter ∧
      (List.range (n + 1)).flatMap (fun i => (pageReply xml lengths i).tail) = xml := by
  -- Induction on what is left of the description.
  have hall : ∀ left n, ReadSoFar xml lengths n → xml.length - offsets xml lengths n ≤ left →
      ∃ n, (∀ i < n, (pageReply xml lengths i).head? = some moreLetter) ∧
        (pageReply xml lengths n).head? = some lastLetter ∧
        (List.range (n + 1)).flatMap (fun i => (pageReply xml lengths i).tail) = xml := by
    intro left
    induction left with
    | zero =>
      intro n hread hleft
      rcases hread.next hxml hpos with ⟨hlast, hdata⟩ | ⟨hread', hlt⟩
      · exact ⟨n, hread.2.1, hlast, hdata⟩
      · have hle := hread'.1
        omega
    | succ left ih =>
      intro n hread hleft
      rcases hread.next hxml hpos with ⟨hlast, hdata⟩ | ⟨hread', hlt⟩
      · exact ⟨n, hread.2.1, hlast, hdata⟩
      · exact ih (n + 1) hread' (by omega)
  refine hall xml.length 0 ⟨Nat.zero_le _, ?_, rfl⟩ (Nat.sub_le ..)
  intro i hi
  exact absurd hi (Nat.not_lt_zero i)

/-- With the greatest length the first reply is the whole description and does not say so. -/
theorem readTarget_pages_greatest :
    ∃ n, (∀ i < n, (pageReply [0x3c, 0x78] (fun _ => 0xffffffffffffffff) i).head? =
        some moreLetter) ∧
      (pageReply [0x3c, 0x78] (fun _ => 0xffffffffffffffff) n).head? = some lastLetter ∧
      (List.range (n + 1)).flatMap
        (fun i => (pageReply [0x3c, 0x78] (fun _ => 0xffffffffffffffff) i).tail) = [0x3c, 0x78] :=
  readTarget_pages (by decide) (fun _ => by decide)

end MpactSim.Gdb
