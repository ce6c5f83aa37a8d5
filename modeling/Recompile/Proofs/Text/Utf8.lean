import Recompile.Text.Utf8

/-!
# Reading encoded text

Encoded text reads as what was encoded (`Utf8.decode_encode`). The reader goes through
the bytes of one character at a time: the first one tells how many follow and in which
range the second one lies, and each of these adds six bits. Encoded text that is cut off
reads as characters of the beginning of the text, with one stray stretch behind them if
the cut went through a character (`Utf8.decode_cut`).
-/

set_option autoImplicit false

namespace Recompile.Utf8

/-- A number below 256 is the value of its byte. -/
theorem toNat_ofNat {n : Nat} (h : n < 256) : (UInt8.ofNat n).toNat = n :=
  UInt8.toNat_ofNat_of_lt' h

/-- Decoding takes one byte after the other, with what is pending in between. -/
theorem decodeFrom_cons (pending : Option Pending) (byte : UInt8) (bytes : List UInt8) :
    decodeFrom pending (byte :: bytes) =
      (step pending byte).1 ++ decodeFrom (step pending byte).2 bytes := by
  cases pending <;> rfl

/-- A byte that opens a character leaves it pending. -/
theorem decodeFrom_opens {byte : UInt8} {p : Pending} (h : lead byte = .opens p)
    (bytes : List UInt8) : decodeFrom none (byte :: bytes) = decodeFrom (some p) bytes := by
  rw [decodeFrom_cons]
  simp [step, enter, h]

/-- A byte before the last one of a character adds its bits. -/
theorem decodeFrom_continues {bits owed low high x : Nat} (hx : x < 64)
    (hlow : low ≤ x + 0x80) (hhigh : x + 0x80 ≤ high) (bytes : List UInt8) :
    decodeFrom (some ⟨bits, owed + 2, low, high⟩) (UInt8.ofNat (x + 0x80) :: bytes) =
      decodeFrom (some ⟨bits * 64 + x, owed + 1, 0x80, 0xBF⟩) bytes := by
  have hbyte : (UInt8.ofNat (x + 0x80)).toNat = x + 0x80 :=
    toNat_ofNat (by omega)
  rw [decodeFrom_cons]
  simp only [step, hbyte, hlow, hhigh, and_self, if_true, Nat.add_sub_cancel, List.nil_append]

/-- The last byte of a character completes it. -/
theorem decodeFrom_completes {bits low high x : Nat} (hx : x < 64)
    (hlow : low ≤ x + 0x80) (hhigh : x + 0x80 ≤ high) (bytes : List UInt8) :
    decodeFrom (some ⟨bits, 1, low, high⟩) (UInt8.ofNat (x + 0x80) :: bytes) =
      some (Char.ofNat (bits * 64 + x)) :: decodeFrom none bytes := by
  have hbyte : (UInt8.ofNat (x + 0x80)).toNat = x + 0x80 :=
    toNat_ofNat (by omega)
  rw [decodeFrom_cons]
  simp only [step, hbyte, hlow, hhigh, and_self, if_true, Nat.add_sub_cancel, List.cons_append,
    List.nil_append]

/-! ## First bytes -/

/-- A character up to `7F` is its own byte. -/
theorem lead_one {v : Nat} (h : v ≤ 0x7F) : lead (UInt8.ofNat v) = .single (Char.ofNat v) := by
  have hbyte : (UInt8.ofNat v).toNat = v := toNat_ofNat (by omega)
  have hlt : v < 0x80 := by omega
  simp only [lead, hbyte, hlt, if_true]

/-- The first byte of a character up to `7FF` opens a sequence of two. -/
theorem lead_two {v : Nat} (hlow : 0x7F < v) (hhigh : v ≤ 0x7FF) :
    lead (UInt8.ofNat (v / 64 % 0x20 + 0xC0)) = .opens ⟨v / 64, 1, 0x80, 0xBF⟩ := by
  have hbyte : (UInt8.ofNat (v / 64 % 0x20 + 0xC0)).toNat = v / 64 % 0x20 + 0xC0 :=
    toNat_ofNat (by omega)
  have hbits : v / 64 % 0x20 = v / 64 := Nat.mod_eq_of_lt (by omega)
  have hmulti : ¬ v / 64 + 0xC0 < 0x80 := by omega
  have hstray : ¬ v / 64 + 0xC0 < 0xC2 := by omega
  have htwo : v / 64 + 0xC0 < 0xE0 := by omega
  unfold lead
  rw [hbyte, hbits]
  simp only [hmulti, hstray, htwo, if_false, if_true, Nat.add_sub_cancel]

/-- The first of three bytes leaves the second one its range. Surrogates, which are no
characters, are what the range excludes. -/
theorem lead_three {v : Nat} (hlow : 0x7FF < v) (hhigh : v ≤ 0xFFFF)
    (hvalid : v < 0xD800 ∨ 0xDFFF < v) :
    ∃ low high, lead (UInt8.ofNat (v / 4096 % 0x10 + 0xE0)) = .opens ⟨v / 4096, 2, low, high⟩ ∧
      low ≤ v / 64 % 64 + 0x80 ∧ v / 64 % 64 + 0x80 ≤ high := by
  have hbyte : (UInt8.ofNat (v / 4096 % 0x10 + 0xE0)).toNat = v / 4096 % 0x10 + 0xE0 :=
    toNat_ofNat (by omega)
  have hbits : v / 4096 % 0x10 = v / 4096 := Nat.mod_eq_of_lt (by omega)
  unfold lead
  rw [hbyte, hbits]
  dsimp only
  rw [if_neg (by omega), if_neg (by omega), if_neg (by omega)]
  split
  · rename_i hzero
    have hzero : v / 4096 = 0 := by omega
    rw [hzero]
    exact ⟨_, _, rfl, by omega, by omega⟩
  split
  · rename_i hsurrogate
    have hsurrogate : v / 4096 = 0xD := by omega
    rw [hsurrogate]
    exact ⟨_, _, rfl, by omega, by omega⟩
  · rw [if_pos (by omega), Nat.add_sub_cancel]
    exact ⟨_, _, rfl, by omega, by omega⟩

/-- The first of four bytes leaves the second one its range. -/
theorem lead_four {v : Nat} (hlow : 0xFFFF < v) (hhigh : v < 0x110000) :
    ∃ low high, lead (UInt8.ofNat (v / 262144 % 0x08 + 0xF0)) =
        .opens ⟨v / 262144, 3, low, high⟩ ∧
      low ≤ v / 4096 % 64 + 0x80 ∧ v / 4096 % 64 + 0x80 ≤ high := by
  have hbyte : (UInt8.ofNat (v / 262144 % 0x08 + 0xF0)).toNat = v / 262144 % 0x08 + 0xF0 :=
    toNat_ofNat (by omega)
  have hbits : v / 262144 % 0x08 = v / 262144 := Nat.mod_eq_of_lt (by omega)
  unfold lead
  rw [hbyte, hbits]
  dsimp only
  rw [if_neg (by omega), if_neg (by omega), if_neg (by omega), if_neg (by omega),
    if_neg (by omega), if_neg (by omega)]
  split
  · rename_i hzero
    have hzero : v / 262144 = 0 := by omega
    rw [hzero]
    exact ⟨_, _, rfl, by omega, by omega⟩
  split
  · rw [Nat.add_sub_cancel]
    exact ⟨_, _, rfl, by omega, by omega⟩
  · rw [if_pos (by omega)]
    have hlast : v / 262144 = 4 := by omega
    rw [hlast]
    exact ⟨_, _, rfl, by omega, by omega⟩

/-! ## Whole characters -/

/-- The bytes of a character read as that character. -/
theorem decodeFrom_encodeChar (c : Char) (bytes : List UInt8) :
    decodeFrom none (String.utf8EncodeChar c ++ bytes) = some c :: decodeFrom none bytes := by
  have hc : Char.ofNat c.val.toNat = c := Char.ofNat_toNat c
  have hvalid : c.val.toNat < 0xD800 ∨ 0xDFFF < c.val.toNat ∧ c.val.toNat < 0x110000 := c.valid
  unfold String.utf8EncodeChar
  generalize c.val.toNat = v at hc hvalid
  rw [← hc]
  dsimp only
  -- One, two, three or four bytes: the first opens the sequence, and each other one adds six
  -- bits.
  split
  · rename_i hone
    rw [List.cons_append, List.nil_append, decodeFrom_cons]
    simp [step, enter, lead_one hone]
  split
  · rename_i hone htwo
    simp only [List.cons_append, List.nil_append]
    rw [decodeFrom_opens (lead_two (by omega) htwo)]
    rw [decodeFrom_completes (by omega) (by omega) (by omega)]
    have hsum : v / 64 * 64 + v % 64 = v := by omega
    rw [hsum]
  split
  · rename_i htwo hthree
    obtain ⟨low, high, hlead, hlow, hhigh⟩ := lead_three (by omega) hthree (by omega)
    simp only [List.cons_append, List.nil_append]
    rw [decodeFrom_opens hlead, decodeFrom_continues (by omega) hlow hhigh]
    rw [decodeFrom_completes (by omega) (by omega) (by omega)]
    have hsum : (v / 4096 * 64 + v / 64 % 64) * 64 + v % 64 = v := by omega
    rw [hsum]
  · rename_i hthree
    obtain ⟨low, high, hlead, hlow, hhigh⟩ := lead_four (by omega) (by omega : v < 0x110000)
    simp only [List.cons_append, List.nil_append]
    rw [decodeFrom_opens hlead, decodeFrom_continues (by omega) hlow hhigh]
    rw [decodeFrom_continues (by omega) (by omega) (by omega)]
    rw [decodeFrom_completes (by omega) (by omega) (by omega)]
    have hsum : ((v / 262144 * 64 + v / 4096 % 64) * 64 + v / 64 % 64) * 64 + v % 64 = v := by
      omega
    rw [hsum]

/-- Encoded text reads as the text, with no stray stretch in it. -/
theorem decode_encode (cs : List Char) : decode (encode cs) = cs.map some := by
  induction cs with
  | nil => rfl
  | cons c cs ih =>
    have hcons : encode (c :: cs) = String.utf8EncodeChar c ++ encode cs := List.flatMap_cons
    rw [hcons, decode, decodeFrom_encodeChar, List.map_cons]
    exact congrArg (some c :: ·) ih

/-! ## Text that is cut off -/

/-- A byte that completes nothing leaves a character pending. -/
theorem exists_pending_of_step {pending : Option Pending} {byte : UInt8}
    (h : (step pending byte).1 = []) : ∃ p, (step pending byte).2 = some p := by
  have henter : (enter byte).1 = [] → ∃ p, (enter byte).2 = some p := by
    unfold enter
    cases lead byte with
    | single | stray => intro h; cases h
    | opens p => exact fun _ => ⟨p, rfl⟩
  cases pending with
  | none => exact henter h
  | some p =>
    simp only [step] at h ⊢
    split at h
    · rename_i hrange
      rw [if_pos hrange]
      split at h
      · cases h
      · cases h
      · exact ⟨_, rfl⟩
    · cases h

/-- Every byte becomes part of a character or of a stray stretch. -/
theorem eq_nil_of_decodeFrom {pending : Option Pending} {bytes : List UInt8}
    (h : decodeFrom pending bytes = []) : pending = none ∧ bytes = [] := by
  induction bytes generalizing pending with
  | nil =>
    cases pending with
    | none => exact ⟨rfl, rfl⟩
    | some p => cases h
  | cons byte bytes ih =>
    rw [decodeFrom_cons] at h
    obtain ⟨hstep, hrest⟩ := List.append_eq_nil_iff.mp h
    obtain ⟨p, hp⟩ := exists_pending_of_step hstep
    rw [(ih hrest).1] at hp
    cases hp

/-- What some bytes mean depends on those before them only through what is pending. -/
theorem exists_decodeFrom_append (pending : Option Pending) (bytes : List UInt8) :
    ∃ symbols after, ∀ more,
      decodeFrom pending (bytes ++ more) = symbols ++ decodeFrom after more := by
  induction bytes generalizing pending with
  | nil => exact ⟨[], pending, fun _ => rfl⟩
  | cons byte bytes ih =>
    obtain ⟨symbols, after, h⟩ := ih (step pending byte).2
    refine ⟨(step pending byte).1 ++ symbols, after, fun more => ?_⟩
    rw [List.cons_append, decodeFrom_cons, h, List.append_assoc]

/-- Encoded text of which the end is missing reads as a beginning of the text, which is
followed by a stray stretch or else is not the whole text. -/
theorem decode_cut {bytes more : List UInt8} {cs : List Char} (h : bytes ++ more = encode cs)
    (hmore : more ≠ []) :
    ∃ kept lost, cs = kept ++ lost ∧
      (decode bytes = kept.map some ++ [none] ∨ decode bytes = kept.map some ∧ lost ≠ []) := by
  obtain ⟨symbols, after, hsplit⟩ := exists_decodeFrom_append none bytes
  have hall : cs.map some = symbols ++ decodeFrom after more := by
    rw [← hsplit more, h]
    exact (decode_encode cs).symm
  have hcut : decode bytes = symbols ++ decodeFrom after [] := by
    rw [← hsplit [], List.append_nil, decode]
  obtain ⟨kept, lost, hcs, hkept, hlost⟩ := List.map_eq_append_iff.mp hall
  refine ⟨kept, lost, hcs, ?_⟩
  rw [hcut, ← hkept]
  cases after with
  | some p => exact .inl rfl
  | none =>
    refine .inr ⟨List.append_nil _, ?_⟩
    rintro rfl
    exact hmore (eq_nil_of_decodeFrom hlost.symm).2

end Recompile.Utf8
