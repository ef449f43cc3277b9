import Interpolate.Text.Utf8

/-!
# Writing UTF-8

What is written as UTF-8 is read back as it was.

* **`encode`** — the octets of a text;
* **`lead?_two`**, **`lead?_three`**, **`lead?_four`** — what the first octet of a character announces;
* **`scan_utf8EncodeChar`**, **`decode?_encode`** — reading back one character, and a whole text.
-/

namespace Interpolate

namespace Text

/-- The octets of a text. -/
def encode (text : List Char) : List UInt8 :=
  text.flatMap String.utf8EncodeChar

@[simp] theorem encode_nil : encode [] = [] := rfl

@[simp] theorem encode_cons (c : Char) (text : List Char) :
    encode (c :: text) = String.utf8EncodeChar c ++ encode text :=
  List.flatMap_cons

@[simp] theorem encode_append (text more : List Char) : encode (text ++ more) = encode text ++ encode more :=
  List.flatMap_append

/-! ## Reading octets -/

theorem toNat_octet {n : Nat} (h : n < 256) : (UInt8.ofNat n).toNat = n := by
  rw [UInt8.toNat_ofNat', Nat.mod_eq_of_lt h]

/-- An octet is the number of a character, which may be no ASCII. -/
theorem toNat_ofNat_octet (octet : UInt8) : (Char.ofNat octet.toNat).toNat = octet.toNat := by
  have hvalid : octet.toNat.isValidChar := .inl (Nat.lt_trans octet.toNat_lt (by decide))
  rw [Char.ofNat, dif_pos hvalid]
  rfl

/-- What starts with a leading octet goes on with the octets that it announces. -/
theorem scan_cons {octet : UInt8} {more bits low high : Nat} (h : lead? octet.toNat = some ⟨more, bits, low, high⟩)
    (bytes : List UInt8) : scan (octet :: bytes) =
      (follow more bits low high bytes).1.map Char.ofNat :: scan (follow more bits low high bytes).2 := by
  rw [scan, h]

theorem scan_lead {n more bits low high : Nat} (h : n < 256) (hlead : lead? n = some ⟨more, bits, low, high⟩)
    (bytes : List UInt8) : scan (UInt8.ofNat n :: bytes) =
      (follow more bits low high bytes).1.map Char.ofNat :: scan (follow more bits low high bytes).2 :=
  scan_cons ((congrArg lead? (toNat_octet h)).trans hlead) bytes

/-- One more octet, which adds six bits. -/
theorem follow_octet {n low high : Nat} (h : n < 256) (hlow : low ≤ n) (hhigh : n ≤ high) (more bits : Nat)
    (bytes : List UInt8) : follow (more + 1) bits low high (UInt8.ofNat n :: bytes) =
      follow more (bits * 64 + (n - 0x80)) 0x80 0xBF bytes := by
  rw [follow, toNat_octet h, if_pos ⟨hlow, hhigh⟩]

theorem follow_zero (bits low high : Nat) (bytes : List UInt8) : follow 0 bits low high bytes = (some bits, bytes) := rfl

theorem lead?_one {n : Nat} (h : n < 0x80) : lead? n = some ⟨0, n, 0x80, 0xBF⟩ := by
  rw [lead?, if_pos h]

theorem lead?_two {n : Nat} (low : 0xC2 ≤ n) (high : n < 0xE0) : lead? n = some ⟨1, n - 0xC0, 0x80, 0xBF⟩ := by
  rw [lead?, if_neg (by omega), if_neg (by omega), if_pos high]

/-- The first of three octets. Its bounds on the second rule out code points below U+0800 and surrogates. -/
theorem lead?_three {n : Nat} (low : 0xE0 ≤ n) (high : n < 0xF0) : lead? n =
    some ⟨2, n - 0xE0, if n = 0xE0 then 0xA0 else 0x80, if n = 0xED then 0x9F else 0xBF⟩ := by
  rcases Decidable.em (n = 0xE0) with rfl | hleast
  · rfl
  · rcases Decidable.em (n = 0xED) with rfl | hsurrogate
    · rfl
    · rw [lead?, if_neg (by omega), if_neg (by omega), if_neg (by omega), if_neg hleast, if_neg hsurrogate, if_pos high,
        if_neg hleast, if_neg hsurrogate]

/-- The first of four octets. Its bounds on the second rule out code points below U+10000 and above U+10FFFF. -/
theorem lead?_four {n : Nat} (low : 0xF0 ≤ n) (high : n ≤ 0xF4) : lead? n =
    some ⟨3, n - 0xF0, if n = 0xF0 then 0x90 else 0x80, if n = 0xF4 then 0x8F else 0xBF⟩ := by
  rcases Decidable.em (n = 0xF0) with rfl | hleast
  · rfl
  · rcases Decidable.em (n = 0xF4) with rfl | hgreatest
    · rfl
    · rw [lead?, if_neg (by omega), if_neg (by omega), if_neg (by omega), if_neg (by omega), if_neg (by omega),
        if_neg (by omega), if_neg hleast, if_pos (by omega), if_neg hleast, if_neg hgreatest]

/-! ## Reading back -/

section Character

variable {c : Char}

/-- Code points of characters are no surrogates. -/
theorem toNat_lt_or (c : Char) : c.toNat < 0xD800 ∨ 0xDFFF < c.toNat ∧ c.toNat < 0x110000 :=
  c.valid

theorem utf8EncodeChar_one (h : c.toNat < 0x80) : String.utf8EncodeChar c = [UInt8.ofNat c.toNat] := by
  have hle : c.toNat ≤ 0x7F := Nat.le_of_lt_succ h
  rw [String.utf8EncodeChar.eq_def]
  simp only [Char.toNat_val, hle, if_true]

theorem scan_one (h : c.toNat < 0x80) (bytes : List UInt8) :
    scan (String.utf8EncodeChar c ++ bytes) = some c :: scan bytes := by
  rw [utf8EncodeChar_one h, List.singleton_append, scan_lead (by omega) (lead?_one h), follow_zero]
  simp only [Option.map_some, Char.ofNat_toNat]

theorem scan_two (low : 0x80 ≤ c.toNat) (high : c.toNat < 0x800) (bytes : List UInt8) :
    scan (String.utf8EncodeChar c ++ bytes) = some c :: scan bytes := by
  have hencode : String.utf8EncodeChar c = [UInt8.ofNat (c.toNat / 64 % 32 + 192), UInt8.ofNat (c.toNat % 64 + 128)] := by
    rw [String.utf8EncodeChar.eq_def]
    simp only [Char.toNat_val, show ¬ c.toNat ≤ 127 by omega, show c.toNat ≤ 2047 by omega, if_true, if_false]
  have hvalue : (c.toNat / 64 % 32 + 192 - 0xC0) * 64 + (c.toNat % 64 + 128 - 0x80) = c.toNat := by omega
  rw [hencode, List.cons_append, List.singleton_append, scan_lead (by omega) (lead?_two (by omega) (by omega)),
    follow_octet (by omega) (by omega) (by omega), follow_zero, hvalue]
  simp only [Option.map_some, Char.ofNat_toNat]

theorem scan_three (low : 0x800 ≤ c.toNat) (high : c.toNat < 0x10000) (bytes : List UInt8) :
    scan (String.utf8EncodeChar c ++ bytes) = some c :: scan bytes := by
  have hencode : String.utf8EncodeChar c = [UInt8.ofNat (c.toNat / 4096 % 16 + 224),
      UInt8.ofNat (c.toNat / 64 % 64 + 128), UInt8.ofNat (c.toNat % 64 + 128)] := by
    rw [String.utf8EncodeChar.eq_def]
    simp only [Char.toNat_val, show ¬ c.toNat ≤ 127 by omega, show ¬ c.toNat ≤ 2047 by omega,
      show c.toNat ≤ 65535 by omega, if_true, if_false]
  have hvalid := toNat_lt_or c
  have hvalue : ((c.toNat / 4096 % 16 + 224 - 0xE0) * 64 + (c.toNat / 64 % 64 + 128 - 0x80)) * 64 +
      (c.toNat % 64 + 128 - 0x80) = c.toNat := by omega
  rw [hencode, List.cons_append, List.cons_append, List.singleton_append,
    scan_lead (by omega) (lead?_three (by omega) (by omega)),
    follow_octet (by omega) (by split <;> omega) (by split <;> omega),
    follow_octet (by omega) (by omega) (by omega), follow_zero, hvalue]
  simp only [Option.map_some, Char.ofNat_toNat]

theorem scan_four (low : 0x10000 ≤ c.toNat) (bytes : List UInt8) :
    scan (String.utf8EncodeChar c ++ bytes) = some c :: scan bytes := by
  have hencode : String.utf8EncodeChar c = [UInt8.ofNat (c.toNat / 262144 % 8 + 240),
      UInt8.ofNat (c.toNat / 4096 % 64 + 128), UInt8.ofNat (c.toNat / 64 % 64 + 128),
      UInt8.ofNat (c.toNat % 64 + 128)] := by
    rw [String.utf8EncodeChar.eq_def]
    simp only [Char.toNat_val, show ¬ c.toNat ≤ 127 by omega, show ¬ c.toNat ≤ 2047 by omega,
      show ¬ c.toNat ≤ 65535 by omega, if_false]
  have hvalid := toNat_lt_or c
  have hvalue : (((c.toNat / 262144 % 8 + 240 - 0xF0) * 64 + (c.toNat / 4096 % 64 + 128 - 0x80)) * 64 +
      (c.toNat / 64 % 64 + 128 - 0x80)) * 64 + (c.toNat % 64 + 128 - 0x80) = c.toNat := by omega
  rw [hencode, List.cons_append, List.cons_append, List.cons_append, List.singleton_append,
    scan_lead (by omega) (lead?_four (by omega) (by omega)),
    follow_octet (by omega) (by split <;> omega) (by split <;> omega),
    follow_octet (by omega) (by omega) (by omega), follow_octet (by omega) (by omega) (by omega), follow_zero, hvalue]
  simp only [Option.map_some, Char.ofNat_toNat]

/-- A character is read back. -/
theorem scan_utf8EncodeChar (c : Char) (bytes : List UInt8) :
    scan (String.utf8EncodeChar c ++ bytes) = some c :: scan bytes := by
  rcases Nat.lt_or_ge c.toNat 0x80 with hone | hmore
  · exact scan_one hone bytes
  rcases Nat.lt_or_ge c.toNat 0x800 with htwo | hmore
  · exact scan_two hmore htwo bytes
  rcases Nat.lt_or_ge c.toNat 0x10000 with hthree | hfour
  · exact scan_three hmore hthree bytes
  · exact scan_four hfour bytes

/-- The first octet of any other character is no ASCII. -/
theorem exists_utf8EncodeChar_eq_cons (h : 0x80 ≤ c.toNat) :
    ∃ octet more, String.utf8EncodeChar c = octet :: more ∧ 0x80 ≤ octet.toNat := by
  cases hencode : String.utf8EncodeChar c with
  | nil => exact absurd hencode String.utf8EncodeChar_ne_nil
  | cons octet more =>
    refine ⟨octet, more, rfl, Nat.le_of_not_lt fun hlt => ?_⟩
    have hscan := scan_utf8EncodeChar c []
    rw [hencode, List.cons_append, scan_cons (lead?_one hlt)] at hscan
    have hc : Char.ofNat octet.toNat = c := Option.some.inj (List.cons.inj hscan).1
    rw [← hc, toNat_ofNat_octet] at h
    exact Nat.not_lt.mpr h hlt

end Character

theorem length_encode_of_lt {text : List Char} (h : ∀ c ∈ text, c.toNat < 0x80) :
    (encode text).length = text.length := by
  induction text with
  | nil => rfl
  | cons c text ih =>
    obtain ⟨hc, htext⟩ := List.forall_mem_cons.mp h
    rw [encode_cons, utf8EncodeChar_one hc, List.singleton_append, List.length_cons, ih htext, List.length_cons]

theorem scan_encode (text : List Char) : scan (encode text) = text.map some := by
  induction text with
  | nil => rw [encode_nil, scan, List.map_nil]
  | cons c text ih => rw [encode_cons, scan_utf8EncodeChar, ih, List.map_cons]

/-- **What is written is read back.** -/
theorem decode?_encode (text : List Char) : decode? (encode text) = some (String.ofList text) := by
  have hall : (text.map some).mapM id = some text := by
    induction text with
    | nil => rfl
    | cons c text ih => rw [List.map_cons, List.mapM_cons, ih]; rfl
  rw [decode?, scan_encode, hall]
  rfl

end Text

end Interpolate
